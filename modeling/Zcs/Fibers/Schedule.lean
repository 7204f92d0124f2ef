import Zcs.Fibers.Refines

/-! # Schedules of segmented callbacks

The callbacks are programs of segments with a yield between any two of them, and
the main program is a schedule. Here the code on the running stack decides every
label. What a schedule comes to is first said without any of that: each resumption
runs the next segment of one callback.
-/
namespace Zcs.Fibers
variable {σ : Type}

/-- A callback: its last segment, or a segment, a yield, and the rest. -/
inductive Callback (σ : Type) where
  | done (x : σ)
  | yield (x : σ) (y : Yield) (rest : Callback σ)

inductive Op (σ : Type) where
  | newFiber (cb : Callback σ)
  | swapIn (f : ℕ)
  | reset (f : ℕ) (cb : Callback σ)

/-- The continuations: the rest of a schedule, a callback before a segment, and a
callback behind one. -/
inductive Code (σ : Type) where
  | main (ops : List (Op σ))
  | callback (cb : Callback σ)
  | yielding (y : Yield) (rest : Callback σ)
  | returning

/-- The next label of a continuation; only a schedule can be through. -/
def Code.label : Code σ → Option (Act (Code σ) σ)
  | main [] => none
  | main (.newFiber cb :: ops) => some (.newFiber (callback cb) 0 (main ops))
  | main (.swapIn f :: ops) => some (.swapIn f (main ops))
  | main (.reset f cb :: ops) => some (.reset f (callback cb) (main ops))
  | callback (.done x) => some (.segment x returning)
  | callback (.yield x y rest) => some (.segment x (yielding y rest))
  | yielding y rest => some (.yieldTo y (callback rest))
  | returning => some .callbackReturns

namespace Callback

def segments : Callback σ → List σ
  | done x => [x]
  | yield x _ rest => x :: rest.segments

def after : ℕ → Callback σ → Option (Callback σ)
  | 0, cb => some cb
  | _ + 1, done _ => none
  | n + 1, yield _ _ rest => rest.after n

def first : Callback σ → σ
  | done x => x
  | yield x _ _ => x

def tail : Callback σ → Option (Yield × Callback σ)
  | done _ => none
  | yield _ y rest => some (y,rest)

theorem getElem?_segments (cb : Callback σ) (n : ℕ) : cb.segments[n]? = (cb.after n).map first := by
  induction cb generalizing n with
  | done x => cases n <;> simp [segments,after,first]
  | yield x y rest ih =>
    cases n with
    | zero => simp [segments,after,first]
    | succ n => simpa [segments,after] using ih n

theorem after_succ (cb : Callback σ) (n : ℕ) :
    cb.after (n + 1) = (cb.after n).bind fun r => r.tail.map Prod.snd := by
  induction cb generalizing n with
  | done x => cases n <;> simp [after,tail]
  | yield x y rest ih =>
    cases n with
    | zero => simp [after,tail]
    | succ n => simpa [after] using ih n

end Callback

/-- A fiber as its owner sees it: the segments run by callbacks before the present
one, the present one, and how many segments of it have been run. -/
structure Incarnation (σ : Type) where
  earlier : List σ
  cb : Callback σ
  taken : ℕ

namespace Incarnation

def executed (i : Incarnation σ) : List σ := i.earlier ++ i.cb.segments.take i.taken

def nextSegment (i : Incarnation σ) : Option σ := i.cb.segments[i.taken]?

def advance (i : Incarnation σ) : Incarnation σ := { i with taken := i.taken + 1 }

end Incarnation

/-- What a schedule has come to: the fibers, and which segment ran on which. -/
structure Plan (σ : Type) where
  fibers : Heap (Incarnation σ)
  events : List (ℕ × σ)

namespace Plan

/-- A fiber that has not ended may be resumed, and one that has not started or has
ended may be reset. -/
def step (p : Plan σ) : Op σ → Option (Plan σ)
  | .newFiber cb => some { p with fibers := p.fibers.alloc ⟨[],cb,0⟩ }
  | .swapIn f =>
    match p.fibers.get f with
    | none => none
    | some i => i.nextSegment.map fun x =>
      ⟨p.fibers.modify f .advance,p.events ++ [(f,x)]⟩
  | .reset f cb =>
    match p.fibers.get f with
    | none => none
    | some i =>
      if i.taken = 0 ∨ i.nextSegment.isNone then
        some { p with fibers := p.fibers.modify f fun i => ⟨i.executed,cb,0⟩ }
      else none

/-- No fiber but the main one, which has the address 0. -/
def start : Plan σ := ⟨.emptyFrom 1,[]⟩

def ranOn (f : ℕ) (events : List (ℕ × σ)) : List σ :=
  events.filterMap fun e => if e.1 = f then some e.2 else none

/-- The events belong to fibers, and each fiber's are what has been executed on it. -/
structure Ok (p : Plan σ) : Prop where
  known : ∀ e ∈ p.events, e.1 < p.fibers.next
  executed : ∀ f i, p.fibers.get f = some i → ranOn f p.events = i.executed

theorem swapIn_cases {p q : Plan σ} {f : ℕ} (hq : p.step (.swapIn f) = some q) :
    ∃ i x, p.fibers.get f = some i ∧ i.nextSegment = some x ∧
      q = ⟨p.fibers.modify f .advance,p.events ++ [(f,x)]⟩ := by
  simp only [step] at hq
  cases hf : p.fibers.get f with
  | none => simp [hf] at hq
  | some i =>
    simp only [hf] at hq
    obtain ⟨x,hx,rfl⟩ := Option.map_eq_some_iff.mp hq
    exact ⟨i,x,rfl,hx,rfl⟩

theorem reset_cases {p q : Plan σ} {f : ℕ} {cb : Callback σ} (hq : p.step (.reset f cb) = some q) :
    ∃ i, p.fibers.get f = some i ∧ (i.taken = 0 ∨ i.nextSegment.isNone = true) ∧
      q = { p with fibers := p.fibers.modify f fun i => ⟨i.executed,cb,0⟩ } := by
  simp only [step] at hq
  cases hf : p.fibers.get f with
  | none => simp [hf] at hq
  | some i =>
    simp only [hf] at hq
    split_ifs at hq with hi
    exact ⟨i,rfl,hi,(Option.some.inj hq).symm⟩

theorem ok_step {p q : Plan σ} {op : Op σ} (h : p.Ok) (hq : p.step op = some q) : q.Ok := by
  cases op with
  | newFiber cb =>
    obtain rfl := Option.some.inj hq
    refine ⟨fun e he => ?_,fun f i hi => ?_⟩
    · exact Nat.lt_succ_of_lt (h.known e he)
    · rcases Heap.get_alloc_eq_some_iff.mp hi with ⟨hf,rfl⟩ | hi
      · -- nothing ran at an address that was not given out
        have hn : ranOn f p.events = [] := by
          refine List.filterMap_eq_nil_iff.mpr fun e he => if_neg ?_
          have hlt := h.known e he
          omega
        exact hn
      · exact h.executed f i hi
  | swapIn f =>
    obtain ⟨i,x,hf,hx,rfl⟩ := swapIn_cases hq
    refine ⟨fun e he => ?_,fun g j hj => ?_⟩
    · rcases List.mem_append.mp he with he | he
      · exact h.known e he
      · obtain rfl := List.mem_singleton.mp he
        have hlt : f < p.fibers.next := Heap.lt_next hf
        exact hlt
    · have hran : ranOn g (p.events ++ [(f,x)]) = ranOn g p.events ++ if f = g then [x] else [] := by
        rw [ranOn,List.filterMap_append]
        by_cases hfg : f = g <;> simp [hfg,ranOn]
      simp only [hran]
      rcases Heap.get_modify_eq_some_iff.mp hj with ⟨rfl,i',hi',rfl⟩ | ⟨hgf,hj⟩
      · obtain rfl := Option.some.inj (hf.symm.trans hi')
        have hsegment : i.cb.segments[i.taken]? = some x := hx
        simp [Incarnation.executed,Incarnation.advance,List.take_add_one,hsegment,h.executed g i hf]
      · simpa [Ne.symm hgf] using h.executed g j hj
  | reset f cb =>
    obtain ⟨i,hf,_,rfl⟩ := reset_cases hq
    refine ⟨h.known,fun g j hj => ?_⟩
    rcases Heap.get_modify_eq_some_iff.mp hj with ⟨rfl,i',hi',rfl⟩ | ⟨_,hj⟩
    · simpa [Incarnation.executed] using h.executed g i' hi'
    · exact h.executed g j hj

theorem ok_start : (start : Plan σ).Ok := ⟨fun e he => (by cases he),fun f i hf => (by cases hf)⟩

end Plan

/-- The phase of a fiber while the main program runs. -/
def Incarnation.InPhase (i : Incarnation σ) (p : Phase (Code σ)) : Prop :=
  match i.cb.after i.taken with
  | none => p = .ended .returned
  | some rest => (i.taken = 0 ∧ p = .fresh (.callback rest)) ∨
    (0 < i.taken ∧ ∃ y, p = .suspended y (.callback rest))

/-- Between two operations of the schedule. -/
structure Tracks (p : Plan σ) (ops : List (Op σ)) (c : Coroutines (Code σ) σ) : Prop where
  control : c.control = .main (.main ops)
  trace : c.trace = p.events.map fun e => (some e.1,e.2)
  next : c.phases.next = p.fibers.next
  fiber : ∀ f i, p.fibers.get f = some i → ∃ ph, c.phases.get f = some ph ∧ i.InPhase ph

def Coroutines.Driven (c : Coroutines (Code σ) σ) (a : Act (Code σ) σ) : Prop :=
  c.control.code.label = some a

namespace Tracks
variable {p q : Plan σ} {ops : List (Op σ)} {c : Coroutines (Code σ) σ}

theorem newFiber {cb : Callback σ} (h : Tracks p (.newFiber cb :: ops) c) :
    ∃ acts d, Runs Coroutines.step Coroutines.Driven c acts d ∧
      Tracks { p with fibers := p.fibers.alloc ⟨[],cb,0⟩ } ops d := by
  have hd : c.Driven (.newFiber (.callback cb) 0 (.main ops)) := by
    rw [Coroutines.Driven,h.control]
    rfl
  refine ⟨_,_,.single hd rfl,?_,h.trace,?_,fun f i hi => ?_⟩
  · simp [Coroutines.goOn,h.control,Control.goOn]
  · simp [Coroutines.goOn,h.next]
  · change ∃ ph, (c.phases.alloc _).get f = some ph ∧ _
    rw [Heap.get_alloc] at hi ⊢
    rw [h.next]
    split_ifs at hi ⊢ with hf
    · obtain rfl := Option.some.inj hi
      exact ⟨_,rfl,.inl ⟨rfl,rfl⟩⟩
    · exact h.fiber f i hi

theorem fiber_modify (h : Tracks p ops c) {f : ℕ} {i : Incarnation σ} (hf : p.fibers.get f = some i)
    {g : Incarnation σ → Incarnation σ} {phases : Heap (Phase (Code σ))} {ph : Phase (Code σ)}
    (hph : phases.get f = some ph) (hne : ∀ j, j ≠ f → phases.get j = c.phases.get j)
    (hi : (g i).InPhase ph) {j : ℕ} {k : Incarnation σ} (hk : (p.fibers.modify f g).get j = some k) :
    ∃ ph, phases.get j = some ph ∧ k.InPhase ph := by
  rcases Heap.get_modify_eq_some_iff.mp hk with ⟨rfl,i',hi',rfl⟩ | ⟨hjf,hk⟩
  · obtain rfl := Option.some.inj (hf.symm.trans hi')
    exact ⟨ph,hph,hi⟩
  · rw [hne j hjf]
    exact h.fiber j k hk

theorem reset {f : ℕ} {cb : Callback σ} {i : Incarnation σ} (h : Tracks p (.reset f cb :: ops) c)
    (hf : p.fibers.get f = some i) (hi : i.taken = 0 ∨ i.nextSegment.isNone = true) :
    ∃ acts d, Runs Coroutines.step Coroutines.Driven c acts d ∧
      Tracks { p with fibers := p.fibers.modify f fun i => ⟨i.executed,cb,0⟩ } ops d := by
  obtain ⟨ph,hph,hin⟩ := h.fiber f i hf
  have hidle : ph.idle = true := by
    unfold Incarnation.InPhase at hin
    rcases hi with hi | hi
    · rw [hi,Callback.after] at hin
      rcases hin with ⟨_,rfl⟩ | ⟨hpos,_⟩
      · rfl
      · omega
    · rw [Incarnation.nextSegment,Callback.getElem?_segments,Option.isNone_map,Option.isNone_iff_eq_none] at hi
      rw [hi] at hin
      rw [hin]
      rfl
  have hd : c.Driven (.reset f (.callback cb) (.main ops)) := by
    rw [Coroutines.Driven,h.control]
    rfl
  have hstep : c.step (.reset f (.callback cb) (.main ops)) =
      some ((c.setPhase f (.fresh (.callback cb))).goOn (.main ops)) := by
    simp only [Coroutines.step,hph,hidle,↓reduceIte]
  refine ⟨_,_,.single hd hstep,?_,h.trace,h.next,fun j k hk => ?_⟩
  · simp [Coroutines.goOn,Coroutines.setPhase,h.control,Control.goOn]
  · have hfresh : (⟨i.executed,cb,0⟩ : Incarnation σ).InPhase (.fresh (.callback cb)) := .inl ⟨rfl,rfl⟩
    refine h.fiber_modify hf ?_ (fun j hj => ?_) hfresh hk
    · change (c.phases.modify f _).get f = _
      rw [Heap.get_modify_self,hph]
      rfl
    · exact Heap.get_modify_ne _ _ hj

/-- One resumption: the next segment runs, and the main program goes on. -/
theorem swapIn {f : ℕ} {i : Incarnation σ} {x : σ} (h : Tracks p (.swapIn f :: ops) c)
    (hf : p.fibers.get f = some i) (hx : i.nextSegment = some x) :
    ∃ k b d, Runs Coroutines.step Coroutines.Driven c [.swapIn f (.main ops),.segment x k,b] d ∧
      Tracks ⟨p.fibers.modify f .advance,p.events ++ [(f,x)]⟩ ops d := by
  obtain ⟨ph,hph,hin⟩ := h.fiber f i hf
  rw [Incarnation.nextSegment,Callback.getElem?_segments] at hx
  obtain ⟨rest,hrest,rfl⟩ := Option.map_eq_some_iff.mp hx
  have hcode : ph = .fresh (.callback rest) ∨ ∃ y, ph = .suspended y (.callback rest) := by
    unfold Incarnation.InPhase at hin
    rw [hrest] at hin
    rcases hin with ⟨_,h⟩ | ⟨_,h⟩
    · exact .inl h
    · exact .inr h
  -- into the callback
  have hd₁ : c.Driven (.swapIn f (.main ops)) := by
    rw [Coroutines.Driven,h.control]
    rfl
  let c₁ := c.enter f (.callback rest) (.main ops)
  have h₁ : c.step (.swapIn f (.main ops)) = some c₁ := by
    rcases hcode with rfl | ⟨y,rfl⟩ <;> simp only [Coroutines.step,h.control,hph,c₁]
  -- its segment, and out again in the phase that the rest of the callback calls for
  have hrun : ∃ k b d ph, Runs Coroutines.step Coroutines.Driven c₁ [.segment rest.first k,b] d ∧
      d.control = .main (.main ops) ∧ d.trace = c.trace ++ [(some f,rest.first)] ∧
      d.phases = (c.phases.modify f fun _ => .running).modify f (fun _ => ph) ∧ i.advance.InPhase ph := by
    have hafter : i.advance.cb.after i.advance.taken = rest.tail.map Prod.snd := by
      rw [Incarnation.advance,Callback.after_succ,hrest,Option.bind_some]
    cases rest with
    | done x =>
      let c₂ : Coroutines (Code σ) σ := { c₁ with trace := c.trace ++ [(some f,x)] }.goOn .returning
      have hd₂ : c₁.Driven (.segment x .returning) := rfl
      have hd₃ : c₂.Driven .callbackReturns := rfl
      have h₂ : c₁.step (.segment x .returning) = some c₂ := rfl
      refine ⟨_,_,_,.ended .returned,.step hd₂ h₂ (.single hd₃ rfl),rfl,rfl,rfl,?_⟩
      rw [Incarnation.InPhase,hafter]
      rfl
    | yield x y rest =>
      let c₂ : Coroutines (Code σ) σ := { c₁ with trace := c.trace ++ [(some f,x)] }.goOn (.yielding y rest)
      have hd₂ : c₁.Driven (.segment x (.yielding y rest)) := rfl
      have hd₃ : c₂.Driven (.yieldTo y (.callback rest)) := rfl
      have h₂ : c₁.step (.segment x (.yielding y rest)) = some c₂ := rfl
      refine ⟨_,_,_,.suspended y (.callback rest),.step hd₂ h₂ (.single hd₃ rfl),rfl,rfl,rfl,?_⟩
      rw [Incarnation.InPhase,hafter]
      exact .inr ⟨Nat.succ_pos _,y,rfl⟩
  obtain ⟨k,b,d,ph',hacts,hcontrol,htrace,hphases,hin'⟩ := hrun
  refine ⟨k,b,d,.step hd₁ h₁ hacts,hcontrol,?_,?_,fun j k hk => ?_⟩
  · simp [htrace,h.trace]
  · rw [hphases]
    exact h.next
  · refine h.fiber_modify hf ?_ (fun j hj => ?_) hin' hk
    · rw [hphases,Heap.get_modify_self,Heap.get_modify_self,hph]
      rfl
    · rw [hphases,Heap.get_modify_ne _ _ hj,Heap.get_modify_ne _ _ hj]

theorem op {o : Op σ} (h : Tracks p (o :: ops) c) (hq : p.step o = some q) :
    ∃ acts d, Runs Coroutines.step Coroutines.Driven c acts d ∧ Tracks q ops d := by
  cases o with
  | newFiber cb =>
    obtain rfl := Option.some.inj hq
    exact h.newFiber
  | swapIn f =>
    obtain ⟨i,x,hf,hx,rfl⟩ := Plan.swapIn_cases hq
    obtain ⟨k,b,d,hd,hT⟩ := h.swapIn hf hx
    exact ⟨_,d,hd,hT⟩
  | reset f cb =>
    obtain ⟨i,hf,hi,rfl⟩ := Plan.reset_cases hq
    exact h.reset hf hi

theorem run {pre post : List (Op σ)} (hp : Runs Plan.step (fun _ _ => True) p pre q)
    (h : Tracks p (pre ++ post) c) :
    ∃ acts d, Runs Coroutines.step Coroutines.Driven c acts d ∧ Tracks q post d := by
  induction hp generalizing c with
  | refl => exact ⟨[],c,.refl c,h⟩
  | step _ hq _ ih =>
    obtain ⟨acts,d,hd,hT⟩ := h.op hq
    obtain ⟨acts',e,he,hT'⟩ := ih hT
    exact ⟨acts ++ acts',e,hd.trans he,hT'⟩

theorem start (ops : List (Op σ)) : Tracks .start ops (.start (.main ops)) :=
  ⟨rfl,rfl,rfl,fun f i hf => by cases hf⟩

end Tracks

def Thread.Driven (s : Thread (Code σ) σ) (a : Act (Code σ) σ) : Prop := s.frame.code.label = some a

theorem Refines.driven {m : ℕ} {s : Thread (Code σ) σ} {c d : Coroutines (Code σ) σ} {acts : List (Act (Code σ) σ)}
    (h : Refines m s c) (hd : Runs Coroutines.step Coroutines.Driven c acts d) :
    ∃ t, Runs Thread.next Thread.Driven s acts t ∧ Refines m t d :=
  hd.simulate (fun hR ha hs => ⟨by rwa [Thread.Driven,hR.code_eq],hR.next hs⟩) h

namespace Thread

def ranOn (s : Thread (Code σ) σ) (f : ℕ) : List σ :=
  s.trace.filterMap fun e => if e.1 = .own f then some e.2 else none

/-- The main program is between two operations of its schedule. -/
def BackAt (s : Thread (Code σ) σ) (ops : List (Op σ)) : Prop :=
  s.stack = .thread ∧ s.frame = ⟨none,.main ops⟩

/-- The next resumption of a fiber takes it through one segment, and is over then. -/
def Resumes (s : Thread (Code σ) σ) (f : ℕ) (x : σ) (ops : List (Op σ)) : Prop :=
  ∃ k b t, Runs next Driven s [.swapIn f (.main ops),.segment x k,b] t ∧ t.BackAt ops ∧
    t.trace = s.trace ++ [(.own f,x)]

end Thread

structure Incarnation.IsFiber (i : Incarnation σ) (x : Fiber (Code σ)) : Prop where
  init : x.state = .init ↔ i.taken = 0
  term : x.state = .term ↔ i.nextSegment = none

theorem Incarnation.InPhase.isFiber {i : Incarnation σ} {f : ℕ} {p : Phase (Code σ)} {x : Fiber (Code σ)}
    (h : i.InPhase p) (hx : IsChild f p x) : i.IsFiber x := by
  have hs := hx.state
  unfold Incarnation.InPhase at h
  cases ha : i.cb.after i.taken with
  | none =>
    rw [ha] at h
    subst h
    have hne : i.taken ≠ 0 := fun h0 => by rw [h0,Callback.after] at ha; cases ha
    constructor
    · simp [hs,Phase.state,hne]
    · simp [hs,Phase.state,Incarnation.nextSegment,Callback.getElem?_segments,ha]
  | some rest =>
    rw [ha] at h
    have hnext : i.nextSegment = some rest.first := by
      rw [Incarnation.nextSegment,Callback.getElem?_segments,ha,Option.map_some]
    rcases h with ⟨h0,rfl⟩ | ⟨hpos,y,rfl⟩
    · exact ⟨by simp [hs,Phase.state,h0],by simp [hs,Phase.state,hnext]⟩
    · constructor
      · cases y <;> simp [hs,Phase.state,Yield.state,Nat.pos_iff_ne_zero.mp hpos]
      · cases y <;> simp [hs,Phase.state,Yield.state,hnext]

theorem ranOn_eq {p : Plan σ} {s : Thread (Code σ) σ} (h : s.trace = p.events.map fun e => (.own e.1,e.2))
    (f : ℕ) : s.ranOn f = Plan.ranOn f p.events := by
  rw [Thread.ranOn,h,List.filterMap_map,Plan.ranOn]
  congr 1
  funext e
  simp only [Function.comp_apply,Stack.own.injEq]

/-- Every schedule comes to what its plan says: the program gets to the end of it, no
assertion fails, and on each fiber its callbacks' segments ran, in order. If a
resumption comes next, it runs the next segment. -/
theorem schedule_refines (stacksizeConfig : ℕ) {pre : List (Op σ)} {p : Plan σ}
    (h : Runs Plan.step (fun _ _ => True) .start pre p) (post : List (Op σ)) :
    ∃ acts s, Runs Thread.next Thread.Driven (Thread.start stacksizeConfig (.main (pre ++ post))) acts s ∧
      s.BackAt post ∧ s.trace = p.events.map (fun e => (.own e.1,e.2)) ∧
      (∀ f i, p.fibers.get f = some i → s.ranOn f = i.executed ∧
        ∃ x, s.fibers.get f = some x ∧ i.IsFiber x) ∧
      ∀ f i x rest, post = .swapIn f :: rest → p.fibers.get f = some i → i.nextSegment = some x →
        s.Resumes f x rest := by
  obtain ⟨acts,c,hc,hT⟩ := Tracks.run h (.start _)
  obtain ⟨s,hs,hR⟩ := (Refines.start stacksizeConfig _).driven hc
  have hback : ∀ {t : Thread (Code σ) σ} {d : Coroutines (Code σ) σ} {q : Plan σ} {ops : List (Op σ)},
      Refines 0 t d → Tracks q ops d →
        t.BackAt ops ∧ t.trace = q.events.map fun e => (.own e.1,e.2) := by
    intro t d q ops hR hT
    have hat := hR.control
    rw [hT.control] at hat
    refine ⟨⟨hat.1,hat.2.1⟩,?_⟩
    rw [hR.trace,hT.trace,List.map_map]
    rfl
  obtain ⟨hmain,htrace⟩ := hback hR hT
  refine ⟨acts,s,hs,hmain,htrace,fun f i hf => ⟨?_,?_⟩,fun f i x rest hpost hf hx => ?_⟩
  · have hok : p.Ok := h.invariant (fun hp _ hq => Plan.ok_step hp hq) Plan.ok_start
    rw [ranOn_eq htrace,hok.executed f i hf]
  · obtain ⟨ph,hph,hin⟩ := hT.fiber f i hf
    obtain ⟨x,hx,hchild⟩ := hR.children.child f ph hph
    exact ⟨x,hx,hin.isFiber hchild⟩
  · subst hpost
    obtain ⟨k,b,d,hd,hT'⟩ := hT.swapIn hf hx
    obtain ⟨t,ht,hR'⟩ := hR.driven hd
    obtain ⟨hmain',htrace'⟩ := hback hR' hT'
    refine ⟨k,b,t,ht,hmain',?_⟩
    rw [htrace',htrace,List.map_append]
    rfl

/-- Fiber 2 is through and is given a second callback while fiber 1 is suspended. -/
def twoFibers : List (Op ℕ) :=
  [.newFiber (.yield 10 .hold (.done 11)),.newFiber (.done 20),.swapIn 1,.swapIn 2,.reset 2 (.done 21),
    .swapIn 2]

theorem schedule_twoFibers :
    ∃ acts s, Runs Thread.next Thread.Driven (Thread.start 1048576 (.main (twoFibers ++ [.swapIn 1]))) acts s ∧
      s.BackAt [.swapIn 1] ∧ s.ranOn 1 = [10] ∧ s.ranOn 2 = [20,21] ∧ s.Resumes 1 11 [] := by
  have h := Runs.of_exec Plan.step (fun _ _ => True) (Plan.start : Plan ℕ) twoFibers rfl
  obtain ⟨acts,s,hs,hmain,_,hran,hresumes⟩ := schedule_refines 1048576 h [.swapIn 1]
  exact ⟨acts,s,hs,hmain,(hran 1 _ rfl).1,(hran 2 _ rfl).1,hresumes 1 _ 11 [] rfl rfl rfl⟩

end Zcs.Fibers
