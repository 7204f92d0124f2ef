import Mathlib.Data.List.Sort
import Zcs.Config.ConfigVar
import Zcs.Foundation.Run

/-! # What listeners are told

Every listener notes what it is called with; the notes of all of them are kept in
the order of the calls. Between two states the variable takes some values one after
the other, and all listeners that stay registered are told exactly these.
-/
namespace Zcs.Config.Listeners

structure Notice (T : Type) where
  listener : ℕ
  newVal : T
  oldVal : T
  deriving DecidableEq

variable {T W : Type}

/-- A listener that acts on the rest of the world as it likes. -/
def noted (id : ℕ) (cb : T → T → W → W) : Listener T (W × List (Notice T)) :=
  fun newVal oldVal w => .returned (cb newVal oldVal w.1,w.2 ++ [⟨id,newVal,oldVal⟩])

/-- `funId` is the static `s_fun_id` of `AddListener`. -/
structure State (T W : Type) where
  var : ConfigVar T (W × List (Notice T))
  world : W × List (Notice T)
  funId : ℕ

namespace State

def notices (s : State T W) : List (Notice T) := s.world.2

def ids (s : State T W) : List ℕ := s.var.cbs.entries.map Prod.fst

def Registered (s : State T W) (i : ℕ) : Prop := i ∈ s.ids

/-- The pairs of new and old values that the listener has been called with. -/
def received (s : State T W) (i : ℕ) : List (T × T) :=
  (s.notices.filter (fun n => decide (n.listener = i))).map fun n => (n.newVal,n.oldVal)

end State

/-- Each pair starts from the value that the one before has left, and changes it. -/
def Chain : T → List (T × T) → T → Prop
  | a, [], b => a = b
  | a, p :: ps, b => p.2 = a ∧ p.1 ≠ p.2 ∧ Chain p.1 ps b

inductive Act (T W : Type) where
  | setValue (v : T)
  | fromString (val : Text)
  | addListener (cb : T → T → W → W)
  -- `AddListener` on another variable of the same type
  | addElsewhere
  | delListener (id : ℕ)
  | clearListener

def Act.registers : Act T W → Bool
  | addListener _ | addElsewhere => true
  | _ => false

variable [DecidableEq T] (cast : LexicalCast T)

def start (name description : Text) (val : T) (world : W) (funId : ℕ) : State T W :=
  ⟨⟨name,description,val,.empty⟩,(world,[]),funId⟩

/-- One call; an exception reaches the caller, who goes on. -/
def step (s : State T W) : Act T W → Option (State T W)
  | .setValue v =>
    match s.var.setValue v s.world with
    | .returned (var,w) | .threw (var,w) _ => some { s with var := var, world := w }
    | .crashed => none
  | .fromString val =>
    (s.var.fromString cast val s.world).map fun r => { s with var := r.2.1, world := r.2.2 }
  | .addListener cb =>
    let r := s.var.addListener s.funId (noted (ConfigVar.nextId s.funId) cb)
    some { s with var := r.2, funId := r.1 }
  | .addElsewhere => some { s with funId := ConfigVar.nextId s.funId }
  | .delListener id => some { s with var := s.var.delListener id }
  | .clearListener => some { s with var := s.var.clearListener }

/-- The counter does not wrap around. -/
def InRange (s : State T W) (a : Act T W) : Prop := a.registers = true → s.funId + 1 < 2 ^ 64

structure Noted (s : State T W) : Prop where
  cbs : ∀ e ∈ s.var.cbs.entries, ∃ cb, e.2 = noted e.1 cb
  ids : ∀ i, s.Registered i → i ≤ s.funId
  notices : ∀ n ∈ s.notices, n.listener ≤ s.funId

/-- What a call does to the counter, the table and the notes. -/
structure Advances (s t : State T W) : Prop where
  funId : s.funId ≤ t.funId
  fresh : ∀ i ≤ s.funId, t.Registered i → s.Registered i
  told : (t.var.val = s.var.val ∧ t.notices = s.notices) ∨
    (t.var.val ≠ s.var.val ∧ t.var.cbs = s.var.cbs ∧
      t.notices = s.notices ++ s.ids.map fun i => ⟨i,t.var.val,s.var.val⟩)

omit [DecidableEq T] in
theorem runCallbacks_noted (v old : T) {cbs : List (ℕ × Listener T (W × List (Notice T)))}
    (h : ∀ e ∈ cbs, ∃ cb, e.2 = noted e.1 cb) (w : W) (ns : List (Notice T)) :
    ∃ w', ConfigVar.runCallbacks v old cbs (w,ns) =
      .returned (w',ns ++ (cbs.map Prod.fst).map fun i => ⟨i,v,old⟩) := by
  induction cbs generalizing w ns with
  | nil => exact ⟨w,by simp [ConfigVar.runCallbacks]⟩
  | cons e cbs ih =>
    obtain ⟨id,cb⟩ := e
    obtain ⟨f,hf⟩ := h (id,cb) List.mem_cons_self
    obtain rfl : cb = noted id f := hf
    obtain ⟨w',hw⟩ := ih (fun e he => h e (List.mem_cons_of_mem _ he)) (f v old w) (ns ++ [⟨id,v,old⟩])
    exact ⟨w',by simpa [ConfigVar.runCallbacks,noted] using hw⟩

theorem setValue_noted {s : State T W} (hs : Noted s) (v : T) :
    ∃ t : State T W, s.var.setValue v s.world = .returned (t.var,t.world) ∧
      t.funId = s.funId ∧ Noted t ∧ Advances s t := by
  by_cases hv : s.var.val = v
  · exact ⟨s,by simp [ConfigVar.setValue,hv],rfl,hs,le_rfl,fun _ _ h => h,.inl ⟨rfl,rfl⟩⟩
  · obtain ⟨w,hw⟩ := runCallbacks_noted v s.var.val hs.cbs s.world.1 s.world.2
    refine ⟨⟨{ s.var with val := v },(w,s.notices ++ s.ids.map fun i => ⟨i,v,s.var.val⟩),s.funId⟩,?_,rfl,
      ⟨hs.cbs,hs.ids,fun n hn => ?_⟩,le_rfl,fun _ _ h => h,.inr ⟨Ne.symm hv,rfl,rfl⟩⟩
    · have hb : (s.var.val == v) = false := by simpa using hv
      simp only [ConfigVar.setValue,hb,Bool.false_eq_true,↓reduceIte,hw]
      rfl
    · rcases List.mem_append.mp hn with hn | hn
      · exact hs.notices n hn
      · obtain ⟨i,hi,rfl⟩ := List.mem_map.mp hn
        exact hs.ids i hi

omit [DecidableEq T] in
theorem registered_iff {s : State T W} {i : ℕ} : s.Registered i ↔ (s.var.cbs.find i).isSome = true :=
  SortedMap.isSome_find_iff.symm

omit [DecidableEq T] in
/-- Calls that change neither the value nor the notes, and register nothing. -/
theorem advances_of_sub {s : State T W} (hs : Noted s) (var : ConfigVar T (W × List (Notice T))) {funId : ℕ}
    (hval : var.val = s.var.val) (hfun : s.funId ≤ funId)
    (hsub : ∀ e ∈ var.cbs.entries, e ∈ s.var.cbs.entries) :
    Noted ⟨var,s.world,funId⟩ ∧ Advances s ⟨var,s.world,funId⟩ := by
  have hreg : ∀ i, State.Registered ⟨var,s.world,funId⟩ i → s.Registered i := by
    intro i hi
    obtain ⟨e,he,rfl⟩ := List.mem_map.mp hi
    exact List.mem_map.mpr ⟨e,hsub e he,rfl⟩
  exact ⟨⟨fun e he => hs.cbs e (hsub e he),fun i hi => (hs.ids i (hreg i hi)).trans hfun,
    fun n hn => (hs.notices n hn).trans hfun⟩,hfun,fun i _ hi => hreg i hi,.inl ⟨hval,rfl⟩⟩

/-- The state after `AddListener`, if the counter does not wrap around. -/
def State.added (s : State T W) (cb : T → T → W → W) : State T W :=
  ⟨{ s.var with cbs := s.var.cbs.assign (s.funId + 1) (noted (s.funId + 1) cb) },s.world,s.funId + 1⟩

omit [DecidableEq T] in
theorem advances_addListener {s : State T W} (hs : Noted s) (cb : T → T → W → W) :
    Noted (s.added cb) ∧ Advances s (s.added cb) := by
  have hfind : ∀ i, (s.added cb).Registered i → i = s.funId + 1 ∨ s.Registered i := by
    intro i hi
    rw [registered_iff] at hi ⊢
    rw [State.added,SortedMap.find_assign] at hi
    split_ifs at hi with hi'
    · exact .inl hi'
    · exact .inr hi
  refine ⟨⟨fun e he => ?_,fun i hi => ?_,fun n hn => (hs.notices n hn).trans (Nat.le_succ _)⟩,
    ⟨Nat.le_succ _,fun i hi hreg => ?_,.inl ⟨rfl,rfl⟩⟩⟩
  · rcases SortedMap.key_of_mem_assignList he with rfl | he
    · exact ⟨cb,rfl⟩
    · exact hs.cbs e he
  · rcases hfind i hi with rfl | hi
    · exact le_rfl
    · exact (hs.ids i hi).trans (Nat.le_succ _)
  · exact (hfind i hreg).resolve_left (by omega)

theorem step_spec {s t : State T W} {a : Act T W} (hs : Noted s) (hr : InRange s a)
    (h : step cast s a = some t) :
    Noted t ∧ Advances s t ∧ t.funId = s.funId + if a.registers then 1 else 0 := by
  have hnext : a.registers = true → ConfigVar.nextId s.funId = s.funId + 1 :=
    fun ha => Nat.mod_eq_of_lt (hr ha)
  cases a with
  | setValue v =>
    obtain ⟨u,hu,hfun,hn,hadv⟩ := setValue_noted hs v
    simp only [step,hu,Option.some.injEq,← hfun] at h
    obtain rfl : u = t := h
    exact ⟨hn,hadv,hfun⟩
  | fromString val =>
    simp only [step,ConfigVar.fromString] at h
    cases hc : cast.fromStr val with
    | error e =>
      simp only [hc,Option.map_some,Option.some.injEq] at h
      obtain rfl : s = t := h
      exact ⟨hs,⟨le_rfl,fun _ _ h => h,.inl ⟨rfl,rfl⟩⟩,rfl⟩
    | ok v =>
      obtain ⟨u,hu,hfun,hn,hadv⟩ := setValue_noted hs v
      simp only [hc,hu,Option.map_some,Option.some.injEq,← hfun] at h
      obtain rfl : u = t := h
      exact ⟨hn,hadv,hfun⟩
  | addListener cb =>
    obtain ⟨hn,hadv⟩ := advances_addListener hs cb
    simp only [step,ConfigVar.addListener,hnext rfl,Option.some.injEq] at h
    obtain rfl : s.added cb = t := h
    exact ⟨hn,hadv,rfl⟩
  | addElsewhere =>
    simp only [step,hnext rfl,Option.some.injEq] at h
    subst h
    obtain ⟨hn,hadv⟩ := advances_of_sub hs s.var rfl (Nat.le_succ s.funId) fun _ he => he
    exact ⟨hn,hadv,rfl⟩
  | delListener id =>
    simp only [step,Option.some.injEq] at h
    subst h
    obtain ⟨hn,hadv⟩ := advances_of_sub hs (s.var.delListener id) rfl le_rfl
      fun _ he => (List.mem_filter.mp he).1
    exact ⟨hn,hadv,rfl⟩
  | clearListener =>
    simp only [step,Option.some.injEq] at h
    subst h
    obtain ⟨hn,hadv⟩ := advances_of_sub hs s.var.clearListener rfl le_rfl fun _ he => by cases he
    exact ⟨hn,hadv,rfl⟩

/-- The ids that a call leaves registered. -/
def Act.Leaves (a : Act T W) (q r : State T W) (i : ℕ) : Prop :=
  match a with
  | .addListener _ => i = r.funId ∨ q.Registered i
  | .delListener id => q.Registered i ∧ i ≠ id
  | .clearListener => False
  | .setValue _ | .fromString _ | .addElsewhere => q.Registered i

/-- The value that a call leaves, where `val` was before. -/
def Act.value (a : Act T W) (val : T) : T :=
  match a with
  | .setValue v => v
  | .fromString text => (cast.fromStr text).toOption.getD val
  | .addListener _ | .addElsewhere | .delListener _ | .clearListener => val

theorem table_of_step {q r : State T W} {a : Act T W} (hq : Noted q) (h : step cast q a = some r) :
    (∀ i, r.Registered i ↔ a.Leaves q r i) ∧ r.var.val = a.value cast q.var.val := by
  have hset : ∀ {v : T} {var w}, q.var.setValue v q.world = .returned (var,w) →
      (∀ i, State.Registered ⟨var,w,q.funId⟩ i ↔ q.Registered i) ∧ var.val = v := by
    intro v var w hvar
    rcases ConfigVar.setValue_returned hvar with rfl | ⟨hv,rfl,rfl⟩
    · exact ⟨fun i => Iff.rfl,rfl⟩
    · exact ⟨fun i => Iff.rfl,beq_iff_eq.mp hv⟩
  cases a with
  | setValue v =>
    obtain ⟨u,hu,_⟩ := setValue_noted hq v
    simp only [step,hu,Option.some.injEq] at h
    subst h
    exact hset hu
  | fromString text =>
    simp only [step,ConfigVar.fromString] at h
    cases hc : cast.fromStr text with
    | error e =>
      simp only [hc,Option.map_some,Option.some.injEq] at h
      subst h
      exact ⟨fun i => Iff.rfl,by simp [Act.value,hc,Except.toOption]⟩
    | ok v =>
      obtain ⟨u,hu,_⟩ := setValue_noted hq v
      obtain ⟨hreg,hval⟩ := hset hu
      simp only [hc,hu,Option.map_some,Option.some.injEq] at h
      subst h
      exact ⟨hreg,by simpa [Act.value,hc,Except.toOption] using hval⟩
  | addListener cb =>
    obtain rfl := Option.some.inj h
    refine ⟨fun i => ?_,rfl⟩
    rw [Act.Leaves,registered_iff,registered_iff,ConfigVar.addListener,SortedMap.find_assign]
    split_ifs with hi
    · exact iff_of_true rfl (.inl hi)
    · exact (or_iff_right hi).symm
  | addElsewhere =>
    obtain rfl := Option.some.inj h
    exact ⟨fun i => Iff.rfl,rfl⟩
  | delListener id =>
    obtain rfl := Option.some.inj h
    exact ⟨fun i => SortedMap.mem_keys_erase,rfl⟩
  | clearListener =>
    obtain rfl := Option.some.inj h
    exact ⟨fun i => iff_of_false (by intro hi; cases hi) id,rfl⟩

variable {cast}

theorem noted_run {s t : State T W} {acts : List (Act T W)} (hs : Noted s)
    (h : Runs (step cast) InRange s acts t) :
    Noted t ∧ s.funId ≤ t.funId ∧ ∀ i ≤ s.funId, t.Registered i → s.Registered i := by
  induction h with
  | refl s => exact ⟨hs,le_rfl,fun _ _ h => h⟩
  | step hr hstep _ ih =>
    obtain ⟨hu,hadv,_⟩ := step_spec cast hs hr hstep
    obtain ⟨ht,hle,hreg⟩ := ih hu
    exact ⟨ht,hadv.funId.trans hle,fun i hi h => hadv.fresh i hi (hreg i (hi.trans hadv.funId) h)⟩

omit [DecidableEq T] in
theorem filter_ids (s : State T W) {is : List ℕ} (his : is.Pairwise (· < ·)) (h : ∀ i ∈ is, s.Registered i) :
    s.ids.filter (fun i => decide (i ∈ is)) = is := by
  have hsorted : s.ids.Pairwise (· < ·) := List.pairwise_map.mpr s.var.cbs.sorted
  refine (hsorted.filter _).eq_of_mem_iff his fun i => ?_
  simp only [List.mem_filter,decide_eq_true_eq,and_iff_right_iff_imp]
  exact h i

/-- Listeners registered throughout are told every change, one after the other. -/
theorem told_run {s t : State T W} {acts : List (Act T W)} (hs : Noted s)
    (h : Runs (step cast) InRange s acts t) {is : List ℕ} (his : is.Pairwise (· < ·))
    (hreg : ∀ i ∈ is, s.Registered i ∧ t.Registered i) :
    ∃ seg pairs, t.notices = s.notices ++ seg ∧ Chain s.var.val pairs t.var.val ∧
      seg.filter (fun n => decide (n.listener ∈ is)) =
        pairs.flatMap fun p => is.map fun i => ⟨i,p.1,p.2⟩ := by
  induction h with
  | refl s => exact ⟨[],[],by simp,rfl,rfl⟩
  | @step s u t a acts hr hstep hrun ih =>
    obtain ⟨hu,hadv,_⟩ := step_spec cast hs hr hstep
    have hmid : ∀ i ∈ is, u.Registered i := fun i hi =>
      (noted_run hu hrun).2.2 i ((hs.ids i (hreg i hi).1).trans hadv.funId) (hreg i hi).2
    obtain ⟨seg,pairs,hseg,hchain,hfilter⟩ := ih hu fun i hi => ⟨hmid i hi,(hreg i hi).2⟩
    rcases hadv.told with ⟨hval,hns⟩ | ⟨hval,_,hns⟩
    · exact ⟨seg,pairs,by rw [hseg,hns],hval ▸ hchain,hfilter⟩
    · refine ⟨s.ids.map (fun i => ⟨i,u.var.val,s.var.val⟩) ++ seg,(u.var.val,s.var.val) :: pairs,
        by rw [hseg,hns,List.append_assoc],⟨rfl,hval,hchain⟩,?_⟩
      have hids := filter_ids s his fun i hi => (hreg i hi).1
      rw [List.filter_append,hfilter,List.filter_map,List.flatMap_cons]
      congr 2

/-- Ids that have been handed out and are not registered are not called any more. -/
theorem untold_run {s t : State T W} {acts : List (Act T W)} (hs : Noted s)
    (h : Runs (step cast) InRange s acts t) {p : ℕ → Prop} (hp : ∀ i, p i → i ≤ s.funId ∧ ¬ s.Registered i) :
    (∀ i, p i → ¬ t.Registered i) ∧ ∃ seg, t.notices = s.notices ++ seg ∧ ∀ n ∈ seg, ¬ p n.listener := by
  induction h with
  | refl s => exact ⟨fun i hi => (hp i hi).2,[],by simp,by simp⟩
  | @step s u t a acts hr hstep _ ih =>
    obtain ⟨hu,hadv,_⟩ := step_spec cast hs hr hstep
    obtain ⟨hnot,seg,hseg,hne⟩ := ih hu fun i hi =>
      ⟨(hp i hi).1.trans hadv.funId,fun h => (hp i hi).2 (hadv.fresh i (hp i hi).1 h)⟩
    refine ⟨hnot,?_⟩
    rcases hadv.told with ⟨_,hns⟩ | ⟨_,_,hns⟩
    · exact ⟨seg,by rw [hseg,hns],hne⟩
    · refine ⟨s.ids.map (fun i => ⟨i,u.var.val,s.var.val⟩) ++ seg,by rw [hseg,hns,List.append_assoc],?_⟩
      intro n hmem
      rcases List.mem_append.mp hmem with hmem | hmem
      · obtain ⟨j,hj,rfl⟩ := List.mem_map.mp hmem
        exact fun hpj => (hp j hpj).2 hj
      · exact hne n hmem

/-- With fewer than 2^64 registrations the counter counts them. -/
theorem inRange_of_count {s t : State T W} {acts : List (Act T W)} (hs : Noted s)
    (h : Runs (step cast) (fun _ _ => True) s acts t)
    (hcount : s.funId + acts.countP Act.registers < 2 ^ 64) :
    Runs (step cast) InRange s acts t ∧ t.funId = s.funId + acts.countP Act.registers := by
  induction h with
  | refl s => exact ⟨.refl s,rfl⟩
  | @step s u t a acts _ hstep _ ih =>
    rw [List.countP_cons] at hcount ⊢
    have hr : InRange s a := by
      intro ha
      rw [if_pos ha] at hcount
      omega
    obtain ⟨hu,_,hfun⟩ := step_spec cast hs hr hstep
    obtain ⟨hrun,ht⟩ := ih hu (by omega)
    exact ⟨.step hr hstep hrun,by omega⟩

omit [DecidableEq T] in
theorem noted_start (name description : Text) (val : T) (world : W) (funId : ℕ) :
    Noted (start name description val world funId) := by
  constructor
  · intro e he
    cases he
  · intro i hi
    cases hi
  · intro n hn
    cases hn

variable (cast) in
/-- Calls one after the other, by anybody. -/
abbrev Calls (s : State T W) (acts : List (Act T W)) (t : State T W) : Prop :=
  Runs (step cast) (fun _ _ => True) s acts t

theorem noted_calls {s r : State T W} {pre post : List (Act T W)} (hs : Noted s)
    (hcount : s.funId + (pre ++ post).countP Act.registers < 2 ^ 64) (h : Calls cast s pre r) :
    Noted r ∧ s.funId ≤ r.funId ∧ r.funId + post.countP Act.registers < 2 ^ 64 := by
  rw [List.countP_append] at hcount
  obtain ⟨hrun,hfun⟩ := inRange_of_count hs h (by omega)
  exact ⟨(noted_run hs hrun).1,by omega,by omega⟩

theorem noted_addListener {q r : State T W} {cb : T → T → W → W} {post : List (Act T W)} (hq : Noted q)
    (hcount : q.funId + (Act.addListener cb :: post).countP Act.registers < 2 ^ 64)
    (h : step cast q (.addListener cb) = some r) :
    Noted r ∧ r.funId = q.funId + 1 ∧ r.var.val = q.var.val ∧ r.notices = q.notices ∧
      r.funId + post.countP Act.registers < 2 ^ 64 := by
  rw [List.countP_cons_of_pos rfl] at hcount
  have hr : InRange q (Act.addListener cb) := fun _ => by omega
  obtain ⟨hn,_,hfun⟩ := step_spec cast hq hr h
  have hfun : r.funId = q.funId + 1 := hfun
  obtain rfl := Option.some.inj h
  exact ⟨hn,hfun,rfl,rfl,by omega⟩

/-- What the listeners have been told when the calls `acts` have led from `s₀` to `s`. -/
structure History (cast : LexicalCast T) (s₀ : State T W) (acts : List (Act T W)) (s : State T W) :
    Prop where
  /-- A registered listener knows the way from the value at its registration. -/
  chain : ∀ {pre cb post q r}, acts = pre ++ .addListener cb :: post → Calls cast s₀ pre q →
    step cast q (.addListener cb) = some r → Calls cast r post s → s.Registered r.funId →
    Chain q.var.val (s.received r.funId) s.var.val
  /-- Listeners registered over the same period have been told the same, each change
  in the order of their ids. -/
  together : ∀ {pre post r} {is : List ℕ}, acts = pre ++ post → Calls cast s₀ pre r →
    Calls cast r post s → is.Pairwise (· < ·) → (∀ i ∈ is, r.Registered i ∧ s.Registered i) →
    ∃ seg pairs, s.notices = r.notices ++ seg ∧ Chain r.var.val pairs s.var.val ∧
      seg.filter (fun n => decide (n.listener ∈ is)) =
        pairs.flatMap fun p => is.map fun i => ⟨i,p.1,p.2⟩
  /-- Each call registers and unregisters what it is said to, and leaves its value. -/
  table : ∀ {pre a post q r}, acts = pre ++ a :: post → Calls cast s₀ pre q → step cast q a = some r →
    (∀ i, r.Registered i ↔ a.Leaves q r i) ∧ r.var.val = a.value cast q.var.val
  removed : ∀ {pre mid post q r i}, acts = pre ++ (mid ++ post) → Calls cast s₀ pre q →
    Calls cast q mid r → Calls cast r post s → q.Registered i → ¬ r.Registered i →
    ¬ s.Registered i ∧ ∃ seg, s.notices = r.notices ++ seg ∧ ∀ n ∈ seg, n.listener ≠ i
  /-- Behind `DelListener` the listener of the id is not called again, and not registered. -/
  deleted : ∀ {pre i post q r}, acts = pre ++ .delListener i :: post → Calls cast s₀ pre q →
    step cast q (.delListener i) = some r → Calls cast r post s → i ≤ q.funId →
    ¬ s.Registered i ∧ ∃ seg, s.notices = r.notices ++ seg ∧ ∀ n ∈ seg, n.listener ≠ i
  /-- Behind `ClearListener` nobody is called who has had an id before. -/
  cleared : ∀ {pre post q r}, acts = pre ++ .clearListener :: post → Calls cast s₀ pre q →
    step cast q .clearListener = some r → Calls cast r post s →
    (∀ i, s.Registered i → q.funId < i) ∧
      ∃ seg, s.notices = r.notices ++ seg ∧ ∀ n ∈ seg, q.funId < n.listener
  ids : ∀ {pre cb mid cb' post q r q' r'},
    acts = pre ++ .addListener cb :: (mid ++ .addListener cb' :: post) → Calls cast s₀ pre q →
    step cast q (.addListener cb) = some r → Calls cast r mid q' →
    step cast q' (.addListener cb') = some r' → r.funId ≠ r'.funId

/-- In every run with fewer than 2^64 registrations. -/
theorem listeners_told {name description : Text} {val : T} {world : W} {funId : ℕ}
    {acts : List (Act T W)} {s : State T W} (hcount : funId + acts.countP Act.registers < 2 ^ 64) :
    History cast (start name description val world funId) acts s := by
  have hstart := noted_start (T := T) name description val world funId
  constructor
  · rintro pre cb post q r rfl hpre hstep hpost hreg
    obtain ⟨hq,_,hc⟩ := noted_calls hstart hcount hpre
    obtain ⟨hr,hfun,hval,hns,hc⟩ := noted_addListener hq hc hstep
    obtain ⟨hrun,_⟩ := inRange_of_count hr hpost hc
    -- the listener has been registered since the call that returned its id
    have hrr : r.Registered r.funId := (noted_run hr hrun).2.2 _ le_rfl hreg
    obtain ⟨seg,pairs,hseg,hchain,hfilter⟩ := told_run hr hrun (List.pairwise_singleton _ r.funId)
      fun i hi => List.mem_singleton.mp hi ▸ ⟨hrr,hreg⟩
    have hbefore : r.notices.filter (fun n => decide (n.listener = r.funId)) = [] := by
      refine List.filter_eq_nil_iff.mpr fun n hn => ?_
      have hle := hq.notices n (hns ▸ hn)
      simp only [decide_eq_true_eq]
      omega
    have hpairs : s.received r.funId = pairs := by
      simp only [List.mem_singleton] at hfilter
      rw [State.received,hseg,List.filter_append,hbefore,List.nil_append,hfilter]
      simp [List.map_flatMap]
    rw [hpairs,← hval]
    exact hchain
  · rintro pre post r is rfl hpre hpost his hreg
    obtain ⟨hr,_,hc⟩ := noted_calls hstart hcount hpre
    exact told_run hr (inRange_of_count hr hpost hc).1 his hreg
  · rintro pre a post q r rfl hpre hstep
    exact table_of_step cast (noted_calls hstart hcount hpre).1 hstep
  · rintro pre mid post q r i rfl hpre hmid hpost hq hn
    obtain ⟨hnq,_,hc⟩ := noted_calls hstart hcount hpre
    obtain ⟨hnr,hle,hc⟩ := noted_calls hnq hc hmid
    obtain ⟨hnot,huntold⟩ := untold_run hnr (inRange_of_count hnr hpost hc).1 (p := (· = i))
      fun _ hj => hj ▸ ⟨(hnq.ids i hq).trans hle,hn⟩
    exact ⟨hnot i rfl,huntold⟩
  · rintro pre i post q r rfl hpre hstep hpost hi
    obtain ⟨hq,_,hc⟩ := noted_calls hstart hcount hpre
    obtain ⟨hr,hfun,hc⟩ := noted_calls hq hc (.single trivial hstep)
    have hn : ¬ r.Registered i := fun h => (((table_of_step cast hq hstep).1 i).mp h).2 rfl
    obtain ⟨hnot,huntold⟩ := untold_run hr (inRange_of_count hr hpost hc).1 (p := (· = i))
      fun _ hj => hj ▸ ⟨hi.trans hfun,hn⟩
    exact ⟨hnot i rfl,huntold⟩
  · rintro pre post q r rfl hpre hstep hpost
    obtain ⟨hq,_,hc⟩ := noted_calls hstart hcount hpre
    obtain ⟨hr,hfun,hc⟩ := noted_calls hq hc (.single trivial hstep)
    obtain ⟨hnot,seg,hseg,huntold⟩ := untold_run hr (inRange_of_count hr hpost hc).1 (p := (· ≤ q.funId))
      fun i hi => ⟨hi.trans hfun,((table_of_step cast hq hstep).1 i).mp⟩
    exact ⟨fun i h => Nat.lt_of_not_le fun hi => hnot i hi h,seg,hseg,fun n hn => Nat.lt_of_not_le (huntold n hn)⟩
  · rintro pre cb mid cb' post q r q' r' rfl hpre hstep hmid hstep'
    obtain ⟨hq,_,hc⟩ := noted_calls hstart hcount hpre
    obtain ⟨hr,_,_,_,hc⟩ := noted_addListener hq hc hstep
    obtain ⟨hq',hle,hc⟩ := noted_calls hr hc hmid
    obtain ⟨_,hfun,_⟩ := noted_addListener hq' hc hstep'
    omega

/-- Two listeners, the first of which is taken away before the last change. -/
theorem listeners_told_flag : ∃ s : State Bool Unit,
    Calls boolCast (start [] [] false () 0)
      [.addListener fun _ _ w => w,.addListener fun _ _ w => w,.setValue true,.fromString ['x'],
        .fromString ['0'],.delListener 1,.setValue true] s ∧
    s.received 1 = [(true,false),(false,true)] ∧ ¬ s.Registered 1 ∧
    s.received 2 = [(true,false),(false,true),(true,false)] ∧ Chain false (s.received 2) s.var.val := by
  let p : State Bool Unit := start [] [] false () 0
  let q : State Bool Unit := ⟨(p.var.addListener 0 (noted 1 fun _ _ w => w)).2,p.world,1⟩
  let r : State Bool Unit := ⟨(q.var.addListener 1 (noted 2 fun _ _ w => w)).2,q.world,2⟩
  let t : State Bool Unit := ⟨r.var,((),[⟨1,true,false⟩,⟨2,true,false⟩,⟨1,false,true⟩,⟨2,false,true⟩]),2⟩
  let u : State Bool Unit := ⟨t.var.delListener 1,t.world,2⟩
  let s : State Bool Unit := ⟨{ u.var with val := true },((),u.notices ++ [⟨2,true,false⟩]),2⟩
  have hpq : Calls boolCast p [.addListener fun _ _ w => w] q := .single trivial rfl
  have hqr : step boolCast q (.addListener fun _ _ w => w) = some r := rfl
  have hrt : Calls boolCast r [.setValue true,.fromString ['x'],.fromString ['0']] t := Runs.of_exec_eq rfl
  have htu : step boolCast t (.delListener 1) = some u := rfl
  have hus : Calls boolCast u [.setValue true] s := .single trivial rfl
  have hpt := hpq.trans (.step trivial hqr hrt)
  have hrs := hrt.trans (.step trivial htu hus)
  refine ⟨s,hpq.trans (.step trivial hqr hrs),rfl,?_,rfl,?_⟩
  · exact ((listeners_told (by decide)).deleted rfl hpt htu hus (by decide)).1
  · exact (listeners_told (by decide)).chain rfl hpq hqr hrs List.mem_cons_self

end Zcs.Config.Listeners
