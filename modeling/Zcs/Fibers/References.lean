import Mathlib.Logic.Function.Basic
import Zcs.Fibers.Switching

/-! # Shared pointers to fibers

Fibers are reached and kept alive by shared pointers: those of user code, `t_thread_fiber`,
the local `cur` of `MainFunc`, which is reset when the callback has ended, and the local
`cur` of a yield, which lives until the fiber is resumed. A fiber is destroyed with the
last of them.
-/
namespace Zcs.Fibers
variable {K σ : Type}

/-- What code does that uses fibers through its shared pointers only. -/
inductive Use (K σ : Type) where
  | segment (x : σ) (code : K)
  | create (cb : K) (stacksize : ℕ) (code : K)
  | copy (f : ℕ) (code : K)
  | getThis (code : K)
  | drop (f : ℕ) (code : K)
  | reset (f : ℕ) (cb code : K)
  | swapIn (f : ℕ) (code : K)
  | yieldTo (y : Yield) (code : K)
  | callbackReturns
  | callbackThrows (std : Bool)

/-- `handles` counts the shared pointers of user code. `locals` lists, for each stack, the
calls of `MainFunc`, `SwapIn` and the yields that are not over, innermost first, each with
its shared pointer if it has one. -/
structure Shared (K σ : Type) where
  thread : Thread K σ
  handles : ℕ → ℕ
  locals : Stack → List (Option ℕ)
  useCount : ℕ → ℕ

namespace Shared

def acquire (s : Shared K σ) (f : ℕ) : Shared K σ :=
  { s with useCount := Function.update s.useCount f (s.useCount f + 1) }

/-- The end of a shared pointer, and of the fiber if it was the last one. -/
def release (s : Shared K σ) (f : ℕ) : Except Fault (Shared K σ) :=
  if s.useCount f ≤ 1 then do
    let t ← s.thread.destroy f
    return { s with thread := t, useCount := Function.update s.useCount f 0 }
  else .ok { s with useCount := Function.update s.useCount f (s.useCount f - 1) }

def push (s : Shared K σ) (stack : Stack) (l : Option ℕ) : Shared K σ :=
  { s with locals := Function.update s.locals stack (l :: s.locals stack) }

def pop (s : Shared K σ) (stack : Stack) : Shared K σ :=
  { s with locals := Function.update s.locals stack (s.locals stack).tail }

/-- `Fiber::GetThis()` with the shared pointer that it returns. -/
def getThis (s : Shared K σ) : Except Fault (Shared K σ × ℕ) := do
  let (t,f) ← s.thread.getThis
  -- a new main fiber is held by `t_thread_fiber`
  let s := if s.thread.tFiber.isNone then { s with useCount := Function.update s.useCount f 1 } else s
  return ({ s with thread := t }.acquire f,f)

/-- Behind a switch: a new stack enters `MainFunc`, and on an old one a call returns. -/
def arrive (s : Shared K σ) : Except Fault (Shared K σ) :=
  match s.locals s.thread.stack with
  | [] =>
    match s.thread.frame.cur with
    | some cur => .ok ((s.acquire cur).push s.thread.stack (some cur))
    | none => .ok s
  | none :: _ => .ok (s.pop s.thread.stack)
  | some f :: _ => (s.pop s.thread.stack).release f

def goOn (s : Shared K σ) (code : K) : Shared K σ := { s with thread := s.thread.goOn code }

/-- The rest of `MainFunc` behind the callback: the state is set, `cur` is reset, and the
raw pointer is used for the last switch. -/
def callbackEnds (s : Shared K σ) (state : Option State) : Except Fault (Shared K σ) :=
  match s.thread.frame.cur with
  | none => .error .noCallback
  | some cur => do
    let t := match state with
      | some state => s.thread.setState cur state
      | none => s.thread
    let s ← ({ s with thread := t }.pop s.thread.stack).release cur
    let t ← s.thread.swapOut cur .finished
    { s with thread := t }.arrive

def step (s : Shared K σ) : Use K σ → Except Fault (Shared K σ)
  | .segment x code => do return { s with thread := ← s.thread.step (.segment x code) }
  | .create cb stacksize code =>
    let f := s.thread.fibers.next
    .ok { s with
      thread := (s.thread.newFiber cb stacksize).goOn code
      handles := Function.update s.handles f 1
      useCount := Function.update s.useCount f 1 }
  | .copy f code =>
    .ok ({ s with handles := Function.update s.handles f (s.handles f + 1) }.acquire f |>.goOn code)
  | .getThis code => do
    let (s,f) ← s.getThis
    return { s with handles := Function.update s.handles f (s.handles f + 1) }.goOn code
  | .drop f code => do
    let s ← { s with handles := Function.update s.handles f (s.handles f - 1) }.release f
    return s.goOn code
  | .reset f cb code => do
    let t ← s.thread.reset f cb
    return { s with thread := t.goOn code, locals := Function.update s.locals (.own f) [] }
  | .swapIn f code => do
    let t ← s.thread.swapIn f code
    { s.push s.thread.stack none with thread := t }.arrive
  | .yieldTo y code => do
    let (s,cur) ← s.getThis
    let t ← s.thread.yieldTo y code
    { s.push s.thread.stack (some cur) with thread := t }.arrive
  | .callbackReturns => s.callbackEnds (some .term)
  | .callbackThrows std => s.callbackEnds (if std then none else some .execpt)

def next (s : Shared K σ) (a : Use K σ) : Option (Shared K σ) := (s.step a).toOption

/-- Every fiber is used through a shared pointer to it, and children are switched to by
the main fiber. -/
def ByHandle (s : Shared K σ) : Use K σ → Prop
  | .copy f _ | .drop f _ | .reset f _ _ => 0 < s.handles f
  | .swapIn f _ => 0 < s.handles f ∧ s.thread.stack = .thread ∧ s.thread.tThreadFiber ≠ some f
  | _ => True

instance (s : Shared K σ) : ∀ a, Decidable (s.ByHandle a)
  | .copy f _ | .drop f _ | .reset f _ _ => inferInstanceAs (Decidable (0 < s.handles f))
  | .swapIn f _ =>
    inferInstanceAs (Decidable (0 < s.handles f ∧ s.thread.stack = .thread ∧ s.thread.tThreadFiber ≠ some f))
  | .segment _ _ | .create _ _ _ | .getThis _ | .yieldTo _ _ | .callbackReturns | .callbackThrows _ =>
    inferInstanceAs (Decidable True)

/-- The thread behind its first `GetThis`, of whose result nobody has kept a copy. -/
def start (stacksizeConfig : ℕ) (code : K) : Shared K σ :=
  ⟨.start stacksizeConfig code,fun _ => 0,fun _ => [],fun f => if f = 0 then 1 else 0⟩

/-- The library's calls on the stack of a child: a callback that has not ended stands in
`MainFunc`, and one that is suspended in a yield as well. -/
def expected (f : ℕ) (running : Prop) [Decidable running] : Option State → List (Option ℕ)
  | some .hold | some .ready => [some f,some f]
  | some .exec => if running then [some f] else []
  | some .init | some .term | some .execpt | none => []

def stateOf (s : Shared K σ) (f : ℕ) : Option State := (s.thread.fibers.get f).map (·.state)

/-- The shared pointers to a fiber that are not the user's. -/
def ofLibrary (s : Shared K σ) (f : ℕ) : ℕ := if f = 0 then 1 else (s.locals (.own f)).length

structure CountedAt (s : Shared K σ) (f : ℕ) : Prop where
  count : s.useCount f = s.handles f + s.ofLibrary f
  alive : 0 < s.useCount f ↔ (s.stateOf f).isSome = true
  locals : f ≠ 0 → s.locals (.own f) = expected f (s.thread.stack = .own f) (s.stateOf f)

structure Counted (home : Option K) (s : Shared K σ) : Prop where
  switching : Switching home s.thread
  mainLocals : s.locals .thread = if s.thread.stack = .thread then [] else [none]
  fiber : ∀ f, s.CountedAt f

theorem counted_start (stacksizeConfig : ℕ) (code : K) :
    Counted none (start stacksizeConfig code : Shared K σ) where
  switching := .start stacksizeConfig code
  mainLocals := rfl
  fiber f := by
    by_cases hf : f = 0
    · subst hf
      exact ⟨rfl,by simp [start,stateOf,Thread.start,Thread.newMain,Thread.fresh,Heap.alloc,Heap.empty],
        fun h => absurd rfl h⟩
    · refine ⟨by simp [start,ofLibrary,hf],?_,fun _ => ?_⟩ <;>
        simp [start,stateOf,Thread.start,Thread.newMain,Thread.fresh,Heap.alloc,Heap.empty,hf,expected]

theorem next_eq_some_iff {s t : Shared K σ} {a : Use K σ} : s.next a = some t ↔ s.step a = .ok t := by
  unfold next
  cases s.step a <;> simp [Except.toOption]

section Step
variable {home home' : Option K} {s t : Shared K σ} {f : ℕ}

/-- A context that is saved changes no state. -/
theorem state_modify_ctx (fibers : Heap (Fiber K)) (i j : ℕ) (ctx : Context K) :
    ((fibers.modify i fun x => { x with ctx := ctx }).get j).map (·.state) = (fibers.get j).map (·.state) := by
  rw [Heap.get_modify]
  split_ifs
  · rw [Option.map_map]
    rfl
  · rfl

theorem arrive_new (hl : s.locals s.thread.stack = []) (hcur : s.thread.frame.cur = some f) :
    s.arrive = .ok { s with
      locals := Function.update s.locals s.thread.stack [some f]
      useCount := Function.update s.useCount f (s.useCount f + 1) } := by
  simp [arrive,hl,hcur,acquire,push]

theorem arrive_call {l : List (Option ℕ)} (hl : s.locals s.thread.stack = none :: l) :
    s.arrive = .ok { s with locals := Function.update s.locals s.thread.stack l } := by
  simp [arrive,hl,pop]

theorem arrive_yield {l : List (Option ℕ)} (hl : s.locals s.thread.stack = some f :: l) (hu : 1 < s.useCount f) :
    s.arrive = .ok { s with
      locals := Function.update s.locals s.thread.stack l
      useCount := Function.update s.useCount f (s.useCount f - 1) } := by
  simp [arrive,hl,pop,release,hu]

/-- A step that leaves all fibers but one as they are. -/
structure Moves (home' : Option K) (s t : Shared K σ) (f : ℕ) : Prop where
  counted : Counted home' t
  others : ∀ i, i ≠ f → t.useCount i = s.useCount i ∧ t.handles i = s.handles i ∧
    t.locals (.own i) = s.locals (.own i) ∧ t.stateOf i = s.stateOf i ∧
    (t.thread.stack = .own i ↔ s.thread.stack = .own i)

theorem Counted.change (h : Counted home s) (hS : Switching home' t.thread)
    (hmain : t.locals .thread = if t.thread.stack = .thread then [] else [none])
    (hother : ∀ i, i ≠ f → t.useCount i = s.useCount i ∧ t.handles i = s.handles i ∧
      t.locals (.own i) = s.locals (.own i) ∧ t.stateOf i = s.stateOf i ∧
      (t.thread.stack = .own i ↔ s.thread.stack = .own i))
    (hf : t.CountedAt f) : Moves home' s t f := by
  refine ⟨⟨hS,hmain,fun i => ?_⟩,hother⟩
  by_cases hi : i = f
  · exact hi ▸ hf
  · obtain ⟨hcount,hhandles,hlocals,hstate,hrun⟩ := hother i hi
    obtain ⟨hc,ha,hl⟩ := h.fiber i
    refine ⟨?_,?_,fun h0 => ?_⟩
    · simpa [hcount,hhandles,ofLibrary,hlocals] using hc
    · rw [hcount,hstate]
      exact ha
    · rw [hlocals,hl h0,hstate]
      simp only [hrun]

theorem Moves.goOn (h : Moves home' s t f) (code : K) : Moves home' s (t.goOn code) f :=
  ⟨⟨h.counted.switching.goOn code,h.counted.mainLocals,fun i =>
    ⟨(h.counted.fiber i).count,(h.counted.fiber i).alive,(h.counted.fiber i).locals⟩⟩,h.others⟩

theorem Counted.alive (h : Counted home s) (hf : 0 < s.handles f) : ∃ x, s.thread.fibers.get f = some x := by
  have hc := h.fiber f
  have hs := hc.alive.mp (by rw [hc.count]; omega)
  simpa [stateOf,Option.isSome_iff_exists] using hs

/-- One more shared pointer for the user. -/
theorem Counted.handle (h : Counted home s) (hf : (s.stateOf f).isSome = true) :
    Moves home s ({ s with handles := Function.update s.handles f (s.handles f + 1) }.acquire f) f := by
  refine h.change (f := f) h.switching h.mainLocals (fun i hi => by simp [acquire,stateOf,hi]) ?_
  obtain ⟨hc,ha,hl⟩ := h.fiber f
  refine ⟨?_,?_,hl⟩
  · simp only [acquire,Function.update_self,hc]
    change _ = s.handles f + 1 + s.ofLibrary f
    omega
  · simpa [acquire,stateOf] using hf

theorem Counted.create (h : Counted home s) (cb : K) (stacksize : ℕ) (code : K) {t : Shared K σ}
    (ht : s.step (.create cb stacksize code) = .ok t) : Moves home s t s.thread.fibers.next := by
  obtain rfl := Except.ok.inj ht
  obtain ⟨m,hm,_⟩ := h.switching.mainFiber
  have hne : s.thread.fibers.next ≠ 0 := (Nat.zero_lt_of_lt (Heap.lt_next hm)).ne'
  have hnone : s.stateOf s.thread.fibers.next = none := by simp [stateOf]
  have hlocals : s.locals (.own s.thread.fibers.next) = [] := by
    simpa [hnone,expected] using (h.fiber s.thread.fibers.next).locals hne
  refine h.change (f := s.thread.fibers.next) ((h.switching.newFiber cb stacksize).goOn code) h.mainLocals
    (fun i hi => ⟨by simp [hi],by simp [hi],rfl,?_,Iff.rfl⟩) ⟨?_,?_,fun _ => ?_⟩
  · simp [stateOf,Thread.goOn,Thread.newFiber,Heap.get_alloc,hi]
  · simp [ofLibrary,hne,hlocals]
  · simp [stateOf,Thread.goOn,Thread.newFiber]
  · simpa [stateOf,Thread.goOn,Thread.newFiber,expected] using hlocals

theorem Counted.reset (h : Counted home s) {cb code : K} {t : Shared K σ} (ht : s.step (.reset f cb code) = .ok t) :
    Moves home s t f := by
  obtain ⟨u,hu,ht⟩ := bind_eq_ok_iff.mp ht
  obtain rfl := Except.ok.inj ht
  have hS := (h.switching.reset hu).1
  obtain ⟨x,hx,hstack,hidle,rfl⟩ := Thread.reset_cases hu
  have hf : f ≠ 0 := by
    rintro rfl
    obtain ⟨m,hm,hmstack,_⟩ := h.switching.mainFiber
    obtain rfl := Option.some.inj (hx.symm.trans hm)
    exact absurd (hmstack.symm.trans hstack) Bool.false_ne_true
  obtain ⟨hc,ha,hl⟩ := h.fiber f
  have hlocals : s.locals (.own f) = [] := by
    rw [hl hf,stateOf,hx,Option.map_some]
    rcases hidle with hst | hst | hst <;> simp [hst,expected]
  have hsame : Function.update s.locals (.own f) [] = s.locals := by rw [← hlocals,Function.update_eq_self]
  rw [hsame]
  refine h.change (f := f) (hS.goOn code) h.mainLocals (fun i hi => ⟨rfl,rfl,rfl,?_,Iff.rfl⟩) ⟨hc,?_,fun _ => ?_⟩
  · simp [stateOf,Thread.goOn,Heap.get_modify_ne _ _ hi]
  · simpa [stateOf,Thread.goOn,hx] using ha
  · simp [stateOf,Thread.goOn,hx,hlocals,expected]

/-- The last shared pointer is a handle to a child that is not inside its callback. -/
theorem Counted.last (h : Counted home s) (hf : 0 < s.handles f) (hu : s.useCount f ≤ 1) :
    f ≠ 0 ∧ s.handles f = 1 ∧ s.locals (.own f) = [] ∧ s.useCount f = 1 := by
  have hc := (h.fiber f).count
  have hne : f ≠ 0 := by
    rintro rfl
    simp only [ofLibrary,↓reduceIte] at hc
    omega
  rw [ofLibrary,if_neg hne] at hc
  exact ⟨hne,by omega,List.eq_nil_of_length_eq_zero (by omega),by omega⟩

/-- A handle goes; the fiber goes with the last one, unless it looks as if it were running. -/
theorem Counted.drop_cases (h : Counted home s) (hf : 0 < s.handles f) (code : K) :
    (1 < s.useCount f ∧ s.step (.drop f code) = .ok ({ s with
      handles := Function.update s.handles f (s.handles f - 1)
      useCount := Function.update s.useCount f (s.useCount f - 1) }.goOn code)) ∨
    (s.useCount f = 1 ∧ s.stateOf f = some .exec ∧ s.step (.drop f code) =
      .error (.assertion "state_ == INIT || state_ == TERM || state_ == EXECPT".toList)) ∨
    (s.useCount f = 1 ∧ (s.stateOf f = some .init ∨ s.stateOf f = some .term ∨ s.stateOf f = some .execpt) ∧
      s.step (.drop f code) = .ok ({ s with
        thread := { s.thread with
          fibers := s.thread.fibers.free f
          fiberCount := (s.thread.fiberCount + (2 ^ 64 - 1)) % 2 ^ 64 }
        handles := Function.update s.handles f 0
        useCount := Function.update s.useCount f 0 }.goOn code)) := by
  by_cases hu : s.useCount f ≤ 1
  · obtain ⟨hne,hhandles,hlocals,hone⟩ := h.last hf hu
    obtain ⟨x,hx⟩ := h.alive hf
    have hstack := (h.switching.children f x hne hx).hasStack
    have hstate : s.stateOf f = some x.state := by simp [stateOf,hx]
    have hl := (h.fiber f).locals hne
    rw [hlocals,hstate] at hl
    right
    by_cases hidle : x.state = .init ∨ x.state = .term ∨ x.state = .execpt
    · right
      refine ⟨hone,by simpa [hstate] using hidle,?_⟩
      simp [step,release,hu,Thread.destroy,Thread.deref,hx,hstack,check,hidle,bind,Except.bind,pure,Except.pure,
        hhandles]
    · left
      refine ⟨hone,?_,?_⟩
      · cases hst : x.state with
        | exec => rw [hstate,hst]
        | hold | ready => simp [hst,expected] at hl
        | init | term | execpt => exact absurd (by simp [hst]) hidle
      · simp [step,release,hu,Thread.destroy,Thread.deref,hx,hstack,check,hidle,bind,Except.bind]
  · exact .inl ⟨by omega,by simp [step,release,hu,bind,Except.bind,pure,Except.pure]⟩

theorem Counted.drop (h : Counted home s) (hf : 0 < s.handles f) {code : K} {t : Shared K σ}
    (ht : s.step (.drop f code) = .ok t) : Moves home s t f := by
  obtain ⟨hc,ha,hl⟩ := h.fiber f
  obtain ⟨hu,hs⟩ | ⟨_,_,hs⟩ | ⟨hu,hidle,hs⟩ := h.drop_cases hf code
  · obtain rfl := Except.ok.inj (hs.symm.trans ht)
    apply Moves.goOn
    refine h.change (f := f) h.switching h.mainLocals (fun i hi => by simp [stateOf,hi]) ⟨?_,?_,hl⟩
    · simp only [Function.update_self,hc]
      change _ = s.handles f - 1 + s.ofLibrary f
      omega
    · simpa [stateOf] using ⟨fun _ => by simpa [stateOf] using ha.mp (by omega),fun _ => by omega⟩
  · cases hs.symm.trans ht
  · obtain ⟨hne,hhandles,hlocals,_⟩ := h.last hf hu.le
    obtain rfl := Except.ok.inj (hs.symm.trans ht)
    have hrun : s.thread.stack ≠ .own f := by
      obtain ⟨x,hx⟩ := h.alive hf
      refine h.switching.not_running hx ?_
      simpa [stateOf,hx] using hidle
    apply Moves.goOn
    refine h.change (f := f) (h.switching.free hne hrun _) h.mainLocals
      (fun i hi => by simp [stateOf,hi,Heap.get_free]) ⟨?_,?_,fun _ => ?_⟩
    · simp [ofLibrary,hne,hlocals]
    · simp [stateOf,Heap.get_free]
    · simp [stateOf,Heap.get_free,hlocals,expected]

/-- A child that has been switched to stands in `MainFunc` only: it has just entered it, or
the yield that it was in has returned. -/
theorem Counted.swapIn (h : Counted home s) {code : K} (ha : s.ByHandle (.swapIn f code)) {t : Shared K σ}
    (ht : s.step (.swapIn f code) = .ok t) : Moves (some code) s t f := by
  obtain ⟨hhandle,hstack,hmain⟩ := ha
  have hf : f ≠ 0 := by
    rintro rfl
    exact hmain h.switching.threadFiber
  obtain ⟨x,hx⟩ := h.alive hhandle
  obtain ⟨u,hu,ht⟩ := bind_eq_ok_iff.mp ht
  have hS := (h.switching.swapIn hf hstack hu).1
  have he : x.state ≠ .exec := by
    obtain ⟨y,hy,hu⟩ := bind_eq_ok_iff.mp hu
    obtain ⟨_,he,_⟩ := bind_eq_ok_iff.mp hu
    obtain rfl := Option.some.inj (hx.symm.trans (Thread.deref_eq_ok_iff.mp hy))
    exact of_decide_eq_true (check_eq_ok_iff.mp he)
  obtain ⟨_,herr⟩ | ⟨hlive,k,hk⟩ := h.switching.swapIn_cases hf hx he code
  · cases herr.symm.trans hu
  obtain rfl := Except.ok.inj (hk.symm.trans hu)
  obtain ⟨hc,hal,hl⟩ := h.fiber f
  rw [ofLibrary,if_neg hf] at hc
  have hstate : s.stateOf f = some x.state := by simp [stateOf,hx]
  have hmainLocals : s.locals .thread = [] := by simpa [hstack] using h.mainLocals
  have hl := hl hf
  rw [hstate] at hl
  have ht' : t = ⟨s.thread.entered f code k,s.handles,
      Function.update (Function.update s.locals .thread [none]) (.own f) [some f],
      Function.update s.useCount f (s.handles f + 1)⟩ := by
    cases hst : x.state with
    | exec => exact absurd hst he
    | term | execpt => simp [hst] at hlive
    | init =>
      rw [hst] at hl
      simp only [expected] at hl
      rw [arrive_new (f := f) (by simp [push,Thread.entered,hstack,hl]) rfl] at ht
      rw [← Except.ok.inj ht]
      simp [push,Thread.entered,hstack,hmainLocals,hc,hl]
    | hold | ready =>
      rw [hst] at hl
      simp only [expected] at hl
      rw [arrive_yield (f := f) (l := [some f]) (by simp [push,Thread.entered,hstack,hl])
        (by simp [push,hc,hl])] at ht
      rw [← Except.ok.inj ht]
      simp [push,Thread.entered,hstack,hmainLocals,hc,hl]
  subst ht'
  refine h.change (f := f) hS ?_ (fun i hi => ⟨?_,rfl,?_,?_,?_⟩) ⟨?_,?_,fun _ => ?_⟩
  · simp [Thread.entered]
  · simp [hi]
  · simp [hi]
  · simp [stateOf,Thread.entered,state_modify_ctx,Heap.get_modify_ne _ _ hi]
  · simp [Thread.entered,hstack,Ne.symm hi]
  · simp [ofLibrary,hf]
  · simp [stateOf,Thread.entered,state_modify_ctx,hx]
  · simp [stateOf,Thread.entered,state_modify_ctx,hx,expected]

theorem getThis_eq (h : Switching home s.thread) (halive : (s.stateOf s.thread.stack.fiber).isSome = true) :
    s.getThis = .ok (s.acquire s.thread.stack.fiber,s.thread.stack.fiber) := by
  obtain ⟨x,hx⟩ : ∃ x, s.thread.fibers.get s.thread.stack.fiber = some x := by
    simpa [stateOf,Option.isSome_iff_exists] using halive
  simp [getThis,Thread.getThis,h.this,Thread.deref,hx,bind,Except.bind,pure,Except.pure]

theorem Counted.running (h : Counted home s) : (s.stateOf s.thread.stack.fiber).isSome = true := by
  cases hs : s.thread.stack with
  | thread =>
    obtain ⟨x,hx,_⟩ := h.switching.mainFiber
    simp [stateOf,Stack.fiber,hx]
  | own f =>
    obtain ⟨_,x,hx,_⟩ := h.switching.running f hs
    simp [stateOf,Stack.fiber,hx]

theorem yieldTo_child (h : Switching home s.thread) (hs : s.thread.stack = .own f) (y : Yield) (code : K) :
    ∃ code', home = some code' ∧ s.thread.yieldTo y code =
      .ok (s.thread.left f (fun x => { x with state := y.state }) (.call { s.thread.frame with code := code })
        code') := by
  obtain ⟨hf,x,hx,he⟩ := h.running f hs
  have hthis : s.thread.tFiber = some f := by rw [h.this,hs]; rfl
  obtain ⟨code',hcode,ht⟩ := h.swapOut_eq hs (fun x => { x with state := y.state })
    (.call { s.thread.frame with code := code })
  refine ⟨code',hcode,Eq.trans ?_ ht⟩
  simp only [Thread.yieldTo,Thread.getThis,hthis,Thread.deref,hx,he,check,bind,Except.bind,pure,Except.pure,
    decide_true,↓reduceIte]
  rfl

theorem Counted.yield_child (h : Counted home s) (hs : s.thread.stack = .own f) {y : Yield} {code : K}
    {t : Shared K σ} (ht : s.step (.yieldTo y code) = .ok t) : Moves home s t f := by
  obtain ⟨hf,x,hx,he⟩ := h.switching.running f hs
  obtain ⟨code',_,hyield⟩ := yieldTo_child h.switching hs y code
  have hcur : s.thread.frame.cur = some f := by rw [h.switching.cur,hs]; rfl
  obtain ⟨r,hr,ht⟩ := bind_eq_ok_iff.mp ht
  obtain rfl := Except.ok.inj ((getThis_eq h.switching h.running).symm.trans hr)
  obtain ⟨u,hu,ht⟩ := bind_eq_ok_iff.mp ht
  obtain rfl := Except.ok.inj (hyield.symm.trans hu)
  obtain ⟨hc,_,hl⟩ := h.fiber f
  have hl : s.locals (.own f) = [some f] := by simpa [stateOf,hx,he,hs,expected] using hl hf
  have hc : s.useCount f = s.handles f + 1 := by simpa [ofLibrary,hf,hl] using hc
  have hmain : s.locals .thread = [none] := by simpa [hs] using h.mainLocals
  rw [arrive_call (l := []) (by simp [acquire,push,Thread.left,hs,hmain])] at ht
  obtain rfl := Except.ok.inj ht
  have hS := (h.switching.step (a := .yieldTo y code) trivial hyield).1
  refine h.change (f := f) hS ?_ (fun i hi => ⟨?_,rfl,?_,?_,?_⟩) ⟨?_,?_,fun _ => ?_⟩
  · simp [Thread.left]
  · simp [acquire,push,Stack.fiber,hs,hi]
  · simp [acquire,push,Stack.fiber,hs,hi,Thread.left]
  · simp [stateOf,Thread.left,Heap.get_modify_ne _ _ hi]
  · simp [Thread.left,hs,Ne.symm hi]
  · simp [ofLibrary,hf,acquire,push,Stack.fiber,hs,Thread.left,hl,hc]
  · simp [stateOf,Thread.left,hx,acquire,push,Stack.fiber,hs]
  · simp [stateOf,Thread.left,hx,acquire,push,Stack.fiber,hs,hl]
    cases y <;> rfl

theorem Counted.yield_main (h : Counted home s) (hs : s.thread.stack = .thread) {y : Yield} {code : K}
    {t : Shared K σ} (ht : s.step (.yieldTo y code) = .ok t) : Moves home s t 0 := by
  obtain ⟨x,hx,_⟩ := h.switching.mainFiber
  obtain ⟨r,hr,ht⟩ := bind_eq_ok_iff.mp ht
  obtain rfl := Except.ok.inj ((getThis_eq h.switching h.running).symm.trans hr)
  obtain ⟨u,hu,ht⟩ := bind_eq_ok_iff.mp ht
  have hu : s.thread.step (.yieldTo y code) = .ok u := hu
  have hS := (h.switching.step (a := .yieldTo y code) trivial hu).1
  rw [h.switching.yield_main hs hx] at hu
  split_ifs at hu with he
  obtain rfl := Except.ok.inj hu
  obtain ⟨hc,_,_⟩ := h.fiber 0
  have hmain : s.locals .thread = [] := by simpa [hs] using h.mainLocals
  have hc : s.useCount 0 = s.handles 0 + 1 := by simpa [ofLibrary] using hc
  rw [arrive_yield (f := 0) (l := []) (by simp [acquire,push,Stack.fiber,hs,hmain])
    (by simp [acquire,push,Stack.fiber,hs,hc])] at ht
  obtain rfl := Except.ok.inj ht
  refine h.change (f := 0) hS ?_ (fun i hi => ⟨?_,rfl,?_,?_,Iff.rfl⟩) ⟨?_,?_,fun h0 => absurd rfl h0⟩
  · simp [hs]
  · simp [acquire,push,Stack.fiber,hs,hi]
  · simp [acquire,push,Stack.fiber,hs]
  · simp [stateOf,Heap.get_modify_ne _ _ hi]
  · simp [ofLibrary,acquire,push,Stack.fiber,hs,hc]
  · simp [stateOf,hx,acquire,push,Stack.fiber,hs,hc]

/-- What `MainFunc` makes of the state of a fiber whose callback has ended. -/
def mark (state : Option State) (x : Fiber K) : Fiber K := { x with state := state.getD x.state }

/-- The end of a callback lets go of the library's own shared pointer. Without a handle to
the fiber that is the last one: the fiber is destroyed, with the stack that the code is on,
before it switches away. -/
theorem Counted.callbackEnds_cases (h : Counted home s) (hs : s.thread.stack = .own f) {state : Option State}
    (hst : state = none ∨ state = some .term ∨ state = some .execpt) :
    (s.handles f = 0 ∧ s.callbackEnds state = .error (if state.isSome then .dangling else
      .assertion "state_ == INIT || state_ == TERM || state_ == EXECPT".toList)) ∨
    (0 < s.handles f ∧ ∃ code, s.callbackEnds state = .ok ⟨s.thread.left f (mark state) .finished code,s.handles,
      Function.update (Function.update s.locals (.own f) []) .thread [],
      Function.update s.useCount f (s.handles f)⟩) := by
  obtain ⟨hf,x,hx,he⟩ := h.switching.running f hs
  have hcur : s.thread.frame.cur = some f := by rw [h.switching.cur,hs]; rfl
  have hstack := (h.switching.children f x hf hx).hasStack
  obtain ⟨hc,_,hl⟩ := h.fiber f
  have hl : s.locals (.own f) = [some f] := by simpa [stateOf,hx,he,hs,expected] using hl hf
  have hc : s.useCount f = s.handles f + 1 := by simpa [ofLibrary,hf,hl] using hc
  have hmain : s.locals .thread = [none] := by simpa [hs] using h.mainLocals
  have hmark : (match state with
      | some state => s.thread.setState f state
      | none => s.thread) = { s.thread with fibers := s.thread.fibers.modify f (mark state) } := by
    cases state with
    | none =>
      have hid : (mark none : Fiber K → Fiber K) = fun x => x := rfl
      rw [hid,Heap.modify_id]
    | some state => rfl
  obtain hzero | hpos := Nat.eq_zero_or_pos (s.handles f)
  · left
    refine ⟨hzero,?_⟩
    have hu : s.useCount f ≤ 1 := by omega
    simp only [callbackEnds,hcur,hmark,pop,release,hu,↓reduceIte,bind,Except.bind]
    rcases hst with rfl | rfl | rfl <;>
      simp [Thread.destroy,Thread.deref,hx,mark,hstack,he,check,Thread.swapOut,h.switching.threadFiber,Thread.setThis,
        Thread.swapcontext,Heap.get_free,bind,Except.bind,pure,Except.pure]
  · right
    obtain ⟨code,_,hout⟩ := h.switching.swapOut_eq hs (mark state) .finished
    refine ⟨hpos,code,?_⟩
    have hu : ¬ s.useCount f ≤ 1 := by omega
    simp only [callbackEnds,hcur,hmark,pop,release,hu,↓reduceIte,bind,Except.bind]
    rw [hout]
    refine (arrive_call (l := []) ?_).trans ?_
    · simp [Thread.left,hs,hmain]
    · simp [Thread.left,hs,hl,hc]

theorem Counted.callbackEnds (h : Counted home s) (hs : s.thread.stack = .own f) {state : Option State}
    (hst : state = none ∨ state = some .term ∨ state = some .execpt) {t : Shared K σ}
    (ht : s.callbackEnds state = .ok t) : Moves home s t f := by
  obtain ⟨hf,x,hx,he⟩ := h.switching.running f hs
  obtain ⟨_,herr⟩ | ⟨hpos,code,hok⟩ := h.callbackEnds_cases hs hst
  · cases herr.symm.trans ht
  obtain rfl := Except.ok.inj (hok.symm.trans ht)
  have hS : Switching home (s.thread.left f (mark state) .finished code) := by
    refine h.switching.left hs (fun y hy hye => ?_) code
    have hmark : (mark state y).state = .exec ∨ (mark state y).state = .term ∨ (mark state y).state = .execpt := by
      rcases hst with rfl | rfl | rfl <;> simp [mark,hye]
    refine ⟨hy.hasStack,hy.cb,fun hi => ?_,fun hi => ?_,fun _ => rfl⟩
    · simp only at hi
      simp [hi] at hmark
    · simp only at hi
      rcases hi with hi | hi <;> simp [hi] at hmark
  refine h.change (f := f) hS ?_ (fun i hi => ⟨?_,rfl,?_,?_,?_⟩) ⟨?_,?_,fun _ => ?_⟩
  · simp [Thread.left]
  · simp [hi]
  · simp [hi]
  · simp [stateOf,Thread.left,Heap.get_modify_ne _ _ hi]
  · simp [Thread.left,hs,Ne.symm hi]
  · simp [ofLibrary,hf]
  · simpa [stateOf,Thread.left,hx] using hpos
  · rcases hst with rfl | rfl | rfl <;> simp [stateOf,Thread.left,hx,mark,he,expected]

theorem Counted.child_of_callbackEnds (h : Counted home s) {state : Option State} {t : Shared K σ}
    (ht : s.callbackEnds state = .ok t) : ∃ f, s.thread.stack = .own f := by
  cases hs : s.thread.stack with
  | own f => exact ⟨f,rfl⟩
  | thread =>
    have hcur : s.thread.frame.cur = none := by rw [h.switching.cur,hs]; rfl
    simp [Shared.callbackEnds,hcur] at ht

/-- Whom the running code can do anything to: its own fiber, a fiber it has a handle to,
and a new one. -/
def Reaches (s : Shared K σ) (f : ℕ) : Prop := f = s.thread.stack.fiber ∨ 0 < s.handles f ∨ s.stateOf f = none

theorem Counted.step (h : Counted home s) {a : Use K σ} (ha : s.ByHandle a) {t : Shared K σ} (ht : s.step a = .ok t) :
    ∃ home' f, Moves home' s t f ∧ s.Reaches f := by
  cases a with
  | segment x code =>
    obtain rfl := Except.ok.inj ht
    have hS := (h.switching.step (a := .segment x code) trivial rfl).1
    exact ⟨home,s.thread.stack.fiber,h.change hS h.mainLocals (fun _ _ => ⟨rfl,rfl,rfl,rfl,Iff.rfl⟩)
      ⟨(h.fiber _).count,(h.fiber _).alive,(h.fiber _).locals⟩,.inl rfl⟩
  | create cb stacksize code =>
    exact ⟨home,_,h.create cb stacksize code ht,.inr (.inr (by simp [stateOf]))⟩
  | copy f code =>
    obtain rfl := Except.ok.inj ht
    obtain ⟨x,hx⟩ := h.alive ha
    exact ⟨home,f,(h.handle (by simp [stateOf,hx])).goOn code,.inr (.inl ha)⟩
  | getThis code =>
    obtain ⟨r,hr,ht⟩ := bind_eq_ok_iff.mp ht
    obtain rfl := Except.ok.inj ((getThis_eq h.switching h.running).symm.trans hr)
    obtain rfl := Except.ok.inj ht
    exact ⟨home,_,(h.handle h.running).goOn code,.inl rfl⟩
  | drop f code => exact ⟨home,f,h.drop ha ht,.inr (.inl ha)⟩
  | reset f cb code => exact ⟨home,f,h.reset ht,.inr (.inl ha)⟩
  | swapIn f code => exact ⟨some code,f,h.swapIn ha ht,.inr (.inl ha.1)⟩
  | yieldTo y code =>
    cases hs : s.thread.stack with
    | thread => exact ⟨home,0,h.yield_main hs ht,.inl (by simp [hs,Stack.fiber])⟩
    | own f => exact ⟨home,f,h.yield_child hs ht,.inl (by simp [hs,Stack.fiber])⟩
  | callbackReturns =>
    have ht : s.callbackEnds (some .term) = .ok t := ht
    obtain ⟨f,hs⟩ := h.child_of_callbackEnds ht
    exact ⟨home,f,h.callbackEnds hs (by simp) ht,.inl (by simp [hs,Stack.fiber])⟩
  | callbackThrows std =>
    have ht : s.callbackEnds (if std then none else some .execpt) = .ok t := ht
    obtain ⟨f,hs⟩ := h.child_of_callbackEnds ht
    exact ⟨home,f,h.callbackEnds hs (by cases std <;> simp) ht,.inl (by simp [hs,Stack.fiber])⟩

end Step

/-- What the shared pointers mean in a state: they are all counted, a fiber lives as long
as there is one, and where letting go of one goes wrong. -/
structure Referenced (s : Shared K σ) : Prop where
  count : ∀ f, s.useCount f = s.handles f + s.ofLibrary f
  alive : ∀ f, 0 < s.useCount f ↔ (s.stateOf f).isSome = true
  suspended : ∀ f, f ≠ 0 → s.stateOf f = some .hold ∨ s.stateOf f = some .ready → s.ofLibrary f = 2
  /-- The one handle that cannot be dropped is the last one to a fiber that a
  `std::exception` has ended: its state is still EXEC. -/
  drop : ∀ f code, 0 < s.handles f →
    ((∃ t, s.step (.drop f code) = .ok t) ↔ ¬ (s.useCount f = 1 ∧ s.stateOf f = some .exec))
  destroyed : ∀ {f code t}, 0 < s.handles f → s.step (.drop f code) = .ok t →
    (t.stateOf f = none ↔ s.useCount f = 1)
  /-- The end of a callback is safe as long as somebody has a handle to its fiber. -/
  ends : ∀ {f a}, s.thread.stack = .own f → a = .callbackReturns ∨ (∃ std, a = .callbackThrows std) →
    ((∃ t, s.step a = .ok t) ↔ 0 < s.handles f)

theorem Counted.ends_iff {home : Option K} {s : Shared K σ} (h : Counted home s) {f : ℕ}
    (hs : s.thread.stack = .own f) {state : Option State}
    (hst : state = none ∨ state = some .term ∨ state = some .execpt) :
    (∃ t, s.callbackEnds state = .ok t) ↔ 0 < s.handles f := by
  obtain ⟨hzero,herr⟩ | ⟨hpos,code,hok⟩ := h.callbackEnds_cases hs hst
  · exact ⟨fun ⟨t,ht⟩ => (by cases herr.symm.trans ht),fun hpos => by omega⟩
  · exact ⟨fun _ => hpos,fun _ => ⟨_,hok⟩⟩

theorem Counted.referenced {home : Option K} {s : Shared K σ} (h : Counted home s) : Referenced s where
  count f := (h.fiber f).count
  alive f := (h.fiber f).alive
  suspended f hf hst := by
    rw [ofLibrary,if_neg hf,(h.fiber f).locals hf]
    rcases hst with hst | hst <;> simp [hst,expected]
  drop f code hf := by
    obtain ⟨hu,hs⟩ | ⟨hu,hst,hs⟩ | ⟨hu,hst,hs⟩ := h.drop_cases hf code
    · exact ⟨fun _ hn => by omega,fun _ => ⟨_,hs⟩⟩
    · exact ⟨fun ⟨t,ht⟩ => (by cases hs.symm.trans ht),fun hn => absurd ⟨hu,hst⟩ hn⟩
    · refine ⟨fun _ hn => ?_,fun _ => ⟨_,hs⟩⟩
      rcases hst with hst | hst | hst <;> simp [hst] at hn
  destroyed {f code t} hf ht := by
    have hm := h.drop hf ht
    have ha := (hm.counted.fiber f).alive
    obtain ⟨hu,hs⟩ | ⟨_,_,hs⟩ | ⟨hu,_,hs⟩ := h.drop_cases hf code
    · obtain rfl := Except.ok.inj (hs.symm.trans ht)
      have hpos : 0 < s.useCount f - 1 := by omega
      have hsome := ha.mp (by simpa [goOn] using hpos)
      exact ⟨fun hn => by simp [hn] at hsome,fun hone => by omega⟩
    · cases hs.symm.trans ht
    · obtain rfl := Except.ok.inj (hs.symm.trans ht)
      exact ⟨fun _ => hu,fun _ => by simp [stateOf,goOn,Thread.goOn,Heap.get_free]⟩
  ends {f a} hs ha := by
    rcases ha with rfl | ⟨std,rfl⟩
    · change (∃ t, s.callbackEnds (some .term) = .ok t) ↔ _
      exact h.ends_iff hs (by simp)
    · change (∃ t, s.callbackEnds (if std then none else some .execpt) = .ok t) ↔ _
      exact h.ends_iff hs (by cases std <;> simp)

theorem counted_run (stacksizeConfig : ℕ) {code : K} {acts : List (Use K σ)} {s : Shared K σ}
    (h : Runs next ByHandle (start stacksizeConfig code) acts s) : ∃ home, Counted home s := by
  refine h.invariant (P := fun s => ∃ home, Counted home s) ?_ ⟨none,counted_start stacksizeConfig code⟩
  rintro s t a ⟨home,hs⟩ ha hn
  obtain ⟨home',f,hm,_⟩ := hs.step ha (next_eq_some_iff.mp hn)
  exact ⟨home',hm.counted⟩

/-- In every run in which fibers are used through shared pointers only, and a fiber is
switched to by the main fiber only. -/
theorem referenced_run (stacksizeConfig : ℕ) {code : K} {acts : List (Use K σ)} {s : Shared K σ}
    (h : Runs next ByHandle (start stacksizeConfig code) acts s) : Referenced s := by
  obtain ⟨home,hs⟩ := counted_run stacksizeConfig h
  exact hs.referenced

/-- A suspended fiber that nobody has a handle to. -/
def Leaked (s : Shared K σ) (f : ℕ) (y : Yield) : Prop := f ≠ 0 ∧ s.handles f = 0 ∧ s.stateOf f = some y.state

theorem Counted.not_reaches {home : Option K} {s : Shared K σ} (h : Counted home s) {f : ℕ} {y : Yield}
    (hl : s.Leaked f y) : ¬ s.Reaches f := by
  obtain ⟨hf,hzero,hst⟩ := hl
  rintro (hrun | hpos | hnone)
  · cases hs : s.thread.stack with
    | thread => exact hf (by simpa [hs,Stack.fiber] using hrun)
    | own g =>
      obtain rfl : f = g := by simpa [hs,Stack.fiber] using hrun
      obtain ⟨_,x,hx,he⟩ := h.switching.running f hs
      cases y <;> simp [stateOf,hx,he,Yield.state] at hst
  · omega
  · simp [hnone] at hst

/-- In no run that goes on like this it is ever resumed again, or destroyed. -/
theorem leaked_run (stacksizeConfig : ℕ) {code : K} {acts acts' : List (Use K σ)} {s t : Shared K σ} {f : ℕ}
    {y : Yield} (h : Runs next ByHandle (start stacksizeConfig code) acts s) (hl : s.Leaked f y)
    (h' : Runs next ByHandle s acts' t) : t.Leaked f y := by
  have hinv := h'.invariant (P := fun u => (∃ home, Counted home u) ∧ u.Leaked f y) ?_
    ⟨counted_run stacksizeConfig h,hl⟩
  · exact hinv.2
  · rintro u v a ⟨⟨home,hu⟩,hlu⟩ ha hn
    obtain ⟨home',g,hm,hg⟩ := hu.step ha (next_eq_some_iff.mp hn)
    refine ⟨⟨home',hm.counted⟩,?_⟩
    have hne : f ≠ g := by
      rintro rfl
      exact hu.not_reaches hlu hg
    obtain ⟨_,hhandles,_,hstate,_⟩ := hm.others f hne
    exact ⟨hlu.1,hhandles.trans hlu.2.1,hstate.trans hlu.2.2⟩

/-- A child suspended in a yield. -/
def yieldActs : List (Use Unit Unit) := [.create () 0 (),.swapIn 1 (),.yieldTo .hold ()]

theorem referenced_yield : ∃ s, Runs next ByHandle (start 1048576 ()) yieldActs s ∧ Referenced s ∧
    s.useCount 1 = 3 := by
  have h := Runs.of_exec next ByHandle (start 1048576 ()) yieldActs (by decide)
  exact ⟨_,h,referenced_run 1048576 h,by decide⟩

/-- Behind it the only handle is dropped. -/
def dropped : Shared Unit Unit :=
  (Runs.exec next ByHandle (start 1048576 ()) (yieldActs ++ [.drop 1 ()])).get (by decide)

theorem leaked_dropped : ∃ t, Runs next ByHandle dropped [.create () 0 (),.swapIn 2 ()] t ∧ t.Leaked 1 .hold := by
  have h := Runs.of_exec next ByHandle (start 1048576 ()) (yieldActs ++ [.drop 1 ()]) (by decide)
  have h' := Runs.of_exec next ByHandle dropped [.create () 0 (),.swapIn 2 ()] (by decide)
  exact ⟨_,h',leaked_run 1048576 h ⟨by decide,by decide,by decide⟩ h'⟩

end Shared
end Zcs.Fibers
