import Zcs.Fibers.Refines

/-! # States of fibers, and what an exception leaves behind

Both results read the correspondence with the coroutines in a reachable state: the
history, which is what the coroutines record, determines the states and pointers.
-/
namespace Zcs.Fibers
variable {K σ : Type}

/-- The fiber whose code runs on a stack, if 0 is the main fiber. -/
def Stack.fiber : Stack → ℕ
  | .thread => 0
  | .own f => f

def NoThrow : Coroutines K σ → Act K σ → Prop
  | _,.callbackThrows _ => False
  | _,_ => True

instance (c : Coroutines K σ) (a : Act K σ) : Decidable (NoThrow c a) := by
  cases a <;> unfold NoThrow <;> infer_instance

/-- The pointers and states of a thread, given what has become of the coroutines. -/
structure StatesOk (s : Thread K σ) (c : Coroutines K σ) : Prop where
  threadFiber : s.tThreadFiber = some 0
  mainFiber : ∃ x, s.fibers.get 0 = some x ∧ x.state = .exec ∧ x.hasStack = false
  this : s.tFiber = some s.stack.fiber
  alive : ∀ f, f ≠ 0 → ((s.fibers.get f).isSome = true ↔ (c.phases.get f).isSome = true)
  exec : ∀ f x, f ≠ 0 → s.fibers.get f = some x → (x.state = .exec ↔ s.stack = .own f)
  suspended : ∀ f x y code, s.fibers.get f = some x → c.phases.get f = some (.suspended y code) →
    x.state = y.state
  returned : ∀ f x, s.fibers.get f = some x → c.phases.get f = some (.ended .returned) → x.state = .term

def NoneThrew (c : Coroutines K σ) : Prop := ∀ f std, c.phases.get f ≠ some (.ended (.threw std))

theorem noneThrew_modify {c : Coroutines K σ} (h : NoneThrew c) (f : ℕ) {p : Phase K}
    (hp : ∀ std, p ≠ .ended (.threw std)) : NoneThrew (c.setPhase f p) := by
  intro g std
  change (c.phases.modify f fun _ => p).get g ≠ _
  rw [Heap.get_modify]
  split_ifs
  · cases c.phases.get g <;> simp [hp]
  · exact h g std

theorem noneThrew_leave {c d : Coroutines K σ} {p : Phase K} (h : NoneThrew c) (hd : c.leave p = some d)
    (hp : ∀ std, p ≠ .ended (.threw std)) : NoneThrew d := by
  obtain ⟨f,_,_,_,rfl⟩ := Coroutines.leave_cases hd
  exact noneThrew_modify h f hp

theorem noneThrew_step {c d : Coroutines K σ} {a : Act K σ} (h : NoneThrew c) (ha : NoThrow c a)
    (hd : c.step a = some d) : NoneThrew d := by
  cases a with
  | segment x code => obtain rfl := Option.some.inj hd; exact h
  | newFiber cb _ code =>
    obtain rfl := Option.some.inj hd
    intro f std
    change (c.phases.alloc (.fresh cb)).get f ≠ _
    rw [Heap.get_alloc]
    split_ifs
    · simp
    · exact h f std
  | reset f cb code =>
    obtain ⟨_,_,_,rfl⟩ := Coroutines.reset_cases hd
    exact noneThrew_modify h f (by simp)
  | destroy f code =>
    obtain ⟨_,_,_,rfl⟩ := Coroutines.destroy_cases hd
    intro g std
    change (c.phases.free f).get g ≠ _
    rw [Heap.get_free]
    split_ifs
    · simp
    · exact h g std
  | swapIn f code =>
    obtain ⟨_,_,_,_,_,_,rfl⟩ := Coroutines.swapIn_cases hd
    exact noneThrew_modify h f (by simp)
  | yieldTo y code => exact noneThrew_leave h hd (by simp)
  | callbackReturns => exact noneThrew_leave h hd (by simp)
  | callbackThrows std => cases ha

theorem state_eq_exec_iff {c : Coroutines K σ} (h : NoneThrew c) {f : ℕ} {p : Phase K}
    (hf : c.phases.get f = some p) : p.state = .exec ↔ p = .running := by
  cases p with
  | fresh => simp [Phase.state]
  | suspended y => cases y <;> simp [Phase.state,Yield.state]
  | running => simp [Phase.state]
  | ended e =>
    cases e with
    | returned => simp [Phase.state]
    | threw std => exact absurd hf (h f std)

theorem statesOk {s : Thread K σ} {c : Coroutines K σ} (hR : Refines 0 s c) (h : NoneThrew c) :
    StatesOk s c := by
  have hstack := hR.stack_eq
  -- every other fiber object is a coroutine
  have hphase : ∀ f x, f ≠ 0 → s.fibers.get f = some x → ∃ p, c.phases.get f = some p ∧ IsChild f p x := by
    intro f x hne hx
    cases hf : c.phases.get f with
    | none =>
      rw [hR.children.others f hne hf] at hx
      cases hx
    | some p =>
      obtain ⟨y,hy,hc⟩ := hR.children.child f p hf
      obtain rfl := Option.some.inj (hx.symm.trans hy)
      exact ⟨p,rfl,hc⟩
  constructor
  · exact hR.threadFiber
  · obtain ⟨x,hx,he,hs,_⟩ := hR.children.mainFiber
    exact ⟨x,hx,he,hs⟩
  · have hat := hR.control
    cases hc : c.control with
    | main k =>
      rw [hc] at hat
      rw [hat.1,hat.2.2]
      rfl
    | child f k mainCode =>
      rw [hc] at hat
      rw [hat.1,hat.2.2.1]
      rfl
  · intro f hne
    constructor
    · intro hs
      obtain ⟨x,hx⟩ := Option.isSome_iff_exists.mp hs
      obtain ⟨p,hp,_⟩ := hphase f x hne hx
      exact Option.isSome_of_eq_some hp
    · intro hs
      obtain ⟨p,hp⟩ := Option.isSome_iff_exists.mp hs
      obtain ⟨x,hx,_⟩ := hR.children.child f p hp
      exact Option.isSome_of_eq_some hx
  · intro f x hne hx
    obtain ⟨p,hp,hc⟩ := hphase f x hne hx
    have hrun := hR.running f
    rw [hp,Option.some.injEq,← state_eq_exec_iff h hp,← hc.state] at hrun
    rw [hrun,hstack]
    cases c.control.running <;> simp [stackOf]
  · intro f x y code hx hp
    obtain ⟨x',hx',hc⟩ := hR.children.child f _ hp
    obtain rfl := Option.some.inj (hx.symm.trans hx')
    exact hc.state
  · intro f x hx hp
    obtain ⟨x',hx',hc⟩ := hR.children.child f _ hp
    obtain rfl := Option.some.inj (hx.symm.trans hx')
    exact hc.state

/-- After any history without exceptions that keeps to the rules of use, no assertion
has failed, the states and pointers are what the history says, and the next call that
keeps to the rules does not fail an assertion either. -/
theorem statesOk_of_run (stacksizeConfig : ℕ) {code : K} {acts : List (Act K σ)} {c : Coroutines K σ}
    (h : Runs Coroutines.step NoThrow (Coroutines.start code) acts c) :
    ∃ s, Runs Thread.next (fun _ _ => True) (Thread.start stacksizeConfig code) acts s ∧ StatesOk s c ∧
      ∀ a d, c.step a = some d → ∃ t, s.step a = .ok t := by
  obtain ⟨s,hs,hR⟩ := Refines.run stacksizeConfig h
  have hn : NoneThrew c := h.invariant noneThrew_step fun f std hf => by cases hf
  refine ⟨s,hs,statesOk hR hn,fun a d ha => ?_⟩
  obtain ⟨t,ht,_⟩ := hR.step ha
  exact ⟨t,ht⟩

def readyActs : List (Act Unit Unit) :=
  [.newFiber () 0 (),.newFiber () 0 (),.swapIn 1 (),.segment () (),.yieldTo .ready ()]

theorem statesOk_ready : ∃ s c, Runs Thread.next (fun _ _ => True) (Thread.start 1048576 ()) readyActs s ∧
    StatesOk s c ∧ s.stack = .thread ∧ ∃ x, s.fibers.get 1 = some x ∧ x.state = .ready := by
  have h := Runs.of_exec Coroutines.step NoThrow (Coroutines.start ()) readyActs (by decide)
  obtain ⟨s,hs,hok,_⟩ := statesOk_of_run 1048576 h
  have hexec := Runs.of_exec Thread.next (fun _ _ => True) (Thread.start 1048576 ()) readyActs (by decide)
  obtain rfl := Option.some.inj (hexec.exec_eq.symm.trans hs.exec_eq)
  exact ⟨_,_,hs,hok,by decide,_,rfl,hok.suspended 1 _ .ready () rfl rfl⟩

/-- What the owner of a fiber may expect of it after an exception: its state says so,
control is the main fiber's in every respect, and it can be used again or destroyed. -/
structure Recovered (s : Thread K σ) (f : ℕ) : Prop where
  state : ∃ x, s.fibers.get f = some x ∧ x.state = .execpt
  this : s.tFiber = s.tThreadFiber
  again : ∀ cb code code', ∃ t u, s.step (.reset f cb code) = .ok t ∧ t.step (.swapIn f code') = .ok u ∧
    u.stack = .own f ∧ u.frame.code = cb
  destroyed : ∀ code, ∃ t, s.step (.destroy f code) = .ok t

/-- A fiber whose callback has thrown is left as it should be exactly if what was
thrown is no `std::exception`. -/
theorem recovered_iff (stacksizeConfig : ℕ) {code : K} {acts : List (Act K σ)} {c : Coroutines K σ} {f : ℕ}
    {std : Bool} (h : Runs Coroutines.step (fun _ _ => True) (Coroutines.start code) acts c)
    (hf : c.phases.get f = some (.ended (.threw std))) (hmain : c.control.running = none) :
    ∃ s, Runs Thread.next (fun _ _ => True) (Thread.start stacksizeConfig code) acts s ∧
      s.stack = .thread ∧ (Recovered s f ↔ std = false) := by
  obtain ⟨s,hs,hR⟩ := Refines.run stacksizeConfig h
  refine ⟨s,hs,by rw [hR.stack_eq,hmain]; rfl,?_⟩
  obtain ⟨x,hx,hc⟩ := hR.children.child f _ hf
  obtain ⟨k₀,hk₀⟩ : ∃ k₀, c.control = .main k₀ := by
    cases hcon : c.control with
    | main k => exact ⟨k,rfl⟩
    | child g k mainCode => simp [hcon,Control.running] at hmain
  constructor
  · rintro ⟨⟨x',hx',he⟩,_,_,_⟩
    obtain rfl := Option.some.inj (hx.symm.trans hx')
    rw [hc.state] at he
    cases std with
    | false => rfl
    | true => cases he
  · rintro rfl
    refine ⟨⟨x,hx,hc.state⟩,?_,fun cb code code' => ?_,fun code => ?_⟩
    · have hat := hR.control
      rw [hk₀] at hat
      rw [hat.2.2,hR.threadFiber]
    · have hreset : c.step (.reset f cb code) = some ((c.setPhase f (.fresh cb)).goOn code) := by
        simp [Coroutines.step,hf,Phase.idle]
      obtain ⟨t,ht,hRt⟩ := hR.step hreset
      have hswap : ((c.setPhase f (.fresh cb)).goOn code).step (.swapIn f code') =
          some (((c.setPhase f (.fresh cb)).goOn code).enter f cb code') := by
        simp [Coroutines.step,Coroutines.goOn,Coroutines.setPhase,hk₀,Control.goOn,hf]
      obtain ⟨u,hu,hRu⟩ := hRt.step hswap
      obtain ⟨hstack,hframe,_⟩ := hRu.control
      exact ⟨t,u,ht,hu,hstack,by rw [hframe]⟩
    · have hdestroy : c.step (.destroy f code) =
          some (({ c with phases := c.phases.free f } : Coroutines K σ).goOn code) := by
        simp only [Coroutines.step,hf,Phase.idle,↓reduceIte]
      obtain ⟨t,ht,_⟩ := hR.step hdestroy
      exact ⟨t,ht⟩

def throwActs (std : Bool) : List (Act Unit Unit) :=
  [.newFiber () 0 (),.swapIn 1 (),.yieldTo .hold (),.swapIn 1 (),.callbackThrows std]

theorem recovered_other : ∃ s, Runs Thread.next (fun _ _ => True) (Thread.start 1048576 ()) (throwActs false) s ∧
    s.stack = .thread ∧ Recovered s 1 := by
  let c : Coroutines Unit Unit := (Runs.exec Coroutines.step (fun _ _ => True) (Coroutines.start ())
    (throwActs false)).get (by decide)
  have hf : c.phases.get 1 = some (.ended (.threw false)) := rfl
  obtain ⟨s,hs,hstack,hrec⟩ := recovered_iff 1048576 (Runs.of_exec _ _ _ _ _) hf rfl
  exact ⟨s,hs,hstack,hrec.mpr rfl⟩

/-- After a `std::exception` the state is still EXEC. -/
theorem std_not_recovered : ¬ ∀ (acts : List (Act Unit Unit)) (c : Coroutines Unit Unit) (f : ℕ) (std : Bool)
    (s : Thread Unit Unit), Runs Coroutines.step (fun _ _ => True) (Coroutines.start ()) acts c →
      c.phases.get f = some (.ended (.threw std)) → c.control.running = none →
        Runs Thread.next (fun _ _ => True) (Thread.start 1048576 ()) acts s → Recovered s f := by
  intro h
  obtain ⟨⟨x,hx,he⟩,_,_,_⟩ := h (throwActs true) _ 1 true _
    (Runs.of_exec Coroutines.step (fun _ _ => True) (Coroutines.start ()) (throwActs true) (by decide)) rfl rfl
    (Runs.of_exec Thread.next (fun _ _ => True) (Thread.start 1048576 ()) (throwActs true) (by decide))
  obtain rfl := Option.some.inj hx
  exact absurd he (by decide)

end Zcs.Fibers
