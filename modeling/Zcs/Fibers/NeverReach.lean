import Zcs.Fibers.Switching

/-! # The end of `MainFunc`

A fiber whose callback has ended has left its stack for good, behind the last `SwapOut`
of `MainFunc`. What keeps anybody from resuming it is an assertion of `SwapIn` that only
rules out the state EXEC, and a callback that ends sets the state to TERM or EXECPT.
-/
namespace Zcs.Fibers
variable {K σ : Type}

/-- The fiber is switched to although its callback has ended. -/
def Resurrects (s : Thread K σ) (a : Act K σ) : Prop :=
  ∃ f code x, a = .swapIn f code ∧ s.fibers.get f = some x ∧ (x.state = .term ∨ x.state = .execpt)

theorem assertion_ne {K σ : Type} {expr : String} (h : expr.toList ≠ "never reach!".toList) :
    (.error (.assertion expr.toList) : Except Fault (Thread K σ)) ≠ .error Thread.neverReach :=
  fun he => h (Fault.assertion.inj (Except.error.inj he))

theorem check_ne_neverReach {expr : String} (h : expr.toList ≠ "never reach!".toList) (b : Bool) :
    check expr b ≠ .error Thread.neverReach := by
  unfold check
  cases b with
  | true => simp
  | false => exact fun he => h (Fault.assertion.inj (Except.error.inj he))

namespace Thread
variable (s : Thread K σ)

theorem deref_ne_neverReach (f : ℕ) : s.deref f ≠ .error neverReach := by
  unfold deref
  cases s.fibers.get f <;> simp [neverReach]

/-- The assertions of `Reset` and `~Fiber` have other texts. -/
theorem reset_ne_neverReach (f : ℕ) (cb : K) : s.reset f cb ≠ .error neverReach := by
  refine bind_ne_error (s.deref_ne_neverReach f) fun x _ => bind_ne_error (check_ne_neverReach (by decide) _) ?_
  exact fun _ _ => bind_ne_error (check_ne_neverReach (by decide) _) fun _ _ => by simp [pure,Except.pure]

theorem destroy_ne_neverReach (f : ℕ) : s.destroy f ≠ .error neverReach := by
  have hcheck : ∀ {expr : String} {b : Bool} {t : Thread K σ}, expr.toList ≠ "never reach!".toList →
      (check expr b >>= fun _ => .ok t) ≠ .error neverReach :=
    fun hne => bind_ne_error (check_ne_neverReach hne _) fun _ _ => by simp
  refine bind_ne_error (s.deref_ne_neverReach f) fun x _ => ?_
  by_cases hx : x.hasStack = true
  · simp only [hx,↓reduceIte]
    exact hcheck (by decide)
  · simp only [hx]
    exact bind_ne_error (check_ne_neverReach (by decide) _) fun _ _ => hcheck (by decide)

end Thread

namespace Switching
variable {home : Option K} {s : Thread K σ}

theorem swapIn_neverReach_iff (h : Switching home s) {f : ℕ} {code : K} (ha : ByMain s (.swapIn f code)) :
    s.swapIn f code = .error Thread.neverReach ↔
      ∃ x, s.fibers.get f = some x ∧ (x.state = .term ∨ x.state = .execpt) := by
  obtain ⟨_,hne⟩ := ha
  have hf : f ≠ 0 := by
    rintro rfl
    exact hne h.threadFiber
  cases hx : s.fibers.get f with
  | none =>
    have hd : s.swapIn f code = .error .dangling := by
      simp only [Thread.swapIn,Thread.deref,hx,bind,Except.bind]
    simp [hd,Thread.neverReach]
  | some x =>
    by_cases he : x.state = .exec
    · have hd : s.swapIn f code = .error (.assertion "state_ != EXEC".toList) := by
        simp [Thread.swapIn,Thread.deref,hx,he,check,bind,Except.bind]
      rw [hd]
      simp only [Option.some.injEq,exists_eq_left',he,reduceCtorEq,or_self,iff_false]
      exact assertion_ne (by decide)
    · rcases h.swapIn_cases hf hx he code with ⟨hend,herr⟩ | ⟨hend,k,hk⟩
      · simp [herr,hend]
      · simp [hk,hend]

theorem step_neverReach_iff (h : Switching home s) {a : Act K σ} (ha : ByMain s a) :
    s.step a = .error Thread.neverReach ↔ Resurrects s a := by
  have hother : (∀ f code, a ≠ .swapIn f code) → s.step a ≠ .error Thread.neverReach →
      (s.step a = .error Thread.neverReach ↔ Resurrects s a) := by
    intro hne hs
    refine ⟨fun he => absurd he hs,?_⟩
    rintro ⟨f,code,_,rfl,_⟩
    exact absurd rfl (hne f code)
  cases a with
  | swapIn f code =>
    refine (h.swapIn_neverReach_iff ha).trans ⟨fun ⟨x,hx⟩ => ⟨f,code,x,rfl,hx⟩,?_⟩
    rintro ⟨_,_,x,he,hx⟩
    obtain ⟨rfl,rfl⟩ := Act.swapIn.inj he
    exact ⟨x,hx⟩
  | segment x code => exact hother (by simp) (by simp [Thread.step])
  | newFiber cb stacksize code => exact hother (by simp) (by simp [Thread.step])
  | reset f cb code =>
    exact hother (by simp) (bind_ne_error (s.reset_ne_neverReach f cb) fun _ _ => by simp [pure,Except.pure])
  | destroy f code =>
    exact hother (by simp) (bind_ne_error (s.destroy_ne_neverReach f) fun _ _ => by simp [pure,Except.pure])
  | yieldTo y code =>
    refine hother (by simp) ?_
    cases hs : s.stack with
    | thread =>
      obtain ⟨x,hx,_⟩ := h.mainFiber
      rw [h.yield_main hs hx]
      split_ifs
      · simp
      · exact assertion_ne (by decide)
    | own f =>
      obtain ⟨t,_,ht,_⟩ := h.leave hs (.inr (.inr ⟨y,code,rfl⟩))
      simp [ht]
  | callbackReturns =>
    refine hother (by simp) ?_
    cases hs : s.stack with
    | thread => simp [h.noCallback hs (.inl rfl),Thread.neverReach]
    | own f =>
      obtain ⟨t,_,ht,_⟩ := h.leave hs (.inl rfl)
      simp [ht]
  | callbackThrows std =>
    refine hother (by simp) ?_
    cases hs : s.stack with
    | thread => simp [h.noCallback hs (.inr ⟨std,rfl⟩),Thread.neverReach]
    | own f =>
      obtain ⟨t,_,ht,_⟩ := h.leave hs (.inr (.inl ⟨std,rfl⟩))
      simp [ht]

theorem of_run {code : K} {stacksizeConfig : ℕ} {acts : List (Act K σ)}
    (h : Runs Thread.next ByMain (Thread.start stacksizeConfig code) acts s) : ∃ home, Switching home s := by
  refine h.invariant (P := fun s => ∃ home, Switching home s) ?_ ⟨none,.start stacksizeConfig code⟩
  rintro s t a ⟨home,hs⟩ ha hn
  exact ⟨_,(hs.step ha (Thread.next_eq_some_iff.mp hn)).1⟩

end Switching

/-- A step of a history in which `SwapIn` is called by the main fiber, on whichever
child, and the state before it. -/
def Happens (stacksizeConfig : ℕ) (code : K) (acts : List (Act K σ)) (s : Thread K σ) (a : Act K σ) : Prop :=
  ∃ pre, pre ++ [a] <+: acts ∧ Runs Thread.next ByMain (Thread.start stacksizeConfig code) pre s ∧ ByMain s a

/-- A history never comes to the end of `MainFunc` exactly if no fiber whose state is TERM
or EXECPT is switched to in it. -/
theorem neverReach_iff (stacksizeConfig : ℕ) (code : K) (acts : List (Act K σ)) :
    (∀ s a, Happens stacksizeConfig code acts s a → s.step a ≠ .error Thread.neverReach) ↔
      ∀ s a, Happens stacksizeConfig code acts s a → ¬ Resurrects s a := by
  refine forall_congr' fun s => forall_congr' fun a => imp_congr_right fun ⟨pre,_,hrun,ha⟩ => ?_
  obtain ⟨home,hs⟩ := Switching.of_run hrun
  exact not_congr (hs.step_neverReach_iff ha)

/-- `SwapIn` of a fiber whose callback has returned passes the assertion. -/
theorem returned_neverReach : ¬ ∀ (acts : List (Act Unit Unit)) (s : Thread Unit Unit) (a : Act Unit Unit),
    Happens 1048576 () acts s a → s.step a ≠ .error Thread.neverReach := by
  intro h
  have hrun := Runs.of_exec Thread.next ByMain (Thread.start 1048576 ())
    ([.newFiber () 0 (),.swapIn 1 (),.callbackReturns] : List (Act Unit Unit)) (by decide)
  exact h _ _ (.swapIn 1 ()) ⟨_,List.prefix_rfl,hrun,by decide⟩ rfl

end Zcs.Fibers
