import Zcs.Locks.Guards

/-! # Guards on a spin lock

Any number of `ScopedLockImpl<CASLock>` guards share one `CASLock`, with the steps of
`Zcs.Locks.Guards`: one operation on the atomic flag is one call of the mutex.
-/
namespace Zcs.Locks
open Guards

/-- `flag` is `mutex_`. The critical section of a guard is history: it begins with a
successful test-and-set and ends with the clear. -/
structure CASLock (ι : Type) where
  flag : Bool
  critical : ι → Bool

namespace CasLock
variable {ι : Type}

/-- The lock after its constructor. -/
def free : CASLock ι := ⟨false,fun _ => false⟩

variable [DecidableEq ι]

/-- `lock` is a loop around the test-and-set, and a try that finds the flag set changes nothing. -/
def caslock : Lockable (CASLock ι) ι where
  acquire g l := if l.flag then none else some ⟨true,Function.update l.critical g true⟩
  release g l := ⟨false,Function.update l.critical g false⟩
  spins := true

/-- The guards inside are those that have the lock, and the flag is set while there is one. -/
structure Inv (s : CASLock ι × (ι → Bool)) : Prop where
  owns : s.1.critical = s.2
  exclusive : ∀ g h, s.2 g = true → s.2 h = true → g = h
  flag_iff : s.1.flag = true ↔ ∃ g, s.2 g = true

omit [DecidableEq ι] in
theorem inv_free : Inv (free (ι := ι),fun _ => false) where
  owns := rfl
  exclusive _ _ h := by cases h
  flag_iff := by simp [free]

theorem Inv.use {s t : CASLock ι × (ι → Bool)} {a : ι × Op} (hs : Inv s) (h : Guards.use caslock s a = some t) :
    Inv t := by
  obtain ⟨⟨flag,critical⟩,holds⟩ := s
  obtain ⟨g,op⟩ := a
  obtain rfl : critical = holds := hs.owns
  have hexclusive := hs.exclusive
  have hflag := hs.flag_iff
  rw [Guards.use] at h
  split_ifs at h with hg
  obtain ⟨l,hl,rfl⟩ := Option.map_eq_some_iff.mp h
  simp only at hg hexclusive hflag
  cases op with
  | acquire =>
    -- the flag was clear, so nobody else is inside
    simp only [Lockable.apply,caslock] at hl
    split_ifs at hl with hf
    obtain rfl := Option.some.inj hl
    have hnone (k : ι) : critical k = false := by
      rw [← Bool.not_eq_true]
      exact fun hk => hf (hflag.mpr ⟨k,hk⟩)
    have hin (k : ι) : Function.update critical g true k = true ↔ k = g := by
      by_cases hk : k = g <;> simp [hk,hnone]
    refine ⟨rfl,fun k k' h₁ h₂ => ((hin k).mp h₁).trans ((hin k').mp h₂).symm,?_⟩
    exact ⟨fun _ => ⟨g,(hin g).mpr rfl⟩,fun _ => rfl⟩
  | release =>
    -- the guard that clears the flag was the one inside
    obtain rfl := Option.some.inj hl
    have hnone (k : ι) : Function.update critical g false k = false := by
      by_cases hk : k = g
      · simp [hk]
      · rw [Function.update_of_ne hk,← Bool.not_eq_true]
        exact fun hc => hk (hexclusive k g hc hg)
    refine ⟨rfl,fun k _ h₁ => ?_,?_⟩
    · exact absurd ((hnone k).symm.trans h₁) Bool.false_ne_true
    · constructor
      · intro hf
        cases hf
      · rintro ⟨k,hk⟩
        exact absurd ((hnone k).symm.trans hk) Bool.false_ne_true

/-- What the guards promise in a state. -/
structure Safe (s : State (CASLock ι) ι) : Prop where
  exclusive : ∀ g h, s.mutex.critical g = true → s.mutex.critical h = true → g = h
  flag_iff : s.mutex.flag = true ↔ ∃ g, s.mutex.critical g = true
  clears : ∀ g dying, (s.guards g).pc = .release dying → s.mutex.critical g = true
  clear_only : ∀ a t, next caslock s a = some t → s.mutex.flag = true → t.mutex.flag = false →
    s.mutex.critical a.guard = true
  clear_of_destroyed : (∀ g, (s.guards g).pc = .unborn ∨ (s.guards g).pc = .destroyed) → s.mutex.flag = false

theorem Inv.safe {s : State (CASLock ι) ι} (hs : Inv s.view) : Safe s := by
  have howns (g : ι) : s.mutex.critical g = (s.guards g).owns := congrFun hs.owns g
  refine ⟨fun g h hg hh => ?_,?_,fun g dying hp => ?_,fun a t h hf ht => ?_,fun hall => ?_⟩
  · exact hs.exclusive g h ((howns g).symm.trans hg) ((howns h).symm.trans hh)
  · simp only [howns]
    exact hs.flag_iff
  · rw [howns,Guard.owns,hp]
  · rw [howns]
    rcases next_cases h with ⟨g,-,-,rfl⟩ | ⟨op,g,l,hg,hl,rfl⟩
    · exact absurd (hf.symm.trans ht) (by simp)
    · have hop := Guard.owns_of_op hg
      cases op with
      | release => exact hop
      | acquire =>
        -- a test-and-set does not clear the flag
        simp only [Lockable.apply,caslock,hf,if_true,reduceCtorEq] at hl
  · rw [← Bool.not_eq_true]
    intro hf
    obtain ⟨g,hg⟩ := hs.flag_iff.mp hf
    have hg : (s.guards g).owns = true := hg
    rcases hall g with hp | hp <;> simp [hp,Guard.owns] at hg

/-- In every state of every interleaving. Whatever restricts the schedule (a thread
that finishes one method before it goes on to its next guard) may stand for `ok`. -/
theorem safe_of_runs {ok : State (CASLock ι) ι → Act ι → Prop} {locked : ι → Bool} {as : List (Act ι)}
    {s : State (CASLock ι) ι} (h : Runs (next caslock) ok (start free locked) as s) : Safe s :=
  (view_of_runs (fun hs hn => hs.use hn) h inv_free).safe

/-- Guard 0 unlocks; guard 1 takes the flag before guard 0 has reset its `locked_`. -/
def handover : List (Act ℕ) :=
  [.call 0 .new,.run 0,.run 0,.call 1 .new,.run 1,.call 0 .unlock,.run 0,.run 0,.run 1,.run 1]

theorem safe_handover :
    Safe ((Runs.exec (next caslock) (fun _ _ => True) (start free fun _ => false) handover).get rfl) :=
  safe_of_runs (Runs.of_exec (next caslock) (fun _ _ => True) _ handover rfl)

-- both members say locked, and only guard 1 is in its critical section
example : (Runs.exec (next caslock) (fun _ _ => True) (start free fun _ => false) handover).map (fun s =>
    ((s.guards 0).locked,(s.guards 1).locked,s.mutex.critical 0,s.mutex.critical 1)) =
      some (true,true,false,true) := rfl

end CasLock
end Zcs.Locks
