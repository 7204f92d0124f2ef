import Mathlib.Data.Fintype.Card
import Mathlib.Data.Set.Finite.Lattice
import Mathlib.Logic.Relation

/-! # Recursion along a relation

A procedure that calls itself on everything a relation leads to ends exactly on the
accessible elements, and where only finitely many elements can be reached these are
the ones from which no cycle can be reached.
-/
namespace Zcs
open Relation

variable {α : Type*} {r : α → α → Prop}

def NoCycle (r : α → α → Prop) (a : α) : Prop := ∀ b, ReflTransGen r a b → ¬ TransGen r b b

theorem noCycle_of_acc {a : α} (h : Acc (flip r) a) : NoCycle r a := by
  induction h with
  | intro a _ ih =>
    intro b hab hbb
    rcases hab.cases_head with rfl | ⟨c,hac,hcb⟩
    · -- the cycle is through `a` itself, so there is one through its next element
      obtain ⟨c,hac,hca⟩ := TransGen.head'_iff.mp hbb
      exact ih c hac c .refl (.tail' hca hac)
    · exact ih c hac b hcb hbb

theorem wellFounded_of_irrefl [Finite α] (h : ∀ a, ¬ TransGen r a a) : WellFounded (flip r) := by
  have htrans : IsTrans α (TransGen (flip r)) := ⟨fun _ _ _ => TransGen.trans⟩
  have hirrefl : Std.Irrefl (TransGen (flip r)) := ⟨fun a ha => h a (transGen_swap.mp ha)⟩
  have hwf : WellFounded (TransGen (flip r)) := Finite.wellFounded_of_trans_of_irrefl _
  exact Subrelation.wf (fun h => TransGen.single h) hwf

theorem acc_iff_noCycle {a : α} (hfin : {b | ReflTransGen r a b}.Finite) : Acc (flip r) a ↔ NoCycle r a := by
  refine ⟨noCycle_of_acc,fun h => ?_⟩
  -- the relation on what can be reached, which is finitely much
  let s := {b // ReflTransGen r a b}
  let rs : s → s → Prop := fun x z => r x.1 z.1
  have : Finite s := hfin
  have hlift : TransGen rs ≤ (TransGen r).onFun Subtype.val := TransGen.lift Subtype.val fun _ _ hb => hb
  have hwf : WellFounded (flip rs) := wellFounded_of_irrefl fun x hx => h x.1 x.2 (hlift x x hx)
  have hacc : ∀ x : s, Acc (flip r) x.1 := fun x => hwf.induction x fun x ih =>
    Acc.intro x.1 fun b hb => ih ⟨b,x.2.tail hb⟩ hb
  exact hacc ⟨a,.refl⟩

/-- `T n a` says that `n` nested calls are enough below `a`. -/
theorem exists_enough_iff_acc {T : ℕ → α → Prop} (hzero : ∀ a, ¬ T 0 a)
    (hsucc : ∀ n a, T (n + 1) a ↔ ∀ b, r a b → T n b) (hfin : ∀ a, {b | r a b}.Finite) (a : α) :
    (∃ n, T n a) ↔ Acc (flip r) a := by
  constructor
  · rintro ⟨n,h⟩
    induction n generalizing a with
    | zero => exact absurd h (hzero a)
    | succ n ih => exact .intro a fun b hb => ih b ((hsucc n a).mp h b hb)
  · have hmono : ∀ n a, T n a → T (n + 1) a := by
      intro n
      induction n with
      | zero => exact fun a h => absurd h (hzero a)
      | succ n ih => exact fun a h => (hsucc (n + 1) a).mpr fun b hb => ih b ((hsucc n a).mp h b hb)
    have hle : ∀ {m n a}, m ≤ n → T m a → T n a := by
      intro m n a hmn h
      induction hmn with
      | refl => exact h
      | step _ ih => exact hmono _ a ih
    intro h
    induction h with
    | intro a _ ih =>
      choose! f hf using ih
      -- the most that any of the finitely many calls below needs
      obtain ⟨m,hm⟩ := ((hfin a).image f).bddAbove
      exact ⟨m + 1,(hsucc m a).mpr fun b hb => hle (hm ⟨b,hb,rfl⟩) (hf b hb)⟩

end Zcs
