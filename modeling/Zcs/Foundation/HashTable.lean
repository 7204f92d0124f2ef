import Mathlib.Data.List.Perm.Basic
import Mathlib.Data.Setoid.Basic

/-! # Unordered containers

A `std::unordered_set`, or a `std::unordered_map` as a set of pairs, is the list of
its elements in iteration order. Which order that is after an insertion is left to
an arbitrary arrangement.
-/
namespace Zcs
variable {α : Type*}

structure HashTable (key : Setoid α) where
  toList : List α
  distinct : toList.Pairwise fun a b => ¬ key a b

/-- How a table orders its elements. -/
structure Arrangement (α : Type*) where
  order : List α → List α
  perm : ∀ l, (order l).Perm l

namespace HashTable
variable {key : Setoid α}

def empty : HashTable key := ⟨[],.nil⟩

def insert [DecidableRel key] (arr : Arrangement α) (t : HashTable key) (x : α) : HashTable key :=
  if h : ∃ y ∈ t.toList, key y x then t
  else ⟨arr.order (t.toList ++ [x]),by
    have hs : ∀ {a b}, ¬ key a b → ¬ key b a := fun hn hk => hn (key.symm' hk)
    refine ((arr.perm _).symm.pairwise_iff hs).mp ?_
    refine List.pairwise_append.mpr ⟨t.distinct,List.pairwise_singleton _ _,?_⟩
    intro a ha b hb hk
    obtain rfl := List.mem_singleton.mp hb
    exact h ⟨a,ha,hk⟩⟩

theorem perm_foldl_insert [DecidableRel key] (arr : Arrangement α) {xs : List α} (t : HashTable key)
    (h : (t.toList ++ xs).Pairwise fun a b => ¬ key a b) :
    (xs.foldl (insert arr) t).toList.Perm (t.toList ++ xs) := by
  induction xs generalizing t with
  | nil => simp
  | cons x xs ih =>
    have hx : ¬ ∃ y ∈ t.toList, key y x := by
      rintro ⟨y,hy,hk⟩
      exact (List.pairwise_append.mp h).2.2 y hy x List.mem_cons_self hk
    have hp : (t.insert arr x).toList.Perm (t.toList ++ [x]) := by
      unfold insert
      rw [dif_neg hx]
      exact arr.perm _
    have hs : ∀ {a b}, ¬ key a b → ¬ key b a := fun hn hk => hn (key.symm' hk)
    have hp' : ((t.insert arr x).toList ++ xs).Perm (t.toList ++ x :: xs) := by
      simpa using hp.append_right xs
    rw [List.foldl_cons]
    exact (ih _ ((hp'.pairwise_iff hs).mpr h)).trans hp'

/-- Two tables with the same elements, where `same` says which elements are. -/
def sameElements (key same : Setoid α) : Setoid (HashTable key) where
  r s t := (∀ a ∈ s.toList, ∃ b ∈ t.toList, same a b) ∧ ∀ b ∈ t.toList, ∃ a ∈ s.toList, same a b
  iseqv := by
    constructor
    · exact fun s => ⟨fun a ha => ⟨a,ha,same.refl' a⟩,fun a ha => ⟨a,ha,same.refl' a⟩⟩
    · rintro s t ⟨h,h'⟩
      constructor
      · intro a ha
        obtain ⟨b,hb,hab⟩ := h' a ha
        exact ⟨b,hb,same.symm' hab⟩
      · intro b hb
        obtain ⟨a,ha,hab⟩ := h b hb
        exact ⟨a,ha,same.symm' hab⟩
    · rintro s t u ⟨h,h'⟩ ⟨k,k'⟩
      constructor
      · intro a ha
        obtain ⟨b,hb,hab⟩ := h a ha
        obtain ⟨c,hc,hbc⟩ := k b hb
        exact ⟨c,hc,same.trans' hab hbc⟩
      · intro c hc
        obtain ⟨b,hb,hbc⟩ := k' c hc
        obtain ⟨a,ha,hab⟩ := h' b hb
        exact ⟨a,ha,same.trans' hab hbc⟩

end HashTable
end Zcs
