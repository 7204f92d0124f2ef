import Mathlib.Data.List.Basic

/-! # A heap of shared objects

Objects that the source reaches through shared pointers live in a heap and are
named by their addresses. An address that has not been handed out yet holds
nothing; this is part of the type, so an allocation never meets an old object.
-/
namespace Zcs

structure Heap (α : Type*) where
  get : ℕ → Option α
  next : ℕ
  fresh : ∀ i, next ≤ i → get i = none

namespace Heap
variable {α : Type*}

def empty : Heap α := ⟨fun _ => none,0,fun _ _ => rfl⟩

def emptyFrom (n : ℕ) : Heap α := ⟨fun _ => none,n,fun _ _ => rfl⟩

def alloc (h : Heap α) (a : α) : Heap α where
  get i := if i = h.next then some a else h.get i
  next := h.next + 1
  fresh i hi := by
    rw [if_neg (by omega)]
    exact h.fresh i (by omega)

def modify (h : Heap α) (i : ℕ) (f : α → α) : Heap α where
  get j := if j = i then (h.get j).map f else h.get j
  next := h.next
  fresh j hj := by simp [h.fresh j hj]

def free (h : Heap α) (i : ℕ) : Heap α where
  get j := if j = i then none else h.get j
  next := h.next
  fresh j hj := by simp [h.fresh j hj]

@[simp] theorem next_empty : (empty : Heap α).next = 0 := rfl

theorem get_alloc (h : Heap α) (a : α) (i : ℕ) :
    (h.alloc a).get i = if i = h.next then some a else h.get i := rfl
@[simp] theorem get_alloc_next (h : Heap α) (a : α) : (h.alloc a).get h.next = some a := by
  simp [get_alloc]
@[simp] theorem next_alloc (h : Heap α) (a : α) : (h.alloc a).next = h.next + 1 := rfl

@[simp] theorem get_next (h : Heap α) : h.get h.next = none := h.fresh h.next (Nat.le_refl _)

theorem lt_next {h : Heap α} {i : ℕ} {a : α} (hi : h.get i = some a) : i < h.next := by
  by_contra hge
  simp [h.fresh i (by omega)] at hi

theorem get_alloc_of_get {h : Heap α} {i : ℕ} {b : α} (hi : h.get i = some b) (a : α) :
    (h.alloc a).get i = some b := by
  rw [get_alloc,if_neg (Nat.ne_of_lt (lt_next hi)),hi]

/-- What can be found after an allocation: the new object, or what was there. -/
theorem get_alloc_eq_some_iff {h : Heap α} {a b : α} {i : ℕ} :
    (h.alloc a).get i = some b ↔ (i = h.next ∧ b = a) ∨ h.get i = some b := by
  by_cases hi : i = h.next
  · subst hi
    simp [eq_comm]
  · simp [get_alloc,hi]

theorem get_modify (h : Heap α) (i : ℕ) (f : α → α) (j : ℕ) :
    (h.modify i f).get j = if j = i then (h.get j).map f else h.get j := rfl
@[simp] theorem get_modify_self (h : Heap α) (i : ℕ) (f : α → α) :
    (h.modify i f).get i = (h.get i).map f := by
  simp [get_modify]
theorem get_modify_ne (h : Heap α) {i j : ℕ} (f : α → α) (hj : j ≠ i) :
    (h.modify i f).get j = h.get j := by
  simp [get_modify,hj]

theorem get_modify_eq_some_iff {h : Heap α} {i j : ℕ} {f : α → α} {b : α} :
    (h.modify i f).get j = some b ↔
      (j = i ∧ ∃ a, h.get j = some a ∧ f a = b) ∨ (j ≠ i ∧ h.get j = some b) := by
  by_cases hj : j = i
  · subst hj
    simp
  · simp [get_modify_ne h f hj,hj]

theorem modify_alloc_next (h : Heap α) (a : α) (f : α → α) : (h.alloc a).modify h.next f = h.alloc (f a) := by
  simp only [alloc,modify,mk.injEq,and_true]
  funext j
  split_ifs <;> rfl

theorem modify_id (h : Heap α) (i : ℕ) : h.modify i (fun a => a) = h := by
  cases h
  simp [modify]

theorem modify_modify (h : Heap α) (i : ℕ) (f g : α → α) :
    (h.modify i f).modify i g = h.modify i fun a => g (f a) := by
  simp only [modify,mk.injEq,and_true]
  funext j
  split_ifs
  · rw [Option.map_map]
    rfl
  · rfl

@[simp] theorem isSome_get_modify (h : Heap α) (i : ℕ) (f : α → α) (j : ℕ) :
    ((h.modify i f).get j).isSome = (h.get j).isSome := by
  rw [get_modify]
  split <;> simp

theorem get_free (h : Heap α) (i j : ℕ) : (h.free i).get j = if j = i then none else h.get j := rfl
theorem get_free_eq_some_iff {h : Heap α} {i j : ℕ} {b : α} :
    (h.free i).get j = some b ↔ j ≠ i ∧ h.get j = some b := by
  rw [get_free]
  split_ifs with hj <;> simp [hj]

end Heap
end Zcs
