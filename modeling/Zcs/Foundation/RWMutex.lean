import Mathlib.Data.List.Basic

/-! # A readers-writer lock

The lock records who holds it. An acquisition that would block is `none`. The
exclusion of readers by a writer is part of the type, so no operation can break it.
-/
namespace Zcs

structure RWMutex (ι : Type*) where
  readers : List ι
  writer : Option ι
  exclusive : writer ≠ none → readers = []

namespace RWMutex
variable {ι : Type*} [DecidableEq ι]

def free : RWMutex ι := ⟨[],none,fun _ => rfl⟩

def rdlock (l : RWMutex ι) (i : ι) : Option (RWMutex ι) :=
  match l.writer with
  | none => some ⟨i :: l.readers,none,fun h => absurd rfl h⟩
  | some _ => none

def wrlock (l : RWMutex ι) (i : ι) : Option (RWMutex ι) :=
  match l.writer,l.readers with
  | none,[] => some ⟨[],some i,fun _ => rfl⟩
  | _,_ => none

/-- The caller gives up its own hold. -/
def unlock (l : RWMutex ι) (i : ι) : RWMutex ι :=
  if l.writer = some i then ⟨l.readers,none,fun h => absurd rfl h⟩
  else ⟨l.readers.erase i,l.writer,fun h => by simp [l.exclusive h]⟩

omit [DecidableEq ι] in
theorem rdlock_eq_some_iff {l m : RWMutex ι} {i : ι} :
    l.rdlock i = some m ↔ l.writer = none ∧ m.writer = none ∧ m.readers = i :: l.readers := by
  obtain ⟨readers,writer,h⟩ := l
  obtain ⟨readers',writer',h'⟩ := m
  cases writer <;> simp [rdlock,eq_comm,and_comm]

omit [DecidableEq ι] in
theorem wrlock_eq_some_iff {l m : RWMutex ι} {i : ι} :
    l.wrlock i = some m ↔ l.writer = none ∧ l.readers = [] ∧ m.writer = some i ∧ m.readers = [] := by
  obtain ⟨readers,writer,h⟩ := l
  obtain ⟨readers',writer',h'⟩ := m
  cases writer <;> cases readers <;> simp [wrlock,eq_comm,and_comm]

theorem readers_unlock (l : RWMutex ι) (i : ι) : (l.unlock i).readers = l.readers.erase i := by
  unfold unlock
  split_ifs with h
  · simp [l.exclusive (by simp [h])]
  · rfl

theorem writer_unlock (l : RWMutex ι) (i : ι) :
    (l.unlock i).writer = if l.writer = some i then none else l.writer := by
  unfold unlock
  split_ifs <;> rfl

end RWMutex
end Zcs
