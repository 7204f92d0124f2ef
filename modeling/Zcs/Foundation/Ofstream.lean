import Zcs.Foundation.Text

/-! # File output streams

A `std::ofstream` as two flags and the text that it has taken for its files; the end of
that text may still be in the buffer, and is lost if a close cannot write it. The boolean
test of the stream is `!failed`, whichever of its error bits is meant. Whether the
operating system goes along with an operation is an argument of the operation.
-/
namespace Zcs

structure Ofstream where
  isOpen : Bool := false
  failed : Bool := false
  taken : Text := []
  deriving DecidableEq

namespace Ofstream

/-- `close()`: the file is closed even if its last buffer cannot be written. -/
def close (s : Ofstream) (ok : Bool) : Ofstream :=
  if s.isOpen then { s with isOpen := false, failed := s.failed || !ok } else { s with failed := true }

/-- `open(..., std::ios::app)`, which fails on a stream that is open already. -/
def openFile (s : Ofstream) (ok : Bool) : Ofstream :=
  if !s.isOpen && ok then { s with isOpen := true, failed := false } else { s with failed := true }

/-- `os << text`: nothing is taken in a failed state, and no text is nothing to take. -/
def put (s : Ofstream) (text : Text) (ok : Bool) : Ofstream :=
  if s.failed || text.isEmpty then s
  else if s.isOpen && ok then { s with taken := s.taken ++ text }
  else { s with failed := true }

structure Usable (s : Ofstream) : Prop where
  isOpen : s.isOpen = true
  good : s.failed = false

/-- Open, but in a failed state: no write goes through, and no `open` either. -/
structure Stuck (s : Ofstream) : Prop where
  isOpen : s.isOpen = true
  failed : s.failed = true

instance (s : Ofstream) : Decidable s.Usable :=
  decidable_of_iff (s.isOpen = true ∧ s.failed = false) ⟨fun h => ⟨h.1,h.2⟩,fun h => ⟨h.1,h.2⟩⟩

instance (s : Ofstream) : Decidable s.Stuck :=
  decidable_of_iff (s.isOpen = true ∧ s.failed = true) ⟨fun h => ⟨h.1,h.2⟩,fun h => ⟨h.1,h.2⟩⟩

theorem usable_openFile_iff (s : Ofstream) (ok : Bool) :
    (s.openFile ok).Usable ↔ s.isOpen = false ∧ ok = true := by
  unfold openFile
  constructor
  · rintro ⟨_,h⟩
    split_ifs at h with hok
    simpa using hok
  · rintro ⟨hs,hok⟩
    simp only [hs,hok]
    exact ⟨rfl,rfl⟩

theorem isOpen_openFile (s : Ofstream) (ok : Bool) : (s.openFile ok).isOpen = (s.isOpen || ok) := by
  unfold openFile
  cases s.isOpen <;> cases ok <;> simp

@[simp] theorem isOpen_close (s : Ofstream) (ok : Bool) : (s.close ok).isOpen = false := by
  unfold close
  split_ifs with h
  · rfl
  · simpa using h

@[simp] theorem isOpen_put (s : Ofstream) (text : Text) (ok : Bool) : (s.put text ok).isOpen = s.isOpen := by
  unfold put
  split_ifs <;> rfl

theorem put_of_failed {s : Ofstream} (h : s.failed = true) (text : Text) (ok : Bool) : s.put text ok = s := by
  simp [put,h]

theorem Stuck.openFile {s : Ofstream} (h : s.Stuck) (ok : Bool) : s.openFile ok = s := by
  obtain ⟨o,f,w⟩ := s
  obtain ⟨rfl,rfl⟩ : o = true ∧ f = true := ⟨h.isOpen,h.failed⟩
  rfl

theorem Usable.put {s : Ofstream} (h : s.Usable) (text : Text) :
    s.put text true = { s with taken := s.taken ++ text } := by
  unfold Ofstream.put
  by_cases ht : text = []
  · simp [ht]
  · simp [h.isOpen,h.good,ht]

/-- Writing the pieces of a text one after the other, each with its own outcome. -/
def putAll (s : Ofstream) (pieces : List (Text × Bool)) : Ofstream :=
  pieces.foldl (fun s p => s.put p.1 p.2) s

@[simp] theorem isOpen_putAll (s : Ofstream) (pieces : List (Text × Bool)) :
    (s.putAll pieces).isOpen = s.isOpen := by
  induction pieces generalizing s with
  | nil => rfl
  | cons p pieces ih => exact (ih (s.put p.1 p.2)).trans (isOpen_put s p.1 p.2)

theorem putAll_of_failed {s : Ofstream} (h : s.failed = true) (pieces : List (Text × Bool)) :
    s.putAll pieces = s := by
  induction pieces with
  | nil => rfl
  | cons p pieces ih =>
    unfold putAll at ih ⊢
    rw [List.foldl_cons,put_of_failed h,ih]

/-- A text that the operating system does not take. -/
def Refused (pieces : List (Text × Bool)) : Prop := ∃ p ∈ pieces, p.1 ≠ [] ∧ p.2 = false

/-- An open stream is stuck behind the pieces if it was before, or if one was refused. -/
theorem stuck_putAll_iff {s : Ofstream} (h : s.isOpen = true) (pieces : List (Text × Bool)) :
    (s.putAll pieces).Stuck ↔ s.failed = true ∨ Refused pieces := by
  induction pieces generalizing s with
  | nil =>
    refine ⟨fun hs => .inl hs.failed,?_⟩
    rintro (hf | ⟨_,hp,_⟩)
    · exact ⟨h,hf⟩
    · cases hp
  | cons p pieces ih =>
    have hrun := ih (s := s.put p.1 p.2) (by rw [isOpen_put,h])
    have hput : (s.put p.1 p.2).failed = true ↔ s.failed = true ∨ (p.1 ≠ [] ∧ p.2 = false) := by
      unfold put
      cases hf : s.failed <;> by_cases ht : p.1 = [] <;> cases p.2 <;> simp [h,ht,hf]
    change (putAll (s.put p.1 p.2) pieces).Stuck ↔ _
    rw [hrun,hput,or_assoc]
    simp [Refused]

/-- If nothing is refused, a usable stream stays usable and takes the whole text. -/
theorem Usable.putAll {s : Ofstream} (h : s.Usable) (texts : List Text) :
    s.putAll (texts.map fun text => (text,true)) = { s with taken := s.taken ++ texts.flatten } := by
  induction texts generalizing s with
  | nil => simp [Ofstream.putAll]
  | cons text texts ih =>
    have hs : Usable { s with taken := s.taken ++ text } := ⟨h.isOpen,h.good⟩
    unfold Ofstream.putAll at ih ⊢
    rw [List.map_cons,List.foldl_cons,h.put,ih hs]
    simp [List.append_assoc]

end Ofstream
end Zcs
