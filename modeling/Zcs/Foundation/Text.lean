import Mathlib.Data.List.Basic

/-! # Text as lists of characters

A `std::string` is modelled by the list of its characters. The positions of the
source are kept: a search starts at an index and answers with an index of the
whole text, and `none` stands for `std::string::npos`.
-/
namespace Zcs

abbrev Text := List Char

namespace Text

/-- `s.find_first_of(c, pos)`. -/
def findFirstOf (s : Text) (c : Char) (pos : ℕ) : Option ℕ :=
  ((s.drop pos).findIdx? (· == c)).map (pos + ·)

/-- `s.substr(pos, len)`. -/
def substr (s : Text) (pos len : ℕ) : Text := (s.drop pos).take len

/-- `s.find_first_not_of(alphabet) == npos`. -/
def onlyOf (alphabet s : Text) : Bool := s.all (alphabet.contains ·)

theorem findIdx?_append_of_notMem {f : Text} {c : Char} (hf : c ∉ f) (rest : Text) :
    (f ++ c :: rest).findIdx? (· == c) = some f.length := by
  have hn : f.findIdx? (· == c) = none := by
    simpa [List.findIdx?_eq_none_iff] using fun a ha => ne_of_mem_of_not_mem ha hf
  simp [List.findIdx?_append,hn,List.findIdx?_cons]

theorem findFirstOf_of_drop {s f rest : Text} {c : Char} {pos : ℕ} (hf : c ∉ f)
    (hs : s.drop pos = f ++ c :: rest) : findFirstOf s c pos = some (pos + f.length) := by
  simp [findFirstOf,hs,findIdx?_append_of_notMem hf]

theorem substr_of_drop {s f rest : Text} {pos : ℕ} (hs : s.drop pos = f ++ rest) :
    substr s pos f.length = f := by
  simp [substr,hs]

theorem getElem?_of_drop {s rest : Text} {pos : ℕ} (hs : s.drop pos = rest) (k : ℕ) :
    s[pos + k]? = rest[k]? := by
  rw [← hs,List.getElem?_drop]

end Text
end Zcs
