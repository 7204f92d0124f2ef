import Mathlib.Data.Char
import Mathlib.Data.List.Lex
import Zcs.Foundation.Ordered
import Zcs.Log.Event

/-! # The value of the 'logs' variable -/
namespace Zcs.Log

/-- `type` is 1 for a file and 2 for the standard output. -/
structure LogAppenderDefine where
  type : ℤ := 0
  level : LogLevel := .unkonw
  formatter : Text := []
  file : Text := []
  deriving DecidableEq

structure LogDefine where
  name : Text := []
  level : LogLevel := .unkonw
  formatter : Text := []
  appenders : List LogAppenderDefine := []
  deriving DecidableEq

/-- `LogDefine::operator<` compares the names only. -/
abbrev LogDefine.lt (a b : LogDefine) : Bool := decide (a.name < b.name)

instance : StrictWeakOrder LogDefine.lt where
  irrefl a := by simp
  trans hab hbc := by
    simp only [decide_eq_true_eq] at hab hbc ⊢
    exact lt_trans hab hbc

abbrev LogDefines := SortedSet LogDefine LogDefine.lt

namespace LogDefines

def Names (v : LogDefines) (name : Text) : Prop := ∃ d ∈ v, d.name = name

theorem eq_of_name_eq {v : LogDefines} {c d : LogDefine} (hc : c ∈ v) (hd : d ∈ v)
    (h : c.name = d.name) : c = d := by
  by_contra hne
  rcases SortedSet.lt_or_lt hc hd hne with hl | hl <;> simp [h] at hl

theorem find_eq_some_iff {v : LogDefines} {c d : LogDefine} :
    v.find c = some d ↔ d ∈ v ∧ d.name = c.name := by
  constructor
  · intro h
    obtain ⟨hd,hcd,hdc⟩ := SortedSet.find_spec h
    simp only [decide_eq_false_iff_not,not_lt] at hcd hdc
    exact ⟨hd,le_antisymm hcd hdc⟩
  · rintro ⟨hd,hn⟩
    cases h : v.find c with
    | none => rcases SortedSet.find_eq_none h hd with hl | hl <;> simp [hn] at hl
    | some e =>
      obtain ⟨he,hce,hec⟩ := SortedSet.find_spec h
      simp only [decide_eq_false_iff_not,not_lt] at hce hec
      rw [eq_of_name_eq he hd ((le_antisymm hce hec).trans hn.symm)]

theorem find_eq_none_iff {v : LogDefines} {c : LogDefine} :
    v.find c = none ↔ ¬ v.Names c.name := by
  rw [Option.eq_none_iff_forall_ne_some]
  simp only [ne_eq,find_eq_some_iff,Names,not_exists]

end LogDefines
end Zcs.Log
