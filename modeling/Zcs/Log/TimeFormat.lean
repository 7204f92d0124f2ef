import Mathlib.Data.List.TakeWhile
import Mathlib.Logic.Function.Iterate
import Zcs.Foundation.CString
import Zcs.Log.PatternTokens

/-! # What a time item writes

`TimeFormatItem::Format` expands its format into an array of 64 bytes and writes the
array up to its terminator. Whether the expansion has fitted is not looked at.
-/
namespace Zcs.Log

/-- The part of the C library that deals with time. `localtime_r` fails for some times, and
the broken-down time is indeterminate then. The contents of an array that nobody has
written to, or that `strftime` gives up on, may be anything. -/
structure TimeLibrary (Tm : Type) where
  localtime : ℕ → Option Tm
  indeterminate : Tm
  expansion : Text → Tm → Text
  nul_notMem : ∀ f tm, nul ∉ f → nul ∉ expansion f tm
  array : ℕ → Memory
  length_array : ∀ n, (array n).length = n
  unfilled : ℕ → Text → Tm → Memory
  length_unfilled : ∀ n f tm, (unfilled n f tm).length = n

/-- The format that a `TimeFormatItem` keeps. -/
def keptFormat (timeFmt : Text) : Text := if timeFmt.isEmpty then defaultTimeFormat else timeFmt

/-- `c_str()` as a C function reads it. -/
def cStr (s : Text) : Text := s.takeWhile (· ≠ nul)

namespace TimeLibrary
variable {Tm : Type} (lib : TimeLibrary Tm)

/-- `strftime`, with what it returns and what the array holds then. -/
def strftime (s : Memory) (maxsize : ℕ) (format : Text) (tm : Tm) : Option (ℕ × Memory) :=
  if (lib.expansion format tm).length < maxsize then
    (s.copy 0 (lib.expansion format tm ++ [nul])).map ((lib.expansion format tm).length,·)
  else some (0,lib.unfilled maxsize format tm)

/-- The array `buf` of `TimeFormatItem::Format` when it is written. -/
def buf (format : Text) (time : ℕ) : Option Memory := do
  let tm := (lib.localtime time).getD lib.indeterminate
  let (_,buf) ← lib.strftime (lib.array 64) 64 (cStr format) tm
  return buf

/-- The text that `TimeFormatItem::Format` writes. There is none if no terminator is
found in the array. -/
def format (format : Text) (time : ℕ) : Option Text := do
  let buf ← lib.buf format time
  buf.cstring 0

/-- The text is the complete expansion for that time, and `strftime` has put it there. -/
def Complete (format : Text) (time : ℕ) : Prop :=
  ∃ tm, lib.localtime time = some tm ∧ lib.format format time = some (lib.expansion format tm) ∧
    ∃ rest, lib.buf format time = some (lib.expansion format tm ++ nul :: rest)

theorem cStr_eq {f : Text} (hf : nul ∉ f) : cStr f = f := by
  rw [cStr,List.takeWhile_eq_self_iff]
  intro c hc
  simpa using ne_of_mem_of_not_mem hc hf

theorem buf_of_fits {f : Text} {time : ℕ} {tm : Tm} (hf : nul ∉ f) (ht : lib.localtime time = some tm)
    (hl : (lib.expansion f tm).length < 64) :
    ∃ rest, lib.buf f time = some (lib.expansion f tm ++ nul :: rest) := by
  have hlen : (lib.expansion f tm ++ [nul]).length = (lib.expansion f tm).length + 1 := List.length_append
  have hroom : (lib.expansion f tm ++ [nul]).length ≤ (lib.array 64).length := by
    rw [hlen,lib.length_array]
    exact hl
  refine ⟨(lib.array 64).drop ((lib.expansion f tm).length + 1),?_⟩
  simp [buf,strftime,ht,cStr_eq hf,hl,Memory.copy,hlen ▸ hroom]

/-- What is read in an array of 64 bytes is shorter than an expansion that does not fit. -/
theorem fits_of_format {f : Text} {time : ℕ} {tm : Tm} (hf : nul ∉ f) (ht : lib.localtime time = some tm)
    (h : lib.format f time = some (lib.expansion f tm)) : (lib.expansion f tm).length < 64 := by
  by_contra hl
  have hbuf : lib.buf f time = some (lib.unfilled 64 f tm) := by
    simp [buf,strftime,ht,cStr_eq hf,hl]
  have hread : Memory.cstring (lib.unfilled 64 f tm) 0 = some (lib.expansion f tm) := by
    simpa [format,hbuf] using h
  have hlen := length_of_untilNul hread
  rw [List.drop_zero,lib.length_unfilled] at hlen
  exact hl hlen

theorem complete_iff {f : Text} (hf : nul ∉ f) (time : ℕ) :
    lib.Complete f time ↔ ∃ tm, lib.localtime time = some tm ∧ (lib.expansion f tm).length < 64 := by
  constructor
  · rintro ⟨tm,ht,htext,_⟩
    exact ⟨tm,ht,lib.fits_of_format hf ht htext⟩
  · rintro ⟨tm,ht,hl⟩
    obtain ⟨rest,hb⟩ := lib.buf_of_fits hf ht hl
    have hread : Memory.cstring (lib.expansion f tm ++ nul :: rest) 0 = some (lib.expansion f tm) :=
      Memory.cstring_eq (q := []) rfl rfl (lib.nul_notMem f tm hf)
    exact ⟨tm,ht,by simp [format,hb,hread],rest,hb⟩

end TimeLibrary

namespace Scan

theorem isPrefix_flush (s : Scan) : s.items <+: s.flush.items := by
  unfold flush
  split
  · exact List.prefix_rfl
  · exact List.prefix_append ..

theorem isPrefix_push (s : Scan) (item : FormatItem) : s.items <+: (s.push item).items := List.prefix_append ..

theorem isPrefix_fail (s : Scan) (text : Text) : s.items <+: (s.fail text).items := List.prefix_append ..

theorem isPrefix_date (pattern : Text) (s : Scan) : s.items <+: (date pattern s).items := by
  unfold date
  split
  · exact List.prefix_rfl
  · split_ifs
    · exact s.isPrefix_push _
    · exact s.isPrefix_fail _
    · split
      · exact s.isPrefix_fail _
      · exact s.isPrefix_push _

/-- An item is never taken back. -/
theorem isPrefix_body (pattern : Text) (s : Scan) : s.items <+: (body pattern s).items := by
  unfold body
  split
  · exact List.prefix_rfl
  · split_ifs
    · exact List.prefix_rfl
    · split
      · exact s.isPrefix_fail _
      · split_ifs
        · exact List.prefix_rfl
        · split
          · exact s.isPrefix_flush.trans (s.flush.isPrefix_fail _)
          · exact s.isPrefix_flush.trans (s.flush.isPrefix_push _)
        · exact s.isPrefix_flush.trans (isPrefix_date pattern (s.flush.goto (s.i + 1)))

theorem isPrefix_iterate (pattern : Text) (n : ℕ) (s : Scan) : s.items <+: ((body pattern)^[n] s).items := by
  induction n generalizing s with
  | zero => exact List.prefix_rfl
  | succ n ih => exact (isPrefix_body pattern s).trans (ih (body pattern s))

theorem body_of_length_le {pattern : Text} {s : Scan} (h : pattern.length ≤ s.i) : body pattern s = s := by
  simp [body,List.getElem?_eq_none h]

theorem loop_eq_iterate (pattern : Text) (fuel : ℕ) (s : Scan) :
    loop pattern fuel s = (body pattern)^[fuel] s := by
  induction fuel generalizing s with
  | zero => rfl
  | succ fuel ih =>
    rcases Nat.lt_or_ge s.i pattern.length with hi | hi
    · rw [loop_step hi,ih,Function.iterate_succ_apply]
    · rw [loop_of_length_le hi,Function.iterate_fixed (body_of_length_le hi)]

end Scan

/-- The text that the scanner has in front of it begins with a date directive, and this
is the format in its braces, empty if it has none. A bare directive that ends the
pattern makes no item. -/
inductive DateAt : Text → Text → Prop
  | braces {f : Text} (rest : Text) (hf : '}' ∉ f) : DateAt ('%' :: 'd' :: '{' :: (f ++ '}' :: rest)) f
  | bare {c : Char} (rest : Text) (hc : c ≠ '{') : DateAt ('%' :: 'd' :: c :: rest) []

theorem body_dateAt {pattern f : Text} {s : Scan} (h : DateAt (pattern.drop s.i) f) :
    FormatItem.time (keptFormat f) ∈ (Scan.body pattern s).items := by
  generalize hs : pattern.drop s.i = text at h
  cases h with
  | braces rest hf =>
    rw [body_dateFormat hf hs]
    exact List.mem_append_right _ List.mem_cons_self
  | bare rest hc =>
    rw [body_date hs (by simpa using hc)]
    exact List.mem_append_right _ List.mem_cons_self

/-- Wherever the scanner comes to a date directive. -/
theorem dateAt_mem {pattern f : Text} {n : ℕ}
    (h : DateAt (pattern.drop ((Scan.body pattern)^[n] .start).i) f) :
    FormatItem.time (keptFormat f) ∈ (LogFormatter.init pattern).items := by
  have hn : n < pattern.length := by
    by_contra hge
    have hi := Scan.loop_finished pattern n .start (by simpa [Scan.start] using hge)
    rw [Scan.loop_eq_iterate] at hi
    rw [List.drop_eq_nil_of_le hi] at h
    cases h
  obtain ⟨k,hk⟩ := Nat.exists_eq_add_of_lt hn
  have hend : Scan.loop pattern pattern.length .start =
      (Scan.body pattern)^[k] (Scan.body pattern ((Scan.body pattern)^[n] .start)) := by
    rw [Scan.loop_eq_iterate,← Function.iterate_succ_apply' (Scan.body pattern),← Function.iterate_add_apply]
    congr 1
    omega
  change _ ∈ (Scan.loop pattern pattern.length .start).items
  rw [hend]
  exact (Scan.isPrefix_iterate pattern k _).subset (body_dateAt h)

/-- The item of a date directive, wherever it stands in whichever pattern, writes the
complete expansion of its format exactly if there is a local time for the event's and
the expansion has at most 63 bytes. -/
theorem timeFormat_complete_iff {Tm : Type} (lib : TimeLibrary Tm) {pattern f : Text} {n : ℕ}
    (h : DateAt (pattern.drop ((Scan.body pattern)^[n] .start).i) f) (hf : nul ∉ f) (time : ℕ) :
    FormatItem.time (keptFormat f) ∈ (LogFormatter.init pattern).items ∧
    (lib.Complete (keptFormat f) time ↔
      ∃ tm, lib.localtime time = some tm ∧ (lib.expansion (keptFormat f) tm).length < 64) := by
  refine ⟨dateAt_mem h,lib.complete_iff ?_ time⟩
  unfold keptFormat
  split
  · decide
  · exact hf

/-- A library as it is for formats without conversions, which expand to themselves. -/
def literalLibrary : TimeLibrary Unit where
  localtime _ := some ()
  indeterminate := ()
  expansion f _ := f
  nul_notMem _ _ h := h
  array n := List.replicate n 'x'
  length_array _ := List.length_replicate
  unfilled n _ _ := List.replicate n 'x'
  length_unfilled _ _ _ := List.length_replicate

theorem timeFormat_complete_at :
    FormatItem.time "at".toList ∈ (LogFormatter.init "%d\x7bat\x7d".toList).items ∧
      literalLibrary.Complete "at".toList 0 := by
  have hd : DateAt "%d\x7bat\x7d".toList "at".toList := .braces (f := "at".toList) [] (by decide)
  have h := timeFormat_complete_iff literalLibrary (n := 0) hd (by decide) 0
  exact ⟨h.1,h.2.mpr ⟨(),rfl,by decide⟩⟩

def longFormat : Text := List.replicate 64 'a'

/-- With 64 letters there is no room for the terminator. -/
theorem longFormat_not_complete : ¬ ∀ {Tm : Type} (lib : TimeLibrary Tm) (pattern f : Text) (n time : ℕ),
    DateAt (pattern.drop ((Scan.body pattern)^[n] .start).i) f → nul ∉ f → (lib.localtime time).isSome →
      lib.Complete (keptFormat f) time := by
  intro h
  have hc := h literalLibrary ('%' :: 'd' :: '{' :: (longFormat ++ '}' :: [])) longFormat 0 0
    (.braces [] (by decide)) (by decide) rfl
  obtain ⟨_,_,hl⟩ := (literalLibrary.complete_iff (f := keptFormat longFormat) (by decide) 0).mp hc
  change longFormat.length < 64 at hl
  exact absurd hl (by decide)

end Zcs.Log
