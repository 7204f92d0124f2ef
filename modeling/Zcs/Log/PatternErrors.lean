import Mathlib.Data.Bool.AllAny
import Zcs.Log.PatternTokens

/-! # Which patterns the scanner calls an error

The scanner goes on after an error, so its flag says something about the whole
pattern. An iteration that raises no error has read one token; the tokens of a
pattern without error are therefore all there is.
-/
namespace Zcs.Log

/-- The letters of the items, other than the date's. -/
def itemLetters : Text := "mprctnflTFN".toList

/-- The patterns that are concatenations of tokens. -/
inductive Grammatical : Text → Prop
  | nil : Grammatical []
  | literal {c : Char} {rest : Text} (h : c ≠ '%') (hr : Grammatical rest) : Grammatical (c :: rest)
  | percent {rest : Text} (hr : Grammatical rest) : Grammatical ('%' :: '%' :: rest)
  | item {x : Char} {rest : Text} (hx : x ∈ itemLetters) (hr : Grammatical rest) :
    Grammatical ('%' :: x :: rest)
  | date {rest : Text} (h : rest.head? ≠ some '{') (hr : Grammatical rest) :
    Grammatical ('%' :: 'd' :: rest)
  | dateFormat {f rest : Text} (hf : '}' ∉ f) (hr : Grammatical rest) :
    Grammatical ('%' :: 'd' :: '{' :: (f ++ '}' :: rest))

theorem mem_itemLetters_iff (x : Char) : x ∈ itemLetters ↔ x ≠ 'd' ∧ (itemMap.lookup [x]).isSome := by
  constructor
  · intro hx
    have hall : ∀ c ∈ itemLetters, c ≠ 'd' ∧ (itemMap.lookup [c]).isSome :=
      List.all_iff_forall_prop.mp rfl
    exact hall x hx
  · rintro ⟨hd,hx⟩
    obtain ⟨make,hm⟩ := Option.isSome_iff_exists.mp hx
    obtain ⟨l₁,l₂,h,_⟩ := List.lookup_eq_some_iff.mp hm
    have hkeys : ∀ e ∈ itemMap, e.1 = ['d'] ∨ e.1 ∈ itemLetters.map fun c => [c] :=
      List.all_iff_forall_prop.mp rfl
    rcases hkeys ([x],make) (by simp [h]) with he | hc
    · exact absurd (List.cons.inj he).1 hd
    · simpa using hc

/-- The two ways of saying it. -/
theorem grammatical_iff {s : Text} : Grammatical s ↔ ∃ p : Pattern, p.text = s := by
  constructor
  · intro h
    have hcons : ∀ (t : Token) {rest : Text}, (t = .date → rest.head? ≠ some '{') →
        (∃ p : Pattern, p.text = rest) → ∃ p : Pattern, p.text = t.text ++ rest := by
      rintro t _ hd ⟨p,rfl⟩
      exact ⟨⟨t :: p.tokens,hd,p.wellFormed⟩,rfl⟩
    induction h with
    | nil => exact ⟨⟨[],trivial⟩,rfl⟩
    | literal h _ ih => exact hcons (.literal _ h) (by simp) ih
    | percent _ ih => exact hcons .percent (by simp) ih
    | item hx _ ih =>
      obtain ⟨hd,hs⟩ := (mem_itemLetters_iff _).mp hx
      exact hcons (.item _ hd hs) (by simp) ih
    | date h _ ih => exact hcons .date (fun _ => h) ih
    | dateFormat hf _ ih => simpa [Token.text] using hcons (.dateFormat _ hf) (by simp) ih
  · rintro ⟨⟨ts,hw⟩,rfl⟩
    induction ts with
    | nil => exact .nil
    | cons t ts ih =>
      have hr : Grammatical (textOf ts) := ih hw.2
      change Grammatical (t.text ++ textOf ts)
      cases t with
      | literal c h => exact .literal h hr
      | percent => exact .percent hr
      | item x hd hx => exact .item ((mem_itemLetters_iff x).mpr ⟨hd,hx⟩) hr
      | date => exact .date (hw.1 rfl) hr
      | dateFormat f hf => simpa [Token.text] using Grammatical.dateFormat hf hr

namespace Scan

@[simp] theorem flush_error (s : Scan) : s.flush.error = s.error := by unfold flush; split <;> rfl
@[simp] theorem push_error (s : Scan) (item : FormatItem) : (s.push item).error = s.error := rfl
@[simp] theorem fail_error (s : Scan) (text : Text) : (s.fail text).error = true := rfl
@[simp] theorem goto_error (s : Scan) (i : ℕ) : (s.goto i).error = s.error := rfl

/-- An error is never taken back. -/
theorem error_of_body {pattern : Text} {s : Scan} (h : (body pattern s).error = false) : s.error = false := by
  have hdate : ∀ {s : Scan}, (date pattern s).error = false → s.error = false := by
    intro s h
    unfold date at h
    split at h
    · exact h
    · split_ifs at h
      · exact h
      · simp at h
      · split at h <;> simp_all
  unfold body at h
  split at h
  · exact h
  · split_ifs at h
    · exact h
    · split at h
      · simp at h
      · split_ifs at h
        · exact h
        · split at h <;> simp_all
        · simpa using hdate h

theorem error_of_loop {pattern : Text} {fuel : ℕ} {s : Scan} (h : (loop pattern fuel s).error = false) :
    s.error = false := by
  induction fuel generalizing s with
  | zero => exact h
  | succ fuel ih =>
    unfold loop at h
    split_ifs at h
    · exact error_of_body (ih h)
    · exact h

/-- An iteration without error has a token to read. -/
theorem token_of_body {pattern : Text} {s : Scan} (hi : s.i < pattern.length)
    (h : (body pattern s).error = false) :
    ∃ (t : Token) (rest : Text), pattern.drop s.i = t.text ++ rest ∧ (t = .date → rest.head? ≠ some '{') := by
  cases hs : pattern.drop s.i with
  | nil =>
    have hl := List.drop_eq_nil_iff.mp hs
    omega
  | cons c r =>
    have h0 : pattern[s.i]? = some c := by simpa using Text.getElem?_of_drop hs 0
    have h1 : pattern[s.i + 1]? = r[0]? := by simpa using Text.getElem?_of_drop hs 1
    by_cases hc : c = '%'
    swap
    · exact ⟨.literal c hc,r,rfl,by simp⟩
    subst hc
    cases r with
    | nil => simp [body,h0,h1] at h
    | cons x r =>
      by_cases hp : x = '%'
      · subst hp
        exact ⟨.percent,r,rfl,by simp⟩
      by_cases hd : x = 'd'
      swap
      · cases hm : itemMap.lookup [x] with
        | none => simp [body,h0,h1,hp,hd,hm] at h
        | some make => exact ⟨.item x hd (by simp [hm]),r,rfl,by simp⟩
      subst hd
      by_cases hb : r.head? = some '{'
      swap
      · exact ⟨.date,r,rfl,fun _ => hb⟩
      cases r with
      | nil => cases hb
      | cons b q =>
        obtain rfl : b = '{' := by simpa using hb
        by_cases hq : '}' ∈ q
        · obtain ⟨f,rest,rfl,hf⟩ := List.eq_append_cons_of_mem hq
          exact ⟨.dateFormat f hf,rest,by simp [Token.text],by simp⟩
        · -- no brace closes the format
          have h2 : pattern[s.i + 1 + 1]? = some '{' := by simpa using Text.getElem?_of_drop hs 2
          have hdrop : pattern.drop (s.i + 1 + 2) = q := by
            rw [show s.i + 1 + 2 = s.i + 3 by omega,← List.drop_drop,hs]
            rfl
          have hfind : Text.findFirstOf pattern '}' (s.i + 1 + 2) = none := by
            simpa [Text.findFirstOf,hdrop,List.findIdx?_eq_none_iff] using fun a ha => ne_of_mem_of_not_mem ha hq
          rw [body_enters_date hs] at h
          simp only [date,goto_i,h2,ne_eq,not_true_eq_false,↓reduceIte,hfind] at h
          split_ifs at h <;> simp at h

/-- A loop without error has read tokens only. -/
theorem tokens_of_loop {pattern : Text} {fuel : ℕ} {s : Scan} (hf : pattern.length ≤ s.i + fuel)
    (h : (loop pattern fuel s).error = false) : ∃ p : Pattern, p.text = pattern.drop s.i := by
  induction fuel generalizing s with
  | zero => exact ⟨⟨[],trivial⟩,(List.drop_eq_nil_iff.mpr (by omega)).symm⟩
  | succ fuel ih =>
    by_cases hi : s.i < pattern.length
    · rw [loop_step hi] at h
      obtain ⟨t,rest,hs,hd⟩ := token_of_body hi (error_of_loop h)
      have hnext : (body pattern s).i = s.i + t.text.length := by rw [body_token t hs hd,t.scan_i]
      have hadv := body_advances hi
      obtain ⟨p,hp⟩ := ih (by omega) h
      have hrest : p.text = rest := by rw [hp,hnext,← List.drop_drop,hs,List.drop_left]
      have hd' : t = .date → (textOf p.tokens).head? ≠ some '{' := by
        change t = .date → p.text.head? ≠ some '{'
        rwa [hrest]
      refine ⟨⟨t :: p.tokens,hd',p.wellFormed⟩,?_⟩
      rw [hs,← hrest]
      rfl
    · exact ⟨⟨[],trivial⟩,(List.drop_eq_nil_iff.mpr (by omega)).symm⟩

end Scan

theorem scanTokens_error (ts : List Token) (s : Scan) : (scanTokens ts s).error = s.error := by
  induction ts generalizing s with
  | nil => rfl
  | cons t ts ih =>
    rw [scanTokens,ih]
    cases t with
    | date => simp only [Token.scan]; split <;> simp
    | _ => simp [Token.scan]

/-- The flag is raised exactly for the patterns that are no concatenations of tokens. -/
theorem isError_iff (pattern : Text) : (LogFormatter.init pattern).isError = true ↔ ¬ Grammatical pattern := by
  rw [grammatical_iff,← not_iff_not,Bool.not_eq_true,not_not]
  constructor
  · intro h
    obtain ⟨p,hp⟩ := Scan.tokens_of_loop (s := .start) (by simp [Scan.start]) h
    exact ⟨p,hp⟩
  · rintro ⟨p,rfl⟩
    have h : Scan.loop p.text p.text.length .start = scanTokens p.tokens .start :=
      loop_eq_scanTokens p.wellFormed rfl (by simp [Scan.start])
    change (Scan.loop p.text p.text.length .start).error = false
    rw [h,scanTokens_error]
    rfl

end Zcs.Log
