import Zcs.Log.PatternErrors

/-! # Reading on after an item

The scanner looks forward only, and behind an item or a date with braces its
buffer is empty. What it makes of the characters behind such a place is then what
it makes of them as a pattern of their own.
-/
namespace Zcs.Log

namespace Scan

/-- The state that has read `n` more characters before and has `items` from them. -/
def after (n : ℕ) (items : List FormatItem) (s : Scan) : Scan :=
  { s with i := n + s.i, items := items ++ s.items }

section After
variable (n : ℕ) (items : List FormatItem) (s : Scan)

theorem flush_after : (s.after n items).flush = s.flush.after n items := by
  by_cases h : s.str.isEmpty <;> simp [flush,after,h]

theorem push_after (item : FormatItem) : (s.after n items).push item = (s.push item).after n items := by
  simp [push,after]

theorem fail_after (text : Text) : (s.after n items).fail text = (s.fail text).after n items := by
  simp [fail,after]

theorem goto_after (i : ℕ) : (s.after n items).goto (n + i) = (s.goto i).after n items := rfl

end After

section Behind
variable (p q : Text) (items : List FormatItem)

theorem getElem?_behind (k : ℕ) : (p ++ q)[p.length + k]? = q[k]? := by
  rw [List.getElem?_append_right (Nat.le_add_right ..),Nat.add_sub_cancel_left]

theorem findFirstOf_behind (c : Char) (k : ℕ) :
    Text.findFirstOf (p ++ q) c (p.length + k) = (Text.findFirstOf q c k).map (p.length + ·) := by
  simp only [Text.findFirstOf,List.drop_append,List.drop_eq_nil_of_le (Nat.le_add_right p.length k),
    Nat.add_sub_cancel_left,List.nil_append,Option.map_map]
  congr 1
  funext j
  exact Nat.add_assoc ..

theorem drop_behind (k : ℕ) : (p ++ q).drop (p.length + k) = q.drop k := List.drop_length_add_append ..

theorem date_behind (s : Scan) :
    date (p ++ q) (s.after p.length items) = (date q s).after p.length items := by
  have hi : ∀ k, (s.after p.length items).i + k = p.length + (s.i + k) := fun k => Nat.add_assoc ..
  have hl : ((p ++ q).length ≤ p.length + (s.i + 2)) ↔ q.length ≤ s.i + 2 := by
    rw [List.length_append]
    omega
  simp only [date,hi,getElem?_behind,ge_iff_le,hl,findFirstOf_behind,drop_behind,push_after,fail_after,
    goto_after]
  cases q[s.i + 1]? with
  | none => rfl
  | some c =>
    simp only
    split_ifs
    · rfl
    · rfl
    · cases Text.findFirstOf q '}' (s.i + 2) with
      | none => rfl
      | some index =>
        have hlen : p.length + index - (p.length + (s.i + 2)) = index - (s.i + 2) := Nat.add_sub_add_left ..
        simp only [Option.map_some,Text.substr,drop_behind,hlen,Nat.add_assoc,goto_after]

theorem body_behind (s : Scan) :
    body (p ++ q) (s.after p.length items) = (body q s).after p.length items := by
  have hi : (s.after p.length items).i = p.length + s.i := rfl
  simp only [body,hi,Nat.add_assoc,getElem?_behind,flush_after,push_after,fail_after,goto_after,date_behind]
  cases q[s.i]? with
  | none => rfl
  | some c =>
    simp only
    split_ifs
    · rfl
    · cases q[s.i + 1]? with
      | none => rfl
      | some x =>
        simp only
        split_ifs
        · rfl
        · cases itemMap.lookup [x] <;> rfl
        · rfl

/-- The loop behind `p` is the loop on `q`. -/
theorem loop_behind (fuel : ℕ) (s : Scan) :
    loop (p ++ q) fuel (s.after p.length items) = (loop q fuel s).after p.length items := by
  induction fuel generalizing s with
  | zero => rfl
  | succ fuel ih =>
    have hl : ((s.after p.length items).i < (p ++ q).length) ↔ s.i < q.length := by
      simp only [after,List.length_append]
      omega
    simp only [loop,hl,body_behind,ih]
    split <;> rfl

end Behind

/-- More fuel than enough changes nothing. -/
theorem loop_fuel {pattern : Text} {fuel more : ℕ} {s : Scan} (h : pattern.length ≤ s.i + fuel) :
    loop pattern (fuel + more) s = loop pattern fuel s := by
  induction fuel generalizing s with
  | zero => rw [loop_of_length_le h,loop_of_length_le h]
  | succ fuel ih =>
    by_cases hi : s.i < pattern.length
    · have hb := body_advances hi
      rw [Nat.succ_add,loop_step hi,loop_step hi]
      exact ih (by omega)
    · rw [loop_of_length_le (Nat.not_lt.mp hi),loop_of_length_le (Nat.not_lt.mp hi)]

end Scan

theorem scanTokens_i (ts : List Token) (s : Scan) : (scanTokens ts s).i = s.i + (textOf ts).length := by
  induction ts generalizing s with
  | nil => rfl
  | cons t ts ih =>
    rw [scanTokens,ih,t.scan_i]
    simp [textOf,Nat.add_assoc]

/-- Tokens that do not end with a bare date are read the same whatever follows. -/
theorem loop_tokens_append {pattern q : Text} {ts : List Token} (h : WellFormed ts)
    (hl : ∀ t ∈ ts.getLast?, t ≠ .date) {s : Scan} {fuel : ℕ} (hs : pattern.drop s.i = textOf ts ++ q)
    (hf : pattern.length ≤ s.i + fuel) :
    Scan.loop pattern fuel s = Scan.loop pattern fuel (scanTokens ts s) := by
  induction ts generalizing s fuel with
  | nil => rfl
  | cons t ts ih =>
    rw [textOf,List.flatMap_cons,← textOf,List.append_assoc] at hs
    have hne := t.text_ne_nil
    have hpos := List.length_pos_of_ne_nil hne
    have hi : s.i < pattern.length := by
      by_contra hge
      rw [List.drop_eq_nil_iff.mpr (by omega)] at hs
      exact hne (List.append_eq_nil_iff.mp hs.symm).1
    -- a bare date has another token behind it, so it sees the same first character
    have hdate : t = .date → ∃ c r, textOf ts = c :: r := by
      rintro rfl
      cases ts with
      | nil => exact absurd rfl (hl _ rfl)
      | cons u us => exact List.exists_cons_of_ne_nil (by simp [textOf,u.text_ne_nil])
    have hhead : t = .date → (textOf ts ++ q).head? ≠ some '{' := by
      intro ht
      obtain ⟨c,r,hc⟩ := hdate ht
      have hw := h.1 ht
      rw [hc] at hw ⊢
      exact hw
    have hscan : t.scan (textOf ts ++ q) s = t.scan (textOf ts) s := by
      cases t with
      | date =>
        obtain ⟨c,r,hc⟩ := hdate rfl
        rw [hc]
        rfl
      | _ => rfl
    have hl' : ∀ u ∈ ts.getLast?, u ≠ .date := by
      cases ts with
      | nil => simp
      | cons u us => simpa [List.getLast?_cons_cons] using hl
    have hnext : pattern.drop (t.scan (textOf ts) s).i = textOf ts ++ q := by
      rw [t.scan_i,← List.drop_drop,hs,List.drop_left]
    cases fuel with
    | zero => omega
    | succ fuel =>
      have hrest : pattern.length ≤ (t.scan (textOf ts) s).i + fuel := by
        rw [t.scan_i]
        omega
      rw [Scan.loop_step hi,body_token t hs hhead,hscan,ih h.2 hl' hnext hrest,← scanTokens]
      refine (Scan.loop_fuel ?_).symm
      rw [scanTokens,scanTokens_i]
      omega

/-- Behind a flushed token the scanner is where it starts, with the items so far. -/
theorem scanTokens_eq_after {ts : List Token} {t : Token} (hl : ts.getLast? = some t)
    (ht : t.flushed = true) :
    scanTokens ts .start = Scan.start.after (textOf ts).length (scanTokens ts .start).items := by
  obtain ⟨s,hs⟩ := scanTokens_of_getLast? hl .start
  have hstr : (scanTokens ts .start).str = [] := by
    rw [hs]
    exact (scan_str_eq_nil_iff t [] s).mpr (.inl ht)
  have hi := scanTokens_i ts .start
  have he := scanTokens_error ts .start
  cases h : scanTokens ts .start with
  | mk i str items error =>
    rw [h] at hstr hi he
    simp only [Scan.start,Nat.zero_add] at hstr hi he
    simp [Scan.after,Scan.start,hstr,hi,he]

/-- The formatter of a pattern that ends with an item or a date with braces and
goes on with any text, well formed or not: the items of both, and the text's error. -/
theorem init_append (p : Pattern) {t : Token} (hl : p.tokens.getLast? = some t) (ht : t.flushed = true)
    (q : Text) :
    (LogFormatter.init (p.text ++ q)).items =
      (LogFormatter.init p.text).items ++ (LogFormatter.init q).items ∧
    (LogFormatter.init (p.text ++ q)).isError = (LogFormatter.init q).isError := by
  have hdate : ∀ u ∈ p.tokens.getLast?, u ≠ .date := by
    rintro u hu rfl
    rw [hl,Option.mem_some_iff] at hu
    subst hu
    cases ht
  have hread : Scan.loop (p.text ++ q) (p.text ++ q).length .start =
      Scan.loop (p.text ++ q) (p.text ++ q).length (scanTokens p.tokens .start) :=
    loop_tokens_append p.wellFormed hdate rfl (by simp)
  have henough : Scan.loop q (p.text ++ q).length .start = Scan.loop q q.length .start := by
    rw [List.length_append,Nat.add_comm]
    exact Scan.loop_fuel (by simp)
  have hscan : Scan.loop (p.text ++ q) (p.text ++ q).length .start =
      (Scan.loop q q.length .start).after p.text.length (scanTokens p.tokens .start).items := calc
    _ = Scan.loop (p.text ++ q) (p.text ++ q).length (scanTokens p.tokens .start) := hread
    _ = Scan.loop (p.text ++ q) (p.text ++ q).length
        (Scan.start.after p.text.length (scanTokens p.tokens .start).items) :=
      congrArg (Scan.loop _ _) (scanTokens_eq_after hl ht)
    _ = (Scan.loop q (p.text ++ q).length .start).after p.text.length _ := Scan.loop_behind ..
    _ = _ := by rw [henough]
  rw [init_items p]
  simp only [LogFormatter.init,LogFormatter.isError,hscan]
  exact ⟨rfl,rfl⟩

def levelPattern : Pattern where
  tokens := [.literal 'a' (by decide),.item 'p' (by decide) (by decide)]
  wellFormed := And.intro (fun h => nomatch h) (And.intro (fun h => nomatch h) trivial)

theorem init_append_level :
    (LogFormatter.init "a%p%d\x7bx".toList).items =
      (LogFormatter.init "a%p".toList).items ++ (LogFormatter.init "%d\x7bx".toList).items ∧
    (LogFormatter.init "a%p%d\x7bx".toList).isError = (LogFormatter.init "%d\x7bx".toList).isError :=
  init_append levelPattern rfl rfl "%d\x7bx".toList

end Zcs.Log
