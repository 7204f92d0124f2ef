import Zcs.Log.Formatter

/-! # What a pattern means and what the formatter writes

A well-formed pattern is a concatenation of tokens. One iteration of the scanner
takes exactly one token, whatever stands before and behind it; the text of the
whole pattern is then compared with the meanings of its tokens.
-/
namespace Zcs.Log

/-- The pieces of a well-formed pattern. The letter of an item is one of the
table other than 'd', and the format of a date is free of its closing brace. -/
inductive Token where
  | literal (c : Char) (h : c ≠ '%')
  | percent
  | item (x : Char) (hd : x ≠ 'd') (hx : (itemMap.lookup [x]).isSome)
  | date
  | dateFormat (f : Text) (hf : '}' ∉ f)

def eventField (e : LogEvent) (x : Char) : Text :=
  match x with
  | 'm' => e.content
  | 'p' => e.level.toText
  | 'r' => (toString e.elapse).toList
  | 'c' => e.loggerName
  | 't' => (toString e.threadId).toList
  | 'n' => "\n".toList
  | 'f' => e.file
  | 'l' => (toString e.line).toList
  | 'T' => "\t".toList
  | 'F' => (toString e.fiberId).toList
  | 'N' => e.threadName
  | _ => []

namespace Token

def text : Token → Text
  | literal c _ => [c]
  | percent => "%%".toList
  | item x _ _ => ['%',x]
  | date => "%d".toList
  | dateFormat f _ => "%d\x7b".toList ++ f ++ "\x7d".toList

def meaning (renderTime : Text → ℕ → Text) (e : LogEvent) : Token → Text
  | literal c _ => [c]
  | percent => ['%']
  | item x _ _ => eventField e x
  | date => renderTime defaultTimeFormat e.time
  | dateFormat f _ => renderTime (if f.isEmpty then defaultTimeFormat else f) e.time

/-- The scanner has written everything it read when this token ends the pattern. -/
def flushed : Token → Bool
  | item _ _ _ | dateFormat _ _ => true
  | literal _ _ | percent | date => false

theorem text_ne_nil (t : Token) : t.text ≠ [] := by
  cases t <;> simp [text]

end Token

def textOf (ts : List Token) : Text := ts.flatMap Token.text

/-- A bare date is not followed by an opening brace. -/
def WellFormed : List Token → Prop
  | [] => True
  | t :: ts => (t = .date → (textOf ts).head? ≠ some '{') ∧ WellFormed ts

structure Pattern where
  tokens : List Token
  wellFormed : WellFormed tokens

def Pattern.text (p : Pattern) : Text := textOf p.tokens

def Pattern.meaning (renderTime : Text → ℕ → Text) (e : LogEvent) (p : Pattern) : Text :=
  p.tokens.flatMap (·.meaning renderTime e)

/-- What one iteration does to the state, given the text behind the token. -/
def Token.scan (rest : Text) (s : Scan) : Token → Scan
  | literal c _ => { s with str := s.str ++ [c], i := s.i + 1 }
  | percent => { s with str := s.str ++ ['%'], i := s.i + 2 }
  | item x _ hx => (s.flush.push ((itemMap.lookup [x]).get hx [x])).goto (s.i + 2)
  | date => if rest.isEmpty then s.flush.goto (s.i + 2)
      else (s.flush.push (timeFormatItem [])).goto (s.i + 2)
  | dateFormat f _ => (s.flush.push (timeFormatItem f)).goto (s.i + f.length + 4)

theorem Token.scan_i (rest : Text) (s : Scan) (t : Token) :
    (t.scan rest s).i = s.i + t.text.length := by
  cases t with
  | date => simp only [scan]; split <;> simp [text]
  | dateFormat f hf => simp [scan,text]; omega
  | literal c h => rfl
  | percent => rfl
  | item x hd hx => rfl

section Body
variable {pattern rest : Text} {s : Scan}

theorem body_literal {c : Char} (h : c ≠ '%') (hs : pattern.drop s.i = c :: rest) :
    Scan.body pattern s = (Token.literal c h).scan rest s := by
  have h0 : pattern[s.i]? = some c := by simpa using Text.getElem?_of_drop hs 0
  simp [Scan.body,h0,h,Token.scan]

theorem body_percent (hs : pattern.drop s.i = '%' :: '%' :: rest) :
    Scan.body pattern s = Token.percent.scan rest s := by
  have h0 : pattern[s.i]? = some '%' := by simpa using Text.getElem?_of_drop hs 0
  have h1 : pattern[s.i + 1]? = some '%' := by simpa using Text.getElem?_of_drop hs 1
  simp [Scan.body,h0,h1,Token.scan]

theorem body_item {x : Char} (hd : x ≠ 'd') (hx : (itemMap.lookup [x]).isSome)
    (hs : pattern.drop s.i = '%' :: x :: rest) :
    Scan.body pattern s = (Token.item x hd hx).scan rest s := by
  have h0 : pattern[s.i]? = some '%' := by simpa using Text.getElem?_of_drop hs 0
  have h1 : pattern[s.i + 1]? = some x := by simpa using Text.getElem?_of_drop hs 1
  have hp : x ≠ '%' := by
    rintro rfl
    exact absurd hx (by decide)
  obtain ⟨make,hm⟩ := Option.isSome_iff_exists.mp hx
  simp only [Scan.body,h0,h1,hd,hp,hm,Token.scan,Option.get_of_eq_some hx hm,ne_eq,not_true_eq_false,
    not_false_eq_true,↓reduceIte]

theorem body_enters_date (hs : pattern.drop s.i = '%' :: 'd' :: rest) :
    Scan.body pattern s = Scan.date pattern (s.flush.goto (s.i + 1)) := by
  have h0 : pattern[s.i]? = some '%' := by simpa using Text.getElem?_of_drop hs 0
  have h1 : pattern[s.i + 1]? = some 'd' := by simpa using Text.getElem?_of_drop hs 1
  simp [Scan.body,h0,h1]

theorem body_date (hs : pattern.drop s.i = '%' :: 'd' :: rest) (hr : rest.head? ≠ some '{') :
    Scan.body pattern s = Token.date.scan rest s := by
  have h2 : pattern[s.i + 1 + 1]? = rest[0]? := by simpa using Text.getElem?_of_drop hs 2
  rw [body_enters_date hs]
  cases rest with
  | nil =>
    simp only [Scan.date,Scan.goto_i,h2]
    rfl
  | cons c rest =>
    have hc : c ≠ '{' := by simpa using hr
    simp only [Scan.date,Scan.goto_i,h2,List.getElem?_cons_zero,ne_eq,hc,not_false_eq_true,↓reduceIte]
    rfl

theorem body_dateFormat {f : Text} (hf : '}' ∉ f)
    (hs : pattern.drop s.i = '%' :: 'd' :: '{' :: (f ++ '}' :: rest)) :
    Scan.body pattern s = (Token.dateFormat f hf).scan rest s := by
  have h2 : pattern[s.i + 1 + 1]? = some '{' := by simpa using Text.getElem?_of_drop hs 2
  have hl : ¬ pattern.length ≤ s.i + 1 + 2 := by
    have h := congrArg List.length hs
    simp only [List.length_drop,List.length_cons,List.length_append] at h
    omega
  have hd : pattern.drop (s.i + 1 + 2) = f ++ '}' :: rest := by
    rw [show s.i + 1 + 2 = s.i + 3 by omega,← List.drop_drop,hs]
    rfl
  have hi := Text.findFirstOf_of_drop hf hd
  have ht := Text.substr_of_drop hd
  rw [body_enters_date hs]
  simp only [Scan.date,Scan.goto_i,h2,ne_eq,not_true_eq_false,ge_iff_le,hl,↓reduceIte,hi,
    Nat.add_sub_cancel_left,ht,Token.scan]
  simp only [Scan.push,Scan.goto]
  congr 1
  omega

theorem body_token (t : Token) (hs : pattern.drop s.i = t.text ++ rest)
    (hr : t = .date → rest.head? ≠ some '{') : Scan.body pattern s = t.scan rest s := by
  cases t with
  | literal c h => exact body_literal h hs
  | percent => exact body_percent hs
  | item x hd hx => exact body_item hd hx hs
  | date => exact body_date hs (hr rfl)
  | dateFormat f hf => exact body_dateFormat hf (by simpa [Token.text] using hs)

end Body

def scanTokens : List Token → Scan → Scan
  | [], s => s
  | t :: ts, s => scanTokens ts (t.scan (textOf ts) s)

/-- The loop of the source reads a well-formed pattern token by token. -/
theorem loop_eq_scanTokens {pattern : Text} {ts : List Token} (h : WellFormed ts) {s : Scan} {fuel : ℕ}
    (hs : pattern.drop s.i = textOf ts) (hf : pattern.length ≤ s.i + fuel) :
    Scan.loop pattern fuel s = scanTokens ts s := by
  induction ts generalizing s fuel with
  | nil =>
    have hl : pattern.length ≤ s.i := List.drop_eq_nil_iff.mp hs
    exact Scan.loop_of_length_le hl fuel
  | cons t ts ih =>
    obtain ⟨hd,hw⟩ := h
    rw [textOf,List.flatMap_cons,← textOf] at hs
    have hi : s.i < pattern.length := by
      by_contra hge
      rw [List.drop_eq_nil_iff.mpr (by omega)] at hs
      exact t.text_ne_nil (List.append_eq_nil_iff.mp hs.symm).1
    have ht : pattern.drop (t.scan (textOf ts) s).i = textOf ts := by
      rw [t.scan_i,← List.drop_drop,hs,List.drop_left]
    have hpos := List.length_pos_of_ne_nil t.text_ne_nil
    cases fuel with
    | zero => omega
    | succ fuel =>
      rw [Scan.loop_step hi,body_token t hs hd,scanTokens]
      exact ih hw ht (by rw [t.scan_i]; omega)

theorem init_items (p : Pattern) :
    (LogFormatter.init p.text).items = (scanTokens p.tokens .start).items := by
  have h : Scan.loop p.text p.text.length .start = scanTokens p.tokens .start :=
    loop_eq_scanTokens p.wellFormed rfl (by simp [Scan.start])
  simp only [LogFormatter.init,h]

section Meaning
variable (renderTime : Text → ℕ → Text) (e : LogEvent)

/-- What has been read so far and is not lost: the items and the pending text. -/
def Scan.read (s : Scan) : Text := s.items.flatMap (·.format renderTime e) ++ s.str

theorem Scan.read_flush (s : Scan) : s.flush.read renderTime e = s.read renderTime e := by
  unfold Scan.flush
  split
  · rfl
  · simp [Scan.read,FormatItem.format]

theorem Scan.read_push {s : Scan} (h : s.str = []) (item : FormatItem) (i : ℕ) :
    ((s.push item).goto i).read renderTime e = s.read renderTime e ++ item.format renderTime e := by
  simp [Scan.read,Scan.push,h]

theorem format_timeFormatItem (f : Text) : (timeFormatItem f).format renderTime e =
    renderTime (if f.isEmpty then defaultTimeFormat else f) e.time := rfl

theorem format_lookup {x : Char} {make : Text → FormatItem} (hd : x ≠ 'd')
    (hm : itemMap.lookup [x] = some make) : (make [x]).format renderTime e = eventField e x := by
  obtain ⟨l₁,l₂,h,_⟩ := List.lookup_eq_some_iff.mp hm
  have hmem : ([x],make) ∈ itemMap := by simp [h]
  simp only [itemMap,List.mem_cons,Prod.mk.injEq,List.cons.injEq,and_true,List.not_mem_nil,or_false]
    at hmem
  rcases hmem with ⟨rfl,rfl⟩ | ⟨rfl,rfl⟩ | ⟨rfl,rfl⟩ | ⟨rfl,rfl⟩ | ⟨rfl,rfl⟩ | ⟨rfl,rfl⟩ | ⟨rfl,rfl⟩ |
    ⟨rfl,rfl⟩ | ⟨rfl,rfl⟩ | ⟨rfl,rfl⟩ | ⟨rfl,rfl⟩ | ⟨rfl,rfl⟩
  all_goals first | rfl | exact absurd rfl hd

/-- The only token that loses its meaning at once is a bare date at the very end. -/
def Token.lost (rest : Text) : Token → Text
  | date => if rest.isEmpty then renderTime defaultTimeFormat e.time else []
  | _ => []

theorem read_scan (t : Token) (rest : Text) (s : Scan) :
    (t.scan rest s).read renderTime e ++ t.lost renderTime e rest =
      s.read renderTime e ++ t.meaning renderTime e := by
  have hf := s.read_flush renderTime e
  have hp := Scan.read_push renderTime e s.flush_str
  cases t with
  | literal c h => simp [Token.scan,Token.lost,Token.meaning,Scan.read]
  | percent => simp [Token.scan,Token.lost,Token.meaning,Scan.read]
  | item x hd hx =>
    have hm := format_lookup renderTime e hd (Option.some_get hx).symm
    simp [Token.scan,Token.lost,Token.meaning,hp,hf,hm]
  | date =>
    simp only [Token.scan,Token.lost,Token.meaning]
    split
    · rw [← hf]
      rfl
    · simp [hp,hf,format_timeFormatItem]
  | dateFormat f hf' => simp [Token.scan,Token.lost,Token.meaning,hp,hf,format_timeFormatItem]

def lostDate (ts : List Token) : Text :=
  match ts.getLast? with
  | some t => t.lost renderTime e []
  | none => []

theorem read_scanTokens (ts : List Token) (s : Scan) :
    (scanTokens ts s).read renderTime e ++ lostDate renderTime e ts =
      s.read renderTime e ++ ts.flatMap (·.meaning renderTime e) := by
  induction ts generalizing s with
  | nil => simp [scanTokens,lostDate]
  | cons t ts ih =>
    have ht := read_scan renderTime e t (textOf ts) s
    cases ts with
    | nil => simpa [scanTokens,lostDate,textOf] using ht
    | cons u us =>
      -- text follows, so this token loses nothing
      have hl : t.lost renderTime e (textOf (u :: us)) = [] := by
        have hne : (textOf (u :: us)).isEmpty = false := by
          simp [textOf,u.text_ne_nil]
        cases t <;> simp [Token.lost,hne]
      have hlast : lostDate renderTime e (t :: u :: us) = lostDate renderTime e (u :: us) := by
        simp [lostDate,List.getLast?_cons_cons]
      rw [hl,List.append_nil] at ht
      rw [hlast,scanTokens,ih,ht,List.append_assoc]
      rfl

theorem scan_str_eq_nil_iff (t : Token) (rest : Text) (s : Scan) :
    (t.scan rest s).str = [] ↔ t.flushed = true ∨ t = .date := by
  cases t with
  | date => simp only [Token.scan]; split <;> simp
  | _ => simp [Token.scan,Token.flushed]

theorem scanTokens_of_getLast? {ts : List Token} {t : Token} (h : ts.getLast? = some t) (s : Scan) :
    ∃ s', scanTokens ts s = t.scan [] s' := by
  induction ts generalizing s with
  | nil => simp at h
  | cons u us ih =>
    cases us with
    | nil =>
      obtain rfl : u = t := by simpa using h
      exact ⟨s,rfl⟩
    | cons v vs => exact ih (by simpa [List.getLast?_cons_cons] using h) _

/-- Text is left over, or a date is dropped, exactly when the last token is not
one that the scanner writes at once. -/
theorem pending_eq_nil_iff (ts : List Token) :
    (scanTokens ts .start).str ++ lostDate renderTime e ts = [] ↔
      ∀ t ∈ ts.getLast?, t.flushed = true ∨
        (t = .date ∧ renderTime defaultTimeFormat e.time = []) := by
  cases h : ts.getLast? with
  | none =>
    obtain rfl : ts = [] := List.getLast?_eq_none_iff.mp h
    simp [scanTokens,lostDate,Scan.start]
  | some t =>
    obtain ⟨s',hs⟩ := scanTokens_of_getLast? h .start
    rw [List.append_eq_nil_iff,hs,scan_str_eq_nil_iff,lostDate,h]
    cases t <;> simp [Token.flushed,Token.lost]

theorem format_append_pending (p : Pattern) :
    (LogFormatter.init p.text).format renderTime e ++
      ((scanTokens p.tokens .start).str ++ lostDate renderTime e p.tokens) =
      p.meaning renderTime e := by
  have h := read_scanTokens renderTime e p.tokens .start
  rw [LogFormatter.format,LogFormatter.formatTo_eq,init_items,List.nil_append,← List.append_assoc]
  simpa [Scan.read,Scan.start,Pattern.meaning] using h

/-- The formatter writes the meanings of all tokens of the pattern exactly when
the pattern is empty or ends with an item or a date with braces (or with a bare
date whose rendering is empty anyway). -/
theorem format_eq_meaning_iff (p : Pattern) :
    (LogFormatter.init p.text).format renderTime e = p.meaning renderTime e ↔
      ∀ t ∈ p.tokens.getLast?, t.flushed = true ∨
        (t = .date ∧ renderTime defaultTimeFormat e.time = []) := by
  rw [← pending_eq_nil_iff,← format_append_pending]
  exact List.self_eq_append_right

end Meaning

def bangPattern : Pattern :=
  ⟨[.item 'm' (by decide) (by decide),.literal '!' (by decide)],by simp [WellFormed]⟩

def hiEvent : LogEvent where
  file := "main.cpp".toList
  line := 7
  elapse := 0
  threadId := 1
  fiberId := 0
  time := 0
  threadName := "main".toList
  loggerName := "root".toList
  level := .info
  content := "hi".toList

/-- The literal text behind the last directive is dropped: "%m!" writes "hi". -/
theorem bangPattern_not_meaning : ¬ ∀ (renderTime : Text → ℕ → Text) (e : LogEvent) (p : Pattern),
    (LogFormatter.init p.text).format renderTime e = p.meaning renderTime e := by
  intro h
  have hb := h (fun f _ => f) hiEvent bangPattern
  have hw : (LogFormatter.init bangPattern.text).format (fun f _ => f) hiEvent = "hi".toList := by decide
  have hm : bangPattern.meaning (fun f _ => f) hiEvent = "hi!".toList := by decide
  rw [hw,hm] at hb
  exact absurd hb (by decide)

end Zcs.Log
