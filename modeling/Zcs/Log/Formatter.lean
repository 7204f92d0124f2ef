import Zcs.Log.Event

/-! # The pattern scanner and the formatter

The scanner keeps the index arithmetic of the source: one loop iteration reads
the pattern at the current index and moves the index past the piece it took,
the increment of the loop header included.
-/
namespace Zcs.Log

/-- One class of the source per constructor; only the time and string items
keep the text they were built from. -/
inductive FormatItem where
  | message | level | elapse | name | threadId | newLine
  | time (format : Text)
  | fileName | line | tab | fiberId | threadName
  | string (str : Text)
  deriving DecidableEq

def defaultTimeFormat : Text := "%Y-%m-%d %H:%M:%S".toList

def timeFormatItem (timeFmt : Text) : FormatItem :=
  .time (if timeFmt.isEmpty then defaultTimeFormat else timeFmt)

def itemMap : List (Text × (Text → FormatItem)) :=
  [(['m'],fun _ => .message), (['p'],fun _ => .level), (['r'],fun _ => .elapse),
   (['c'],fun _ => .name), (['t'],fun _ => .threadId), (['n'],fun _ => .newLine),
   (['d'],timeFormatItem), (['f'],fun _ => .fileName), (['l'],fun _ => .line),
   (['T'],fun _ => .tab), (['F'],fun _ => .fiberId), (['N'],fun _ => .threadName)]

/-- The local variables of `LogFormatter::Init` and the members it fills. -/
structure Scan where
  i : ℕ
  str : Text
  items : List FormatItem
  error : Bool
  deriving DecidableEq

namespace Scan

def start : Scan := ⟨0,[],[],false⟩

def flush (s : Scan) : Scan :=
  if s.str.isEmpty then s else { s with str := [], items := s.items ++ [.string s.str] }

def push (s : Scan) (item : FormatItem) : Scan := { s with items := s.items ++ [item] }

def fail (s : Scan) (text : Text) : Scan :=
  { s with items := s.items ++ [.string text], error := true }

def goto (s : Scan) (i : ℕ) : Scan := { s with i := i }

/-- The date branch, entered with `i` on the letter 'd'. -/
def date (pattern : Text) (s : Scan) : Scan :=
  match pattern[s.i + 1]? with
  | none => s.goto (s.i + 1)
  | some c =>
    if c ≠ '{' then (s.push (timeFormatItem [])).goto (s.i + 1)
    else if s.i + 2 ≥ pattern.length then (s.fail "<error format %d\x7b >".toList).goto (s.i + 2)
    else match Text.findFirstOf pattern '}' (s.i + 2) with
      | none => (s.fail ("<error format %d\x7b".toList ++ pattern.drop (s.i + 2) ++ " >".toList)).goto
          (s.i + 3)
      | some index =>
        (s.push (timeFormatItem (Text.substr pattern (s.i + 2) (index - (s.i + 2))))).goto (index + 1)

/-- One iteration of the loop of `LogFormatter::Init`. -/
def body (pattern : Text) (s : Scan) : Scan :=
  match pattern[s.i]? with
  | none => s
  | some c =>
    if c ≠ '%' then { s with str := s.str ++ [c], i := s.i + 1 }
    else match pattern[s.i + 1]? with
      | none => (s.fail "<error format %>".toList).goto (s.i + 1)
      | some x =>
        if x = '%' then { s with str := s.str ++ ['%'], i := s.i + 2 }
        else if x ≠ 'd' then
          match itemMap.lookup [x] with
          | none => (s.flush.fail ("<error format %".toList ++ [x] ++ ">".toList)).goto (s.i + 2)
          | some make => (s.flush.push (make [x])).goto (s.i + 2)
        else date pattern (s.flush.goto (s.i + 1))

/-- The loop. Every iteration moves the index forward, so the length of the
pattern is fuel enough (`loop_finished`). -/
def loop (pattern : Text) : ℕ → Scan → Scan
  | 0, s => s
  | fuel + 1, s => if s.i < pattern.length then loop pattern fuel (body pattern s) else s

@[simp] theorem flush_i (s : Scan) : s.flush.i = s.i := by unfold flush; split <;> rfl
@[simp] theorem flush_str (s : Scan) : s.flush.str = [] := by
  unfold flush
  split
  · next h => simpa using h
  · rfl
@[simp] theorem push_i (s : Scan) (item : FormatItem) : (s.push item).i = s.i := rfl
@[simp] theorem push_str (s : Scan) (item : FormatItem) : (s.push item).str = s.str := rfl
@[simp] theorem goto_i (s : Scan) (i : ℕ) : (s.goto i).i = i := rfl
@[simp] theorem goto_str (s : Scan) (i : ℕ) : (s.goto i).str = s.str := rfl
@[simp] theorem goto_items (s : Scan) (i : ℕ) : (s.goto i).items = s.items := rfl

theorem date_advances (pattern : Text) (s : Scan) : s.i < (date pattern s).i := by
  unfold date
  split
  · simp
  · split_ifs
    · simp
    · simp
    · split
      · simp
      · next index h =>
        obtain ⟨k,_,hk⟩ := Option.map_eq_some_iff.mp h
        simp only [goto_i]
        omega

theorem body_advances {pattern : Text} {s : Scan} (h : s.i < pattern.length) :
    s.i < (body pattern s).i := by
  unfold body
  simp only [List.getElem?_eq_getElem h]
  split_ifs
  · simp
  · split
    · simp
    · split_ifs
      · simp
      · split <;> simp
      · have hd := date_advances pattern (s.flush.goto (s.i + 1))
        simp only [goto_i] at hd
        omega

/-- The loop ends by its own condition, never for want of fuel. -/
theorem loop_finished (pattern : Text) (fuel : ℕ) (s : Scan) (h : pattern.length ≤ s.i + fuel) :
    pattern.length ≤ (loop pattern fuel s).i := by
  induction fuel generalizing s with
  | zero => simpa [loop] using h
  | succ fuel ih =>
    unfold loop
    split_ifs with hi
    · have hb := body_advances hi
      exact ih _ (by omega)
    · omega

theorem loop_of_length_le {pattern : Text} {s : Scan} (h : pattern.length ≤ s.i) (fuel : ℕ) :
    loop pattern fuel s = s := by
  cases fuel with
  | zero => rfl
  | succ fuel => simp [loop,Nat.not_lt.mpr h]

theorem loop_step {pattern : Text} {s : Scan} (h : s.i < pattern.length) (fuel : ℕ) :
    loop pattern (fuel + 1) s = loop pattern fuel (body pattern s) := by
  simp [loop,h]

end Scan

/-- A formatter is what `Init` makes of its pattern: the members cannot be set
in any other way. -/
structure LogFormatter where
  pattern : Text
  items : List FormatItem
  error : Bool
  built : items = (Scan.loop pattern pattern.length .start).items ∧
    error = (Scan.loop pattern pattern.length .start).error
  deriving DecidableEq

namespace LogFormatter

/-- `LogFormatter::LogFormatter(pattern)`, which runs `Init`. -/
def init (pattern : Text) : LogFormatter where
  pattern := pattern
  items := (Scan.loop pattern pattern.length .start).items
  error := (Scan.loop pattern pattern.length .start).error
  built := ⟨rfl,rfl⟩

def isError (f : LogFormatter) : Bool := f.error
def getPattern (f : LogFormatter) : Text := f.pattern

@[simp] theorem init_getPattern (f : LogFormatter) : init f.pattern = f := by
  obtain ⟨pattern,items,error,hi,he⟩ := f
  simp only [init]
  congr 1
  · exact hi.symm
  · exact he.symm

end LogFormatter

section Format

-- What a time item writes for a format and an event time.
variable (renderTime : Text → ℕ → Text)

def FormatItem.format (event : LogEvent) : FormatItem → Text
  | .message => event.content
  | .level => event.level.toText
  | .elapse => (toString event.elapse).toList
  | .name => event.loggerName
  | .threadId => (toString event.threadId).toList
  | .newLine => "\n".toList
  | .time format => renderTime format event.time
  | .fileName => event.file
  | .line => (toString event.line).toList
  | .tab => "\t".toList
  | .fiberId => (toString event.fiberId).toList
  | .threadName => event.threadName
  | .string str => str

def LogFormatter.formatTo (f : LogFormatter) (os : Text) (event : LogEvent) : Text :=
  f.items.foldl (fun os item => os ++ item.format renderTime event) os

def LogFormatter.format (f : LogFormatter) (event : LogEvent) : Text :=
  f.formatTo renderTime [] event

theorem LogFormatter.formatTo_eq (f : LogFormatter) (os : Text) (event : LogEvent) :
    f.formatTo renderTime os event = os ++ f.items.flatMap (·.format renderTime event) := by
  unfold LogFormatter.formatTo
  induction f.items generalizing os with
  | nil => simp
  | cons item items ih => simp [ih,List.append_assoc]

end Format
end Zcs.Log
