import Mathlib.Data.Int.Notation
import Zcs.Foundation.Text

/-! # Log levels and log events -/
namespace Zcs.Log

/-- `LogLevel::Level`, in the order of its numbers 0 to 5. -/
inductive LogLevel where
  | unkonw | debug | info | warn | error | fatal
  deriving DecidableEq

namespace LogLevel

def toText : LogLevel → Text
  | debug => "DEBUG".toList
  | info => "INFO".toList
  | warn => "WARN".toList
  | error => "ERROR".toList
  | fatal => "FATAL".toList
  | unkonw => "UNKONW".toList

def fromText (level : Text) : LogLevel :=
  if level = "debug".toList ∨ level = "DEBUG".toList then debug
  else if level = "info".toList ∨ level = "INFO".toList then info
  else if level = "warn".toList ∨ level = "WARN".toList then warn
  else if level = "error".toList ∨ level = "ERROR".toList then error
  else if level = "fatal".toList ∨ level = "FATAL".toList then fatal
  else unkonw

@[simp] theorem fromText_toText (level : LogLevel) : fromText level.toText = level := by
  cases level <;> decide

@[simp] theorem fromText_nil : fromText [] = unkonw := by decide

/-- The level comes back from its text, which is left out for `unkonw`. -/
theorem fromText_written (level : LogLevel) :
    fromText ((if level ≠ .unkonw then some level.toText else none).getD []) = level := by
  by_cases h : level = .unkonw <;> simp [h]

end LogLevel

/-- A `LogEvent`. `content` is the text of `ss_`, and of the event's logger only
the name is read by the formatter items. -/
structure LogEvent where
  file : Text
  line : ℤ
  elapse : ℕ
  threadId : ℕ
  fiberId : ℕ
  time : ℕ
  threadName : Text
  loggerName : Text
  level : LogLevel
  content : Text
  deriving DecidableEq

end Zcs.Log
