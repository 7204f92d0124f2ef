import Mathlib.Data.List.Infix
import Mathlib.Algebra.Group.Nat.Defs
import Zcs.Foundation.Ofstream
import Zcs.Foundation.Run
import Zcs.Log.Formatter

/-! # The file appender and its stream

`Reopen` closes the file only if the stream is not in a failed state, and it answers
whether the stream is open. A failed write leaves the file open, so that from then on
neither `close` nor a successful `open` is ever reached again.
-/
namespace Zcs.Log

structure FileLogAppender where
  filestream : Ofstream
  lastTime : ℕ
  formatter : LogFormatter
  deriving DecidableEq

/-- What the operating system does in one call: whether the last buffer can be
written at a close, whether the file can be opened, and what becomes of each item. -/
structure FileOutcome where
  closes : Bool
  opens : Bool
  writes : ℕ → Bool

-- What a time item writes for a format and an event time.
variable (renderTime : Text → ℕ → Text)

/-- `LogFormatter::Format` into a file stream. -/
def LogFormatter.formatFile (f : LogFormatter) (os : Ofstream) (event : LogEvent) (writes : ℕ → Bool) :
    Ofstream :=
  os.putAll (f.items.zipIdx.map fun item => (item.1.format renderTime event,writes item.2))

/-- A usable stream takes an event, if the operating system goes along. -/
theorem LogFormatter.formatFile_of_usable (f : LogFormatter) {os : Ofstream} (h : os.Usable) (event : LogEvent) :
    f.formatFile renderTime os event (fun _ => true) =
      { os with taken := os.taken ++ f.format renderTime event } := by
  have hitems : (f.items.zipIdx.map fun item => (item.1.format renderTime event,true)) =
      (f.items.map (·.format renderTime event)).map fun text => (text,true) := by
    calc
      _ = (f.items.zipIdx.map Prod.fst).map fun item : FormatItem => (item.format renderTime event,true) := by
        rw [List.map_map]
        rfl
      _ = _ := by
        rw [List.zipIdx_map_fst,List.map_map]
        rfl
  rw [formatFile,hitems,h.putAll,LogFormatter.format,formatTo_eq,List.nil_append,List.flatMap_def]

namespace FileLogAppender

/-- `FileLogAppender::Reopen`, with its result. -/
def reopen (a : FileLogAppender) (os : FileOutcome) : FileLogAppender × Bool :=
  let filestream := if !a.filestream.failed then a.filestream.close os.closes else a.filestream
  let filestream := filestream.openFile os.opens
  ({ a with filestream := filestream },filestream.isOpen)

/-- `FileLogAppender::FileLogAppender` and the formatter that it is given later. -/
def new (formatter : LogFormatter) (os : FileOutcome) : FileLogAppender :=
  (reopen ⟨{},0,formatter⟩ os).1

/-- `now >= last_time_ + 3` in 64 bits -/
def due (a : FileLogAppender) (event : LogEvent) : Bool := (a.lastTime + 3) % 2 ^ 64 ≤ event.time

/-- The stream that `Log` writes to. -/
def refreshed (a : FileLogAppender) (event : LogEvent) (os : FileOutcome) : FileLogAppender :=
  if a.due event then { (a.reopen os).1 with lastTime := event.time } else a

/-- `FileLogAppender::Log`; the result is whether "error" is printed. -/
def log (a : FileLogAppender) (event : LogEvent) (os : FileOutcome) : FileLogAppender × Bool :=
  let a := a.refreshed event os
  let filestream := a.formatter.formatFile renderTime a.filestream event os.writes
  ({ a with filestream := filestream },filestream.failed)

end FileLogAppender

/-- One execution of `Reopen`: whether the file could be opened, the stream behind it,
and what was returned. -/
structure Reopening where
  opens : Bool
  after : Ofstream
  returned : Bool
  deriving DecidableEq

/-- The stream is usable if it can be, and `true` says nothing else. -/
structure Reopening.Right (r : Reopening) : Prop where
  usable : r.opens = true → r.after.Usable
  returned : r.returned = true → r.opens = true ∧ r.after.Usable

/-- An appender with all that `Reopen` has done so far. -/
structure FileSession where
  appender : FileLogAppender
  reopenings : List Reopening
  deriving DecidableEq

namespace FileSession

inductive Call where
  | log (event : LogEvent) (os : FileOutcome)
  | reopen (os : FileOutcome)

def reopening (a : FileLogAppender) (os : FileOutcome) : Reopening :=
  ⟨os.opens,(a.reopen os).1.filestream,(a.reopen os).2⟩

/-- The constructor calls `Reopen` as well. -/
def start (formatter : LogFormatter) (os : FileOutcome) : FileSession :=
  ⟨.new formatter os,[reopening ⟨{},0,formatter⟩ os]⟩

/-- The execution of `Reopen` in a call, if there is one. -/
def reopens (s : FileSession) : Call → Option Reopening
  | .log event os => if s.appender.due event then some (reopening s.appender os) else none
  | .reopen os => some (reopening s.appender os)

def after (s : FileSession) : Call → FileLogAppender
  | .log event os => (s.appender.log renderTime event os).1
  | .reopen os => (s.appender.reopen os).1

def step (s : FileSession) (c : Call) : Option FileSession :=
  some ⟨s.after renderTime c,s.reopenings ++ (s.reopens c).toList⟩

/-- No `Reopen` on a stream that is open in a failed state. -/
def Unstuck (s : FileSession) (c : Call) : Prop :=
  (s.reopens c).isSome = true → ¬ s.appender.filestream.Stuck

instance (s : FileSession) (c : Call) : Decidable (s.Unstuck c) :=
  inferInstanceAs (Decidable ((s.reopens c).isSome = true → ¬ s.appender.filestream.Stuck))

theorem eq_of_reopens {s : FileSession} {c : Call} {r : Reopening} (h : s.reopens c = some r) :
    ∃ os, r = reopening s.appender os := by
  cases c with
  | log event os =>
    simp only [reopens] at h
    split_ifs at h
    exact ⟨os,(Option.some.inj h).symm⟩
  | reopen os => exact ⟨os,(Option.some.inj h).symm⟩

end FileSession

namespace FileLogAppender

theorem reopen_of_stuck {a : FileLogAppender} (h : a.filestream.Stuck) (os : FileOutcome) :
    a.reopen os = (a,true) := by
  simp [reopen,h.failed,h.openFile,h.isOpen]

theorem isOpen_before_open {a : FileLogAppender} (h : ¬ a.filestream.Stuck) (os : FileOutcome) :
    (if !a.filestream.failed then a.filestream.close os.closes else a.filestream).isOpen = false := by
  cases hf : a.filestream.failed with
  | false => simp
  | true =>
    have ho : a.filestream.isOpen ≠ true := fun ho => h ⟨ho,hf⟩
    simpa using ho

/-- From any other state `Reopen` does what it should. -/
theorem reopen_of_not_stuck {a : FileLogAppender} (h : ¬ a.filestream.Stuck) (os : FileOutcome) :
    ((a.reopen os).1.filestream.Usable ↔ os.opens = true) ∧ (a.reopen os).2 = os.opens := by
  have ho := isOpen_before_open h os
  unfold reopen
  dsimp only
  rw [Ofstream.usable_openFile_iff,Ofstream.isOpen_openFile,ho]
  simp

theorem reopening_right_iff (a : FileLogAppender) (os : FileOutcome) :
    (FileSession.reopening a os).Right ↔ ¬ a.filestream.Stuck := by
  unfold FileSession.reopening
  constructor
  · rintro ⟨_,hr⟩ hs
    rw [reopen_of_stuck hs] at hr
    have hgood : a.filestream.failed = false := (hr rfl).2.good
    rw [hs.failed] at hgood
    cases hgood
  · intro hs
    obtain ⟨hu,hr⟩ := reopen_of_not_stuck hs os
    refine ⟨hu.mpr,fun h => ?_⟩
    have hopens : os.opens = true := hr.symm.trans h
    exact ⟨hopens,hu.mpr hopens⟩

/-- Behind an event the stream is stuck if it was before, or if it was usable and a part
of the event was refused. -/
theorem stuck_log_iff (a : FileLogAppender) (event : LogEvent) (os : FileOutcome) :
    (a.log renderTime event os).1.filestream.Stuck ↔ (a.refreshed event os).filestream.isOpen = true ∧
      ((a.refreshed event os).filestream.failed = true ∨ Ofstream.Refused
        (a.formatter.items.zipIdx.map fun item => (item.1.format renderTime event,os.writes item.2))) := by
  have hf : (a.refreshed event os).formatter = a.formatter := by
    unfold refreshed
    split_ifs <;> rfl
  have hlog : (a.log renderTime event os).1.filestream =
      a.formatter.formatFile renderTime (a.refreshed event os).filestream event os.writes := by rw [← hf]; rfl
  rw [hlog,LogFormatter.formatFile]
  constructor
  · intro hs
    have ho := hs.isOpen
    rw [Ofstream.isOpen_putAll] at ho
    exact ⟨ho,(Ofstream.stuck_putAll_iff ho _).mp hs⟩
  · rintro ⟨ho,h⟩
    exact (Ofstream.stuck_putAll_iff ho _).mpr h

theorem not_stuck_reopen {a : FileLogAppender} (h : ¬ a.filestream.Stuck) (os : FileOutcome) :
    ¬ (a.reopen os).1.filestream.Stuck := by
  intro hs
  obtain ⟨hu,hr⟩ := reopen_of_not_stuck h os
  have hopens : os.opens = true := hr.symm.trans hs.isOpen
  rw [← Bool.not_eq_false] at hopens
  exact absurd ((hu.mpr (by simpa using hopens)).good.symm.trans hs.failed) Bool.false_ne_true

end FileLogAppender

namespace FileSession

/-- The operating system does not take a part of what the call has to write. -/
def Refuses (a : FileLogAppender) : Call → Prop
  | .log event os => Ofstream.Refused
      (a.formatter.items.zipIdx.map fun item => (item.1.format renderTime event,os.writes item.2))
  | .reopen _ => False

/-- Nothing but a refused write makes a stream stuck. -/
theorem not_stuck_step {s t : FileSession} {c : Call} (hs : ¬ s.appender.filestream.Stuck)
    (hc : ¬ Refuses renderTime s.appender c) (h : s.step renderTime c = some t) :
    ¬ t.appender.filestream.Stuck := by
  obtain rfl := Option.some.inj h
  cases c with
  | reopen os => exact FileLogAppender.not_stuck_reopen hs os
  | log event os =>
    have href : ¬ (s.appender.refreshed event os).filestream.Stuck := by
      unfold FileLogAppender.refreshed
      split_ifs
      · exact FileLogAppender.not_stuck_reopen hs os
      · exact hs
    intro ht
    obtain ⟨ho,hf | hr⟩ := (FileLogAppender.stuck_log_iff renderTime s.appender event os).mp ht
    · exact href ⟨ho,hf⟩
    · exact hc hr

/-- A stuck stream stays so for ever, and takes nothing any more. -/
theorem stuck_run {ok : FileSession → Call → Prop} {s t : FileSession} {calls : List Call}
    (h : Runs (step renderTime) ok s calls t) (hs : s.appender.filestream.Stuck) :
    t.appender.filestream = s.appender.filestream := by
  refine h.invariant (P := fun t => t.appender.filestream = s.appender.filestream) ?_ rfl
  intro u v c hu _ hn
  obtain rfl := Option.some.inj hn
  have hstuck : u.appender.filestream.Stuck := hu ▸ hs
  refine Eq.trans ?_ hu
  cases c with
  | reopen os => exact congrArg (fun p => p.1.filestream) (FileLogAppender.reopen_of_stuck hstuck os)
  | log event os =>
    have href : (u.appender.refreshed event os).filestream = u.appender.filestream := by
      unfold FileLogAppender.refreshed
      split_ifs
      · rw [FileLogAppender.reopen_of_stuck hstuck]
      · rfl
    change (u.appender.refreshed event os).formatter.formatFile renderTime
      (u.appender.refreshed event os).filestream event os.writes = _
    rw [LogFormatter.formatFile,href,Ofstream.putAll_of_failed hstuck.failed]

theorem right_step_iff {s t : FileSession} {c : Call} (hs : ∀ r ∈ s.reopenings, r.Right)
    (h : s.step renderTime c = some t) : (∀ r ∈ t.reopenings, r.Right) ↔ s.Unstuck c := by
  obtain rfl := Option.some.inj h
  change (∀ r ∈ s.reopenings ++ (s.reopens c).toList, r.Right) ↔ _
  unfold Unstuck
  cases hc : s.reopens c with
  | none => simpa using hs
  | some r =>
    obtain ⟨os,rfl⟩ := eq_of_reopens hc
    rw [← FileLogAppender.reopening_right_iff s.appender os]
    constructor
    · intro hall _
      exact hall _ (by simp)
    · intro hr q hq
      rcases List.mem_append.mp hq with hq | hq
      · exact hs q hq
      · obtain rfl := Option.mem_toList.mp hq |> Option.some.inj
        exact hr rfl

theorem mem_of_run {ok : FileSession → Call → Prop} {s t : FileSession} {calls : List Call}
    (h : Runs (step renderTime) ok s calls t) {r : Reopening} (hr : r ∈ s.reopenings) : r ∈ t.reopenings := by
  refine h.invariant (P := fun s => r ∈ s.reopenings) (fun {s t c} hs _ hn => ?_) hr
  obtain rfl := Option.some.inj hn
  exact List.mem_append_left _ hs

theorem right_run_iff {s t : FileSession} {calls : List Call}
    (h : Runs (step renderTime) (fun _ _ => True) s calls t) (hs : ∀ r ∈ s.reopenings, r.Right) :
    (∀ r ∈ t.reopenings, r.Right) ↔ Runs (step renderTime) Unstuck s calls t := by
  induction h with
  | refl s => exact ⟨fun _ => .refl s,fun _ => hs⟩
  | step _ hn hr ih =>
    constructor
    · intro hall
      have hu := fun r hm => hall r (mem_of_run renderTime hr hm)
      exact .step ((right_step_iff renderTime hs hn).mp hu) hn ((ih hu).mp hall)
    · intro hrun
      cases hrun with
      | step ha hn' hr' =>
        obtain rfl := Option.some.inj (hn.symm.trans hn')
        exact (ih ((right_step_iff renderTime hs hn).mpr ha)).mpr hr'

/-- In every sequence of calls, every `Reopen` leaves a usable stream whenever the file
can be opened, and answers `true` in no other case, exactly if none of them is executed
on a stream that is open in a failed state. -/
theorem reopens_right_iff (formatter : LogFormatter) (os : FileOutcome) {calls : List Call} {s : FileSession}
    (h : Runs (step renderTime) (fun _ _ => True) (start formatter os) calls s) :
    (∀ r ∈ s.reopenings, r.Right) ↔ Runs (step renderTime) Unstuck (start formatter os) calls s := by
  refine right_run_iff renderTime h fun r hr => ?_
  obtain rfl := List.mem_singleton.mp hr
  exact (FileLogAppender.reopening_right_iff _ os).mpr fun hs => by cases hs.isOpen

def allGood : FileOutcome := ⟨true,true,fun _ => true⟩

def diskFull : FileOutcome := ⟨true,true,fun _ => false⟩

def lineAt (time : ℕ) : LogEvent := ⟨[],0,0,0,0,time,[],[],.info,['x']⟩

def messageFormatter : LogFormatter := .init ['%','m']

/-- The file cannot be opened at first; the second event finds it opened again. -/
def retryCalls : List Call := [.log (lineAt 5) { allGood with opens := false },.log (lineAt 9) allGood]

theorem reopens_right_retry : ∃ s, Runs (step fun _ _ => []) (fun _ _ => True)
    (start messageFormatter { allGood with opens := false }) retryCalls s ∧
      s.appender.filestream.taken = ['x'] ∧ ∀ r ∈ s.reopenings, r.Right := by
  have hrun := Runs.of_exec (step fun _ _ => []) Unstuck
    (start messageFormatter { allGood with opens := false }) retryCalls (by decide)
  have hall := Runs.of_exec (step fun _ _ => []) (fun _ _ => True)
    (start messageFormatter { allGood with opens := false }) retryCalls (by decide)
  exact ⟨_,hall,by decide,(reopens_right_iff _ _ _ hall).mpr hrun⟩

/-- After a write that failed, `Reopen` finds the file open and the stream in a failed
state: it answers `true` and has repaired nothing. -/
theorem diskFull_not_right : ¬ ∀ (renderTime : Text → ℕ → Text) (formatter : LogFormatter) (os : FileOutcome)
    (calls : List Call) (s : FileSession),
    Runs (step renderTime) (fun _ _ => True) (start formatter os) calls s → ∀ r ∈ s.reopenings, r.Right := by
  intro h
  have hrun := Runs.of_exec (step fun _ _ => []) (fun _ _ => True) (start messageFormatter allGood)
    [.log (lineAt 0) diskFull,.reopen allGood] (by decide)
  have hr := h _ _ _ _ _ hrun ⟨true,⟨true,true,[]⟩,true⟩ (by decide)
  have hgood : true = false := (hr.usable rfl).good
  cases hgood

end FileSession
end Zcs.Log
