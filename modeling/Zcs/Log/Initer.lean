import Zcs.Config.ConfigVar
import Zcs.Foundation.Run
import Zcs.Log.Define
import Zcs.Log.Logger

/-! # The 'logs' variable and its listener

The listener that `LogIniter` registers brings the loggers from the old value of
the variable to the new one. The system of this module is the variable together
with the manager, driven by assignments and by the calls that user code may make.
-/
namespace Zcs.Log
open Config

namespace LoggerManager

/-- The appender object built for a define; other type numbers are passed over. -/
def makeAppender (a : LogAppenderDefine) : Option LogAppender :=
  let ap : Option LogAppender :=
    if a.type = 1 then some { kind := .file a.file }
    else if a.type = 2 then some { kind := .stdout }
    else none
  ap.map fun ap =>
    let ap := ap.setLevel a.level
    if a.formatter.isEmpty then ap
    else
      let fmt := LogFormatter.init a.formatter
      if !fmt.isError then ap.setFormatter (some fmt) else ap

def addDefined (l : ℕ) (s : LoggerManager) (a : LogAppenderDefine) : LoggerManager :=
  match makeAppender a with
  | none => s
  | some ap => (s.newAppender ap).addAppender l s.appenders.next

def applyDefine (s : LoggerManager) (i : LogDefine) : LoggerManager :=
  let g := s.getLogger i.name
  let s := g.1.setLevel g.2 i.level
  let s := if i.formatter.isEmpty then s else s.setFormatterText g.2 i.formatter
  i.appenders.foldl (addDefined g.2) (s.clearAppender g.2)

/-- The loop body "add or change". -/
def addOrChange (oldVal : LogDefines) (s : LoggerManager) (i : LogDefine) : LoggerManager :=
  match oldVal.find i with
  | none => s.applyDefine i
  | some it => if ¬ i = it then s.applyDefine i else s

/-- The loop body "del". -/
def delete (newVal : LogDefines) (s : LoggerManager) (j : LogDefine) : LoggerManager :=
  match newVal.find j with
  | some _ => s
  | none =>
    let g := s.getLogger j.name
    (g.1.setLevel g.2 .unkonw).clearAppender g.2

def changeLoggers (s : LoggerManager) (newVal oldVal : LogDefines) : LoggerManager :=
  oldVal.toList.foldl (delete newVal) (newVal.toList.foldl (addOrChange oldVal) s)

end LoggerManager

-- The log line "***** log config changed *****" of the listener.
variable (changed : LogEvent)

/-- The listener. It first logs to the root logger, which has no root to fall
back to; two nested calls of `Log` are always enough (`log_eq`). -/
def logIniter : Listener LogDefines LoggerManager := fun newVal oldVal s =>
  match s.log 2 s.root .info changed with
  | some (.delivered _) => .returned (s.changeLoggers newVal oldVal)
  | _ => .crashed

structure LogSystem where
  var : ConfigVar LogDefines LoggerManager
  manager : LoggerManager

namespace LogSystem

def start : LogSystem where
  var := ⟨"logs".toList,"log config".toList,.empty,SortedMap.empty.assign 1 (logIniter changed)⟩
  manager := .new

inductive Act where
  | getLogger (name : Text)
  | newAppender (kind : AppenderKind)
  | addAppender (l a : ℕ)
  | delAppender (l a : ℕ)
  | clearAppender (l : ℕ)
  | assign (v : LogDefines)

def setManager (s : LogSystem) (m : LoggerManager) : LogSystem := { s with manager := m }

/-- One action; `none` for an address that is no object, or for a crash. -/
def step (s : LogSystem) : Act → Option LogSystem
  | .getLogger name => some (s.setManager (s.manager.getLogger name).1)
  | .newAppender kind => some (s.setManager (s.manager.newAppender { kind := kind }))
  | .addAppender l a =>
    if (s.manager.loggers.get l).isSome ∧ (s.manager.appenders.get a).isSome then
      some (s.setManager (s.manager.addAppender l a))
    else none
  | .delAppender l a =>
    if (s.manager.loggers.get l).isSome then some (s.setManager (s.manager.delAppender l a)) else none
  | .clearAppender l =>
    if (s.manager.loggers.get l).isSome then some (s.setManager (s.manager.clearAppender l)) else none
  | .assign v =>
    match s.var.setValue v s.manager with
    | .returned (var,m) => some ⟨var,m⟩
    | .threw _ _ | .crashed => none

/-- The listener stays the only one, whatever value the variable takes. -/
structure Listening (s : LogSystem) : Prop where
  cbs : s.var.cbs = SortedMap.empty.assign 1 (logIniter changed)

theorem listening_start : Listening changed (start changed) := ⟨rfl⟩

/-- An assignment changes nothing if the value is the same; otherwise the root
logger has taken the listener's line and the loggers have been changed. -/
theorem step_assign {s t : LogSystem} (hl : Listening changed s) {v : LogDefines}
    (h : s.step (.assign v) = some t) :
    (s.var.val = v ∧ t = s) ∨
    (s.var.val ≠ v ∧ (∃ ds, s.manager.log 2 s.manager.root .info changed = some (.delivered ds)) ∧
      t = ⟨{ s.var with val := v },s.manager.changeLoggers v s.var.val⟩) := by
  have hcbs : s.var.cbs.entries = [(1,logIniter changed)] := by rw [hl.cbs]; rfl
  simp only [step,ConfigVar.setValue,hcbs,ConfigVar.runCallbacks_singleton,logIniter] at h
  by_cases hv : s.var.val = v
  · left
    simp only [hv,beq_self_eq_true,↓reduceIte,Option.some.injEq] at h
    exact ⟨hv,h.symm⟩
  · right
    have hb : (s.var.val == v) = false := by simpa using hv
    simp only [hb,Bool.false_eq_true,↓reduceIte] at h
    cases hlog : s.manager.log 2 s.manager.root .info changed with
    | none => simp [hlog] at h
    | some r =>
      cases r with
      | nullDeref => simp [hlog] at h
      | delivered ds =>
        simp only [hlog,Option.some.injEq] at h
        exact ⟨hv,⟨ds,rfl⟩,h.symm⟩

/-- Every action but an assignment touches the manager only. It creates a logger or
leaves the loggers' names and roots alone. -/
theorem step_cases {s t : LogSystem} {a : Act} (h : s.step a = some t) :
    (∃ v, a = .assign v) ∨ ∃ m, t = s.setManager m ∧
      ((∃ name, m = (s.manager.getLogger name).1) ∨ LoggerManager.SameShape s.manager m) := by
  cases a with
  | assign v => exact .inl ⟨v,rfl⟩
  | getLogger name => exact .inr ⟨_,(Option.some.inj h).symm,.inl ⟨name,rfl⟩⟩
  | newAppender kind =>
    exact .inr ⟨_,(Option.some.inj h).symm,.inr (LoggerManager.sameShape_newAppender _ _)⟩
  | addAppender l a =>
    simp only [step] at h
    split_ifs at h
    exact .inr ⟨_,(Option.some.inj h).symm,.inr (LoggerManager.sameShape_addAppender _ _ _)⟩
  | delAppender l a =>
    simp only [step] at h
    split_ifs at h
    exact .inr ⟨_,(Option.some.inj h).symm,.inr (LoggerManager.sameShape_delAppender _ _ _)⟩
  | clearAppender l =>
    simp only [step] at h
    split_ifs at h
    exact .inr ⟨_,(Option.some.inj h).symm,.inr (LoggerManager.sameShape_clearAppender _ _)⟩

theorem listening_step {s t : LogSystem} {a : Act} (hl : Listening changed s)
    (h : s.step a = some t) : Listening changed t := by
  obtain ⟨v,rfl⟩ | ⟨m,rfl,_⟩ := step_cases h
  · obtain ⟨_,rfl⟩ | ⟨_,_,rfl⟩ := step_assign changed hl h
    · exact hl
    · exact ⟨hl.cbs⟩
  · exact ⟨hl.cbs⟩

end LogSystem
end Zcs.Log
