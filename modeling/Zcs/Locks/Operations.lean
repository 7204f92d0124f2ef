import Zcs.Foundation.LockOrder
import Zcs.Log.Initer

/-! # The locks of logging and configuration

What every method of `Config`, `ConfigVar`, `LoggerManager`, `Logger` and
`LogAppender` locks, with whatever the data may be that decides its path. Objects are
named by addresses; `root` is the root logger's.
-/
namespace Zcs.Locks
open LockCmd Log

inductive Lock where
  | config
  | var (v : ℕ)
  | manager
  | logger (l : ℕ)
  | appender (a : ℕ)
  deriving DecidableEq

variable (root : ℕ)

def rank : Lock → ℕ
  | .config => 0
  | .var _ => 1
  | .manager => 2
  | .logger l => if l = root then 4 else 3
  | .appender _ => 5

/-- A spin lock. -/
def lock (x : Lock) (body : LockCmd Lock) : LockCmd Lock := locked .exclusive x body

def rdlock (x : Lock) (body : LockCmd Lock) : LockCmd Lock := locked .shared x body
def wrlock (x : Lock) (body : LockCmd Lock) : LockCmd Lock := locked .exclusive x body

namespace LogAppender

def setFormatter (a : ℕ) : LockCmd Lock := lock (.appender a) skip
def getFormatter (a : ℕ) : LockCmd Lock := lock (.appender a) skip
def toYamlString (a : ℕ) : LockCmd Lock := lock (.appender a) skip

/-- `FileLogAppender::Reopen`. -/
def reopen (a : ℕ) : LockCmd Lock := lock (.appender a) skip

/-- The constructors; a file is opened at once. -/
def new (kind : AppenderKind) (a : ℕ) : LockCmd Lock :=
  match kind with
  | .stdout => skip
  | .file _ => reopen a

/-- A file is opened again when the last time was three seconds ago. -/
def log (kind : AppenderKind) (a : ℕ) : LockCmd Lock :=
  match kind with
  | .stdout => lock (.appender a) skip
  | .file _ => seq (any fun late : Bool => if late then reopen a else skip) (lock (.appender a) skip)

end LogAppender

namespace Logger

/-- The root logger's `Log`. It keeps at least one appender, so it never falls back. -/
def logRoot : LockCmd Lock :=
  lock (.logger root) (any fun as : { as : List (AppenderKind × ℕ) // as ≠ [] } =>
    each (fun a => LogAppender.log a.1 a.2) as.val)

def log (l : ℕ) : LockCmd Lock :=
  if l = root then logRoot root
  else lock (.logger l) (any fun as : List (AppenderKind × ℕ) =>
    if !as.isEmpty then each (fun a => LogAppender.log a.1 a.2) as else logRoot root)

def addAppender (l a : ℕ) : LockCmd Lock := lock (.logger l) (LogAppender.getFormatter a)
def delAppender (l : ℕ) : LockCmd Lock := lock (.logger l) skip
def clearAppender (l : ℕ) : LockCmd Lock := lock (.logger l) skip
def setFormatter (l : ℕ) : LockCmd Lock := lock (.logger l) skip
def getFormatter (l : ℕ) : LockCmd Lock := lock (.logger l) skip

def setFormatterText (l : ℕ) (format : Text) : LockCmd Lock :=
  if (LogFormatter.init format).isError then skip else setFormatter l

def toYamlString (l : ℕ) : LockCmd Lock :=
  lock (.logger l) (any fun as : List ℕ => each LogAppender.toYamlString as)

end Logger

namespace LoggerManager

def getLogger : LockCmd Lock := lock .manager skip

def toYamlString : LockCmd Lock := lock .manager (any fun ls : List ℕ => each Logger.toYamlString ls)

/-- The listener's loop over the appenders of a define; `a` is the new object. -/
def addDefined (l : ℕ) (d : LogAppenderDefine) : LockCmd Lock :=
  match Log.LoggerManager.makeAppender d with
  | none => skip
  | some ap => any fun a : ℕ => seq (LogAppender.new ap.kind a)
    (seq (if ap.hasFormatter then LogAppender.setFormatter a else skip) (Logger.addAppender l a))

def applyDefine (i : LogDefine) : LockCmd Lock :=
  seq getLogger (any fun l : ℕ =>
    seq (if i.formatter.isEmpty then skip else Logger.setFormatterText l i.formatter)
      (seq (Logger.clearAppender l) (each (addDefined l) i.appenders)))

def addOrChange (oldVal : LogDefines) (i : LogDefine) : LockCmd Lock :=
  match oldVal.find i with
  | none => applyDefine i
  | some it => if ¬ i = it then applyDefine i else skip

def delete (newVal : LogDefines) (j : LogDefine) : LockCmd Lock :=
  match newVal.find j with
  | some _ => skip
  | none => seq getLogger (any fun l : ℕ => Logger.clearAppender l)

/-- The listener of the 'logs' variable. -/
def logIniter : LockCmd Lock :=
  any fun vals : LogDefines × LogDefines => seq (Logger.log root root)
    (seq (each (addOrChange vals.2) vals.1.toList) (each (delete vals.1) vals.2.toList))

end LoggerManager

namespace ConfigVar

/-- The variable 'logs', the only one with a listener. -/
def logs : ℕ := 0

def callbacks (v : ℕ) : LockCmd Lock := if v = logs then LoggerManager.logIniter root else skip

def setValue (v : ℕ) : LockCmd Lock :=
  any fun same : Bool =>
    if same then rdlock (.var v) skip
    else seq (rdlock (.var v) (callbacks root v)) (wrlock (.var v) skip)

/-- A failed conversion is logged when nothing is locked any more. -/
def fromString (v : ℕ) : LockCmd Lock :=
  any fun converted : Bool => if converted then setValue root v else Logger.log root root

def toString (v : ℕ) : LockCmd Lock :=
  seq (rdlock (.var v) skip)
    (any fun converted : Bool => if converted then skip else Logger.log root root)

def getValue (v : ℕ) : LockCmd Lock := rdlock (.var v) skip
def addListener (v : ℕ) : LockCmd Lock := wrlock (.var v) skip
def delListener (v : ℕ) : LockCmd Lock := wrlock (.var v) skip
def clearListener (v : ℕ) : LockCmd Lock := wrlock (.var v) skip

end ConfigVar

namespace Config

/-- A bound name of the right type and an invalid name are logged. -/
def lookUp : LockCmd Lock :=
  wrlock .config (any fun logged : Bool => if logged then Logger.log root root else skip)

def lookUpBase : LockCmd Lock := rdlock .config skip

/-- Invalid names are logged to the logger 'system' of the file, `gLogger`. -/
def listAllMember (gLogger : ℕ) : LockCmd Lock :=
  any fun invalid : List Text => each (fun _ => Logger.log root gLogger) invalid

def loadFromYaml (gLogger : ℕ) : LockCmd Lock :=
  seq (listAllMember root gLogger) (any fun keys : List (Option ℕ) =>
    each (fun found => seq lookUpBase
      (match found with
      | none => skip
      | some v => ConfigVar.fromString root v)) keys)

/-- What a callback of `Visit` may do. Logging by `ZCS_LOG_NAME` gets the logger first. -/
inductive Reading where
  | toString (v : ℕ)
  | getValue (v : ℕ)
  | getLogger
  | log (l : ℕ)

def Reading.cmd : Reading → LockCmd Lock
  | toString v => ConfigVar.toString root v
  | getValue v => ConfigVar.getValue v
  | getLogger => LoggerManager.getLogger
  | log l => Logger.log root l

def visit : LockCmd Lock :=
  rdlock .config (any fun readings : List Reading => each (Reading.cmd root) readings)

end Config

inductive Operation where
  | lookUp
  | lookUpBase
  | loadFromYaml (gLogger : ℕ)
  | visit
  | toString (v : ℕ)
  | fromString (v : ℕ)
  | getValue (v : ℕ)
  | setValue (v : ℕ)
  | addListener (v : ℕ)
  | delListener (v : ℕ)
  | clearListener (v : ℕ)
  | getLogger
  | managerToYamlString
  | log (l : ℕ)
  | addAppender (l a : ℕ)
  | delAppender (l : ℕ)
  | clearAppender (l : ℕ)
  | setFormatter (l : ℕ)
  | setFormatterText (l : ℕ) (format : Text)
  | getFormatter (l : ℕ)
  | loggerToYamlString (l : ℕ)
  | newAppender (kind : AppenderKind) (a : ℕ)
  | appenderSetFormatter (a : ℕ)
  | appenderGetFormatter (a : ℕ)
  | appenderLog (kind : AppenderKind) (a : ℕ)
  | reopen (a : ℕ)
  | appenderToYamlString (a : ℕ)

def Operation.cmd : Operation → LockCmd Lock
  | lookUp => Config.lookUp root
  | lookUpBase => Config.lookUpBase
  | loadFromYaml gLogger => Config.loadFromYaml root gLogger
  | visit => Config.visit root
  | toString v => ConfigVar.toString root v
  | fromString v => ConfigVar.fromString root v
  | getValue v => ConfigVar.getValue v
  | setValue v => ConfigVar.setValue root v
  | addListener v => ConfigVar.addListener v
  | delListener v => ConfigVar.delListener v
  | clearListener v => ConfigVar.clearListener v
  | getLogger => LoggerManager.getLogger
  | managerToYamlString => LoggerManager.toYamlString
  | log l => Logger.log root l
  | addAppender l a => Logger.addAppender l a
  | delAppender l => Logger.delAppender l
  | clearAppender l => Logger.clearAppender l
  | setFormatter l => Logger.setFormatter l
  | setFormatterText l format => Logger.setFormatterText l format
  | getFormatter l => Logger.getFormatter l
  | loggerToYamlString l => Logger.toYamlString l
  | newAppender kind a => LogAppender.new kind a
  | appenderSetFormatter a => LogAppender.setFormatter a
  | appenderGetFormatter a => LogAppender.getFormatter a
  | appenderLog kind a => LogAppender.log kind a
  | reopen a => LogAppender.reopen a
  | appenderToYamlString a => LogAppender.toYamlString a

end Zcs.Locks
