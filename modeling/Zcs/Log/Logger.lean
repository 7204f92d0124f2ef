import Mathlib.Data.Char
import Mathlib.Data.List.Lex
import Zcs.Foundation.Heap
import Zcs.Foundation.Ordered
import Zcs.Log.Formatter

/-! # Loggers, appenders and their manager

Loggers and appenders are shared objects: a logger holds addresses of appenders
and of the root logger, and the manager holds addresses of loggers. The state of
all of them together is `LoggerManager`; every method of the source is a function
on it.
-/
namespace Zcs.Log

inductive AppenderKind where
  | stdout
  | file (filename : Text)
  deriving DecidableEq

structure LogAppender where
  kind : AppenderKind
  level : LogLevel := .debug
  hasFormatter : Bool := false
  formatter : Option LogFormatter := none
  deriving DecidableEq

namespace LogAppender

def setLevel (a : LogAppender) (level : LogLevel) : LogAppender := { a with level := level }

/-- `LogAppender::SetFormatter`; `none` is the null pointer. -/
def setFormatter (a : LogAppender) (f : Option LogFormatter) : LogAppender :=
  { a with formatter := f, hasFormatter := f.isSome }

def inherit (f : LogFormatter) (a : LogAppender) : LogAppender :=
  if a.formatter.isNone then { a with formatter := some f } else a

def follow (f : LogFormatter) (a : LogAppender) : LogAppender :=
  if a.hasFormatter then a else { a with formatter := some f }

end LogAppender

def defaultPattern : Text :=
  "%d\x7b%Y-%m-%d %H:%M:%S\x7d%T%t%T%N%T%F%T[%p]%T[%c]%T%f:%l%T%m%n".toList

def defaultFormatter : LogFormatter := .init defaultPattern

/-- `appenders` and `root` are addresses; `root = none` is the null pointer. The
formatter is never null: it is set by the constructor and by `SetFormatter`. -/
structure Logger where
  name : Text
  level : LogLevel
  appenders : List ℕ
  root : Option ℕ
  formatter : LogFormatter

def Logger.new (name : Text) : Logger := ⟨name,.debug,[],none,defaultFormatter⟩

structure LoggerManager where
  loggers : Heap Logger
  appenders : Heap LogAppender
  root : ℕ
  names : SortedMap Text ℕ

def rootName : Text := "root".toList

structure Delivery where
  appender : ℕ
  logger : ℕ
  level : LogLevel
  event : LogEvent
  deriving DecidableEq

inductive LogResult where
  | delivered (ds : List Delivery)
  | nullDeref
  deriving DecidableEq

namespace LoggerManager

/-- Make an appender object; its address is the `next` of the old heap. -/
def newAppender (s : LoggerManager) (a : LogAppender) : LoggerManager :=
  { s with appenders := s.appenders.alloc a }

def addAppender (s : LoggerManager) (l a : ℕ) : LoggerManager :=
  match s.loggers.get l with
  | none => s
  | some logger =>
    { s with
      appenders := s.appenders.modify a (·.inherit logger.formatter)
      loggers := s.loggers.modify l fun lg => { lg with appenders := lg.appenders ++ [a] } }

/-- `Logger::DelAppender` erases the first entry that is this appender. -/
def delAppender (s : LoggerManager) (l a : ℕ) : LoggerManager :=
  { s with loggers := s.loggers.modify l fun lg => { lg with appenders := lg.appenders.erase a } }

def clearAppender (s : LoggerManager) (l : ℕ) : LoggerManager :=
  { s with loggers := s.loggers.modify l fun lg => { lg with appenders := [] } }

def setLevel (s : LoggerManager) (l : ℕ) (level : LogLevel) : LoggerManager :=
  { s with loggers := s.loggers.modify l fun lg => { lg with level := level } }

def setFormatter (s : LoggerManager) (l : ℕ) (f : LogFormatter) : LoggerManager :=
  match s.loggers.get l with
  | none => s
  | some logger =>
    { s with
      loggers := s.loggers.modify l fun lg => { lg with formatter := f }
      appenders := logger.appenders.foldl (fun h a => h.modify a (·.follow f)) s.appenders }

/-- `Logger::SetFormatter(const std::string&)`; an invalid pattern is only reported. -/
def setFormatterText (s : LoggerManager) (l : ℕ) (format : Text) : LoggerManager :=
  let newFormat := LogFormatter.init format
  if newFormat.isError then s else s.setFormatter l newFormat

def getLogger (s : LoggerManager) (name : Text) : LoggerManager × ℕ :=
  match s.names.find name with
  | some l => (s,l)
  | none =>
    ({ s with
        loggers := s.loggers.alloc { Logger.new name with root := some s.root }
        names := s.names.assign name s.loggers.next },
      s.loggers.next)

def new : LoggerManager :=
  let root := (Heap.empty : Heap Logger).next
  let s : LoggerManager := ⟨Heap.empty.alloc (Logger.new rootName),.empty,root,.empty⟩
  let s := (s.newAppender { kind := .stdout }).addAppender root s.appenders.next
  { s with names := s.names.assign rootName root }

/-- `Logger::Log`. The recursion follows the `root_` pointers; `none` means that
`fuel` calls were not enough. -/
def log : ℕ → LoggerManager → ℕ → LogLevel → LogEvent → Option LogResult
  | 0, _, _, _, _ => none
  | fuel + 1, s, l, level, event =>
    match s.loggers.get l with
    | none => some .nullDeref
    | some logger =>
      if !logger.appenders.isEmpty then
        some (.delivered (logger.appenders.map fun a => ⟨a,l,level,event⟩))
      else match logger.root with
        | none => some .nullDeref
        | some root => log fuel s root level event

/-- The addresses that `GetLogger` and `GetRoot` hand out. -/
def Obtained (s : LoggerManager) (l : ℕ) : Prop := l = s.root ∨ ∃ name, s.names.find name = some l

/-- How the manager's objects hang together: the root logger has no root of its
own, and every other logger in the map points to it. -/
structure Wired (s : LoggerManager) : Prop where
  rootLogger : ∃ r, s.loggers.get s.root = some r ∧ r.root = none ∧ r.name = rootName
  rootNamed : s.names.find rootName = some s.root
  named : ∀ name l, s.names.find name = some l →
    ∃ lg, s.loggers.get l = some lg ∧ lg.name = name ∧ (l ≠ s.root → lg.root = some s.root)

/-- Two names never share a logger. -/
theorem Wired.name_unique {s : LoggerManager} (hs : Wired s) {m n : Text} {l : ℕ}
    (hm : s.names.find m = some l) (hn : s.names.find n = some l) : m = n := by
  obtain ⟨lg,hlg,rfl,_⟩ := hs.named m l hm
  obtain ⟨lg',hlg',rfl,_⟩ := hs.named n l hn
  rw [Option.some.inj (hlg.symm.trans hlg')]

/-- The part of a logger that is set when it is created and never again. -/
def shape (s : LoggerManager) (l : ℕ) : Option (Text × Option ℕ) :=
  (s.loggers.get l).map fun lg => (lg.name,lg.root)

structure SameShape (s t : LoggerManager) : Prop where
  root : t.root = s.root
  names : t.names = s.names
  shape : ∀ l, t.shape l = s.shape l

theorem SameShape.refl (s : LoggerManager) : SameShape s s := ⟨rfl,rfl,fun _ => rfl⟩

theorem SameShape.trans {s t u : LoggerManager} (h : SameShape s t) (h' : SameShape t u) :
    SameShape s u :=
  ⟨h'.root.trans h.root,h'.names.trans h.names,fun l => (h'.shape l).trans (h.shape l)⟩

theorem SameShape.foldl {α : Type*} {f : LoggerManager → α → LoggerManager}
    (hf : ∀ s a, SameShape s (f s a)) (as : List α) (s : LoggerManager) : SameShape s (as.foldl f s) := by
  induction as generalizing s with
  | nil => exact .refl s
  | cons a as ih => exact (hf s a).trans (ih (f s a))

theorem SameShape.get {s t : LoggerManager} (h : SameShape s t) {l : ℕ} {lg : Logger}
    (hl : s.loggers.get l = some lg) :
    ∃ lg', t.loggers.get l = some lg' ∧ lg'.name = lg.name ∧ lg'.root = lg.root := by
  have hs := h.shape l
  rw [LoggerManager.shape,LoggerManager.shape,hl] at hs
  obtain ⟨lg',hl',he⟩ := Option.map_eq_some_iff.mp hs
  exact ⟨lg',hl',congrArg Prod.fst he,congrArg Prod.snd he⟩

theorem Wired.of_sameShape {s t : LoggerManager} (hs : Wired s) (h : SameShape s t) : Wired t := by
  constructor
  · obtain ⟨r,hg,hroot,hname⟩ := hs.rootLogger
    obtain ⟨r',hg',hn,hr⟩ := h.get hg
    exact ⟨r',h.root ▸ hg',hr.trans hroot,hn.trans hname⟩
  · rw [h.names,h.root]
    exact hs.rootNamed
  · intro name l hl
    rw [h.names] at hl
    obtain ⟨lg,hg,hname,hroot⟩ := hs.named name l hl
    obtain ⟨lg',hg',hn,hr⟩ := h.get hg
    refine ⟨lg',hg',hn.trans hname,fun hne => ?_⟩
    rw [h.root] at hne ⊢
    exact hr.trans (hroot hne)

theorem sameShape_modify (s : LoggerManager) (l : ℕ) (f : Logger → Logger) (appenders : Heap LogAppender)
    (hf : ∀ lg, (f lg).name = lg.name ∧ (f lg).root = lg.root) :
    SameShape s { s with loggers := s.loggers.modify l f, appenders := appenders } := by
  refine ⟨rfl,rfl,fun k => ?_⟩
  simp only [shape,Heap.get_modify]
  split
  · cases s.loggers.get k <;> simp [hf]
  · rfl

theorem sameShape_newAppender (s : LoggerManager) (a : LogAppender) : SameShape s (s.newAppender a) :=
  ⟨rfl,rfl,fun _ => rfl⟩

theorem sameShape_addAppender (s : LoggerManager) (l a : ℕ) : SameShape s (s.addAppender l a) := by
  unfold addAppender
  split
  · exact .refl s
  · exact sameShape_modify s l _ _ fun _ => ⟨rfl,rfl⟩

theorem sameShape_delAppender (s : LoggerManager) (l a : ℕ) : SameShape s (s.delAppender l a) :=
  sameShape_modify s l _ _ fun _ => ⟨rfl,rfl⟩

theorem sameShape_clearAppender (s : LoggerManager) (l : ℕ) : SameShape s (s.clearAppender l) :=
  sameShape_modify s l _ _ fun _ => ⟨rfl,rfl⟩

theorem sameShape_setLevel (s : LoggerManager) (l : ℕ) (level : LogLevel) :
    SameShape s (s.setLevel l level) :=
  sameShape_modify s l _ _ fun _ => ⟨rfl,rfl⟩

theorem sameShape_setFormatter (s : LoggerManager) (l : ℕ) (f : LogFormatter) :
    SameShape s (s.setFormatter l f) := by
  unfold setFormatter
  split
  · exact .refl s
  · exact sameShape_modify s l _ _ fun _ => ⟨rfl,rfl⟩

theorem sameShape_setFormatterText (s : LoggerManager) (l : ℕ) (format : Text) :
    SameShape s (s.setFormatterText l format) := by
  unfold setFormatterText
  dsimp only
  split
  · exact .refl s
  · exact sameShape_setFormatter s l _

theorem Wired.getLogger {s : LoggerManager} (hs : Wired s) (name : Text) : Wired (s.getLogger name).1 := by
  unfold LoggerManager.getLogger
  split
  · exact hs
  · next hn =>
    obtain ⟨r,hg,hroot,hname⟩ := hs.rootLogger
    have hne : s.root ≠ s.loggers.next := Nat.ne_of_lt (Heap.lt_next hg)
    constructor
    · exact ⟨r,Heap.get_alloc_of_get hg _,hroot,hname⟩
    · have hrn : rootName ≠ name := by
        rintro rfl
        simp [hs.rootNamed] at hn
      simp [SortedMap.find_assign,hrn,hs.rootNamed]
    · intro m l hl
      rw [SortedMap.find_assign] at hl
      split_ifs at hl with hm
      · obtain rfl := Option.some.inj hl
        exact ⟨_,Heap.get_alloc_next _ _,hm.symm,fun _ => rfl⟩
      · obtain ⟨lg,hlg,hlname,hlroot⟩ := hs.named m l hl
        exact ⟨lg,Heap.get_alloc_of_get hlg _,hlname,hlroot⟩

theorem find_getLogger (s : LoggerManager) (name m : Text) :
    (s.getLogger name).1.names.find m =
      if m = name then some (s.getLogger name).2 else s.names.find m := by
  unfold getLogger
  cases h : s.names.find name with
  | none => simp [SortedMap.find_assign]
  | some l =>
    by_cases hm : m = name
    · simp [hm,h]
    · simp [hm]

/-- At first there is the root logger, with the standard output. -/
theorem get_new {l : ℕ} {lg : Logger} (h : new.loggers.get l = some lg) :
    l = 0 ∧ lg = { Logger.new rootName with appenders := [0] } := by
  by_cases hl : l = 0
  · subst hl
    exact ⟨rfl,(Option.some.inj h).symm⟩
  · have hnew : new.loggers = (Heap.empty.alloc (Logger.new rootName)).modify 0
        fun lg => { lg with appenders := lg.appenders ++ [0] } := rfl
    rw [hnew,Heap.get_modify_ne _ _ hl,Heap.get_alloc,Heap.next_empty,if_neg hl] at h
    cases h

theorem wired_new : Wired new := by
  constructor
  · exact ⟨_,rfl,rfl,rfl⟩
  · rfl
  · intro name l hl
    rw [new,SortedMap.find_assign] at hl
    split_ifs at hl with hn
    · obtain rfl := Option.some.inj hl
      subst hn
      exact ⟨_,rfl,rfl,fun h => absurd rfl h⟩
    · cases hl

end LoggerManager
end Zcs.Log
