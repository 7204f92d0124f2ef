import Zcs.Foundation.Atomic
import Zcs.Log.Logger

/-! # A logger used by many threads

The methods of `Logger` step by step, with `mutex_` taken by each. Its appenders are
`StdoutLogAppender`s, and each writes an event item by item to the one `std::cout`, which
nobody else writes to. A call of `Log` on a logger without appenders is passed on to the
root logger, whose methods are these again.
-/
namespace Zcs.Log.Writers

structure StdoutLogAppender extends LogAppender where
  stdout : kind = .stdout

namespace StdoutLogAppender

def inherit (f : LogFormatter) (a : StdoutLogAppender) : StdoutLogAppender where
  toLogAppender := a.toLogAppender.inherit f
  stdout := by
    unfold LogAppender.inherit
    split_ifs <;> exact a.stdout

def follow (f : LogFormatter) (a : StdoutLogAppender) : StdoutLogAppender where
  toLogAppender := a.toLogAppender.follow f
  stdout := by
    unfold LogAppender.follow
    split_ifs <;> exact a.stdout

end StdoutLogAppender

inductive Op where
  | log (event : LogEvent)
  | addAppender (a : ℕ)
  | delAppender (a : ℕ)
  | clearAppender
  | setFormatter (f : LogFormatter)
  | getFormatter

/-- The results of `log` say how it ended. -/
inductive Res where
  | done
  | formatter (f : LogFormatter)
  | toRoot
  | nullDeref
  deriving DecidableEq

inductive Loc where
  | log (event : LogEvent)
  | toRoot
  | next (event : LogEvent) (i : ℕ)
  | items (event : LogEvent) (i : ℕ) (items : List FormatItem)
  | nullDeref
  | inherit (a : ℕ)
  | push (a : ℕ)
  | find (a i : ℕ)
  | clear
  | set (f : LogFormatter)
  | follow (f : LogFormatter) (i : ℕ)
  | getFormatter
  | gotFormatter (f : LogFormatter)
  | finished

/-- The logger, the appenders that it may have, and what they have written to `std::cout`. -/
structure Shared (O : Type) where
  logger : Logger
  appenders : Heap StdoutLogAppender
  cout : O

namespace Shared
variable {O : Type}

def emit (d : Shared O) (f : O → O) : Shared O := { d with cout := f d.cout }

def addAppender (d : Shared O) (a : ℕ) : Shared O :=
  { d with
    appenders := d.appenders.modify a (·.inherit d.logger.formatter)
    logger := { d.logger with appenders := d.logger.appenders ++ [a] } }

def setAppenders (d : Shared O) (as : List ℕ) : Shared O := { d with logger := { d.logger with appenders := as } }

def setFormatter (d : Shared O) (f : LogFormatter) : Shared O :=
  { d with
    logger := { d.logger with formatter := f }
    appenders := d.logger.appenders.foldl (fun h a => h.modify a (·.follow f)) d.appenders }

def formatterOf (d : Shared O) (a : ℕ) : Option LogFormatter := (d.appenders.get a).bind (·.formatter)

/-- The loop of `Log`; an appender without a formatter ends the program. -/
def logAll (emit : ℕ → LogFormatter → LogEvent → O → O) (event : LogEvent) : List ℕ → Shared O → Shared O × Res
  | [], d => (d,.done)
  | a :: as, d =>
    match d.formatterOf a with
    | none => (d,.nullDeref)
    | some f => logAll emit event as (d.emit (emit a f event))

end Shared

/-- The methods as actions of one moment; `emit` is what an appender makes of an event. -/
def object {O : Type} (emit : ℕ → LogFormatter → LogEvent → O → O) : Object (Shared O) Op Op Res where
  init op := op
  act
    | .log event, d =>
      if d.logger.appenders.isEmpty then (d,.inr .toRoot)
      else
        let r := d.logAll emit event d.logger.appenders
        (r.1,.inr r.2)
    | .addAppender a, d => (d.addAppender a,.inr .done)
    | .delAppender a, d => (d.setAppenders (d.logger.appenders.erase a),.inr .done)
    | .clearAppender, d => (d.setAppenders [],.inr .done)
    | .setFormatter f, d => (d.setFormatter f,.inr .done)
    | .getFormatter, d => (d,.inr (.formatter d.logger.formatter))

section Manager
variable {O : Type} {emit : ℕ → LogFormatter → LogEvent → O → O}

/-- The logger with its appenders as the manager knows them; it may know others. -/
def Holds (m : LoggerManager) (l : ℕ) (d : Shared O) : Prop :=
  m.loggers.get l = some d.logger ∧
    ∀ a x, d.appenders.get a = some x → m.appenders.get a = some x.toLogAppender

theorem logAll_keeps (event : LogEvent) (as : List ℕ) (d : Shared O) :
    (d.logAll emit event as).1.logger = d.logger ∧ (d.logAll emit event as).1.appenders = d.appenders := by
  induction as generalizing d with
  | nil => exact ⟨rfl,rfl⟩
  | cons a as ih =>
    rw [Shared.logAll]
    cases d.formatterOf a with
    | none => exact ⟨rfl,rfl⟩
    | some f => exact ih _

/-- The methods of the logger at an address of the manager. -/
def managerAct (m : LoggerManager) (l : ℕ) : Op → LoggerManager
  | .log _ | .getFormatter => m
  | .addAppender a => m.addAppender l a
  | .delAppender a => m.delAppender l a
  | .clearAppender => m.clearAppender l
  | .setFormatter f => m.setFormatter l f

/-- The same change of one appender. -/
theorem modify_holds {h : Heap LogAppender} {k : Heap StdoutLogAppender}
    (hk : ∀ a x, k.get a = some x → h.get a = some x.toLogAppender) (a : ℕ) {f : LogAppender → LogAppender}
    {g : StdoutLogAppender → StdoutLogAppender} (hfg : ∀ x, (g x).toLogAppender = f x.toLogAppender) :
    ∀ b x, (k.modify a g).get b = some x → (h.modify a f).get b = some x.toLogAppender := by
  intro b x hx
  by_cases hb : b = a
  · subst hb
    rw [Heap.get_modify_self] at hx ⊢
    obtain ⟨y,hy,rfl⟩ := Option.map_eq_some_iff.mp hx
    rw [hk b y hy,hfg,Option.map_some]
  · rw [Heap.get_modify_ne _ _ hb] at hx ⊢
    exact hk b x hx

theorem foldl_follow_holds (f : LogFormatter) (as : List ℕ) {h : Heap LogAppender} {k : Heap StdoutLogAppender}
    (hk : ∀ a x, k.get a = some x → h.get a = some x.toLogAppender) :
    ∀ a x, (as.foldl (fun k a => k.modify a (·.follow f)) k).get a = some x →
      (as.foldl (fun h a => h.modify a (·.follow f)) h).get a = some x.toLogAppender := by
  induction as generalizing h k with
  | nil => exact hk
  | cons a as ih => exact ih (modify_holds hk a fun _ => rfl)

theorem Holds.act {m : LoggerManager} {l : ℕ} {d : Shared O} (h : Holds m l d) (op : Op) :
    Holds (managerAct m l op) l ((object emit).act op d).1 := by
  obtain ⟨hl,ha⟩ := h
  cases op with
  | log event =>
    by_cases he : d.logger.appenders = []
    · simpa [Holds,managerAct,object,he] using ⟨hl,ha⟩
    · obtain ⟨hlogger,happenders⟩ := @logAll_keeps _ emit event d.logger.appenders d
      simpa [Holds,managerAct,object,he,hlogger,happenders] using ⟨hl,ha⟩
  | addAppender a =>
    refine ⟨by simp [managerAct,object,LoggerManager.addAppender,Shared.addAppender,hl],?_⟩
    simp only [managerAct,object,LoggerManager.addAppender,Shared.addAppender,hl]
    exact modify_holds ha a fun _ => rfl
  | delAppender a =>
    exact ⟨by simp [managerAct,object,LoggerManager.delAppender,Shared.setAppenders,hl],ha⟩
  | clearAppender =>
    exact ⟨by simp [managerAct,object,LoggerManager.clearAppender,Shared.setAppenders,hl],ha⟩
  | setFormatter f =>
    refine ⟨by simp [managerAct,object,LoggerManager.setFormatter,Shared.setFormatter,hl],?_⟩
    simp only [managerAct,object,LoggerManager.setFormatter,Shared.setFormatter,hl]
    exact foldl_follow_holds f d.logger.appenders ha
  | getFormatter => exact ⟨hl,ha⟩

end Manager

variable (renderTime : Text → ℕ → Text)

/-- The methods as they stand in the source. -/
def methods : Methods (Shared Text) Op Op Res Loc where
  init op := op
  mode _ := .exclusive
  enter
    | .log event => .log event
    | .addAppender a => .inherit a
    | .delAppender a => .find a 0
    | .clearAppender => .clear
    | .setFormatter f => .set f
    | .getFormatter => .getFormatter
  read _ _ := none
  write
    | .log event, d => some (if d.logger.appenders.isEmpty then .toRoot else .next event 0,d)
    | .next event i, d => d.logger.appenders[i]?.map fun a =>
      match d.formatterOf a with
      | none => (.nullDeref,d)
      | some f => (.items event i f.items,d)
    | .items event i (item :: items), d =>
      some (.items event i items,d.emit (· ++ item.format renderTime event))
    | .items event i [], d => some (.next event (i + 1),d)
    | .inherit a, d =>
      some (.push a,{ d with appenders := d.appenders.modify a (·.inherit d.logger.formatter) })
    | .push a, d => some (.finished,d.setAppenders (d.logger.appenders ++ [a]))
    | .find a i, d => d.logger.appenders[i]?.map fun b =>
      if b = a then (.finished,d.setAppenders (d.logger.appenders.eraseIdx i)) else (.find a (i + 1),d)
    | .clear, d => some (.finished,d.setAppenders [])
    | .set f, d => some (.follow f 0,{ d with logger := { d.logger with formatter := f } })
    | .follow f i, d => d.logger.appenders[i]?.map fun a =>
      (.follow f (i + 1),{ d with appenders := d.appenders.modify a (·.follow f) })
    | .getFormatter, d => some (.gotFormatter d.logger.formatter,d)
    | .toRoot, _ | .nullDeref, _ | .gotFormatter _, _ | .finished, _ => none
  leave
    | .toRoot => .inr .toRoot
    | .nullDeref => .inr .nullDeref
    | .gotFormatter f => .inr (.formatter f)
    | _ => .inr .done

abbrev textObject : Object (Shared Text) Op Op Res :=
  object fun _ f event os => f.formatTo renderTime os event

/-- Where a thread can be in a section that began in the state `d` and has made it `d'`;
in a loop, what is left to do leads to the end of the section. -/
inductive At (d d' : Shared Text) : Op → Loc → Prop
  | log (event : LogEvent) (h : d' = d) : At d d' (.log event) (.log event)
  | toRoot (event : LogEvent) (h : d' = d) (he : d.logger.appenders = []) : At d d' (.log event) .toRoot
  | next (event : LogEvent) (i : ℕ) (hl : d'.logger = d.logger) (hne : d.logger.appenders ≠ [])
    (h : d.logAll (fun _ f event os => f.formatTo renderTime os event) event d.logger.appenders =
      d'.logAll (fun _ f event os => f.formatTo renderTime os event) event (d.logger.appenders.drop i)) :
    At d d' (.log event) (.next event i)
  | items (event : LogEvent) (i : ℕ) (items : List FormatItem) (hl : d'.logger = d.logger)
    (hne : d.logger.appenders ≠ [])
    (h : d.logAll (fun _ f event os => f.formatTo renderTime os event) event d.logger.appenders =
      (d'.emit fun os => items.foldl (fun os item => os ++ item.format renderTime event) os).logAll
        (fun _ f event os => f.formatTo renderTime os event) event (d.logger.appenders.drop (i + 1))) :
    At d d' (.log event) (.items event i items)
  | nullDeref (event : LogEvent) (hne : d.logger.appenders ≠ [])
    (h : d.logAll (fun _ f event os => f.formatTo renderTime os event) event d.logger.appenders = (d',.nullDeref)) :
    At d d' (.log event) .nullDeref
  | inherit (a : ℕ) (h : d' = d) : At d d' (.addAppender a) (.inherit a)
  | push (a : ℕ) (h : d'.setAppenders (d'.logger.appenders ++ [a]) = d.addAppender a) :
    At d d' (.addAppender a) (.push a)
  | added (a : ℕ) (h : d' = d.addAppender a) : At d d' (.addAppender a) .finished
  | find (a i : ℕ) (h : d' = d) (hn : a ∉ d.logger.appenders.take i) : At d d' (.delAppender a) (.find a i)
  | erased (a : ℕ) (h : d' = d.setAppenders (d.logger.appenders.erase a)) : At d d' (.delAppender a) .finished
  | clear (h : d' = d) : At d d' .clearAppender .clear
  | cleared (h : d' = d.setAppenders []) : At d d' .clearAppender .finished
  | set (f : LogFormatter) (h : d' = d) : At d d' (.setFormatter f) (.set f)
  | follow (f : LogFormatter) (i : ℕ) (h : d.setFormatter f =
      { d' with appenders := (d'.logger.appenders.drop i).foldl (fun h a => h.modify a (·.follow f)) d'.appenders }) :
    At d d' (.setFormatter f) (.follow f i)
  | getFormatter (h : d' = d) : At d d' .getFormatter .getFormatter
  | gotFormatter (h : d' = d) : At d d' .getFormatter (.gotFormatter d.logger.formatter)

theorem drop_of_getElem? {l : List ℕ} {i a : ℕ} (h : l[i]? = some a) : l.drop i = a :: l.drop (i + 1) := by
  obtain ⟨hi,rfl⟩ := List.getElem?_eq_some_iff.mp h
  exact List.drop_eq_getElem_cons hi

section At
variable {renderTime} {d d' d₂ : Shared Text} {p : Op} {l l' : Loc}

theorem at_enter (p : Op) (d : Shared Text) : At renderTime d d p ((methods renderTime).enter p) := by
  cases p with
  | log event => exact .log event rfl
  | addAppender a => exact .inherit a rfl
  | delAppender a => exact .find a 0 rfl (by simp)
  | clearAppender => exact .clear rfl
  | setFormatter f => exact .set f rfl
  | getFormatter => exact .getFormatter rfl

theorem at_write (hl : At renderTime d d' p l) (hw : (methods renderTime).write l d' = some (l',d₂)) :
    At renderTime d d₂ p l' := by
  cases hl <;> simp only [methods,reduceCtorEq,Option.some.injEq,Prod.mk.injEq] at hw
  case log event h =>
    obtain ⟨rfl,rfl⟩ := hw
    subst h
    by_cases he : d'.logger.appenders = []
    · simpa [he] using At.toRoot event rfl he
    · rw [if_neg (by simpa using he)]
      exact .next event 0 rfl he rfl
  case next event i hl hne h =>
    obtain ⟨a,ha,hr⟩ := Option.map_eq_some_iff.mp hw
    rw [hl] at ha
    rw [drop_of_getElem? ha,Shared.logAll] at h
    cases hf : d'.formatterOf a with
    | none =>
      simp only [hf,Prod.mk.injEq] at hr h
      obtain ⟨rfl,rfl⟩ := hr
      exact .nullDeref event hne h
    | some f =>
      simp only [hf,Prod.mk.injEq] at hr h
      obtain ⟨rfl,rfl⟩ := hr
      exact .items event i f.items hl hne h
  case items event i items hl hne h =>
    cases items with
    | nil =>
      simp only [Option.some.injEq,Prod.mk.injEq] at hw
      obtain ⟨rfl,rfl⟩ := hw
      exact .next event (i + 1) hl hne h
    | cons item items =>
      simp only [Option.some.injEq,Prod.mk.injEq] at hw
      obtain ⟨rfl,rfl⟩ := hw
      exact .items event i items hl hne h
  case inherit a h =>
    obtain ⟨rfl,rfl⟩ := hw
    exact .push a (h ▸ rfl)
  case push a h =>
    obtain ⟨rfl,rfl⟩ := hw
    exact .added a h
  case find a i h hn =>
    subst h
    obtain ⟨b,hb,hr⟩ := Option.map_eq_some_iff.mp hw
    split_ifs at hr with hba
    · subst hba
      obtain ⟨rfl,rfl⟩ := Prod.mk.inj hr
      have herase : d'.logger.appenders.eraseIdx i = d'.logger.appenders.erase b := by
        conv_rhs => rw [← List.take_append_drop i d'.logger.appenders,drop_of_getElem? hb]
        rw [List.erase_append_right _ hn,List.erase_cons_head,List.eraseIdx_eq_take_drop_succ]
      exact .erased b (herase ▸ rfl)
    · obtain ⟨rfl,rfl⟩ := Prod.mk.inj hr
      refine .find a (i + 1) rfl ?_
      rw [List.take_add_one,hb]
      simp [hn,Ne.symm hba]
  case clear h =>
    obtain ⟨rfl,rfl⟩ := hw
    exact .cleared (h ▸ rfl)
  case set f h =>
    obtain ⟨rfl,rfl⟩ := hw
    exact .follow f 0 (h ▸ rfl)
  case follow f i h =>
    obtain ⟨a,ha,hr⟩ := Option.map_eq_some_iff.mp hw
    obtain ⟨rfl,rfl⟩ := Prod.mk.inj hr
    rw [drop_of_getElem? ha] at h
    exact .follow f (i + 1) h
  case getFormatter h =>
    obtain ⟨rfl,rfl⟩ := hw
    subst h
    exact .gotFormatter rfl

theorem at_writeEnd (hl : At renderTime d d' p l) (hw : (methods renderTime).write l d' = none) :
    (textObject renderTime).act p d = (d',(methods renderTime).leave l) := by
  cases hl <;> simp only [methods,reduceCtorEq] at hw
  case toRoot event h he => simp [object,methods,he,h]
  case next event i hl hne h =>
    rw [Option.map_eq_none_iff,List.getElem?_eq_none_iff,hl] at hw
    rw [List.drop_of_length_le hw] at h
    simp [object,methods,hne,h,Shared.logAll]
  case items items _ _ _ => cases items <;> simp at hw
  case nullDeref event hne h => simp [object,methods,hne,h]
  case added a h => exact h ▸ rfl
  case find a i h hn =>
    subst h
    rw [Option.map_eq_none_iff,List.getElem?_eq_none_iff] at hw
    rw [List.take_of_length_le hw] at hn
    simp [object,methods,List.erase_of_not_mem hn,Shared.setAppenders]
  case erased a h => exact h ▸ rfl
  case cleared h => exact h ▸ rfl
  case follow f i h =>
    rw [Option.map_eq_none_iff,List.getElem?_eq_none_iff] at hw
    rw [List.drop_of_length_le hw] at h
    simp [object,methods,h]
  case gotFormatter h => exact h ▸ rfl

theorem methods_implements : (methods renderTime).Implements (textObject renderTime) :=
  .of_invariant (fun p d l d' => At renderTime d d' p l) rfl at_enter (fun h => nomatch h)
    (fun _ hl hw => at_write hl hw) (fun h => nomatch h) (fun _ hl hw => at_writeEnd hl hw)

end At

/-- A line for the appender at an address. -/
structure Line where
  appender : ℕ
  formatter : LogFormatter
  event : LogEvent

/-- The same logger when `std::cout` is a list of lines: what is written for an appender is
its formatter of the moment and the event. -/
def linesObject : Object (Shared (List Line)) Op Op Res :=
  object fun a f event lines => lines ++ [⟨a,f,event⟩]

/-- The text that has been written since `d` is these lines. -/
def Lines (d s : Shared Text) (t : Shared (List Line)) : Prop :=
  s.logger = t.logger ∧ s.appenders = t.appenders ∧
    s.cout = d.cout ++ t.cout.flatMap fun line => line.formatter.format renderTime line.event

/-- The same logger with nothing written yet. -/
def Shared.blank (d : Shared Text) : Shared (List Line) := ⟨d.logger,d.appenders,[]⟩

theorem lines_blank (d : Shared Text) : Lines renderTime d d d.blank := ⟨rfl,rfl,by simp [Shared.blank]⟩

theorem lines_emit {d s : Shared Text} {t : Shared (List Line)} (h : Lines renderTime d s t)
    (a : ℕ) (f : LogFormatter) (event : LogEvent) :
    Lines renderTime d (s.emit fun os => f.formatTo renderTime os event)
      (t.emit fun ls => ls ++ [⟨a,f,event⟩]) :=
  ⟨h.1,h.2.1,by simp [Shared.emit,h.2.2,LogFormatter.format,LogFormatter.formatTo_eq]⟩

theorem lines_logAll {d s : Shared Text} {t : Shared (List Line)} (h : Lines renderTime d s t)
    (event : LogEvent) (as : List ℕ) :
    let r := s.logAll (fun _ f event os => f.formatTo renderTime os event) event as
    let r' := t.logAll (fun a f event ls => ls ++ [⟨a,f,event⟩]) event as
    Lines renderTime d r.1 r'.1 ∧ r.2 = r'.2 := by
  induction as generalizing s t with
  | nil => exact ⟨h,rfl⟩
  | cons a as ih =>
    have hf : s.formatterOf a = t.formatterOf a := by rw [Shared.formatterOf,h.2.1,Shared.formatterOf]
    simp only [Shared.logAll,hf]
    cases t.formatterOf a with
    | none => exact ⟨h,rfl⟩
    | some f => exact ih (lines_emit renderTime h a f event)

theorem textObject_abstracts (d : Shared Text) :
    (textObject renderTime).Abstracts linesObject (fun _ => True) (Lines renderTime d) id id id where
  init _ := rfl
  keeps _ _ := trivial
  act p s t _ h := by
    right
    obtain ⟨logger,appenders,out⟩ := s
    obtain ⟨logger',appenders',out'⟩ := t
    obtain ⟨hl,ha,ho⟩ := h
    dsimp only at hl ha ho
    subst hl ha
    cases p with
    | log event =>
      by_cases he : logger.appenders = []
      · exact ⟨⟨logger,appenders,out'⟩,by simp [linesObject,object,he],by simpa [object,he,Lines] using ho⟩
      · obtain ⟨hlines,hres⟩ := lines_logAll renderTime (d := d) (s := ⟨logger,appenders,out⟩)
          (t := ⟨logger,appenders,out'⟩) ⟨rfl,rfl,ho⟩ event logger.appenders
        refine ⟨_,?_,by simpa [object,he] using hlines⟩
        simp [linesObject,object,he,hres]
    | addAppender a => exact ⟨_,rfl,rfl,rfl,ho⟩
    | delAppender a => exact ⟨_,rfl,rfl,rfl,ho⟩
    | clearAppender => exact ⟨_,rfl,rfl,rfl,ho⟩
    | setFormatter f => exact ⟨_,rfl,rfl,rfl,ho⟩
    | getFormatter => exact ⟨_,rfl,rfl,rfl,ho⟩

section Runs
variable {ι : Type} [DecidableEq ι]

abbrev State (ι : Type) := Methods.State ι (Shared Text) Op Res Loc

/-- What threads use one logger for, in any interleaving of their steps. -/
abbrev Use (d : Shared Text) (as : List (ThreadStep ι Op Res)) (s : State ι) : Prop :=
  Runs (methods renderTime).next (fun _ _ => True) (Methods.start d) as s

end Runs

/-- A logger with two appenders that write the messages only. -/
def plain : Shared Text :=
  let appender : StdoutLogAppender := { kind := .stdout, formatter := some (.init ['%','m']), stdout := rfl }
  ⟨{ Logger.new "system".toList with appenders := [0,1] },(Heap.empty.alloc appender).alloc appender,[]⟩

def saying (message : Text) : LogEvent := ⟨[],0,0,0,0,0,[],[],.info,message⟩

/-- Two threads log. -/
def twoWriters : List (ThreadStep ℕ Op Res) :=
  [.event 0 (.call (.log (saying ['*']))),.event 1 (.call (.log (saying ['-'])))] ++ List.replicate 9 (.run 0) ++
    List.replicate 9 (.run 1) ++ [.event 1 (.ret .done),.event 0 (.ret .done)]

end Zcs.Log.Writers
