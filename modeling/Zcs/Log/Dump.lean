import Zcs.Foundation.YamlText
import Zcs.Log.Configured
import Zcs.Log.DefineDecode
import Zcs.Log.Inherit

/-! # The dump of the loggers

`LoggerManager::ToYamlString` writes the loggers as they are, in the form in which the
'logs' variable lists them. The class of an appender is written under another key than
the one that it is read from, so that the loggers come back without their appenders.
-/
namespace Zcs.Log
open List (Forall₂)

namespace LogAppender

/-- The members that both classes of appenders write last. -/
def putLevelAndFormatter (a : LogAppender) (node : Fields) : Fields :=
  let node := if a.level ≠ .unkonw then node.put Key.level.text (.scalar a.level.toText) else node
  match a.hasFormatter, a.formatter with
  | true, some f => node.put Key.formatter.text (.scalar f.getPattern)
  | _, _ => node

/-- `StdoutLogAppender::ToYamlString` and `FileLogAppender::ToYamlString`, up to the text. -/
def toFields (a : LogAppender) : Fields :=
  let node : Fields := []
  match a.kind with
  | .stdout => a.putLevelAndFormatter (node.put Key.name.text (.scalar "StdoutLogAppender".toList))
  | .file filename =>
    let node := node.put Key.name.text (.scalar "FileLogAppender".toList)
    a.putLevelAndFormatter (node.put Key.file.text (.scalar filename))

def toYamlString (y : YamlCpp) (a : LogAppender) : Text := y.emit (Fields.node a.toFields)

end LogAppender

namespace Logger

def pushAppender (y : YamlCpp) (node : Fields) (i : LogAppender) : Except Text Fields := do
  return node.pushBack Key.appenders.text (← y.load (i.toYamlString y))

/-- `Logger::ToYamlString`, with the objects behind `appenders_`. -/
def toYamlString (y : YamlCpp) (appenders : List LogAppender) (lg : Logger) : Except Text Text := do
  let node : Fields := []
  let node := node.put Key.name.text (.scalar lg.name)
  let node := if lg.level ≠ .unkonw then node.put Key.level.text (.scalar lg.level.toText) else node
  let node := node.put Key.formatter.text (.scalar lg.formatter.getPattern)
  return y.emit (← appenders.foldlM (pushAppender y) node).node

end Logger

namespace LoggerManager

def loadLogger (y : YamlCpp) (s : LoggerManager) (lg : Logger) : Except Text Node := do
  y.load (← lg.toYamlString y (lg.appenders.filterMap s.appenders.get))

def toYamlString (y : YamlCpp) (s : LoggerManager) : Except Text Text := do
  let items ← (s.names.entries.filterMap fun i => s.loggers.get i.2).mapM (s.loadLogger y)
  return y.emit (if items.isEmpty then .null else .sequence items)

end LoggerManager

namespace Dump
open LoggerManager Config

inductive Act where
  | newLogger (name : Text)
  | getLogger (name : Text)
  | newAppender (kind : AppenderKind)
  | setLevel (l : ℕ) (level : LogLevel)
  | setFormatter (l : ℕ) (f : LogFormatter)
  | setFormatterText (l : ℕ) (format : Text)
  | addAppender (l a : ℕ)
  | delAppender (l a : ℕ)
  | clearAppender (l : ℕ)
  | setAppenderLevel (a : ℕ) (level : LogLevel)
  | setAppenderFormatter (a : ℕ) (f : Option LogFormatter)

/-- One call; `none` for an address that is no object. -/
def step (s : LoggerManager) : Act → Option LoggerManager
  | .newLogger name => some (s.newLogger name)
  | .getLogger name => some (s.getLogger name).1
  | .newAppender kind => some (s.newAppender { kind := kind })
  | .setLevel l level => if (s.loggers.get l).isSome then some (s.setLevel l level) else none
  | .setFormatter l f => if (s.loggers.get l).isSome then some (s.setFormatter l f) else none
  | .setFormatterText l format =>
    if (s.loggers.get l).isSome then some (s.setFormatterText l format) else none
  | .addAppender l a =>
    if (s.loggers.get l).isSome ∧ (s.appenders.get a).isSome then some (s.addAppender l a) else none
  | .delAppender l a => if (s.loggers.get l).isSome then some (s.delAppender l a) else none
  | .clearAppender l => if (s.loggers.get l).isSome then some (s.clearAppender l) else none
  | .setAppenderLevel a level =>
    if (s.appenders.get a).isSome then
      some { s with appenders := s.appenders.modify a (·.setLevel level) }
    else none
  | .setAppenderFormatter a f =>
    if (s.appenders.get a).isSome then some (s.setAppenderFormatter a f) else none

/-- A logger is given valid formatters only. -/
def Valid (_ : LoggerManager) : Act → Prop
  | .setFormatter _ f => f.isError = false
  | _ => True

/-- The pattern that an appender has been given, if any. -/
def ownPattern (a : LogAppender) : Option Text := if a.hasFormatter then a.formatter.map (·.pattern) else none

structure Summary where
  level : LogLevel
  pattern : Text
  appenders : List (AppenderKind × LogLevel × Option Text)
  deriving DecidableEq

def summary (v : LoggerView) : Summary :=
  ⟨v.level,v.formatter.pattern,v.appenders.map fun a => (a.kind,a.level,ownPattern a)⟩

/-- A fresh manager that takes the dump as the value of 'logs' has the same loggers. -/
def Reloads (y : YamlCpp) (changed : LogEvent) (s : LoggerManager) : Prop :=
  ∃ text ok var m, s.toYamlString y = .ok text ∧
    (LogSystem.start changed).var.fromString (LogDefines.cast y) text (LogSystem.start changed).manager =
      some (ok,var,m) ∧
    ∀ name, (m.configOf name).map summary = (s.configOf name).map summary

theorem lookup_putLevelAndFormatter_of_ne {key : Key} (hl : key ≠ .level) (hf : key ≠ .formatter)
    (a : LogAppender) (node : Fields) :
    (a.putLevelAndFormatter node).lookup key.text = node.lookup key.text := by
  unfold LogAppender.putLevelAndFormatter
  by_cases ha : a.level = .unkonw
  all_goals
    dsimp only
    split <;> simp [ha,hl,hf]

theorem toFields_node (a : LogAppender) : Fields.node a.toFields = .map a.toFields := by
  obtain ⟨name,hname⟩ : ∃ name, a.toFields.lookup Key.name.text = some (.scalar name) := by
    unfold LogAppender.toFields
    cases a.kind with
    | stdout => exact ⟨"StdoutLogAppender".toList,by simp [lookup_putLevelAndFormatter_of_ne]⟩
    | file filename => exact ⟨"FileLogAppender".toList,by simp [lookup_putLevelAndFormatter_of_ne]⟩
  exact Fields.node_of_lookup hname

/-- No appender is written under the key that its class is read from. -/
theorem lookup_type (a : LogAppender) : a.toFields.lookup Key.type.text = none := by
  unfold LogAppender.toFields
  cases a.kind <;> simp [lookup_putLevelAndFormatter_of_ne]

/-- What is in the node of a logger once the appenders `aps` have been pushed. -/
structure Written (lg : Logger) (aps : List Node) (node : Fields) : Prop where
  name : node.lookup Key.name.text = some (.scalar lg.name)
  level : node.lookup Key.level.text = if lg.level ≠ .unkonw then some (.scalar lg.level.toText) else none
  formatter : node.lookup Key.formatter.text = some (.scalar lg.formatter.pattern)
  appenders : node.lookup Key.appenders.text = if aps = [] then none else some (.sequence aps)

theorem Written.push {lg : Logger} {aps : List Node} {node : Fields} (h : Written lg aps node) (ap : Node) :
    Written lg (aps ++ [ap]) (node.pushBack Key.appenders.text ap) := by
  have hother : ∀ key : Key, key ≠ .appenders →
      (node.pushBack Key.appenders.text ap).lookup key.text = node.lookup key.text :=
    fun key hk => Fields.lookup_pushBack_of_ne (by simpa using hk) _ _
  constructor
  · rw [hother _ (by decide)]
    exact h.name
  · rw [hother _ (by decide)]
    exact h.level
  · rw [hother _ (by decide)]
    exact h.formatter
  · rw [Fields.lookup_pushBack,h.appenders]
    by_cases ha : aps = [] <;> simp [ha]

theorem Written.foldl {lg : Logger} (as : List Node) {aps : List Node} {node : Fields}
    (h : Written lg aps node) :
    Written lg (aps ++ as) (as.foldl (fun node ap => Fields.pushBack node Key.appenders.text ap) node) := by
  induction as generalizing aps node with
  | nil => simpa using h
  | cons ap as ih => simpa using ih (h.push ap)

section Decode
variable {y : YamlCpp} (hload : ∀ node, y.Loads node)
include hload

theorem toYamlString_logger (lg : Logger) (as : List LogAppender) : ∃ node : Fields,
    lg.toYamlString y as = .ok (y.emit (.map node)) ∧
      Written lg (as.map fun a => .map a.toFields) node := by
  let node₀ : Fields := Fields.put [] Key.name.text (.scalar lg.name)
  let node₁ := if lg.level ≠ .unkonw then node₀.put Key.level.text (.scalar lg.level.toText) else node₀
  let node₂ := node₁.put Key.formatter.text (.scalar lg.formatter.getPattern)
  have hstart : Written lg [] node₂ := by
    by_cases hl : lg.level = .unkonw <;> constructor <;>
      simp [node₂,node₁,node₀,hl,LogFormatter.getPattern]
  have hw := hstart.foldl (as.map fun a => .map a.toFields)
  have hloop : as.foldlM (Logger.pushAppender y) node₂ = .ok ((as.map fun a => Node.map a.toFields).foldl
      (fun node ap => Fields.pushBack node Key.appenders.text ap) node₂) := by
    refine foldlM_eq_ok ?_ _
    rw [List.forall₂_map_right_iff,List.forall₂_same]
    intro a _ node
    have ha := hload (.map a.toFields)
    rw [YamlCpp.Loads] at ha
    rw [Logger.pushAppender,LogAppender.toYamlString,toFields_node,ha]
    rfl
  refine ⟨_,?_,hw⟩
  change (do return y.emit (← as.foldlM (Logger.pushAppender y) node₂).node) = _
  rw [hloop]
  exact congrArg (fun node => Except.ok (y.emit node)) (Fields.node_of_lookup hw.name)

end Decode

/-- What the decoder makes of the dump of a logger. -/
def defineOf (lg : Logger) : LogDefine := { name := lg.name, level := lg.level, formatter := lg.formatter.pattern }

theorem ofNode_logger {y : YamlCpp} (hy : ∀ s, y.asString (.scalar s) = .ok s) {lg : Logger}
    {as : List LogAppender} {node : Fields} (h : Written lg (as.map fun a => .map a.toFields) node) :
    LogDefine.ofNode y (.map node) = .ok (defineOf lg) := by
  have hname : y.get Key.name.text (.map node) = .ok (some (.scalar lg.name)) := by rw [YamlCpp.get,h.name]
  have hlevel : LogDefine.field y .level (.map node) =
      .ok (if lg.level ≠ .unkonw then some lg.level.toText else none) :=
    LogDefine.field_map hy (by rw [h.level]; split <;> rfl)
  have hformatter : LogDefine.field y .formatter (.map node) = .ok (some lg.formatter.pattern) :=
    LogDefine.field_map hy h.formatter
  have hread : ∀ a : LogAppender, LogDefine.read y .type a.toFields = none := by
    intro a
    rw [LogDefine.read,lookup_type,Option.bind_none]
  have hdropped : (as.map LogAppender.toFields).filterMap (LogDefine.described y) = [] := by
    refine List.filterMap_eq_nil_iff.mpr fun e he => ?_
    obtain ⟨a,_,rfl⟩ := List.mem_map.mp he
    rw [LogDefine.described,hread]
  have happenders : LogDefine.appendersOf y (.map node) = .ok [] := by
    rw [← hdropped]
    refine (LogDefine.appendersOf_eq_iff ?_).mpr fun e he => ?_
    · rw [h.appenders]
      by_cases ha : as = []
      · simp [ha]
      · simp [ha]
    · obtain ⟨a,_,rfl⟩ := List.mem_map.mp he
      refine ⟨fun node hn => ?_,fun ht => ?_,fun ht => ?_⟩
      · rw [lookup_type] at hn
        cases hn
      · rw [hread] at ht
        cases ht
      · rw [hread] at ht
        cases ht
  rw [LogDefine.ofNode_eq hname (hy _) hlevel hformatter happenders,LogLevel.fromText_written]
  rfl

/-- What is the same in every state that can be reached. -/
structure Sound (s : LoggerManager) : Prop where
  wired : Wired s
  valid : ∀ {l lg}, s.loggers.get l = some lg → lg.formatter.isError = false

theorem sound_new : Sound .new := by
  refine ⟨wired_new,fun hl => ?_⟩
  rw [(get_new hl).2]
  rfl

theorem Sound.alloc {s : LoggerManager} (hs : Sound s) (name : Text) (root : Option ℕ) {l : ℕ} {lg : Logger}
    (hl : (s.loggers.alloc { Logger.new name with root := root }).get l = some lg) :
    lg.formatter.isError = false := by
  rcases Heap.get_alloc_eq_some_iff.mp hl with ⟨_,rfl⟩ | hl
  · rfl
  · exact hs.valid hl

theorem Sound.newLogger {s : LoggerManager} (hs : Sound s) (name : Text) : Sound (s.newLogger name) := by
  refine ⟨⟨?_,hs.wired.rootNamed,fun m l hl => ?_⟩,fun hl => hs.alloc name none hl⟩
  · obtain ⟨r,hr,hroot⟩ := hs.wired.rootLogger
    exact ⟨r,Heap.get_alloc_of_get hr _,hroot⟩
  · obtain ⟨lg,hlg,hnamed⟩ := hs.wired.named m l hl
    exact ⟨lg,Heap.get_alloc_of_get hlg _,hnamed⟩

theorem Sound.getLogger {s : LoggerManager} (hs : Sound s) (name : Text) : Sound (s.getLogger name).1 := by
  refine ⟨hs.wired.getLogger name,fun hl => ?_⟩
  unfold LoggerManager.getLogger at hl
  cases hn : s.names.find name with
  | some k =>
    rw [hn] at hl
    exact hs.valid hl
  | none =>
    rw [hn] at hl
    exact hs.alloc name (some s.root) hl

theorem Sound.modify {s : LoggerManager} (hs : Sound s) (l : ℕ) {f : Logger → Logger}
    (appenders : Heap LogAppender) (hshape : ∀ lg, (f lg).name = lg.name ∧ (f lg).root = lg.root)
    (hf : ∀ lg : Logger, lg.formatter.isError = false → (f lg).formatter.isError = false) :
    Sound { s with loggers := s.loggers.modify l f, appenders := appenders } := by
  refine ⟨hs.wired.of_sameShape (sameShape_modify s l f appenders hshape),fun {k lk} hk => ?_⟩
  rcases Heap.get_modify_eq_some_iff.mp hk with ⟨_,lg,hlg,rfl⟩ | ⟨_,hk⟩
  · exact hf lg (hs.valid hlg)
  · exact hs.valid hk

theorem Sound.setFormatter {s : LoggerManager} (hs : Sound s) (l : ℕ) {f : LogFormatter}
    (hf : f.isError = false) : Sound (s.setFormatter l f) := by
  unfold LoggerManager.setFormatter
  cases s.loggers.get l with
  | none => exact hs
  | some lg => exact hs.modify l _ (fun _ => ⟨rfl,rfl⟩) fun _ _ => hf

theorem Sound.step {s t : LoggerManager} (hs : Sound s) {a : Act} (ha : Valid s a)
    (h : Dump.step s a = some t) : Sound t := by
  have hkeep : ∀ (l : ℕ) (f : Logger → Logger), (∀ lg, (f lg).name = lg.name ∧ (f lg).root = lg.root ∧
      (f lg).formatter = lg.formatter) → Sound { s with loggers := s.loggers.modify l f } :=
    fun l f hf => hs.modify l s.appenders (fun lg => ⟨(hf lg).1,(hf lg).2.1⟩) fun lg hv => (hf lg).2.2 ▸ hv
  cases a with
  | newLogger name =>
    obtain rfl := Option.some.inj h
    exact hs.newLogger name
  | getLogger name =>
    obtain rfl := Option.some.inj h
    exact hs.getLogger name
  | newAppender kind =>
    obtain rfl := Option.some.inj h
    exact ⟨hs.wired.of_sameShape (sameShape_newAppender s _),hs.valid⟩
  | setLevel l level =>
    obtain ⟨_,rfl⟩ : _ ∧ s.setLevel l level = t := by simpa [Dump.step] using h
    exact hkeep l _ fun _ => ⟨rfl,rfl,rfl⟩
  | setFormatter l f =>
    obtain ⟨_,rfl⟩ : _ ∧ s.setFormatter l f = t := by simpa [Dump.step] using h
    exact hs.setFormatter l ha
  | setFormatterText l format =>
    obtain ⟨_,rfl⟩ : _ ∧ s.setFormatterText l format = t := by simpa [Dump.step] using h
    unfold setFormatterText
    dsimp only
    split_ifs with he
    · exact hs
    · exact hs.setFormatter l (by simpa using he)
  | addAppender l a =>
    obtain ⟨_,rfl⟩ : _ ∧ s.addAppender l a = t := by simpa [Dump.step] using h
    unfold addAppender
    cases s.loggers.get l with
    | none => exact hs
    | some lg => exact hs.modify l _ (fun _ => ⟨rfl,rfl⟩) fun _ hv => hv
  | delAppender l a =>
    obtain ⟨_,rfl⟩ : _ ∧ s.delAppender l a = t := by simpa [Dump.step] using h
    exact hkeep l _ fun _ => ⟨rfl,rfl,rfl⟩
  | clearAppender l =>
    obtain ⟨_,rfl⟩ : _ ∧ s.clearAppender l = t := by simpa [Dump.step] using h
    exact hkeep l _ fun _ => ⟨rfl,rfl,rfl⟩
  | setAppenderLevel a level =>
    obtain ⟨_,rfl⟩ : _ ∧ _ = t := by simpa [Dump.step] using h
    exact ⟨hs.wired.of_sameShape ⟨rfl,rfl,fun _ => rfl⟩,hs.valid⟩
  | setAppenderFormatter a f =>
    obtain ⟨_,rfl⟩ : _ ∧ _ = t := by simpa [Dump.step] using h
    exact ⟨hs.wired.of_sameShape ⟨rfl,rfl,fun _ => rfl⟩,hs.valid⟩

theorem sound_of_run {acts : List Act} {s : LoggerManager} (h : Runs Dump.step Valid .new acts s) : Sound s :=
  h.invariant (fun hs ha ht => hs.step ha ht) sound_new

theorem Sound.loggers {s : LoggerManager} (hs : Sound s) : ∃ lgs, Forall₂ (fun (i : Text × ℕ) lg =>
    s.loggers.get i.2 = some lg ∧ lg.name = i.1) s.names.entries lgs := by
  refine exists_forall₂ fun i hi => ?_
  obtain ⟨lg,hlg,hname,_⟩ := hs.wired.named i.1 i.2 (SortedMap.find_of_mem hi)
  exact ⟨lg,hlg,hname⟩

section Load
variable {y : YamlCpp} (hload : ∀ node, y.Loads node) (hy : ∀ s, y.asString (.scalar s) = .ok s)
include hload hy

/-- The dump decodes to one define for each logger, without appenders. -/
theorem fromStr_dump {s : LoggerManager} (hs : Sound s) : ∃ text u lgs, s.toYamlString y = .ok text ∧
    (LogDefines.cast y).fromStr text = .ok u ∧ u.toList = lgs.map defineOf ∧
    Forall₂ (fun (i : Text × ℕ) lg => s.loggers.get i.2 = some lg ∧ lg.name = i.1) s.names.entries lgs := by
  obtain ⟨lgs,hlgs⟩ := hs.loggers
  have hfilter : (s.names.entries.filterMap fun i => s.loggers.get i.2) = lgs :=
    filterMap_of_forall₂ (hlgs.imp fun _ _ h => h.1)
  obtain ⟨nodes,hnodes⟩ : ∃ nodes, Forall₂ (fun lg node => s.loadLogger y lg = .ok node ∧
      LogDefine.ofNode y node = .ok (defineOf lg)) lgs nodes := by
    refine exists_forall₂ fun lg _ => ?_
    obtain ⟨node,htext,hw⟩ := toYamlString_logger hload lg (lg.appenders.filterMap s.appenders.get)
    refine ⟨.map node,?_,ofNode_logger hy hw⟩
    rw [loadLogger,htext]
    exact hload (.map node)
  have hitems : lgs.mapM (s.loadLogger y) = .ok nodes := mapM_eq_ok (hnodes.imp fun _ _ h => h.1)
  have hne : nodes ≠ [] := by
    rintro rfl
    obtain rfl : lgs = [] := List.forall₂_nil_right_iff.mp hnodes
    have hroot := SortedMap.mem_of_find hs.wired.rootNamed
    rw [List.forall₂_nil_right_iff.mp hlgs] at hroot
    cases hroot
  have hsorted : (lgs.map defineOf).Pairwise fun a b => LogDefine.lt a b = true := by
    have hnames : lgs.map Logger.name = s.names.entries.map Prod.fst :=
      map_eq_of_forall₂ (hlgs.imp fun _ _ h => h.2)
    have hp : (lgs.map Logger.name).Pairwise (· < ·) := hnames ▸ List.pairwise_map.mpr s.names.sorted
    exact List.pairwise_map.mpr ((List.pairwise_map.mp hp).imp fun h => decide_eq_true h)
  have hdecoded : Forall₂ (fun node d => y.Loads node ∧ LogDefine.ofNode y node = .ok d) nodes
      (lgs.map defineOf) := by
    rw [List.forall₂_map_right_iff]
    exact (hnodes.imp fun _ node h => ⟨hload node,h.2⟩).flip
  obtain ⟨u,hu,hul⟩ := LogDefines.fromStr_sequence hdecoded hsorted (hload _)
  refine ⟨_,u,lgs,?_,hu,hul,hlgs⟩
  rw [LoggerManager.toYamlString,hfilter,hitems]
  simp [bind,Except.bind,pure,Except.pure,hne]

omit hload hy in
theorem fromString_of_step {changed : LogEvent} {v : LogDefines} {text : Text} {t : LogSystem}
    (hv : (LogDefines.cast y).fromStr text = .ok v) (h : (LogSystem.start changed).step (.assign v) = some t) :
    (LogSystem.start changed).var.fromString (LogDefines.cast y) text (LogSystem.start changed).manager =
      some (true,t.var,t.manager) := by
  simp only [LogSystem.step] at h
  simp only [ConfigVar.fromString,hv]
  cases hr : (LogSystem.start changed).var.setValue v (LogSystem.start changed).manager with
  | returned r =>
    simp only [hr] at h ⊢
    obtain rfl := Option.some.inj h
    rfl
  | threw r what => simp [hr] at h
  | crashed => simp [hr] at h

omit hload hy in
/-- What a fresh manager makes of its first value. -/
theorem first_assign (changed : LogEvent) {v : LogDefines} (hv : v ≠ .empty) :
    ∃ t, (LogSystem.start changed).step (.assign v) = some t ∧
      Reconfigured .new t.manager v .empty := by
  have hstart := LogSystem.follows_start changed
  have hserved : LogSystem.RootServed (LogSystem.start changed) := fun h => by
    have hroot : appendersOf .new LoggerManager.new.root = [0] := rfl
    cases hroot.symm.trans h
  obtain ⟨t,ht,_⟩ := hstart.assign hserved v
  obtain ⟨he,_⟩ | ⟨_,_,rfl⟩ := LogSystem.step_assign changed hstart.listening ht
  · exact absurd he.symm hv
  · exact ⟨_,ht,reconfigured_changeLoggers hstart.intact v .empty⟩

omit hload hy in
/-- In a fresh manager there is at most the root logger, with the default formatter. -/
theorem formatter_new (name : Text) :
    ((LoggerManager.new.configOf name).getD .created).formatter = defaultFormatter := by
  cases hv : LoggerManager.new.configOf name with
  | none => rfl
  | some v =>
    have hstart := (LogSystem.follows_start LogSystem.plainEvent).configured.untouched name v (by simp) hv
    rw [Option.getD_some,hstart,LoggerView.asCreated]
    split_ifs <;> rfl

omit hload hy in
theorem summary_configure {w : LoggerView} (hw : w.formatter = defaultFormatter) {lg : Logger}
    (hlg : lg.formatter.isError = false) : summary (w.configure (defineOf lg)) =
      ⟨lg.level,if lg.formatter.pattern = [] then defaultPattern else lg.formatter.pattern,[]⟩ := by
  unfold LoggerView.configure summary defineOf
  by_cases hp : lg.formatter.pattern = []
  · simp [hp,hw,defaultFormatter,LogFormatter.init]
  · simp [hp,validOr,hlg]

theorem load_dump (changed : LogEvent) {s : LoggerManager} (hs : Sound s) : ∃ text var m,
    s.toYamlString y = .ok text ∧
    (LogSystem.start changed).var.fromString (LogDefines.cast y) text (LogSystem.start changed).manager =
      some (true,var,m) ∧
    ∀ name, (m.configOf name).map summary = (s.configOf name).map fun w =>
      ⟨w.level,if w.formatter.pattern = [] then defaultPattern else w.formatter.pattern,[]⟩ := by
  obtain ⟨text,u,lgs,htext,hu,hul,hlgs⟩ := fromStr_dump hload hy hs
  have hmem : ∀ d, d ∈ u ↔ ∃ lg ∈ lgs, defineOf lg = d := fun d => by
    change d ∈ u.toList ↔ _
    rw [hul,List.mem_map]
  -- every name of the manager is one of the value
  have hnamed : ∀ name l, s.names.find name = some l →
      ∃ lg ∈ lgs, s.loggers.get l = some lg ∧ lg.name = name := fun name l hl =>
    exists_of_mem_left hlgs (SortedMap.mem_of_find hl)
  have hne : u ≠ .empty := by
    rintro rfl
    obtain ⟨lg,hlg,_⟩ := hnamed rootName s.root hs.wired.rootNamed
    cases (hmem _).mpr ⟨lg,hlg,rfl⟩
  obtain ⟨t,ht,hr⟩ := first_assign changed hne
  refine ⟨text,t.var,t.manager,htext,fromString_of_step hu ht,fun name => ?_⟩
  cases hl : s.names.find name with
  | some l =>
    obtain ⟨lg,hlg,hget,rfl⟩ := hnamed name l hl
    have hconf := hr.configured (defineOf lg) ((hmem _).mpr ⟨lg,hlg,rfl⟩) List.not_mem_nil
    change t.manager.configOf lg.name = _ at hconf
    rw [hconf,Option.map_some,summary_configure (formatter_new _) (hs.valid hget)]
    simp [configOf,hl,view,hget]
  | none =>
    have hroot : name ≠ rootName := by
      rintro rfl
      cases hl.symm.trans hs.wired.rootNamed
    have hnew : LoggerManager.new.configOf name = none := by
      have hfind : LoggerManager.new.names.find name = none := by
        rw [LoggerManager.new,SortedMap.find_assign,if_neg hroot]
        rfl
      rw [configOf,hfind,Option.bind_none]
    have hn : ¬ u.Names name := by
      rintro ⟨d,hd,rfl⟩
      obtain ⟨lg,hlg,rfl⟩ := (hmem d).mp hd
      obtain ⟨i,hi,_,hname⟩ := exists_of_mem_left hlgs.flip hlg
      have hfind := SortedMap.find_of_mem hi
      rw [← hname] at hfind
      cases hl.symm.trans hfind
    have hempty : ¬ LogDefines.Names .empty name := by
      rintro ⟨_,hd,_⟩
      cases hd
    rw [hr.others name hn hempty,hnew,configOf,hl]
    rfl

end Load

variable {y : YamlCpp}

/-- A dump comes back exactly if there are no appenders and no empty patterns in it. -/
theorem reloads_iff (hload : ∀ node, y.Loads node) (hy : ∀ s, y.asString (.scalar s) = .ok s)
    (changed : LogEvent) {acts : List Act} {s : LoggerManager} (h : Runs Dump.step Valid .new acts s) :
    Reloads y changed s ↔
      ∀ name v, s.configOf name = some v → v.appenders = [] ∧ v.formatter.pattern ≠ [] := by
  obtain ⟨text,var,m,htext,hfrom,hm⟩ := load_dump hload hy changed (sound_of_run h)
  have hreloads : Reloads y changed s ↔ ∀ name, (m.configOf name).map summary = (s.configOf name).map summary := by
    constructor
    · rintro ⟨text',ok,var',m',htext',hfrom',hm'⟩
      obtain rfl := Except.ok.inj (htext.symm.trans htext')
      obtain ⟨_,_,rfl⟩ : true = ok ∧ var = var' ∧ m = m' := by simpa using hfrom.symm.trans hfrom'
      exact hm'
    · exact fun h => ⟨text,true,var,m,htext,hfrom,h⟩
  have hdefault : defaultPattern ≠ [] := by decide
  rw [hreloads]
  refine forall_congr' fun name => ?_
  rw [hm name]
  cases s.configOf name with
  | none => simp
  | some v =>
    simp only [Option.map_some,Option.some.injEq,forall_eq',summary,Summary.mk.injEq,true_and]
    by_cases hp : v.formatter.pattern = []
    · rw [if_pos hp,hp]
      exact ⟨fun h => absurd h.1 hdefault,fun h => absurd rfl h.2⟩
    · rw [if_neg hp]
      exact ⟨fun h => ⟨List.map_eq_nil_iff.mp h.2.symm,hp⟩,
        fun h => ⟨rfl,(List.map_eq_nil_iff.mpr h.1).symm⟩⟩

def systemName : Text := "system".toList

/-- The root logger without its appender, and a logger with a level and a pattern of its own. -/
def tuned : List Act :=
  [.clearAppender 0,.getLogger systemName,.setLevel 1 .error,.setFormatterText 1 "[%p] %m%n".toList]

theorem reloads_cleared : ∃ s, Runs Dump.step Valid .new tuned s ∧
    (s.configOf systemName).map summary = some ⟨.error,"[%p] %m%n".toList,[]⟩ ∧
    Reloads YamlText.yaml LogSystem.plainEvent s := by
  have h : Runs Dump.step Valid .new tuned _ :=
    .step trivial rfl (.step trivial rfl (.step trivial rfl (.single trivial rfl)))
  refine ⟨_,h,by decide,(reloads_iff YamlText.loads_yaml (fun _ => rfl) LogSystem.plainEvent h).mpr ?_⟩
  intro name v hv
  obtain ⟨l,hl,hv⟩ := Option.bind_eq_some_iff.mp hv
  change ((SortedMap.empty.assign rootName 0).assign systemName 1).find name = some l at hl
  rw [SortedMap.find_assign,SortedMap.find_assign] at hl
  split_ifs at hl with hsystem hroot
  · obtain rfl := Option.some.inj hl
    obtain rfl := Option.some.inj hv
    exact ⟨rfl,by decide⟩
  · obtain rfl := Option.some.inj hl
    obtain rfl := Option.some.inj hv
    exact ⟨rfl,by decide⟩
  · cases hl

/-- The root logger as it is created does not keep its standard output. -/
theorem created_not_reloads : ¬ ∀ (y : YamlCpp) (changed : LogEvent) (acts : List Act) (s : LoggerManager),
    (∀ node, y.Loads node) → (∀ s, y.asString (.scalar s) = .ok s) → Runs Dump.step Valid .new acts s →
      Reloads y changed s := by
  intro h
  obtain ⟨text,ok,var,m,htext,hfrom,hm⟩ := h YamlText.yaml LogSystem.plainEvent [] .new YamlText.loads_yaml
    (fun _ => rfl) (.refl _)
  obtain ⟨text',var',m',htext',hfrom',hm'⟩ := load_dump YamlText.loads_yaml (fun _ => rfl)
    LogSystem.plainEvent sound_new
  obtain rfl := Except.ok.inj (htext.symm.trans htext')
  obtain ⟨_,_,rfl⟩ : ok = true ∧ var = var' ∧ m = m' := by simpa using hfrom.symm.trans hfrom'
  have hroot := congrArg (Option.map Summary.appenders) ((hm' rootName).symm.trans (hm rootName))
  exact absurd hroot (by decide)

end Dump
end Zcs.Log
