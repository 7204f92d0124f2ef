import Zcs.Foundation.Yaml
import Zcs.Log.FormatterHistory

/-! # What the appenders write

A line begins with an event, of user code or of the library, that goes through a logger. Seen
from the objects it depends on loggers, appenders and their formatters. It turns out that it
is a function of the values that the 'logs' variable has had. What the code sends to
`std::cout` past the appenders is not counted.
-/
namespace Zcs.Log
open Config LogSystem LoggerManager

/-- What the library reports while it loads a document. -/
inductive Report where
  | configChanged
  | fromString (name val : Text)
  | invalidName (perfix : Text) (node : Node)

/-- The manager, the lines that were written and to what, and the number of reports. -/
structure Console where
  manager : LoggerManager
  written : List (AppenderKind × Text)
  reports : ℕ

-- The event that the library makes for a report; its time and its thread are those of the moment.
variable (renderTime : Text → ℕ → Text) (reported : ℕ → Report → LogEvent)

/-- `StdoutLogAppender::Log` and `FileLogAppender::Log` as far as the line goes; `none` is
the null formatter. -/
def LogAppender.line (a : LogAppender) (event : LogEvent) : Option (AppenderKind × Text) :=
  a.formatter.map fun f => (a.kind,f.format renderTime event)

namespace Console

/-- `Logger::Log` with what the appenders do; `none` is a null dereference. -/
def log (c : Console) (l : ℕ) (event : LogEvent) : Option Console :=
  match c.manager.log 2 l event.level event with
  | some (.delivered ds) => do
    let lines ← ds.mapM fun d => (c.manager.appenders.get d.appender).bind (·.line renderTime d.event)
    return { c with written := c.written ++ lines }
  | _ => none

def report (c : Console) (l : ℕ) (r : Report) : Option Console :=
  (c.log renderTime l (reported c.reports r)).map fun c => { c with reports := c.reports + 1 }

def setManager (c : Console) (m : LoggerManager) : Console := { c with manager := m }

end Console

/-- What the values `vs` make of the logger of a name. -/
def LoggerView.after (vs : List LogDefines) (name : Text) : LoggerView :=
  let f := lastFormatter name vs
  match (current vs).find { name := name } with
  | some d => ⟨d.level,f,d.appenders.filterMap (expectedAppender f)⟩
  | none => if vs.any fun u => (u.find { name := name }).isSome then ⟨.unkonw,f,[]⟩ else .asCreated name

/-- The lines for an event: one for each appender of the logger, or of the root logger if
it has none. -/
def linesAfter (vs : List LogDefines) (name : Text) (event : LogEvent) : List (AppenderKind × Text) :=
  let own := (LoggerView.after vs name).appenders
  (if own = [] then (LoggerView.after vs rootName).appenders else own).filterMap (·.line renderTime event)

/-- The manager is what the values make of it. -/
structure LoggerManager.Shows (m : LoggerManager) (vs : List LogDefines) : Prop where
  intact : Intact m
  view : ∀ name, (m.configOf name).getD .created = .after vs name

theorem names_iff {v : LogDefines} {name : Text} : (v.find { name := name }).isSome = true ↔ v.Names name := by
  rw [← not_iff_not,Bool.not_eq_true,Option.isSome_eq_false_iff,Option.isNone_iff_eq_none]
  exact LogDefines.find_eq_none_iff

theorem shows_of_follows {changed : LogEvent} {vs : List LogDefines} {t : LogSystem} (hf : Follows changed vs t)
    (hr : Remembers vs t.manager) : t.manager.Shows vs := by
  refine ⟨hf.intact,fun name => ?_⟩
  have hformatter := hr name
  unfold LoggerView.after
  cases hd : (current vs).find { name := name } with
  | some d =>
    obtain ⟨hmem,rfl⟩ := LogDefines.find_eq_some_iff.mp hd
    obtain ⟨v,hv,hlevel,happenders⟩ := hf.configured.named d hmem
    rw [hv,Option.getD_some] at hformatter
    simp only [hv,Option.getD_some,← hformatter,← hlevel,← happenders]
  | none =>
    have hnot : ¬ (current vs).Names name := LogDefines.find_eq_none_iff.mp hd
    dsimp only
    split_ifs with hnamed
    · obtain ⟨u,hu,hun⟩ := List.any_eq_true.mp hnamed
      obtain ⟨v,hv,hlevel,happenders⟩ := hf.configured.dropped u hu name (names_iff.mp hun) hnot
      rw [hv,Option.getD_some] at hformatter
      simp only [hv,Option.getD_some,← hformatter,← hlevel,← happenders]
    · have hnever : ∀ u ∈ vs, ¬ u.Names name := fun u hu hun =>
        hnamed (List.any_eq_true.mpr ⟨u,hu,names_iff.mpr hun⟩)
      cases hv : t.manager.configOf name with
      | some v => exact hf.configured.untouched name v hnever hv
      | none =>
        -- the root logger is always there
        have hroot : name ≠ rootName := by
          rintro rfl
          obtain ⟨r,hget,_⟩ := hf.intact.wired.rootLogger
          simp [configOf,hf.intact.wired.rootNamed,view,hget] at hv
        simp [LoggerView.asCreated,hroot]

/-- No appender of a logger is without a formatter. -/
theorem formatter_of_mem_after {vs : List LogDefines} {name : Text} {a : LogAppender}
    (ha : a ∈ (LoggerView.after vs name).appenders) : ∃ f, a.formatter = some f := by
  have hexpected {f : LogFormatter} {d : LogAppenderDefine} (h : expectedAppender f d = some a) :
      ∃ f, a.formatter = some f := by
    rw [expectedAppender_eq] at h
    obtain ⟨b,_,rfl⟩ := Option.map_eq_some_iff.mp h
    unfold LogAppender.inherit
    cases hb : b.formatter with
    | none => exact ⟨f,rfl⟩
    | some g => exact ⟨g,hb⟩
  unfold LoggerView.after at ha
  cases hd : (current vs).find { name := name } with
  | some d =>
    simp only [hd] at ha
    obtain ⟨_,_,h⟩ := List.mem_filterMap.mp ha
    exact hexpected h
  | none =>
    simp only [hd] at ha
    split_ifs at ha
    · cases ha
    · unfold LoggerView.asCreated at ha
      split_ifs at ha
      · obtain rfl := List.mem_singleton.mp ha
        exact ⟨_,rfl⟩
      · cases ha

variable {renderTime}

theorem linesAfter_eq_nil_iff {vs : List LogDefines} {name : Text} {event : LogEvent} :
    linesAfter renderTime vs name event = [] ↔
      (LoggerView.after vs name).appenders = [] ∧ (LoggerView.after vs rootName).appenders = [] := by
  have hnil {name' : Text} : (LoggerView.after vs name').appenders.filterMap (·.line renderTime event) = [] ↔
      (LoggerView.after vs name').appenders = [] := by
    rw [List.filterMap_eq_nil_iff,List.eq_nil_iff_forall_not_mem]
    refine forall₂_congr fun a ha => ?_
    obtain ⟨f,hf⟩ := formatter_of_mem_after ha
    simp [LogAppender.line,hf]
  unfold linesAfter
  dsimp only
  split_ifs with hown
  · simp [hnil,hown]
  · simp [hnil,hown]

/-- The appenders of a list of addresses write what they are as values. -/
theorem mapM_line {m : LoggerManager} {as : List ℕ} (hget : ∀ a ∈ as, (m.appenders.get a).isSome = true)
    (hformatter : ∀ ap ∈ as.filterMap m.appenders.get, ∃ f, ap.formatter = some f) (event : LogEvent) :
    as.mapM (fun a => (m.appenders.get a).bind (·.line renderTime event)) =
      some ((as.filterMap m.appenders.get).filterMap (·.line renderTime event)) := by
  induction as with
  | nil => rfl
  | cons a as ih =>
    obtain ⟨hgeta,hgets⟩ := List.forall_mem_cons.mp hget
    obtain ⟨ap,hap⟩ := Option.isSome_iff_exists.mp hgeta
    rw [List.filterMap_cons_some hap] at hformatter ⊢
    obtain ⟨⟨f,hf⟩,hformatters⟩ := List.forall_mem_cons.mp hformatter
    have hline : ap.line renderTime event = some (ap.kind,f.format renderTime event) := by
      rw [LogAppender.line,hf,Option.map_some]
    rw [List.mapM_cons,ih hgets hformatters,hap,Option.bind_some,List.filterMap_cons,hline]
    rfl

/-- A call of `Log` writes the lines that the values make of it, if there are any. -/
theorem Console.log_eq {c : Console} {vs : List LogDefines} (h : c.manager.Shows vs) {name : Text} {l : ℕ}
    (hn : c.manager.names.find name = some l) (event : LogEvent) :
    c.log renderTime l event = if linesAfter renderTime vs name event = [] then none
      else some { c with written := c.written ++ linesAfter renderTime vs name event } := by
  have hw := h.intact.wired
  obtain ⟨lg,hlg,_⟩ := hw.named name l hn
  obtain ⟨r,hr,_⟩ := hw.rootLogger
  have hview {k : ℕ} {lk : Logger} {name' : Text} (hk : c.manager.names.find name' = some k)
      (hlk : c.manager.loggers.get k = some lk) :
      (LoggerView.after vs name').appenders = lk.appenders.filterMap c.manager.appenders.get ∧
        ∀ a ∈ lk.appenders, (c.manager.appenders.get a).isSome = true := by
    have hv := h.view name'
    rw [configOf,hk,Option.bind_some,LoggerManager.view,hlk,Option.map_some,Option.getD_some] at hv
    exact ⟨by rw [← hv],fun a ha => h.intact.owned.allocated hlk ha⟩
  obtain ⟨hown,hallocated⟩ := hview hn hlg
  obtain ⟨hroot,hallocatedRoot⟩ := hview hw.rootNamed hr
  have hnil {as : List ℕ} (has : ∀ a ∈ as, (c.manager.appenders.get a).isSome = true) :
      as.filterMap c.manager.appenders.get = [] ↔ as = [] := by
    rw [List.filterMap_eq_nil_iff,List.eq_nil_iff_forall_not_mem]
    refine forall₂_congr fun a ha => ?_
    obtain ⟨ap,hap⟩ := Option.isSome_iff_exists.mp (has a ha)
    simp [hap]
  have hlist : (c.manager.target l lg r).2 = if (LoggerView.after vs name).appenders = [] then r.appenders
      else lg.appenders := by
    simp only [hown,hnil hallocated,target]
    split_ifs <;> first | rfl | contradiction
  have hempty : linesAfter renderTime vs name event = [] ↔ lg.appenders = [] ∧ r.appenders = [] := by
    rw [linesAfter_eq_nil_iff,hown,hroot,hnil hallocated,hnil hallocatedRoot]
  rw [Console.log,LoggerManager.log_eq hw (.inr ⟨name,hn⟩) hlg hr]
  by_cases hlists : lg.appenders = [] ∧ r.appenders = []
  · rw [if_pos hlists,if_pos (hempty.mpr hlists)]
  · rw [if_neg hlists,if_neg (mt hempty.mp hlists)]
    have hlines : ((c.manager.target l lg r).2.map fun a =>
        (⟨a,(c.manager.target l lg r).1,event.level,event⟩ : Delivery)).mapM
          (fun d => (c.manager.appenders.get d.appender).bind (·.line renderTime d.event)) =
        some (linesAfter renderTime vs name event) := by
      rw [List.mapM_map,hlist,linesAfter]
      split_ifs with hf
      · rw [hroot]
        exact mapM_line hallocatedRoot (fun ap hap => formatter_of_mem_after (hroot ▸ hap)) event
      · rw [hown]
        exact mapM_line hallocated (fun ap hap => formatter_of_mem_after (hown ▸ hap)) event
    simp only [hlines,Option.bind_eq_bind,Option.bind_some,pure]

end Zcs.Log
