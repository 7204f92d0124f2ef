import Zcs.Log.Configured
import Zcs.Log.DefineCast

/-! # Level thresholds

Levels are configured for loggers and for appenders, and are stored in both. Neither
`Logger::Log` nor the `Log` of an appender compares one with the level of an event, and
the decoder does not read the one of an appender at all.
-/
namespace Zcs.Log

/-- The number of a `LogLevel::Level`. -/
def LogLevel.number : LogLevel → ℕ
  | unkonw => 0
  | debug => 1
  | info => 2
  | warn => 3
  | error => 4
  | fatal => 5

-- What a time item writes for a format and an event time.
variable (renderTime : Text → ℕ → Text)

/-- What `StdoutLogAppender::Log` and `FileLogAppender::Log` put into their streams; there
is nothing to write with if `formatter_` is null. -/
def LogAppender.log (a : LogAppender) (_ : LogLevel) (event : LogEvent) : Option Text :=
  a.formatter.map fun f => f.format renderTime event

namespace LoggerManager

/-- The event, logged to `l`, comes to the appender, which writes it. -/
def WrittenBy (s : LoggerManager) (l a : ℕ) (event : LogEvent) : Prop :=
  ∃ fuel ds ap text, s.log fuel l event.level event = some (.delivered ds) ∧
    ⟨a,l,event.level,event⟩ ∈ ds ∧ s.appenders.get a = some ap ∧
      ap.log renderTime event.level event = some text

/-- The logger's own appenders, whose levels are `mins`, write the event if its level is at
least that of the logger and that of the appender, and not otherwise. -/
def Gated (s : LoggerManager) (l : ℕ) (min : LogLevel) (mins : List LogLevel) (event : LogEvent) : Prop :=
  List.Forall₂ (fun a m => s.WrittenBy renderTime l a event ↔
    min.number ≤ event.level.number ∧ m.number ≤ event.level.number) (s.appendersOf l) mins

end LoggerManager

namespace LogDefine
variable (y : YamlCpp)

/-- The level under the key 'level'. -/
def levelAt (node : Node) : LogLevel := LogLevel.fromText ((field y .level node).toOption.join.getD [])

/-- The levels of the entries that the decoder makes an appender of. -/
def levelsAt (node : Node) : List LogLevel :=
  match y.get Key.appenders.text node with
  | .ok (some aps) =>
    (y.itemNodes aps).filterMap fun a => (appenderOf y a).toOption.join.map fun _ => levelAt y a
  | _ => []

/-- The levels of the appenders that the listener makes objects of. -/
def levels (d : LogDefine) : List LogLevel :=
  d.appenders.filterMap fun a => if a.type = 1 ∨ a.type = 2 then some a.level else none

end LogDefine

/-- What a configuration says of a logger that it names: the logger's level, and the level
of each of its appenders. It is given as a value, or by the text of each logger. -/
inductive Asks (y : YamlCpp) (v : LogDefines) : Text → LogLevel → List LogLevel → Prop
  | value {d : LogDefine} (hd : d ∈ v) : Asks y v d.name d.level d.levels
  | text {d : LogDefine} {text : Text} {node : Node} (hd : d ∈ v) (hl : y.load text = .ok node)
      (hc : (LogDefine.cast y).fromStr text = .ok d) :
      Asks y v d.name (LogDefine.levelAt y node) (LogDefine.levelsAt y node)

namespace LogDefine
variable {y : YamlCpp}

theorem type_of_kept {a : Node} {made lad : LogAppenderDefine}
    (h : (do match ← field y .formatter a with
        | none => return some made
        | some formatter => return some { made with file := formatter }) = Except.ok (some lad)) :
    lad.type = made.type := by
  obtain ⟨o,_,h⟩ := bind_eq_ok_iff.mp h
  cases o with
  | none => rw [Option.some.inj (Except.ok.inj h)]
  | some formatter => rw [← Option.some.inj (Except.ok.inj h)]

theorem type_of_appenderOf {a : Node} {lad : LogAppenderDefine} (h : appenderOf y a = .ok (some lad)) :
    lad.type = 1 ∨ lad.type = 2 := by
  obtain ⟨type,_,h⟩ := bind_eq_ok_iff.mp h
  cases type with
  | none => cases h
  | some type =>
    dsimp only at h
    split_ifs at h
    · obtain ⟨file,_,h⟩ := bind_eq_ok_iff.mp h
      cases file with
      | none => cases h
      | some file => exact .inl (type_of_kept h)
    · exact .inr (type_of_kept h)
    · cases h

theorem appenders_of_cast {text : Text} {node : Node} {d : LogDefine} (hl : y.load text = .ok node)
    (hc : (cast y).fromStr text = .ok d) : appendersOf y node = .ok d.appenders ∧ d.level = levelAt y node := by
  have hc : ofNode y node = .ok d := by
    obtain ⟨node',hl',hc⟩ := bind_eq_ok_iff.mp hc
    rwa [Except.ok.inj (hl.symm.trans hl')]
  obtain ⟨o,_,hc⟩ := bind_eq_ok_iff.mp hc
  cases o with
  | none => cases hc
  | some n =>
    obtain ⟨_,_,hc⟩ := bind_eq_ok_iff.mp hc
    obtain ⟨level,hlevel,hc⟩ := bind_eq_ok_iff.mp hc
    obtain ⟨_,_,hc⟩ := bind_eq_ok_iff.mp hc
    obtain ⟨appenders,happenders,hc⟩ := bind_eq_ok_iff.mp hc
    obtain rfl := Except.ok.inj hc
    refine ⟨happenders,?_⟩
    rw [levelAt,hlevel]
    rfl

/-- The decoder's appenders, one for each of the levels asked for. -/
theorem length_levelsAt {text : Text} {node : Node} {d : LogDefine} (hl : y.load text = .ok node)
    (hc : (cast y).fromStr text = .ok d) : d.levels.length = (levelsAt y node).length := by
  have h := (appenders_of_cast hl hc).1
  rw [levels,levelsAt]
  unfold appendersOf at h
  cases hg : y.get Key.appenders.text node with
  | error e =>
    rw [hg] at h
    cases h
  | ok o =>
    rw [hg] at h
    cases o with
    | none =>
      rw [← Except.ok.inj h]
      rfl
    | some aps =>
      obtain ⟨os,hos,hd⟩ := foldlM_keep_cases h
      rw [hd,List.nil_append]
      clear hd h
      dsimp only
      generalize y.itemNodes aps = items at hos ⊢
      induction hos with
      | nil => rfl
      | @cons a o _ _ ho _ ih =>
        cases o with
        | none => simpa [ho,Except.toOption] using ih
        | some lad => simpa [ho,Except.toOption,type_of_appenderOf ho] using ih

end LogDefine

namespace LoggerManager
variable {s : LoggerManager} {l : ℕ}

theorem length_expected (d : LogDefine) (f : LogFormatter) :
    (d.appenders.filterMap (expectedAppender f)).length = d.levels.length := by
  rw [LogDefine.levels,List.length_filterMap_eq_countP,List.length_filterMap_eq_countP]
  congr 1
  funext a
  unfold expectedAppender
  by_cases h1 : a.type = 1 <;> by_cases h2 : a.type = 2 <;> simp [h1,h2]

theorem formatter_of_expected {f : LogFormatter} {a : LogAppenderDefine} {ap : LogAppender}
    (h : expectedAppender f a = some ap) : ∃ g, ap.formatter = some g := by
  unfold expectedAppender at h
  dsimp only at h
  split_ifs at h
  all_goals
    obtain rfl := Option.some.inj h
    exact ⟨_,rfl⟩

/-- Whatever the level of an event, each of the logger's own appenders gets it. -/
theorem writtenBy_own (hs : Wired s) (ho : Obtained s l) {a : ℕ} (ha : a ∈ s.appendersOf l) {ap : LogAppender}
    (hap : s.appenders.get a = some ap) {f : LogFormatter} (hf : ap.formatter = some f) (event : LogEvent) :
    s.WrittenBy renderTime l a event := by
  obtain ⟨r,hr,_⟩ := hs.rootLogger
  cases hl : s.loggers.get l with
  | none => simp [appendersOf,hl] at ha
  | some lg =>
    have ha : a ∈ lg.appenders := by simpa [appendersOf,hl] using ha
    have hne : lg.appenders ≠ [] := List.ne_nil_of_mem ha
    have hlog := log_eq hs ho hl hr 0 event.level event
    rw [if_neg fun he => hne he.1,target,if_pos hne] at hlog
    exact ⟨2,_,ap,_,hlog,List.mem_map_of_mem ha,hap,by rw [LogAppender.log,hf]; rfl⟩

end LoggerManager

namespace LogSystem
open Config LoggerManager
variable {changed : LogEvent} {renderTime}

instance : ∀ a : Act, Decidable a.ByConfig
  | .getLogger _ | .assign _ => inferInstanceAs (Decidable True)
  | .newAppender _ | .addAppender _ _ | .delAppender _ _ | .clearAppender _ => inferInstanceAs (Decidable False)

theorem asks_system (y : YamlCpp) :
    Asks y (current (assigned [.assign systemValue])) "system".toList .warn [.error,.unkonw] := by
  have h : Asks y systemValue _ _ _ := .value (List.mem_singleton.mpr rfl)
  exact h

end LogSystem
end Zcs.Log
