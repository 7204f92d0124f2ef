import Zcs.Log.Configured

/-! # Formatters remember

The listener sets a formatter when a define has a valid pattern and never takes it
back. A logger's formatter is therefore the last valid one that any value so far gave
to its name, and two histories with the same last value may end differently.
-/
namespace Zcs.Log

/-- The formatter that a define sets, if any. -/
def LogDefine.ownFormatter (d : LogDefine) : Option LogFormatter :=
  if d.formatter ≠ [] ∧ (LogFormatter.init d.formatter).isError = false then some (.init d.formatter)
  else none

def LogDefines.givenFormatter (v : LogDefines) (m : Text) : Option LogFormatter :=
  (v.find { name := m }).bind LogDefine.ownFormatter

/-- The last valid formatter that one of the values gives to the name. -/
def lastFormatter (m : Text) (vs : List LogDefines) : LogFormatter :=
  vs.foldl (fun f v => (v.givenFormatter m).getD f) defaultFormatter

theorem LogDefines.givenFormatter_of_mem {v : LogDefines} {d : LogDefine} (hd : d ∈ v) :
    v.givenFormatter d.name = d.ownFormatter := by
  have hf : v.find { name := d.name } = some d := LogDefines.find_eq_some_iff.mpr ⟨hd,rfl⟩
  rw [givenFormatter,hf,Option.bind_some]

theorem LogDefines.givenFormatter_of_not_names {v : LogDefines} {m : Text} (h : ¬ v.Names m) :
    v.givenFormatter m = none := by
  have hf : v.find { name := m } = none := LogDefines.find_eq_none_iff.mpr h
  rw [givenFormatter,hf,Option.bind_none]

theorem lastFormatter_append (m : Text) (vs : List LogDefines) (v : LogDefines) :
    lastFormatter m (vs ++ [v]) = (v.givenFormatter m).getD (lastFormatter m vs) := by
  simp [lastFormatter]

/-- A formatter that the current value gives is the last one. -/
theorem getD_lastFormatter {m : Text} {vs : List LogDefines} {v : LogDefines} (h : vs.getLast? = some v) :
    (v.givenFormatter m).getD (lastFormatter m vs) = lastFormatter m vs := by
  obtain ⟨us,rfl⟩ := List.getLast?_eq_some_iff.mp h
  rw [lastFormatter_append]
  cases v.givenFormatter m <;> rfl

theorem LoggerView.configure_formatter (i : LogDefine) (w : LoggerView) :
    (w.configure i).formatter = i.ownFormatter.getD w.formatter := by
  unfold LoggerView.configure LogDefine.ownFormatter LoggerManager.validOr
  by_cases he : i.formatter = []
  · simp [he]
  · cases (LogFormatter.init i.formatter).isError <;> simp [he]

namespace LogSystem
open LoggerManager
variable {changed : LogEvent}

/-- A logger that does not exist yet counts with the formatter of a new one. -/
def Remembers (vs : List LogDefines) (s : LoggerManager) : Prop :=
  ∀ m, ((s.configOf m).getD .created).formatter = lastFormatter m vs

theorem remembers_start : Remembers [] (start changed).manager := by
  intro m
  cases hm : (start changed).manager.configOf m with
  | none => rfl
  | some w =>
    obtain rfl := (follows_start changed).configured.untouched m w (by simp) hm
    unfold LoggerView.asCreated
    split_ifs <;> rfl

theorem Remembers.getLogger {vs : List LogDefines} {s : LoggerManager} (h : Remembers vs s)
    (hs : Intact s) (name : Text) : Remembers vs (s.getLogger name).1 := by
  intro m
  rw [← h m,configOf_getLogger hs]
  split_ifs <;> rfl

theorem Remembers.assigned {vs : List LogDefines} {s t : LogSystem} {v : LogDefines}
    (hf : Follows changed vs s) (h : Remembers vs s.manager) (hs : s.step (.assign v) = some t) :
    Remembers (vs ++ [v]) t.manager := by
  -- a define of the present value has been applied already
  have hkept : ∀ {d}, d ∈ s.var.val → d.ownFormatter.getD (lastFormatter d.name vs) =
      lastFormatter d.name vs := by
    intro d hd
    rw [hf.value] at hd
    cases hl : vs.getLast? with
    | none =>
      rw [current,List.getLastD_eq_getLast?,hl] at hd
      cases hd
    | some u =>
      rw [current,List.getLastD_eq_getLast?,hl] at hd
      rw [← LogDefines.givenFormatter_of_mem hd]
      exact getD_lastFormatter hl
  intro m
  rw [lastFormatter_append]
  rcases step_assign changed hf.listening hs with ⟨hv,rfl⟩ | ⟨_,_,rfl⟩
  · rw [h m]
    by_cases hm : v.Names m
    · obtain ⟨d,hd,rfl⟩ := hm
      rw [LogDefines.givenFormatter_of_mem hd,hkept (hv ▸ hd)]
    · rw [LogDefines.givenFormatter_of_not_names hm,Option.getD_none]
  · have ht := reconfigured_changeLoggers hf.intact v s.var.val
    by_cases hm : v.Names m
    · obtain ⟨d,hd,rfl⟩ := hm
      rw [LogDefines.givenFormatter_of_mem hd]
      by_cases ho : d ∈ s.var.val
      · rw [ht.kept d hd ho,h d.name,hkept ho]
      · rw [ht.configured d hd ho,Option.getD_some,LoggerView.configure_formatter,h d.name]
    · rw [LogDefines.givenFormatter_of_not_names hm,Option.getD_none,← h m]
      by_cases ho : s.var.val.Names m
      · obtain ⟨j,hj,rfl⟩ := ho
        rw [ht.disabled j hj hm]
        rfl
      · rw [ht.others m hm ho]

theorem remembers_of_run {acts : List Act} {s : LogSystem}
    (h : Runs step (fun _ a => a.ByConfig) (start changed) acts s) :
    Remembers (LogSystem.assigned acts) s.manager := by
  have hboth := byConfig_induction (P := fun vs s => Follows changed vs s ∧ Remembers vs s.manager)
    (fun name hr => ⟨hr.1.getLogger name,hr.2.getLogger hr.1.intact name⟩)
    (fun hr hs => ⟨hr.1.assigned hs,hr.2.assigned hr.1 hs⟩) h ⟨follows_start changed,remembers_start⟩
  exact hboth.2

/-- The patterns that a logger's appenders show when they have none of their own. -/
def inheritedPatterns (w : LoggerView) : List (Option Text) :=
  (w.appenders.filter fun a => !a.hasFormatter).map fun a => a.formatter.map LogFormatter.pattern

/-- The logger has the same pattern in both, and so have its appenders. -/
def SamePattern (s t : LoggerManager) (name : Text) : Prop :=
  ∃ v w, s.configOf name = some v ∧ t.configOf name = some w ∧
    v.formatter.pattern = w.formatter.pattern ∧ inheritedPatterns v = inheritedPatterns w

theorem inheritedPatterns_congr {as : List LogAppenderDefine} {v w : LoggerView}
    (hv : v.appenders = as.filterMap (expectedAppender v.formatter))
    (hw : w.appenders = as.filterMap (expectedAppender w.formatter))
    (h : v.formatter.pattern = w.formatter.pattern) : inheritedPatterns v = inheritedPatterns w := by
  rw [inheritedPatterns,inheritedPatterns,hv,hw]
  clear hv hw
  induction as with
  | nil => rfl
  | cons a as ih =>
    by_cases h1 : a.type = 1
    · by_cases ho : a.formatter ≠ [] ∧ (LogFormatter.init a.formatter).isError = false <;>
        simp [expectedAppender,h1,ho,h,ih]
    · by_cases h2 : a.type = 2
      · by_cases ho : a.formatter ≠ [] ∧ (LogFormatter.init a.formatter).isError = false <;>
          simp [expectedAppender,h2,ho,h,ih]
      · simp [expectedAppender,h1,h2,ih]

/-- What a run leaves of the loggers that its last value names. -/
theorem formatter_of_run {acts : List Act} {s : LogSystem}
    (h : Runs step (fun _ a => a.ByConfig) (start changed) acts s) {us : List LogDefines} {v : LogDefines}
    (hv : LogSystem.assigned acts = us ++ [v]) {d : LogDefine} (hd : d ∈ v) :
    ∃ w, s.manager.configOf d.name = some w ∧ w.appenders = d.appenders.filterMap (expectedAppender w.formatter) ∧
      w.formatter = d.ownFormatter.getD (lastFormatter d.name us) := by
  have hnamed := (follows_of_run h).configured.named d (by rwa [hv,current_append])
  obtain ⟨w,hw,_,has⟩ := hnamed
  have hr := remembers_of_run h d.name
  rw [hw,hv,lastFormatter_append,LogDefines.givenFormatter_of_mem hd] at hr
  exact ⟨w,hw,has,hr⟩

/-- Two histories with one last value give its loggers the same patterns exactly if
each has a valid formatter in that value or was last given the same before; and a
define without a formatter yields the default exactly if nothing else was given. -/
theorem samePattern_iff {acts acts' : List Act} {s s' : LogSystem}
    (h : Runs step (fun _ a => a.ByConfig) (start changed) acts s)
    (h' : Runs step (fun _ a => a.ByConfig) (start changed) acts' s') {us us' : List LogDefines}
    {v : LogDefines} (hv : LogSystem.assigned acts = us ++ [v]) (hv' : LogSystem.assigned acts' = us' ++ [v]) :
    ((∀ d ∈ v, SamePattern s.manager s'.manager d.name) ↔ ∀ d ∈ v, d.ownFormatter.isSome = true ∨
      (lastFormatter d.name us).pattern = (lastFormatter d.name us').pattern) ∧
    ((∀ d ∈ v, d.formatter = [] → ∃ w, s.manager.configOf d.name = some w ∧
        w.formatter.pattern = defaultPattern) ↔
      ∀ d ∈ v, d.formatter = [] → (lastFormatter d.name us).pattern = defaultPattern) := by
  constructor
  · refine forall₂_congr fun d hd => ?_
    obtain ⟨w,hw,has,hf⟩ := formatter_of_run h hv hd
    obtain ⟨w',hw',has',hf'⟩ := formatter_of_run h' hv' hd
    have hpat : w.formatter.pattern = w'.formatter.pattern ↔ d.ownFormatter.isSome = true ∨
        (lastFormatter d.name us).pattern = (lastFormatter d.name us').pattern := by
      rw [hf,hf']
      cases d.ownFormatter <;> simp
    rw [← hpat]
    constructor
    · rintro ⟨x,x',hx,hx',he,_⟩
      obtain rfl := Option.some.inj (hw.symm.trans hx)
      obtain rfl := Option.some.inj (hw'.symm.trans hx')
      exact he
    · intro he
      exact ⟨w,w',hw,hw',he,inheritedPatterns_congr has has' he⟩
  · refine forall₃_congr fun d hd he => ?_
    obtain ⟨w,hw,_,hf⟩ := formatter_of_run h hv hd
    have hnone : d.ownFormatter = none := by simp [LogDefine.ownFormatter,he]
    rw [hnone,Option.getD_none] at hf
    rw [← hf,hw]
    simp

def patternValue : LogDefines :=
  SortedSet.empty.insert { name := "system".toList, formatter := "%m".toList }

def plainValue : LogDefines := SortedSet.empty.insert { name := "system".toList }

theorem samePattern_system : ∃ s s' : LogSystem,
    Runs step (fun _ a => a.ByConfig) (start plainEvent) [.assign patternValue] s ∧
    Runs step (fun _ a => a.ByConfig) (start plainEvent) [.assign plainValue,.assign patternValue] s' ∧
    ∀ d ∈ patternValue, SamePattern s.manager s'.manager d.name := by
  have h : Runs step (fun _ a => a.ByConfig) (start plainEvent) [.assign patternValue] _ :=
    .single trivial rfl
  have h' : Runs step (fun _ a => a.ByConfig) (start plainEvent)
      [.assign plainValue,.assign patternValue] _ := .step trivial rfl (.single trivial rfl)
  have hv : LogSystem.assigned [.assign patternValue] = [] ++ [patternValue] := rfl
  have hv' : LogSystem.assigned [.assign plainValue,.assign patternValue] = [plainValue] ++ [patternValue] :=
    rfl
  refine ⟨_,_,h,h',(samePattern_iff h h' hv hv').1.mpr ?_⟩
  intro d hd
  obtain rfl := List.mem_singleton.mp hd
  exact .inl (by decide)

/-- A formatter survives the deletion of its logger. -/
theorem deleted_not_samePattern : ¬ ∀ (changed : LogEvent) (acts acts' : List Act) (s s' : LogSystem)
    (us us' : List LogDefines) (v : LogDefines),
    Runs step (fun _ a => a.ByConfig) (start changed) acts s →
    Runs step (fun _ a => a.ByConfig) (start changed) acts' s' →
    LogSystem.assigned acts = us ++ [v] → LogSystem.assigned acts' = us' ++ [v] →
    ∀ d ∈ v, SamePattern s.manager s'.manager d.name := by
  intro h
  have hrun : Runs step (fun _ a => a.ByConfig) (start plainEvent) [.assign plainValue] _ :=
    .single trivial rfl
  have hrun' : Runs step (fun _ a => a.ByConfig) (start plainEvent)
      [.assign patternValue,.assign .empty,.assign plainValue] _ :=
    .step trivial rfl (.step trivial rfl (.single trivial rfl))
  obtain ⟨v,w,hv,hw,he,_⟩ := h plainEvent _ _ _ _ [] [patternValue,.empty] plainValue hrun hrun' rfl rfl
    { name := "system".toList } List.mem_cons_self
  obtain rfl := Option.some.inj hv
  obtain rfl := Option.some.inj hw
  have hne : defaultPattern ≠ "%m".toList := by decide
  exact hne he

end LogSystem
end Zcs.Log
