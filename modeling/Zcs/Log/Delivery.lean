import Zcs.Log.Initer

/-! # Where an event goes

Every reachable manager is wired, so a call of `Log` ends after at most one step
to the root logger. Whether it ends well depends on the root logger's own list.
-/
namespace Zcs.Log
namespace LoggerManager

theorem sameShape_addDefined (l : ℕ) (s : LoggerManager) (a : LogAppenderDefine) :
    SameShape s (addDefined l s a) := by
  unfold addDefined
  split
  · exact .refl s
  · exact (sameShape_newAppender s _).trans (sameShape_addAppender _ l _)

theorem Wired.applyDefine {s : LoggerManager} (hs : Wired s) (i : LogDefine) : Wired (s.applyDefine i) := by
  let g := s.getLogger i.name
  let s₁ := g.1.setLevel g.2 i.level
  let s₂ := if i.formatter.isEmpty then s₁ else s₁.setFormatterText g.2 i.formatter
  have h₁ : SameShape g.1 s₁ := sameShape_setLevel g.1 g.2 i.level
  have h₂ : SameShape s₁ s₂ := by
    dsimp only [s₂]
    split
    · exact .refl s₁
    · exact sameShape_setFormatterText s₁ g.2 i.formatter
  have h₃ : SameShape s₂ (s₂.clearAppender g.2) := sameShape_clearAppender s₂ g.2
  have h₄ : SameShape (s₂.clearAppender g.2) (s.applyDefine i) :=
    SameShape.foldl (sameShape_addDefined g.2) i.appenders _
  exact (hs.getLogger i.name).of_sameShape (((h₁.trans h₂).trans h₃).trans h₄)

theorem Wired.addOrChange {s : LoggerManager} (hs : Wired s) (oldVal : LogDefines) (i : LogDefine) :
    Wired (s.addOrChange oldVal i) := by
  unfold LoggerManager.addOrChange
  split
  · exact hs.applyDefine i
  · split_ifs
    · exact hs
    · exact hs.applyDefine i

theorem Wired.delete {s : LoggerManager} (hs : Wired s) (newVal : LogDefines) (j : LogDefine) :
    Wired (s.delete newVal j) := by
  unfold LoggerManager.delete
  split
  · exact hs
  · exact (hs.getLogger j.name).of_sameShape
      ((sameShape_setLevel _ _ _).trans (sameShape_clearAppender _ _))

theorem Wired.foldl {α : Type*} {f : LoggerManager → α → LoggerManager}
    (hf : ∀ {s}, Wired s → ∀ a, Wired (f s a)) (as : List α) {s : LoggerManager} (hs : Wired s) :
    Wired (as.foldl f s) := by
  induction as generalizing s with
  | nil => exact hs
  | cons a as ih => exact ih (hf hs a)

theorem Wired.changeLoggers {s : LoggerManager} (hs : Wired s) (newVal oldVal : LogDefines) :
    Wired (s.changeLoggers newVal oldVal) :=
  Wired.foldl (fun h j => h.delete newVal j) oldVal.toList
    (Wired.foldl (fun h i => h.addOrChange oldVal i) newVal.toList hs)

/-- The appender list that an event for the logger goes through, with the logger
that is passed along. -/
def target (s : LoggerManager) (l : ℕ) (lg r : Logger) : ℕ × List ℕ :=
  if lg.appenders ≠ [] then (l,lg.appenders) else (s.root,r.appenders)

/-- `Log` ends and hands the event once to each entry of the logger's own list,
or of the root logger's list when the own one is empty. -/
def Delivers (s : LoggerManager) (l : ℕ) (level : LogLevel) (event : LogEvent) : Prop :=
  ∃ lg r, s.loggers.get l = some lg ∧ s.loggers.get s.root = some r ∧
    ∃ fuel, s.log fuel l level event =
      some (.delivered ((s.target l lg r).2.map fun a => ⟨a,(s.target l lg r).1,level,event⟩))

theorem log_eq {s : LoggerManager} (hs : Wired s) {l : ℕ} {lg r : Logger} (ho : Obtained s l)
    (hl : s.loggers.get l = some lg) (hr : s.loggers.get s.root = some r) (fuel : ℕ)
    (level : LogLevel) (event : LogEvent) :
    s.log (fuel + 2) l level event =
      if lg.appenders = [] ∧ r.appenders = [] then some .nullDeref
      else some (.delivered ((s.target l lg r).2.map fun a => ⟨a,(s.target l lg r).1,level,event⟩)) := by
  have hroot : r.root = none := by
    obtain ⟨r',hr',hn,_⟩ := hs.rootLogger
    obtain rfl := Option.some.inj (hr.symm.trans hr')
    exact hn
  -- the root logger itself never makes a second call
  have hlogr : ∀ fuel, s.log (fuel + 1) s.root level event =
      if r.appenders = [] then some .nullDeref
      else some (.delivered (r.appenders.map fun a => ⟨a,s.root,level,event⟩)) := by
    intro fuel
    by_cases he : r.appenders = []
    · simp [log,hr,he,hroot]
    · simp [log,hr,he]
  by_cases hroots : l = s.root
  · subst hroots
    obtain rfl := Option.some.inj (hl.symm.trans hr)
    rw [hlogr]
    by_cases he : lg.appenders = [] <;> simp [target,he]
  · have hlroot : lg.root = some s.root := by
      rcases ho with h | ⟨name,hn⟩
      · exact absurd h hroots
      · obtain ⟨lg',hl',_,h⟩ := hs.named name l hn
        obtain rfl := Option.some.inj (hl.symm.trans hl')
        exact h hroots
    by_cases he : lg.appenders = []
    · rw [log]
      simp only [hl,he,List.isEmpty_nil,Bool.not_true,Bool.false_eq_true,↓reduceIte,hlroot,hlogr,
        true_and]
      by_cases hre : r.appenders = [] <;> simp [target,he,hre]
    · simp [log,hl,he,target]

theorem log_mono {fuel : ℕ} {s : LoggerManager} {l : ℕ} {level : LogLevel} {event : LogEvent}
    {r : LogResult} (h : s.log fuel l level event = some r) : s.log (fuel + 1) l level event = some r := by
  induction fuel generalizing l with
  | zero => cases h
  | succ fuel ih =>
    rw [log] at h ⊢
    cases hl : s.loggers.get l with
    | none => simpa only [hl] using h
    | some lg =>
      simp only [hl] at h ⊢
      split_ifs at h ⊢
      · exact h
      · cases hr : lg.root with
        | none => simpa only [hr] using h
        | some root => exact ih (by simpa only [hr] using h)

/-- In a wired manager an event is delivered exactly if one of the two lists is
not empty; otherwise the null `root_` of the root logger is dereferenced. -/
theorem delivers_iff {s : LoggerManager} (hs : Wired s) {l : ℕ} {lg r : Logger} (ho : Obtained s l)
    (hl : s.loggers.get l = some lg) (hr : s.loggers.get s.root = some r)
    (level : LogLevel) (event : LogEvent) :
    Delivers s l level event ↔ lg.appenders ≠ [] ∨ r.appenders ≠ [] := by
  constructor
  · rintro ⟨_,_,_,_,fuel,h⟩
    have h2 := log_mono (log_mono h)
    rw [log_eq hs ho hl hr] at h2
    split_ifs at h2 with he
    · cases h2
    · tauto
  · intro h
    refine ⟨lg,r,hl,hr,2,?_⟩
    rw [log_eq hs ho hl hr 0,if_neg]
    tauto

def appendersOf (s : LoggerManager) (l : ℕ) : List ℕ := ((s.loggers.get l).map Logger.appenders).getD []

end LoggerManager

namespace LogSystem
variable (changed : LogEvent)

theorem wired_step {s t : LogSystem} {a : Act} (hl : Listening changed s) (hw : s.manager.Wired)
    (h : s.step a = some t) : t.manager.Wired := by
  obtain ⟨v,rfl⟩ | ⟨m,rfl,⟨name,rfl⟩ | hm⟩ := step_cases h
  · obtain ⟨_,rfl⟩ | ⟨_,_,rfl⟩ := step_assign changed hl h
    · exact hw
    · exact hw.changeLoggers v s.var.val
  · exact hw.getLogger name
  · exact hw.of_sameShape hm

theorem wired_of_run {ok : LogSystem → Act → Prop} {acts : List Act} {s : LogSystem}
    (h : Runs step ok (start changed) acts s) : s.manager.Wired := by
  have hinv := h.invariant (P := fun s => Listening changed s ∧ s.manager.Wired) ?_
    ⟨listening_start changed,LoggerManager.wired_new⟩
  · exact hinv.2
  · rintro s t a ⟨hl,hw⟩ _ hs
    exact ⟨listening_step changed hl hs,wired_step changed hl hw hs⟩

open LoggerManager in
/-- In every reachable state, and for every logger that can be obtained, `Log`
delivers the event as it should exactly if the logger or the root logger has an
appender. -/
theorem delivers_iff_appenders {acts : List Act} {s : LogSystem}
    (h : Runs step (fun _ _ => True) (start changed) acts s) {l : ℕ} (ho : s.manager.Obtained l)
    (level : LogLevel) (event : LogEvent) :
    s.manager.Delivers l level event ↔
      s.manager.appendersOf l ≠ [] ∨ s.manager.appendersOf s.manager.root ≠ [] := by
  have hw := wired_of_run changed h
  obtain ⟨r,hr,_⟩ := hw.rootLogger
  obtain ⟨lg,hl⟩ : ∃ lg, s.manager.loggers.get l = some lg := by
    rcases ho with rfl | ⟨name,hn⟩
    · exact ⟨r,hr⟩
    · obtain ⟨lg,hl,_⟩ := hw.named name l hn
      exact ⟨lg,hl⟩
  have hd := LoggerManager.delivers_iff hw ho hl hr level event
  simpa [appendersOf,hl,hr] using hd

def plainEvent : LogEvent := ⟨[],0,0,0,0,0,[],rootName,.info,[]⟩

theorem delivers_system : ∃ s : LogSystem,
    Runs step (fun _ _ => True) (start plainEvent) [.getLogger "system".toList] s ∧
    s.manager.appendersOf 1 = [] ∧ s.manager.Delivers 1 .info plainEvent := by
  have hrun := Runs.of_exec step (fun _ _ => True) (start plainEvent) [.getLogger "system".toList]
    (by decide)
  refine ⟨_,hrun,by decide,?_⟩
  exact (delivers_iff_appenders plainEvent hrun (.inr ⟨"system".toList,by decide⟩) _ _).mpr
    (.inr (by decide))

/-- With its only appender gone the root logger dereferences its own null `root_`. -/
theorem cleared_root_not_delivers : ¬ ∀ (changed : LogEvent) (acts : List Act) (s : LogSystem) (l : ℕ)
    (level : LogLevel) (event : LogEvent), Runs step (fun _ _ => True) (start changed) acts s →
      s.manager.Obtained l → s.manager.Delivers l level event := by
  intro h
  have hrun := Runs.of_exec step (fun _ _ => True) (start plainEvent) [.clearAppender 0] (by decide)
  obtain ⟨_,_,_,_,fuel,hlog⟩ := h _ _ _ 0 .info plainEvent hrun (.inl rfl)
  have h1 := LoggerManager.log_mono hlog
  cases h1

end LogSystem
end Zcs.Log
