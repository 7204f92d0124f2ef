import Mathlib.Data.List.Induction
import Mathlib.Data.List.Infix
import Mathlib.Tactic.FinCases
import Zcs.Log.Delivery
import Zcs.Log.LoggerView

/-! # The loggers follow the variable

The listener applies differences only. What a logger looks like after any number of
assignments is nevertheless a function of the current value, of whether an earlier
value named the logger, and of nothing else.
-/
namespace Zcs.Log

/-- What a define makes of a logger; an empty or invalid pattern leaves the
formatter. -/
def LoggerView.configure (i : LogDefine) (v : LoggerView) : LoggerView :=
  let f := if i.formatter = [] then v.formatter else LoggerManager.validOr i.formatter v.formatter
  ⟨i.level,f,i.appenders.filterMap (LoggerManager.expectedAppender f)⟩

def LoggerView.disable (v : LoggerView) : LoggerView := { v with level := .unkonw, appenders := [] }

/-- A logger as the manager creates it; the root logger has the standard output. -/
def LoggerView.asCreated (name : Text) : LoggerView :=
  if name = rootName then
    { created with appenders := [{ kind := .stdout, formatter := some defaultFormatter }] }
  else created

namespace LoggerManager

structure Intact (s : LoggerManager) : Prop where
  wired : Wired s
  owned : Owned s

theorem Changes.configOf {s t : LoggerManager} (hw : Wired s) {name : Text} {l : ℕ}
    (hn : s.names.find name = some l) {f : LoggerView → LoggerView} (h : Changes s t l f) (m : Text) :
    t.configOf m = if m = name then (s.configOf m).map f else s.configOf m := by
  unfold LoggerManager.configOf
  rw [h.shape.names]
  cases hm : s.names.find m with
  | none => simp
  | some k =>
    simp only [Option.bind_some,h.view]
    have hkl : k = l ↔ m = name := by
      constructor
      · rintro rfl
        exact hw.name_unique hm hn
      · rintro rfl
        exact Option.some.inj (hm.symm.trans hn)
    simp only [hkl]

theorem Intact.getLogger {s : LoggerManager} (hs : Intact s) (name : Text) :
    Intact (s.getLogger name).1 := by
  refine ⟨hs.wired.getLogger name,?_⟩
  unfold LoggerManager.getLogger
  cases hn : s.names.find name with
  | some l => exact hs.owned
  | none =>
    refine hs.owned.of_sub (fun {l lg a} hl ha => ?_) fun _ h => h
    rcases Heap.get_alloc_eq_some_iff.mp hl with ⟨_,rfl⟩ | hl
    · cases ha
    · exact ⟨lg,hl,ha⟩

theorem configOf_getLogger {s : LoggerManager} (hs : Intact s) (name m : Text) :
    (s.getLogger name).1.configOf m =
      if m = name then some ((s.configOf m).getD .created) else s.configOf m := by
  unfold LoggerManager.getLogger
  cases hn : s.names.find name with
  | some l =>
    obtain ⟨lg,hlg,_⟩ := hs.wired.named name l hn
    by_cases hm : m = name
    · simp [hm,configOf,hn,view,hlg]
    · simp [hm]
  | none =>
    by_cases hm : m = name
    · simp [hm,configOf,hn,SortedMap.find_assign,view,LoggerView.created,Logger.new]
    · simp only [configOf,SortedMap.find_assign,hm,↓reduceIte]
      cases hf : s.names.find m with
      | none => rfl
      | some k =>
        obtain ⟨lg,hlg,_⟩ := hs.wired.named m k hf
        simp [view,hlg,Heap.get_alloc_of_get hlg]

theorem configOf_of_changes {s t : LoggerManager} (hs : Intact s) {name : Text}
    {f : LoggerView → LoggerView} (h : Changes (s.getLogger name).1 t (s.getLogger name).2 f) :
    Intact t ∧ ∀ m, t.configOf m =
      if m = name then some (f ((s.configOf m).getD .created)) else s.configOf m := by
  have hg := hs.getLogger name
  refine ⟨⟨hg.wired.of_sameShape h.shape,h.owned⟩,fun m => ?_⟩
  rw [h.configOf hg.wired (by rw [find_getLogger,if_pos rfl]),configOf_getLogger hs]
  split_ifs <;> rfl

theorem configOf_applyDefine {s : LoggerManager} (hs : Intact s) (i : LogDefine) :
    Intact (s.applyDefine i) ∧ ∀ m, (s.applyDefine i).configOf m =
      if m = i.name then some (((s.configOf m).getD .created).configure i) else s.configOf m := by
  let g := s.getLogger i.name
  let s₁ := g.1.setLevel g.2 i.level
  let s₂ := if i.formatter.isEmpty then s₁ else s₁.setFormatterText g.2 i.formatter
  have h₁ : Changes g.1 s₁ g.2 _ := changes_setLevel (hs.getLogger i.name).owned g.2 i.level
  obtain ⟨f,h₂,hf⟩ : ∃ f, Changes s₁ s₂ g.2 f ∧ ∀ v, (f v).level = v.level ∧ (f v).formatter =
      if i.formatter = [] then v.formatter else validOr i.formatter v.formatter := by
    by_cases he : i.formatter = []
    · simp only [s₂,he,List.isEmpty_nil,↓reduceIte]
      exact ⟨id,.refl h₁.owned g.2,fun v => ⟨rfl,rfl⟩⟩
    · simp only [s₂,List.isEmpty_iff,he,↓reduceIte]
      exact changes_setFormatterText h₁.owned g.2 i.formatter
  have h₃ := changes_clearAppender h₂.owned g.2
  have h₄ := changes_addAllDefined h₃.owned g.2 i.appenders
  have h := configOf_of_changes hs (((h₁.trans h₂).trans h₃).trans h₄)
  refine ⟨h.1,fun m => ?_⟩
  have he := h.2 m
  simp only [Function.comp_apply,List.nil_append,hf] at he
  exact he

theorem configOf_delete {s : LoggerManager} (hs : Intact s) (newVal : LogDefines) (j : LogDefine) :
    Intact (s.delete newVal j) ∧ ∀ m, (s.delete newVal j).configOf m =
      if m = j.name then
        if newVal.find j = none then some ((s.configOf m).getD .created).disable else s.configOf m
      else s.configOf m := by
  unfold LoggerManager.delete
  cases hf : newVal.find j with
  | some i => simp [hs]
  | none =>
    have h := (changes_setLevel (hs.getLogger j.name).owned (s.getLogger j.name).2 .unkonw)
    have h' := h.trans (changes_clearAppender h.owned (s.getLogger j.name).2)
    simpa [LoggerView.disable] using configOf_of_changes hs h'

theorem configOf_addOrChange {s : LoggerManager} (hs : Intact s) (oldVal : LogDefines) (i : LogDefine) :
    Intact (s.addOrChange oldVal i) ∧ ∀ m, (s.addOrChange oldVal i).configOf m =
      if m = i.name then
        if oldVal.find i = some i then s.configOf m else some (((s.configOf m).getD .created).configure i)
      else s.configOf m := by
  unfold LoggerManager.addOrChange
  cases hf : oldVal.find i with
  | none => simpa using configOf_applyDefine hs i
  | some it =>
    by_cases hi : i = it
    · simp [hs,← hi]
    · simpa [hi,Ne.symm hi] using configOf_applyDefine hs i

theorem pairwise_name (v : LogDefines) : v.toList.Pairwise fun c d => c.name ≠ d.name :=
  v.sorted.imp fun h => ne_of_lt (by simpa using h)

/-- What the listener does to the logger of a name. -/
structure Reconfigured (s t : LoggerManager) (newVal oldVal : LogDefines) : Prop where
  intact : Intact t
  kept : ∀ i ∈ newVal, i ∈ oldVal → t.configOf i.name = s.configOf i.name
  configured : ∀ i ∈ newVal, i ∉ oldVal →
    t.configOf i.name = some (((s.configOf i.name).getD .created).configure i)
  disabled : ∀ j ∈ oldVal, ¬ newVal.Names j.name →
    t.configOf j.name = some ((s.configOf j.name).getD .created).disable
  others : ∀ m, ¬ newVal.Names m → ¬ oldVal.Names m → t.configOf m = s.configOf m

theorem Reconfigured.refl {s : LoggerManager} (hs : Intact s) (v : LogDefines) : Reconfigured s s v v where
  intact := hs
  kept _ _ _ := rfl
  configured _ hi ho := absurd hi ho
  disabled j hj hn := absurd ⟨j,hj,rfl⟩ hn
  others _ _ _ := rfl

theorem reconfigured_changeLoggers {s : LoggerManager} (hs : Intact s) (newVal oldVal : LogDefines) :
    Reconfigured s (s.changeLoggers newVal oldVal) newVal oldVal := by
  obtain ⟨hi₁,hin₁,hout₁⟩ := foldl_keyed Intact configOf (addOrChange oldVal) LogDefine.name
    (fun i v => if oldVal.find i = some i then v else some ((v.getD .created).configure i))
    (fun h i => configOf_addOrChange h oldVal i) (pairwise_name newVal) hs
  obtain ⟨hi₂,hin₂,hout₂⟩ := foldl_keyed Intact configOf (LoggerManager.delete newVal) LogDefine.name
    (fun j v => if newVal.find j = none then some (v.getD .created).disable else v)
    (fun h j => configOf_delete h newVal j) (pairwise_name oldVal) hi₁
  -- the second loop leaves the names of the new value alone
  have hnew : ∀ i ∈ newVal, (s.changeLoggers newVal oldVal).configOf i.name =
      (newVal.toList.foldl (addOrChange oldVal) s).configOf i.name := by
    intro i hi
    by_cases ho : oldVal.Names i.name
    · obtain ⟨j,hj,hji⟩ := ho
      have hf : newVal.find j ≠ none := fun h => LogDefines.find_eq_none_iff.mp h ⟨i,hi,hji.symm⟩
      rw [← hji]
      exact (hin₂ j hj).trans (if_neg hf)
    · exact hout₂ _ fun j hj he => ho ⟨j,hj,he⟩
  have hold : ∀ m, ¬ newVal.Names m →
      (newVal.toList.foldl (addOrChange oldVal) s).configOf m = s.configOf m :=
    fun m hm => hout₁ m fun i hi he => hm ⟨i,hi,he⟩
  constructor
  · exact hi₂
  · intro i hi ho
    rw [hnew i hi,hin₁ i hi,if_pos (LogDefines.find_eq_some_iff.mpr ⟨ho,rfl⟩)]
  · intro i hi ho
    rw [hnew i hi,hin₁ i hi,if_neg fun h => ho (LogDefines.find_eq_some_iff.mp h).1]
  · intro j hj hn
    refine (hin₂ j hj).trans ?_
    rw [if_pos (LogDefines.find_eq_none_iff.mpr hn),hold _ hn]
  · intro m hn ho
    exact (hout₂ m fun j hj he => ho ⟨j,hj,he⟩).trans (hold m hn)

end LoggerManager

namespace LogSystem
open Config LoggerManager
variable (changed : LogEvent)

/-- Actions of a program that touches loggers through the configuration only. -/
def Act.ByConfig : Act → Prop
  | .getLogger _ | .assign _ => True
  | _ => False

def assigned (acts : List Act) : List LogDefines :=
  acts.filterMap fun
    | .assign v => some v
    | _ => none

def current (vs : List LogDefines) : LogDefines := vs.getLastD .empty

/-- The loggers are what the assignments `vs` say, the last of them above all. -/
structure Configured (vs : List LogDefines) (s : LoggerManager) : Prop where
  named : ∀ d ∈ current vs, ∃ v, s.configOf d.name = some v ∧ v.level = d.level ∧
    v.appenders = d.appenders.filterMap (expectedAppender v.formatter)
  dropped : ∀ u ∈ vs, ∀ m, u.Names m → ¬ (current vs).Names m →
    ∃ v, s.configOf m = some v ∧ v.level = .unkonw ∧ v.appenders = []
  untouched : ∀ m v, (∀ u ∈ vs, ¬ u.Names m) → s.configOf m = some v → v = .asCreated m

/-- What holds of the system after the assignments `vs`. -/
structure Follows (vs : List LogDefines) (s : LogSystem) : Prop where
  listening : Listening changed s
  intact : s.manager.Intact
  value : s.var.val = current vs
  configured : Configured vs s.manager

def RootServed (s : LogSystem) : Prop := s.manager.appendersOf s.manager.root ≠ []

theorem follows_start : Follows changed [] (start changed) := by
  have hfind : ∀ name l, LoggerManager.new.names.find name = some l → name = rootName ∧ l = 0 := by
    intro name l h
    rw [LoggerManager.new,SortedMap.find_assign] at h
    split_ifs at h with hn
    · exact ⟨hn,(Option.some.inj h).symm⟩
    · cases h
  refine ⟨⟨rfl⟩,⟨wired_new,owned_new⟩,rfl,?_⟩
  · constructor
    · intro d hd
      cases hd
    · simp
    · intro m v _ hv
      obtain ⟨l,hl,hv⟩ := Option.bind_eq_some_iff.mp hv
      obtain ⟨rfl,rfl⟩ := hfind m l hl
      exact (Option.some.inj hv).symm

variable {changed}

theorem current_append (vs : List LogDefines) (v : LogDefines) : current (vs ++ [v]) = v := by
  simp [current]

theorem Follows.getLogger {vs : List LogDefines} {s : LogSystem} (h : Follows changed vs s) (name : Text) :
    Follows changed vs (s.setManager (s.manager.getLogger name).1) := by
  have hconf := configOf_getLogger h.intact name
  -- a logger that was there has not changed
  have hsome : ∀ {m v}, s.manager.configOf m = some v →
      (s.manager.getLogger name).1.configOf m = some v := by
    intro m v hv
    rw [hconf,hv]
    simp
  refine ⟨⟨h.listening.cbs⟩,h.intact.getLogger name,h.value,?_⟩
  constructor
  · intro d hd
    obtain ⟨v,hv,hl,ha⟩ := h.configured.named d hd
    exact ⟨v,hsome hv,hl,ha⟩
  · intro u hu m hm hn
    obtain ⟨v,hv,hl,ha⟩ := h.configured.dropped u hu m hm hn
    exact ⟨v,hsome hv,hl,ha⟩
  · intro m v hm hv
    cases ho : s.manager.configOf m with
    | some w =>
      obtain rfl := Option.some.inj ((hsome ho).symm.trans hv)
      exact h.configured.untouched m w hm ho
    | none =>
      have hroot : m ≠ rootName := by
        rintro rfl
        obtain ⟨r,hr,_⟩ := h.intact.wired.rootLogger
        simp [configOf,h.intact.wired.rootNamed,view,hr] at ho
      have hv : (s.manager.getLogger name).1.configOf m = some v := hv
      rw [hconf,ho] at hv
      split_ifs at hv
      simpa [LoggerView.asCreated,hroot] using hv.symm

theorem Follows.reconfigured {vs : List LogDefines} {s : LogSystem} (h : Follows changed vs s)
    (v : LogDefines) {t : LoggerManager} (ht : Reconfigured s.manager t v s.var.val) :
    Configured (vs ++ [v]) t := by
  have hcur : current vs = s.var.val := h.value.symm
  constructor
  · rw [current_append]
    intro d hd
    by_cases ho : d ∈ s.var.val
    · rw [ht.kept d hd ho]
      exact h.configured.named d (hcur ▸ ho)
    · exact ⟨_,ht.configured d hd ho,rfl,rfl⟩
  · rw [current_append]
    intro u hu m hm hn
    by_cases ho : s.var.val.Names m
    · obtain ⟨j,hj,rfl⟩ := ho
      exact ⟨_,ht.disabled j hj hn,rfl,rfl⟩
    · rw [ht.others m hn ho]
      rcases List.mem_append.mp hu with hu | hu
      · exact h.configured.dropped u hu m hm (hcur ▸ ho)
      · obtain rfl := List.mem_singleton.mp hu
        exact absurd hm hn
  · intro m w hm hw
    have hn : ¬ v.Names m := hm v (by simp)
    have ho : ¬ s.var.val.Names m := by
      rw [← hcur]
      cases hl : vs.getLast? with
      | none =>
        obtain rfl := List.getLast?_eq_none_iff.mp hl
        rintro ⟨d,hd,_⟩
        cases hd
      | some u =>
        have hu : current vs = u := by simp [current,List.getLastD_eq_getLast?,hl]
        rw [hu]
        exact hm u (List.mem_append_left _ (List.mem_of_getLast? hl))
    rw [ht.others m hn ho] at hw
    exact h.configured.untouched m w (fun u hu => hm u (List.mem_append_left _ hu)) hw

theorem Follows.assigned {vs : List LogDefines} {s t : LogSystem} (h : Follows changed vs s)
    {v : LogDefines} (hs : s.step (.assign v) = some t) : Follows changed (vs ++ [v]) t := by
  rcases step_assign changed h.listening hs with ⟨hv,rfl⟩ | ⟨_,_,rfl⟩
  · -- nothing happens, and `v` was the current value already
    refine ⟨h.listening,h.intact,?_,h.reconfigured v ?_⟩
    · rw [current_append,hv]
    · rw [hv]
      exact .refl h.intact v
  · have ht := reconfigured_changeLoggers h.intact v s.var.val
    exact ⟨⟨h.listening.cbs⟩,ht.intact,(current_append vs v).symm,h.reconfigured v ht⟩

theorem Follows.assign {vs : List LogDefines} {s : LogSystem} (h : Follows changed vs s)
    (hr : RootServed s) (v : LogDefines) :
    ∃ t, s.step (.assign v) = some t ∧ Follows changed (vs ++ [v]) t := by
  have hcbs : s.var.cbs.entries = [(1,logIniter changed)] := by rw [h.listening.cbs]; rfl
  obtain ⟨r,hget,_⟩ := h.intact.wired.rootLogger
  have hlog := log_eq h.intact.wired (.inl rfl) hget hget 0 .info changed
  have hne : r.appenders ≠ [] := by simpa [RootServed,appendersOf,hget] using hr
  rw [if_neg fun he => hne he.1] at hlog
  have hstep : ∃ t, s.step (.assign v) = some t := by
    by_cases hv : s.var.val = v
    · exact ⟨s,by simp [step,ConfigVar.setValue,hv]⟩
    · have hb : (s.var.val == v) = false := by simpa using hv
      simp [step,ConfigVar.setValue,hcbs,ConfigVar.runCallbacks_singleton,logIniter,hb,hlog]
  obtain ⟨t,ht⟩ := hstep
  exact ⟨t,ht,h.assigned ht⟩

theorem assigned_append (acts : List Act) (a : Act) :
    assigned (acts ++ [a]) = assigned acts ++ assigned [a] := List.filterMap_append

/-- The induction along a run that touches loggers through the configuration only. -/
theorem byConfig_induction {P : List LogDefines → LogSystem → Prop}
    (hget : ∀ {vs s} name, P vs s → P vs (s.setManager (s.manager.getLogger name).1))
    (hassign : ∀ {vs s t v}, P vs s → s.step (.assign v) = some t → P (vs ++ [v]) t)
    {r s : LogSystem} {acts : List Act} (h : Runs step (fun _ a => a.ByConfig) r acts s)
    {vs : List LogDefines} (hr : P vs r) : P (vs ++ assigned acts) s := by
  induction h generalizing vs with
  | refl => simpa [assigned] using hr
  | @step r t s a acts ha hs _ ih =>
    cases a with
    | getLogger name =>
      obtain rfl := Option.some.inj hs
      simpa [assigned] using ih (hget name hr)
    | assign v => simpa [assigned] using ih (hassign hr hs)
    | newAppender _ => cases ha
    | addAppender _ _ => cases ha
    | delAppender _ _ => cases ha
    | clearAppender _ => cases ha

theorem follows_of_run {acts : List Act} {s : LogSystem}
    (h : Runs step (fun _ a => a.ByConfig) (start changed) acts s) : Follows changed (assigned acts) s :=
  byConfig_induction (fun name hr => hr.getLogger name) (fun hr hs => hr.assigned hs) h
    (follows_start changed)

variable (changed) in
/-- The loggers follow every sequence of assignments that leaves the root logger an
appender at each step, with any calls of `GetLogger` in between. -/
theorem configured_of_assigned (acts : List Act) (hc : ∀ a ∈ acts, a.ByConfig)
    (hr : ∀ pre s, pre <+: acts → Runs step (fun _ _ => True) (start changed) pre s → RootServed s) :
    ∃ s, Runs step (fun _ _ => True) (start changed) acts s ∧ s.manager.Intact ∧
      s.var.val = current (assigned acts) ∧ Configured (assigned acts) s.manager := by
  suffices h : ∃ s, Runs step (fun _ _ => True) (start changed) acts s ∧
      Follows changed (assigned acts) s by
    obtain ⟨s,hrun,hs⟩ := h
    exact ⟨s,hrun,hs.intact,hs.value,hs.configured⟩
  induction acts using List.reverseRecOn with
  | nil => exact ⟨_,.refl _,follows_start changed⟩
  | append_singleton acts a ih =>
    obtain ⟨s,hrun,hs⟩ := ih (fun b hb => hc b (List.mem_append_left _ hb)) fun pre t hp =>
      hr pre t (hp.trans (List.prefix_append acts [a]))
    have hserved : RootServed s := hr acts s (List.prefix_append acts [a]) hrun
    have ha : a.ByConfig := hc a (by simp)
    rw [assigned_append]
    cases a with
    | getLogger name =>
      refine ⟨_,hrun.trans (.single trivial rfl),?_⟩
      simpa [assigned] using hs.getLogger name
    | assign v =>
      obtain ⟨t,ht,hf⟩ := hs.assign hserved v
      exact ⟨t,hrun.trans (.single trivial ht),hf⟩
    | newAppender _ => cases ha
    | addAppender _ _ => cases ha
    | delAppender _ _ => cases ha
    | clearAppender _ => cases ha

def systemValue : LogDefines :=
  SortedSet.empty.insert
    { name := "system".toList, level := .warn, appenders :=
        [{ type := 2, level := .error, formatter := "%m".toList },{ type := 7 },
          { type := 1, file := "system.txt".toList }] }

/-- The logger is configured, and switched off when the next value is empty. -/
theorem configured_system : ∃ s,
    Runs step (fun _ _ => True) (start plainEvent) [.assign systemValue,.assign .empty] s ∧
      s.manager.Intact ∧ s.var.val = current [systemValue,.empty] ∧
      Configured [systemValue,.empty] s.manager := by
  refine configured_of_assigned plainEvent [.assign systemValue,.assign .empty] ?_ ?_
  · intro a ha
    fin_cases ha <;> trivial
  · intro pre s hp hs
    have hserved : ∀ pre ∈ [Act.assign systemValue,.assign .empty].inits,
        (Runs.exec step (fun _ _ => True) (start plainEvent) pre).all
          (fun s => decide (s.manager.appendersOf s.manager.root ≠ [])) = true := by decide
    have h := hserved pre ((List.mem_inits _ _).mpr hp)
    rw [hs.exec_eq] at h
    simpa [RootServed] using h

end LogSystem
end Zcs.Log
