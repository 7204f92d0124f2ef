import Zcs.Log.Configured

/-! # Events logged while the loggers are changed

The listener changes a logger by several calls, each of which holds the logger's
mutex for itself. Other threads log to that logger in between. An event is misrouted
exactly between `ClearAppender` and the last `AddAppender`.
-/
namespace Zcs.Log
open LoggerManager

/-- The calls that the listener makes. `logger` below is its local variable, which
`getLogger` sets and the others go through. -/
inductive Call where
  | announce
  | getLogger (name : Text)
  | setLevel (level : LogLevel)
  | setFormatter (format : Text)
  | clearAppender
  | addAppender (a : LogAppenderDefine)
  deriving DecidableEq

structure Frame where
  manager : LoggerManager
  logger : Option ℕ

variable (changed : LogEvent)

/-- One call; `none` for a null pointer. -/
def Frame.exec (s : Frame) : Call → Option Frame
  | .announce =>
    match s.manager.log 2 s.manager.root .info changed with
    | some (.delivered _) => some s
    | _ => none
  | .getLogger name =>
    let g := s.manager.getLogger name
    some ⟨g.1,some g.2⟩
  | .setLevel level => s.logger.map fun l => { s with manager := s.manager.setLevel l level }
  | .setFormatter format => s.logger.map fun l => { s with manager := s.manager.setFormatterText l format }
  | .clearAppender => s.logger.map fun l => { s with manager := s.manager.clearAppender l }
  | .addAppender a => s.logger.map fun l => { s with manager := addDefined l s.manager a }

namespace Call

def apply (i : LogDefine) : List Call :=
  .getLogger i.name :: .setLevel i.level ::
    ((if i.formatter.isEmpty then [] else [.setFormatter i.formatter]) ++
      .clearAppender :: i.appenders.map .addAppender)

def addOrChange (oldVal : LogDefines) (i : LogDefine) : List Call :=
  match oldVal.find i with
  | none => apply i
  | some it => if ¬ i = it then apply i else []

def delete (newVal : LogDefines) (j : LogDefine) : List Call :=
  match newVal.find j with
  | some _ => []
  | none => [.getLogger j.name,.setLevel .unkonw,.clearAppender]

def loops (newVal oldVal : LogDefines) : List Call :=
  newVal.toList.flatMap (addOrChange oldVal) ++ oldVal.toList.flatMap (delete newVal)

/-- All calls of one run of the listener. -/
def script (newVal oldVal : LogDefines) : List Call := .announce :: loops newVal oldVal

end Call

theorem exec_addDefined (s : LoggerManager) (l : ℕ) (as : List LogAppenderDefine) :
    (as.map Call.addAppender).foldlM (Frame.exec changed) ⟨s,some l⟩ =
      some ⟨as.foldl (addDefined l) s,some l⟩ := by
  induction as generalizing s with
  | nil => rfl
  | cons a as ih => simpa [Frame.exec] using ih (addDefined l s a)

/-- The calls for one define, one after the other, are the loop body. -/
theorem exec_apply (s : Frame) (i : LogDefine) : ∃ l, (Call.apply i).foldlM (Frame.exec changed) s =
    some ⟨s.manager.applyDefine i,some l⟩ := by
  refine ⟨(s.manager.getLogger i.name).2,?_⟩
  have hadd := exec_addDefined changed
  unfold Call.apply applyDefine
  by_cases he : i.formatter.isEmpty <;> simp [Frame.exec,he,hadd]

theorem exec_addOrChange (oldVal : LogDefines) (s : Frame) (i : LogDefine) : ∃ p,
    (Call.addOrChange oldVal i).foldlM (Frame.exec changed) s =
      some ⟨s.manager.addOrChange oldVal i,p⟩ := by
  obtain ⟨l,hl⟩ := exec_apply changed s i
  cases hf : oldVal.find i with
  | none => exact ⟨some l,by simpa only [Call.addOrChange,LoggerManager.addOrChange,hf] using hl⟩
  | some it =>
    simp only [Call.addOrChange,LoggerManager.addOrChange,hf]
    by_cases hi : i = it
    · exact ⟨s.logger,by simp [hi]⟩
    · exact ⟨some l,by simpa only [hi,not_false_eq_true,↓reduceIte] using hl⟩

theorem exec_delete (newVal : LogDefines) (s : Frame) (j : LogDefine) : ∃ p,
    (Call.delete newVal j).foldlM (Frame.exec changed) s = some ⟨s.manager.delete newVal j,p⟩ := by
  cases hf : newVal.find j with
  | some i => exact ⟨s.logger,by simp [Call.delete,LoggerManager.delete,hf]⟩
  | none =>
    exact ⟨some (s.manager.getLogger j.name).2,
      by simp [Call.delete,LoggerManager.delete,hf,Frame.exec]⟩

theorem exec_flatMap {α : Type*} {f : LoggerManager → α → LoggerManager} {calls : α → List Call}
    (hf : ∀ (s : Frame) a, ∃ p, (calls a).foldlM (Frame.exec changed) s = some ⟨f s.manager a,p⟩)
    (as : List α) (s : Frame) : ∃ p,
      (as.flatMap calls).foldlM (Frame.exec changed) s = some ⟨as.foldl f s.manager,p⟩ := by
  induction as generalizing s with
  | nil => exact ⟨s.logger,rfl⟩
  | cons a as ih =>
    obtain ⟨p,hp⟩ := hf s a
    obtain ⟨q,hq⟩ := ih ⟨f s.manager a,p⟩
    exact ⟨q,by simp [List.foldlM_append,hp,hq]⟩

theorem exec_loops (newVal oldVal : LogDefines) (s : LoggerManager) : ∃ p,
    (Call.loops newVal oldVal).foldlM (Frame.exec changed) ⟨s,none⟩ =
      some ⟨s.changeLoggers newVal oldVal,p⟩ := by
  obtain ⟨p,hp⟩ := exec_flatMap changed (exec_addOrChange changed oldVal) newVal.toList ⟨s,none⟩
  obtain ⟨q,hq⟩ := exec_flatMap changed (exec_delete changed newVal) oldVal.toList
    ⟨newVal.toList.foldl (LoggerManager.addOrChange oldVal) s,p⟩
  exact ⟨q,by simp [Call.loops,List.foldlM_append,hp,hq,changeLoggers]⟩

/-- The listener is its calls, one after the other. -/
theorem logIniter_eq_script (newVal oldVal : LogDefines) (s : LoggerManager) :
    logIniter changed newVal oldVal s =
      match (Call.script newVal oldVal).foldlM (Frame.exec changed) ⟨s,none⟩ with
      | some t => .returned t.manager
      | none => .crashed := by
  obtain ⟨p,hp⟩ := exec_loops changed newVal oldVal s
  simp only [Call.script,List.foldlM_cons,Frame.exec,logIniter]
  cases hlog : s.log 2 s.root .info changed with
  | none => rfl
  | some r =>
    cases r with
    | nullDeref => rfl
    | delivered ds => simp [hp]

structure Routed where
  level : LogLevel
  event : LogEvent
  result : LogResult
  deriving DecidableEq

/-- The listener with its remaining calls, and what became of the events that other
threads have logged to one logger. -/
structure Reload where
  frame : Frame
  script : List Call
  results : List Routed

namespace Reload

def start (s : LoggerManager) (newVal oldVal : LogDefines) : Reload :=
  ⟨⟨s,none⟩,Call.script newVal oldVal,[]⟩

inductive Act where
  | listener
  | log (level : LogLevel) (event : LogEvent)

/-- Another thread's `Log` on `l` holds the logger's mutex from its look at the list
to the last appender, so it is one step. -/
def step (l : ℕ) (s : Reload) : Act → Option Reload
  | .listener =>
    match s.script with
    | [] => none
    | c :: cs => (s.frame.exec changed c).map fun f => { s with frame := f, script := cs }
  | .log level event =>
    (s.frame.manager.log 2 l level event).map fun r =>
      { s with results := s.results ++ [⟨level,event,r⟩] }

/-- The logger has been cleared, and appenders are still to be added to it. -/
def Rebuilding (l : ℕ) (s : Reload) : Prop :=
  s.frame.logger = some l ∧ ∃ (as : List LogAppenderDefine) (post : List Call),
    s.script = as.map .addAppender ++ post ∧
    ∃ a ∈ as, (makeAppender a).isSome = true

def Quiet (l : ℕ) (s : Reload) : Act → Prop
  | .listener => True
  | .log _ _ => ¬ s.Rebuilding l

/-- The event went to exactly these appenders. -/
def Routed.To (l : ℕ) (as : List ℕ) (r : Routed) : Prop :=
  r.result = .delivered (as.map fun a => ⟨a,l,r.level,r.event⟩)

end Reload

namespace Call

/-- Whether the local variable is the logger named `n` after the call. -/
def Selects (n : Text) (mine : Prop) : Call → Prop
  | .getLogger m => m = n
  | _ => mine

/-- The call changes the list of the logger that it goes through. -/
def Relists : Call → Prop
  | .clearAppender => True
  | .addAppender a => (makeAppender a).isSome = true
  | _ => False

/-- The calls leave the list of the logger named `n` alone. -/
def Spares (n : Text) : Prop → List Call → Prop
  | _, [] => True
  | mine, c :: cs => ¬ (mine ∧ c.Relists) ∧ Spares n (c.Selects n mine) cs

/-- The calls add appenders and then leave the logger alone. -/
def Rebuilds (n : Text) (cs : List Call) : Prop :=
  ∃ (as : List LogAppenderDefine) (post : List Call), cs = as.map .addAppender ++ post ∧ Spares n True post

/-- The calls leave the logger alone until they clear and rebuild it. -/
def Awaits (n : Text) : Prop → List Call → Prop
  | _, [] => False
  | mine, c :: cs => (mine ∧ c = .clearAppender ∧ Rebuilds n cs) ∨
    (¬ (mine ∧ c.Relists) ∧ Awaits n (c.Selects n mine) cs)

end Call

theorem LoggerManager.appendersOf_modify (s : LoggerManager) (k : ℕ) (f : Logger → Logger)
    (appenders : Heap LogAppender) (l : ℕ)
    (hf : l = k → ∀ lg, (f lg).appenders = lg.appenders) :
    appendersOf { s with loggers := s.loggers.modify k f, appenders := appenders } l = s.appendersOf l := by
  unfold appendersOf
  by_cases hl : l = k
  · simp [hl,Function.comp_def,hf hl]
  · simp [Heap.get_modify_ne _ _ hl]

theorem LoggerManager.appendersOf_getLogger {s : LoggerManager} (hw : s.Wired) {n : Text} {l : ℕ}
    (hn : s.names.find n = some l) (name : Text) : (s.getLogger name).1.appendersOf l = s.appendersOf l := by
  obtain ⟨lg,hlg,_⟩ := hw.named n l hn
  unfold LoggerManager.getLogger appendersOf
  split
  · rfl
  · simp [hlg,Heap.get_alloc_of_get hlg]

theorem LoggerManager.find_getLogger_of_find {s : LoggerManager} {n : Text} {l : ℕ}
    (hn : s.names.find n = some l) (name : Text) : (s.getLogger name).1.names.find n = some l := by
  rw [find_getLogger]
  split_ifs with hm
  · subst hm
    simp [LoggerManager.getLogger,hn]
  · exact hn

theorem LoggerManager.getLogger_eq_iff {s : LoggerManager} (hw : s.Wired) {n : Text} {l : ℕ}
    (hn : s.names.find n = some l) (name : Text) : (s.getLogger name).2 = l ↔ name = n := by
  have hname : (s.getLogger name).1.names.find name = some (s.getLogger name).2 := by
    rw [find_getLogger,if_pos rfl]
  have hn' := find_getLogger_of_find hn name
  constructor
  · rintro rfl
    exact (hw.getLogger name).name_unique hname hn'
  · rintro rfl
    exact Option.some.inj (hname.symm.trans hn')

/-- All that a call can do to a logger other than its own, and to its own unless it
clears or extends the list. -/
theorem Frame.exec_spec {changed : LogEvent} {s t : Frame} {c : Call} (hw : s.manager.Wired) {n : Text}
    {l : ℕ} (hn : s.manager.names.find n = some l) (h : s.exec changed c = some t) :
    t.manager.Wired ∧ t.manager.names.find n = some l ∧
      (t.logger = some l) = c.Selects n (s.logger = some l) ∧
      (¬ (s.logger = some l ∧ c.Relists) → t.manager.appendersOf l = s.manager.appendersOf l) := by
  have hlocal : ∀ {k : ℕ} {m : LoggerManager}, s.logger = some k → SameShape s.manager m →
      (¬ (k = l ∧ c.Relists) → m.appendersOf l = s.manager.appendersOf l) → (∀ mine, c.Selects n mine = mine) →
      m.Wired ∧ m.names.find n = some l ∧
        (s.logger = some l) = c.Selects n (s.logger = some l) ∧
        (¬ (s.logger = some l ∧ c.Relists) → m.appendersOf l = s.manager.appendersOf l) := by
    intro k m hk hs hl hsel
    refine ⟨hw.of_sameShape hs,by rw [hs.names,hn],(hsel _).symm,fun hno => hl ?_⟩
    rintro ⟨rfl,hc⟩
    exact hno ⟨hk,hc⟩
  cases c with
  | announce =>
    simp only [Frame.exec] at h
    split at h
    · obtain rfl := Option.some.inj h
      exact ⟨hw,hn,rfl,fun _ => rfl⟩
    · cases h
  | getLogger name =>
    obtain rfl := Option.some.inj h
    have hsel : (some (s.manager.getLogger name).2 = some l) = (name = n) := by
      rw [Option.some.injEq,getLogger_eq_iff hw hn]
    exact ⟨hw.getLogger name,find_getLogger_of_find hn name,hsel,fun _ => appendersOf_getLogger hw hn name⟩
  | setLevel level =>
    obtain ⟨k,hk,rfl⟩ := Option.map_eq_some_iff.mp h
    exact hlocal hk (sameShape_setLevel _ k level)
      (fun _ => appendersOf_modify _ k _ _ l fun _ _ => rfl) fun _ => rfl
  | setFormatter format =>
    obtain ⟨k,hk,rfl⟩ := Option.map_eq_some_iff.mp h
    refine hlocal hk (sameShape_setFormatterText _ k format) (fun _ => ?_) fun _ => rfl
    unfold setFormatterText LoggerManager.setFormatter
    dsimp only
    split_ifs
    · rfl
    · split
      · rfl
      · exact appendersOf_modify _ k _ _ l fun _ _ => rfl
  | clearAppender =>
    obtain ⟨k,hk,rfl⟩ := Option.map_eq_some_iff.mp h
    exact hlocal hk (sameShape_clearAppender _ k)
      (fun hno => appendersOf_modify _ k _ _ l fun he => absurd ⟨he.symm,trivial⟩ hno) fun _ => rfl
  | addAppender a =>
    obtain ⟨k,hk,rfl⟩ := Option.map_eq_some_iff.mp h
    refine hlocal hk (sameShape_addDefined k _ a) (fun hno => ?_) fun _ => rfl
    unfold addDefined
    split
    · rfl
    · next ap hap =>
      unfold LoggerManager.addAppender
      split
      · rfl
      · refine appendersOf_modify _ k _ _ l fun he => absurd ⟨he.symm,?_⟩ hno
        simp [Call.Relists,hap]

theorem LoggerManager.log_own {s : LoggerManager} {l : ℕ} (h : s.appendersOf l ≠ []) (level : LogLevel)
    (event : LogEvent) :
    s.log 2 l level event = some (.delivered ((s.appendersOf l).map fun a => ⟨a,l,level,event⟩)) := by
  cases hl : s.loggers.get l with
  | none => simp [appendersOf,hl] at h
  | some lg =>
    have hne : lg.appenders ≠ [] := by simpa [appendersOf,hl] using h
    simp [log,appendersOf,hl,hne]

namespace Call

theorem spares_addAppenders {n : Text} {mine : Prop} {as : List LogAppenderDefine} {post : List Call}
    (has : ∀ a ∈ as, makeAppender a = none) (hpost : Spares n mine post) :
    Spares n mine (as.map .addAppender ++ post) := by
  induction as with
  | nil => exact hpost
  | cons a as ih =>
    refine ⟨fun h => ?_,ih fun b hb => has b (List.mem_cons_of_mem a hb)⟩
    simpa [Relists,has a] using h.2

/-- Calls that spare a logger leave its list as it is. -/
theorem appendersOf_of_spares {changed : LogEvent} {n : Text} {l : ℕ} {cs : List Call} {f u : Frame}
    (hw : f.manager.Wired) (hn : f.manager.names.find n = some l) (hs : Spares n (f.logger = some l) cs)
    (hu : cs.foldlM (Frame.exec changed) f = some u) :
    u.manager.appendersOf l = f.manager.appendersOf l := by
  induction cs generalizing f with
  | nil =>
    obtain rfl := Option.some.inj hu
    rfl
  | cons c cs ih =>
    obtain ⟨g,hg,hu⟩ := Option.bind_eq_some_iff.mp hu
    obtain ⟨hw',hn',hsel,hkeep⟩ := Frame.exec_spec hw hn hg
    rw [ih hw' hn' (hsel ▸ hs.2) hu,hkeep hs.1]

end Call

namespace Reload
open Call

/-- Where the listener stands: it has not come to the logger, it is rebuilding it,
or it is done with it. -/
def Phase (n : Text) (l : ℕ) (old : List ℕ) (f : Frame) (cs : List Call) : Prop :=
  (f.manager.appendersOf l = old ∧ Awaits n (f.logger = some l) cs) ∨
  (f.logger = some l ∧ Rebuilds n cs) ∨ Spares n (f.logger = some l) cs

variable {changed} {n : Text} {l : ℕ} {old new : List ℕ}

theorem Phase.step {f g : Frame} {c : Call} {cs : List Call} (hw : f.manager.Wired)
    (hn : f.manager.names.find n = some l) (h : Phase n l old f (c :: cs))
    (hg : f.exec changed c = some g) : Phase n l old g cs := by
  obtain ⟨_,_,hsel,hkeep⟩ := Frame.exec_spec hw hn hg
  rcases h with ⟨hold,⟨hmine,rfl,hre⟩ | ⟨hno,haw⟩⟩ | ⟨hmine,as,post,hcs,hpost⟩ | ⟨_,hsp⟩
  · exact .inr (.inl ⟨hsel ▸ hmine,hre⟩)
  · exact .inl ⟨(hkeep hno).trans hold,hsel ▸ haw⟩
  · rw [eq_true hmine] at hsel
    cases as with
    | nil =>
      obtain rfl : c :: cs = post := hcs
      exact .inr (.inr (hsel ▸ hpost.2))
    | cons a as =>
      obtain ⟨rfl,rfl⟩ := List.cons.inj hcs
      exact .inr (.inl ⟨hsel ▸ trivial,as,post,rfl,hpost⟩)
  · exact .inr (.inr (hsel ▸ hsp))

/-- Unless it is being rebuilt, the list is the old one or the one at the end. -/
theorem Phase.list {s : Reload} {u : Frame} (hw : s.frame.manager.Wired)
    (hn : s.frame.manager.names.find n = some l) (h : Phase n l old s.frame s.script)
    (hq : ¬ s.Rebuilding l) (hu : s.script.foldlM (Frame.exec changed) s.frame = some u) :
    s.frame.manager.appendersOf l = old ∨ s.frame.manager.appendersOf l = u.manager.appendersOf l := by
  have hdone : Spares n (s.frame.logger = some l) s.script →
      s.frame.manager.appendersOf l = u.manager.appendersOf l :=
    fun hs => (appendersOf_of_spares hw hn hs hu).symm
  rcases h with ⟨hold,_⟩ | ⟨hmine,as,post,hcs,hpost⟩ | hsp
  · exact .inl hold
  · -- only appenders of unknown types are left
    have has : ∀ a ∈ as, makeAppender a = none := by
      intro a ha
      by_contra hne
      exact hq ⟨hmine,as,post,hcs,a,ha,Option.isSome_iff_ne_none.mpr hne⟩
    refine .inr (hdone ?_)
    rw [hcs,eq_true hmine]
    exact spares_addAppenders has hpost
  · exact .inr (hdone hsp)

variable (changed n l old new) in
structure Sound (s : Reload) : Prop where
  wired : s.frame.manager.Wired
  named : s.frame.manager.names.find n = some l
  phase : Phase n l old s.frame s.script
  final : ∃ u, s.script.foldlM (Frame.exec changed) s.frame = some u ∧ u.manager.appendersOf l = new
  routed : ∀ r ∈ s.results, Routed.To l old r ∨ Routed.To l new r

theorem Sound.step (hold : old ≠ []) (hnew : new ≠ []) {s t : Reload} {a : Act}
    (hs : Sound changed n l old new s) (hq : s.Quiet l a) (h : s.step changed l a = some t) :
    Sound changed n l old new t := by
  obtain ⟨hw,hn,hphase,⟨u,hu,hfinal⟩,hrouted⟩ := hs
  cases a with
  | listener =>
    simp only [Reload.step] at h
    cases hc : s.script with
    | nil => simp [hc] at h
    | cons c cs =>
      rw [hc] at h hu hphase
      obtain ⟨g,hg,rfl⟩ := Option.map_eq_some_iff.mp h
      obtain ⟨hw',hn',_⟩ := Frame.exec_spec hw hn hg
      rw [List.foldlM_cons,hg] at hu
      exact ⟨hw',hn',hphase.step hw hn hg,⟨u,hu,hfinal⟩,hrouted⟩
  | log level event =>
    obtain ⟨r,hr,rfl⟩ := Option.map_eq_some_iff.mp h
    refine ⟨hw,hn,hphase,⟨u,hu,hfinal⟩,fun q hq' => ?_⟩
    rcases List.mem_append.mp hq' with hq' | hq'
    · exact hrouted q hq'
    · obtain rfl := List.mem_singleton.mp hq'
      have hto : ∀ {as}, s.frame.manager.appendersOf l = as → as ≠ [] → Routed.To l as ⟨level,event,r⟩ := by
        rintro as rfl has
        exact Option.some.inj (hr.symm.trans (log_own has level event))
      rcases hphase.list hw hn hq hu with he | he
      · exact .inl (hto he hold)
      · exact .inr (hto (he.trans hfinal) hnew)

end Reload

namespace Call

/-- Calls for a logger of another name are passed over by `Spares` and `Awaits`. -/
theorem skip_block {n : Text} {Q : Prop → List Call → Prop}
    (hQ : ∀ {mine c cs}, ¬ (mine ∧ c.Relists) → Q (c.Selects n mine) cs → Q mine (c :: cs))
    {name : Text} (hne : name ≠ n) {cs post : List Call}
    (hcs : ∀ c ∈ cs, ∀ mine, c.Selects n mine = mine) (hpost : ∀ mine, Q mine post) (mine : Prop) :
    Q mine (.getLogger name :: cs ++ post) := by
  have hrest : Q (name = n) (cs ++ post) := by
    induction cs with
    | nil => exact hpost _
    | cons c cs ih =>
      refine hQ (fun h => hne h.1) ?_
      rw [hcs c List.mem_cons_self]
      exact ih fun d hd => hcs d (List.mem_cons_of_mem c hd)
  exact hQ (fun h => h.2) hrest

theorem skip_flatMap {n : Text} {Q : Prop → List Call → Prop}
    (hQ : ∀ {mine c cs}, ¬ (mine ∧ c.Relists) → Q (c.Selects n mine) cs → Q mine (c :: cs))
    {calls : LogDefine → List Call} {ds : List LogDefine} {post : List Call}
    (hds : ∀ d ∈ ds, calls d = [] ∨ (d.name ≠ n ∧ ∃ cs, calls d = .getLogger d.name :: cs ∧
      ∀ c ∈ cs, ∀ mine, c.Selects n mine = mine)) (hpost : ∀ mine, Q mine post) (mine : Prop) :
    Q mine (ds.flatMap calls ++ post) := by
  induction ds generalizing mine with
  | nil => exact hpost mine
  | cons d ds ih =>
    have ih := ih fun e he => hds e (List.mem_cons_of_mem d he)
    rw [List.flatMap_cons,List.append_assoc]
    rcases hds d List.mem_cons_self with h | ⟨hne,cs,h,hcs⟩
    · rw [h]
      exact ih mine
    · rw [h]
      exact skip_block hQ hne hcs ih mine

theorem apply_selects (d : LogDefine) : ∃ cs, apply d = .getLogger d.name :: cs ∧
    ∀ c ∈ cs, ∀ n mine, c.Selects n mine = mine := by
  refine ⟨_,rfl,fun c hc n mine => ?_⟩
  simp only [List.mem_cons,List.mem_append,List.mem_map] at hc
  rcases hc with rfl | hc | rfl | ⟨a,_,rfl⟩
  · rfl
  · split_ifs at hc
    · cases hc
    · obtain rfl := List.mem_singleton.mp hc
      rfl
  · rfl
  · rfl

theorem addOrChange_block (oldVal : LogDefines) {n : Text} {d : LogDefine} (hd : d.name ≠ n) :
    addOrChange oldVal d = [] ∨ (d.name ≠ n ∧ ∃ cs, addOrChange oldVal d = .getLogger d.name :: cs ∧
      ∀ c ∈ cs, ∀ mine, c.Selects n mine = mine) := by
  obtain ⟨cs,hcs,hsel⟩ := apply_selects d
  have happly : d.name ≠ n ∧ ∃ cs, apply d = .getLogger d.name :: cs ∧
      ∀ c ∈ cs, ∀ mine, c.Selects n mine = mine := ⟨hd,cs,hcs,fun c hc => hsel c hc n⟩
  unfold addOrChange
  split
  · exact .inr happly
  · split_ifs
    · exact .inl rfl
    · exact .inr happly

theorem delete_block (newVal : LogDefines) {n : Text} (hn : newVal.Names n) (j : LogDefine) :
    delete newVal j = [] ∨ (j.name ≠ n ∧ ∃ cs, delete newVal j = .getLogger j.name :: cs ∧
      ∀ c ∈ cs, ∀ mine, c.Selects n mine = mine) := by
  unfold delete
  split
  · exact .inl rfl
  · next hf =>
    refine .inr ⟨?_,_,rfl,fun c hc mine => ?_⟩
    · rintro rfl
      exact LogDefines.find_eq_none_iff.mp hf hn
    · simp only [List.mem_cons,List.not_mem_nil,or_false] at hc
      rcases hc with rfl | rfl <;> rfl

theorem awaits_apply (d : LogDefine) {post : List Call} (hpost : Spares d.name True post) (mine : Prop) :
    Awaits d.name mine (apply d ++ post) := by
  refine .inr ⟨fun h => h.2,.inr ⟨fun h => h.2,?_⟩⟩
  have hclear : Awaits d.name (d.name = d.name)
      (.clearAppender :: d.appenders.map .addAppender ++ post) :=
    .inl ⟨rfl,rfl,d.appenders,post,rfl,hpost⟩
  change Awaits d.name (d.name = d.name)
    (((if d.formatter.isEmpty then [] else [.setFormatter d.formatter]) ++
      .clearAppender :: d.appenders.map .addAppender) ++ post)
  split_ifs
  · exact hclear
  · exact .inr ⟨fun h => h.2,hclear⟩

/-- The loops spare a logger whose define stays, and await one whose define changes. -/
theorem awaits_or_spares_loops {newVal : LogDefines} (oldVal : LogDefines) {e : LogDefine}
    (he : e ∈ newVal) (mine : Prop) :
    Awaits e.name mine (loops newVal oldVal) ∨ Spares e.name mine (loops newVal oldVal) := by
  obtain ⟨pre,post,hsplit⟩ := List.append_of_mem he
  have hdist := pairwise_name newVal
  rw [hsplit,List.pairwise_append,List.pairwise_cons] at hdist
  obtain ⟨_,⟨hpost,_⟩,hpre⟩ := hdist
  have hQs : ∀ {mine c cs}, ¬ (mine ∧ c.Relists) → Spares e.name (c.Selects e.name mine) cs →
      Spares e.name mine (c :: cs) := fun h h' => ⟨h,h'⟩
  have hQa : ∀ {mine c cs}, ¬ (mine ∧ c.Relists) → Awaits e.name (c.Selects e.name mine) cs →
      Awaits e.name mine (c :: cs) := fun h h' => .inr ⟨h,h'⟩
  have hdeletes : ∀ mine, Spares e.name mine (oldVal.toList.flatMap (delete newVal)) := by
    intro mine
    have hnil : ∀ mine, Spares e.name mine [] := fun _ => trivial
    rw [← List.append_nil (oldVal.toList.flatMap _)]
    exact skip_flatMap hQs (fun j _ => delete_block newVal ⟨e,he,rfl⟩ j) hnil mine
  have hafter : ∀ mine, Spares e.name mine
      (post.flatMap (addOrChange oldVal) ++ oldVal.toList.flatMap (delete newVal)) :=
    skip_flatMap hQs (fun d hd => addOrChange_block oldVal (hpost d hd).symm) hdeletes
  have hbefore : ∀ d ∈ pre, d.name ≠ e.name := fun d hd => hpre d hd e List.mem_cons_self
  have hloops : loops newVal oldVal = pre.flatMap (addOrChange oldVal) ++ (addOrChange oldVal e ++
      (post.flatMap (addOrChange oldVal) ++ oldVal.toList.flatMap (delete newVal))) := by
    rw [loops,hsplit]
    simp only [List.flatMap_append,List.flatMap_cons,List.append_assoc]
  rw [hloops]
  by_cases ho : e ∈ oldVal
  · right
    have hnil : addOrChange oldVal e = [] := by
      simp [addOrChange,LogDefines.find_eq_some_iff.mpr ⟨ho,rfl⟩]
    rw [hnil]
    exact skip_flatMap hQs (fun d hd => addOrChange_block oldVal (hbefore d hd)) hafter mine
  · left
    have happly : addOrChange oldVal e = apply e := by
      unfold addOrChange
      split
      · rfl
      · next it hf =>
        have hne : ¬ e = it := by
          rintro rfl
          exact ho (LogDefines.find_eq_some_iff.mp hf).1
        simp [hne]
    rw [happly]
    exact skip_flatMap hQa (fun d hd => addOrChange_block oldVal (hbefore d hd))
      (awaits_apply e (hafter True)) mine

end Call
namespace Reload
open Call LogSystem

variable {changed} {n : Text} {l : ℕ} {old new : List ℕ}

theorem named_of_exec {cs : List Call} {f u : Frame} (hw : f.manager.Wired)
    (hn : f.manager.names.find n = some l) (hu : cs.foldlM (Frame.exec changed) f = some u) :
    u.manager.names.find n = some l := by
  induction cs generalizing f with
  | nil =>
    obtain rfl := Option.some.inj hu
    exact hn
  | cons c cs ih =>
    obtain ⟨g,hg,hu⟩ := Option.bind_eq_some_iff.mp hu
    obtain ⟨hw',hn',_⟩ := Frame.exec_spec hw hn hg
    exact ih hw' hn' hu

/-- What is logged during the change, if the logger has appenders before and after. -/
theorem routed_of_run {s : LoggerManager} (hw : s.Wired) {newVal oldVal : LogDefines} {e : LogDefine}
    (he : e ∈ newVal) (hl : s.names.find e.name = some l) (hold : s.appendersOf l ≠ [])
    (hnew : (s.changeLoggers newVal oldVal).appendersOf l ≠ []) {acts : List Act} {t : Reload}
    (ht : Runs (step changed l) (Quiet l) (start s newVal oldVal) acts t) :
    ∀ r ∈ t.results, Routed.To l (s.appendersOf l) r ∨
      Routed.To l ((s.changeLoggers newVal oldVal).appendersOf l) r := by
  obtain ⟨p,hp⟩ := exec_loops changed newVal oldVal s
  have hannounce : Frame.exec changed ⟨s,none⟩ .announce = some ⟨s,none⟩ ∨
      Frame.exec changed ⟨s,none⟩ .announce = none := by
    simp only [Frame.exec]
    split
    · exact .inl rfl
    · exact .inr rfl
  rcases hannounce with ha | ha
  · have hscript : (Call.script newVal oldVal).foldlM (Frame.exec changed) ⟨s,none⟩ =
        some ⟨s.changeLoggers newVal oldVal,p⟩ := by
      rw [Call.script,List.foldlM_cons,ha]
      exact hp
    have hphase : Phase e.name l (s.appendersOf l) ⟨s,none⟩ (Call.script newVal oldVal) := by
      rcases awaits_or_spares_loops oldVal he ((none : Option ℕ) = some l) with h | h
      · exact .inl ⟨rfl,.inr ⟨fun h => h.2,h⟩⟩
      · exact .inr (.inr ⟨fun h => h.2,h⟩)
    have hstart : Sound changed e.name l (s.appendersOf l)
        ((s.changeLoggers newVal oldVal).appendersOf l) (start s newVal oldVal) :=
      ⟨hw,hl,hphase,⟨_,hscript,rfl⟩,by simp [start]⟩
    exact (ht.invariant (fun hs hq h => hs.step hold hnew hq h) hstart).routed
  · -- the listener's first line ends the program, and nothing changes
    have hinv := ht.invariant (P := fun t => t.frame = ⟨s,none⟩ ∧ t.script = Call.script newVal oldVal ∧
      ∀ r ∈ t.results, Routed.To l (s.appendersOf l) r) ?_ ⟨rfl,rfl,by simp [start]⟩
    · exact fun r hr => .inl (hinv.2.2 r hr)
    · rintro t u (_ | ⟨level,event⟩) ⟨hf,hs,hr⟩ - h
      · simp [step,hs,Call.script,hf,ha] at h
      · obtain ⟨r,hlog,rfl⟩ := Option.map_eq_some_iff.mp h
        refine ⟨hf,hs,fun q hq => ?_⟩
        rcases List.mem_append.mp hq with hq | hq
        · exact hr q hq
        · obtain rfl := List.mem_singleton.mp hq
          rw [hf] at hlog
          exact Option.some.inj (hlog.symm.trans (log_own hold level event))

/-- The logger's appenders are those of the define. -/
def Shows (s : LoggerManager) (l : ℕ) (d : LogDefine) : Prop :=
  ∃ v, s.view l = some v ∧ v.appenders = d.appenders.filterMap (expectedAppender v.formatter)

theorem Shows.appendersOf_ne_nil {s : LoggerManager} {d : LogDefine} (h : Shows s l d)
    (hd : ∃ a ∈ d.appenders, (makeAppender a).isSome = true) : s.appendersOf l ≠ [] := by
  obtain ⟨v,hv,has⟩ := h
  obtain ⟨lg,hlg,rfl⟩ := Option.map_eq_some_iff.mp hv
  obtain ⟨a,ha,hsome⟩ := hd
  intro hnil
  have hnil : lg.appenders = [] := by simpa [appendersOf,hlg] using hnil
  obtain ⟨ap,hap⟩ := Option.isSome_iff_exists.mp hsome
  have hmem : ap.inherit lg.formatter ∈ d.appenders.filterMap (expectedAppender lg.formatter) :=
    List.mem_filterMap.mpr ⟨a,ha,by rw [expectedAppender_eq,hap]; rfl⟩
  rw [← has,hnil] at hmem
  cases hmem

/-- While the variable changes from a value with the define `d` to one with `e`, every
event for the logger goes to all appenders of `d` or to all appenders of `e`, if it is
not logged while the logger is being rebuilt. -/
theorem delivered_to_old_or_new {pre : List LogSystem.Act} {s : LogSystem}
    (hs : Runs LogSystem.step (fun _ a => a.ByConfig) (LogSystem.start changed) pre s)
    {v : LogDefines} {d e : LogDefine} (hd : d ∈ s.var.val) (he : e ∈ v) (hde : d.name = e.name)
    (hdap : ∃ a ∈ d.appenders, (makeAppender a).isSome = true)
    (heap : ∃ a ∈ e.appenders, (makeAppender a).isSome = true)
    (hl : s.manager.names.find e.name = some l) {acts : List Act} {t : Reload}
    (ht : Runs (step changed l) (Quiet l) (start s.manager v s.var.val) acts t) :
    Shows s.manager l d ∧ Shows (s.manager.changeLoggers v s.var.val) l e ∧
      ∀ r ∈ t.results, Routed.To l (s.manager.appendersOf l) r ∨
        Routed.To l ((s.manager.changeLoggers v s.var.val).appendersOf l) r := by
  have hf := follows_of_run hs
  obtain ⟨p,hp⟩ := exec_loops changed v s.var.val s.manager
  have hl' := named_of_exec hf.intact.wired hl hp
  have hshow : Shows s.manager l d := by
    obtain ⟨w,hw,_,has⟩ := hf.configured.named d (hf.value ▸ hd)
    exact ⟨w,by rwa [configOf,hde,hl,Option.bind_some] at hw,has⟩
  have hshow' : Shows (s.manager.changeLoggers v s.var.val) l e := by
    have hc := hf.reconfigured v (reconfigured_changeLoggers hf.intact v s.var.val)
    obtain ⟨w,hw,_,has⟩ := hc.named e (by rwa [current_append])
    exact ⟨w,by rwa [configOf,hl',Option.bind_some] at hw,has⟩
  exact ⟨hshow,hshow',routed_of_run hf.intact.wired he hl (hshow.appendersOf_ne_nil hdap)
    (hshow'.appendersOf_ne_nil heap) ht⟩

def fileDefine : LogDefine :=
  { name := "system".toList, level := .warn, appenders := [{ type := 1, file := "new.txt".toList }] }

def stdoutDefine : LogDefine :=
  { name := "system".toList, level := .warn, appenders := [{ type := 2, level := .error }] }

def configured : LogSystem :=
  ⟨{ (LogSystem.start plainEvent).var with val := SortedSet.empty.insert stdoutDefine },
    LoggerManager.new.changeLoggers (SortedSet.empty.insert stdoutDefine) .empty⟩

theorem run_configured : Runs LogSystem.step (fun _ a => a.ByConfig) (LogSystem.start plainEvent)
    [.assign (SortedSet.empty.insert stdoutDefine)] configured :=
  .single trivial rfl

/-- Events logged before and after the change. -/
theorem delivered_system : ∃ t, Runs (step plainEvent 1) (Quiet 1)
    (start configured.manager (SortedSet.empty.insert fileDefine) configured.var.val)
    [.log .info plainEvent,.listener,.listener,.listener,.listener,.listener,.log .warn plainEvent] t ∧
    t.results.length = 2 ∧ ∀ r ∈ t.results, Routed.To 1 [1] r ∨ Routed.To 1 [2] r := by
  have ht : Runs (step plainEvent 1) (Quiet 1)
      (start configured.manager (SortedSet.empty.insert fileDefine) configured.var.val)
      [.log .info plainEvent,.listener,.listener,.listener,.listener,.listener,.log .warn plainEvent] _ :=
    .step (fun h => by cases h.1) rfl (.step trivial rfl (.step trivial rfl (.step trivial rfl
      (.step trivial rfl (.step trivial rfl (.step (fun h => ?_) rfl (.refl _)))))))
  · refine ⟨_,ht,rfl,?_⟩
    exact (delivered_to_old_or_new (d := stdoutDefine) (e := fileDefine) run_configured
      List.mem_cons_self List.mem_cons_self rfl ⟨_,List.mem_cons_self,rfl⟩ ⟨_,List.mem_cons_self,rfl⟩
      rfl ht).2.2
  · obtain ⟨_,as,post,hs,a,ha,_⟩ := h
    change [] = as.map Call.addAppender ++ post at hs
    cases as with
    | nil => cases ha
    | cons a as => cases hs

/-- An event logged right after `ClearAppender` goes to the root logger's appenders. -/
theorem rebuilding_not_delivered : ¬ ∀ (changed : LogEvent) (pre : List LogSystem.Act) (s : LogSystem)
    (v : LogDefines) (d e : LogDefine) (l : ℕ) (acts : List Act) (t : Reload),
    Runs LogSystem.step (fun _ a => a.ByConfig) (LogSystem.start changed) pre s →
    d ∈ s.var.val → e ∈ v → d.name = e.name →
    (∃ a ∈ d.appenders, (makeAppender a).isSome = true) →
    (∃ a ∈ e.appenders, (makeAppender a).isSome = true) → s.manager.names.find e.name = some l →
    Runs (step changed l) (fun _ _ => True) (start s.manager v s.var.val) acts t →
    ∀ r ∈ t.results, Routed.To l (s.manager.appendersOf l) r ∨
      Routed.To l ((s.manager.changeLoggers v s.var.val).appendersOf l) r := by
  intro h
  have ht : Runs (step plainEvent 1) (fun _ _ => True)
      (start configured.manager (SortedSet.empty.insert fileDefine) configured.var.val)
      [.listener,.listener,.listener,.listener,.log .warn plainEvent] _ :=
    .step trivial rfl (.step trivial rfl (.step trivial rfl (.step trivial rfl
      (.step trivial rfl (.refl _)))))
  have hr := h plainEvent _ _ _ stdoutDefine fileDefine 1 _ _ run_configured List.mem_cons_self
    List.mem_cons_self rfl ⟨_,List.mem_cons_self,rfl⟩ ⟨_,List.mem_cons_self,rfl⟩ rfl ht _
    List.mem_cons_self
  -- the root logger's own appender took the event
  have hroot : ¬ Routed.To 1 [1] ⟨.warn,plainEvent,.delivered [⟨0,0,.warn,plainEvent⟩]⟩ ∧
      ¬ Routed.To 1 [2] ⟨.warn,plainEvent,.delivered [⟨0,0,.warn,plainEvent⟩]⟩ := by
    simp [Routed.To]
  exact hr.elim hroot.1 hroot.2

end Reload
end Zcs.Log
