import Zcs.Config.Reports
import Zcs.Log.Console
import Zcs.Log.DefineCast

/-! # From documents and events to lines

A document goes through the registry to the 'logs' variable, through its codec to a value,
and through the listener to the loggers; what is wrong with it is reported through loggers
as well. The journal below is told by the documents and the events alone, without an object,
an address or a difference between two values, and it has the same lines.
-/
namespace Zcs.Log.Loading
open Config LogSystem LoggerManager

def logsName : Text := "logs".toList

/-- The logger of `config.cpp`. -/
def systemName : Text := "system".toList

section Program
variable (y : YamlCpp) (renderTime : Text → ℕ → Text) (reported : ℕ → Report → LogEvent)

/-- The listener with its report, which is written before any logger is changed. -/
def logIniter : Listener LogDefines Console := fun newVal oldVal c =>
  match c.report renderTime reported c.manager.root .configChanged with
  | some c => .returned (c.setManager (c.manager.changeLoggers newVal oldVal))
  | none => .crashed

/-- `g_log_defines` with a value. -/
def logsVar (val : LogDefines) : ConfigVarBase Console where
  T := LogDefines
  beq := inferInstance
  cast := LogDefines.cast y
  var := ⟨logsName,"log config".toList,val,SortedMap.empty.assign 1 (logIniter renderTime reported)⟩

/-- The lines of a load go through the root logger and through that of `config.cpp`. A call of
`GetLogger` finds the latter, which is never taken out of the map. -/
def reports : Reports Console where
  exception name val c := c.report renderTime reported c.manager.root (.fromString name val)
  invalidName perfix node c :=
    let g := c.manager.getLogger systemName
    (c.setManager g.1).report renderTime reported g.2 (.invalidName perfix node)

structure State where
  datas : ConfigVarMap Console
  console : Console

/-- `g_logger` of `config.cpp` is got before anything is loaded. -/
def start (datas : ConfigVarMap Console) : State := ⟨datas,⟨(LoggerManager.new.getLogger systemName).1,[],0⟩⟩

inductive Act where
  | load (root : Node)
  | getLogger (name : Text)
  | log (event : LogEvent)

/-- An event is logged by the destructor of its `LogEventWrap`, to the event's own logger. -/
def step (s : State) : Act → Option State
  | .load root =>
    ((reports renderTime reported).loadFromYaml y root s.datas s.console).map fun r => ⟨r.1,r.2⟩
  | .getLogger name => some { s with console := s.console.setManager (s.console.manager.getLogger name).1 }
  | .log event =>
    let g := s.console.manager.getLogger event.loggerName
    ((s.console.setManager g.1).log renderTime g.2 event).map fun c => { s with console := c }

/-- The values of the 'logs' variable, the lines and the number of reports. -/
structure Journal where
  values : List LogDefines
  written : List (AppenderKind × Text)
  reports : ℕ

namespace Journal

def log (j : Journal) (name : Text) (event : LogEvent) : Option Journal :=
  let lines := linesAfter renderTime j.values name event
  if lines = [] then none else some { j with written := j.written ++ lines }

def report (j : Journal) (name : Text) (r : Report) : Option Journal :=
  (j.log renderTime name (reported j.reports r)).map fun j => { j with reports := j.reports + 1 }

def assign (j : Journal) (v : LogDefines) : Option Journal :=
  (if current j.values = v then some j else j.report renderTime reported rootName .configChanged).map
    fun j => { j with values := j.values ++ [v] }

def Rejects (b : ConfigVarBase Console) (text : Text) : Prop := (b.cast.fromStr text).toOption = none

instance (b : ConfigVarBase Console) (text : Text) : Decidable (Rejects b text) :=
  decidable_of_iff ((b.cast.fromStr text).toOption.isNone = true) Option.isNone_iff_eq_none

/-- A node of another variable than 'logs' leaves no more than a complaint. -/
def loadNode (datas : ConfigVarMap Console) (j : Journal) (it : Text × Node) : Option Journal :=
  let text := nodeText y it.2
  if it.1 = logsName then
    match (LogDefines.cast y).fromStr text with
    | .ok v => j.assign renderTime reported v
    | .error _ => j.report renderTime reported rootName (.fromString logsName text)
  else match datas.find it.1 with
    | none => some j
    | some b =>
      if it.1 ≠ [] ∧ Rejects b text then j.report renderTime reported rootName (.fromString b.var.name text)
      else some j

def step (datas : ConfigVarMap Console) (j : Journal) : Act → Option Journal
  | .load root => do
    let j ← (invalidNames [] root).foldlM
      (fun j it => j.report renderTime reported systemName (.invalidName it.1 it.2)) j
    (visited root).foldlM (loadNode y renderTime reported datas) j
  | .getLogger _ => some j
  | .log event => j.log renderTime event.loggerName event

def start : Journal := ⟨[],[],0⟩

end Journal

/-- The variable is in the registry, with no value yet, and the listeners of all others mind
their own business. -/
structure Registered (datas : ConfigVarMap Console) : Prop where
  logs : datas.find logsName = some (logsVar y renderTime reported .empty)
  others : ∀ {name b}, name ≠ logsName → datas.find name = some b →
    ∀ e ∈ b.var.cbs.entries, ∀ v old c, e.2 v old c = .returned c

end Program

/-- The console has the lines of the journal, and its manager is what the values make of it. -/
structure Records (c : Console) (j : Journal) : Prop where
  system : ∃ t, Follows plainEvent j.values t ∧ Remembers j.values t.manager ∧ t.manager = c.manager
  written : c.written = j.written
  reports : c.reports = j.reports

theorem Records.shows {c : Console} {j : Journal} (h : Records c j) : c.manager.Shows j.values := by
  obtain ⟨t,hf,hr,hm⟩ := h.system
  exact hm ▸ shows_of_follows hf hr

theorem Records.getLogger {c : Console} {j : Journal} (h : Records c j) (name : Text) :
    Records (c.setManager (c.manager.getLogger name).1) j := by
  obtain ⟨t,hf,hr,hm⟩ := h.system
  exact ⟨⟨_,hf.getLogger name,hr.getLogger hf.intact name,by rw [← hm]; rfl⟩,h.written,h.reports⟩

section Console
variable {renderTime : Text → ℕ → Text} {reported : ℕ → Report → LogEvent} {c : Console} {j : Journal} {name : Text}
  {l : ℕ}

variable (renderTime) in
theorem Records.log (h : Records c j) (hn : c.manager.names.find name = some l) (event : LogEvent) :
    Option.Rel Records (c.log renderTime l event) (j.log renderTime name event) := by
  rw [Console.log_eq h.shows hn,Journal.log]
  split_ifs
  · exact .none
  · exact .some ⟨h.system,by rw [h.written],h.reports⟩

variable (renderTime reported) in
theorem Records.report (h : Records c j) (hn : c.manager.names.find name = some l) (r : Report) :
    Option.Rel Records (c.report renderTime reported l r) (j.report renderTime reported name r) := by
  rw [Console.report,Journal.report,h.reports]
  exact rel_map (h.log renderTime hn _) fun hcj => ⟨hcj.system,hcj.written,congrArg (· + 1) hcj.reports⟩

variable (renderTime reported) in
/-- What a report leaves alone, if it is written. -/
theorem Records.report_cases (h : Records c j) (hn : c.manager.names.find name = some l) (r : Report) :
    (c.report renderTime reported l r = none ∧ j.report renderTime reported name r = none) ∨
    ∃ c' j', c.report renderTime reported l r = some c' ∧ j.report renderTime reported name r = some j' ∧
      Records c' j' ∧ c'.manager = c.manager ∧ j'.values = j.values ∧
      ∃ event, linesAfter renderTime j.values name event ≠ [] := by
  have hrel := h.report renderTime reported hn r
  rw [Console.report,Console.log_eq h.shows hn,Journal.report,Journal.log,h.reports] at hrel ⊢
  by_cases hlines : linesAfter renderTime j.values name (reported j.reports r) = []
  · exact .inl ⟨by rw [if_pos hlines]; rfl,by rw [if_pos hlines]; rfl⟩
  · rw [if_neg hlines,if_neg hlines] at hrel ⊢
    cases hrel with
    | some hcj => exact .inr ⟨_,_,rfl,rfl,hcj,rfl,rfl,_,hlines⟩

variable (renderTime) in
theorem Records.assigned (h : Records c j) {v : LogDefines}
    (hv : current j.values = v ∨ ∃ event, linesAfter renderTime j.values rootName event ≠ []) :
    Records (c.setManager (if current j.values = v then c.manager
      else c.manager.changeLoggers v (current j.values))) { j with values := j.values ++ [v] } := by
  obtain ⟨t,hf,hr,hm⟩ := h.system
  by_cases heq : current j.values = v
  · have hstep : t.step (.assign v) = some t := by
      rw [LogSystem.step,ConfigVar.setValue_of_beq (beq_iff_eq.mpr (hf.value.trans heq))]
    rw [if_pos heq]
    exact ⟨⟨t,hf.assigned hstep,hr.assigned hf hstep,hm⟩,h.written,h.reports⟩
  · have hserved : RootServed t := by
      obtain ⟨event,hlines⟩ := hv.resolve_left heq
      obtain ⟨r,hget,_⟩ := hf.intact.wired.rootLogger
      have hview := (shows_of_follows hf hr).view rootName
      rw [configOf,hf.intact.wired.rootNamed,Option.bind_some,view,hget,Option.map_some,Option.getD_some] at hview
      intro hnil
      rw [appendersOf,hget,Option.map_some,Option.getD_some] at hnil
      rw [hnil] at hview
      exact hlines (linesAfter_eq_nil_iff.mpr ⟨by rw [← hview]; rfl,by rw [← hview]; rfl⟩)
    obtain ⟨u,hstep,hfu⟩ := hf.assign hserved v
    have hru := hr.assigned hf hstep
    rw [if_neg heq]
    refine ⟨⟨u,hfu,hru,?_⟩,h.written,h.reports⟩
    rcases step_assign plainEvent hf.listening hstep with ⟨hval,_⟩ | ⟨_,_,rfl⟩
    · exact absurd (hf.value.symm.trans hval) heq
    · rw [hf.value,hm]
      rfl

end Console

section Load
variable {y : YamlCpp} {renderTime : Text → ℕ → Text} {reported : ℕ → Report → LogEvent} {c : Console} {j : Journal}

/-- A text for the 'logs' variable. -/
theorem fromString_logs (h : Records c j) (text : Text) :
    Option.Rel (fun r j' => r.1 = logsVar y renderTime reported (current j'.values) ∧ Records r.2 j')
      ((reports renderTime reported).fromString (logsVar y renderTime reported (current j.values)) text c)
      (match (LogDefines.cast y).fromStr text with
        | .ok v => j.assign renderTime reported v
        | .error _ => j.report renderTime reported rootName (.fromString logsName text)) := by
  let b := logsVar y renderTime reported (current j.values)
  have hroot := h.shows.intact.wired.rootNamed
  cases hdec : (LogDefines.cast y).fromStr text with
  | error _ =>
    rw [fromString_error (b := b) hdec]
    obtain ⟨hc,hj⟩ | ⟨c',j',hc,hj,hcj,_,hvs,_⟩ :=
      h.report_cases renderTime reported hroot (.fromString logsName text)
    · rw [show (reports renderTime reported).exception b.var.name text c = none from hc,hj]
      exact .none
    · rw [show (reports renderTime reported).exception b.var.name text c = some c' from hc,hj]
      exact .some ⟨by rw [hvs],hcj⟩
  | ok v =>
    change Option.Rel _ _ (j.assign renderTime reported v)
    rw [Journal.assign]
    by_cases hv : current j.values = v
    · have hassigned := h.assigned renderTime (.inl hv)
      have hb : (current j.values == v) = true := beq_iff_eq.mpr hv
      rw [if_pos hv] at hassigned
      rw [fromString_same (b := b) hdec hb,if_pos hv]
      exact .some ⟨by rw [current_append,← hv],hassigned⟩
    · have hb : (current j.values == v) = false := by simpa using hv
      have hcallbacks : ConfigVar.runCallbacks v b.var.val b.var.cbs.entries c =
        logIniter renderTime reported v (current j.values) c := ConfigVar.runCallbacks_singleton _ _ 1 _ c
      rw [if_neg hv]
      obtain ⟨hc,hj⟩ | ⟨c',j',hc,hj,hcj,hm,hvs,hlines⟩ :=
        h.report_cases renderTime reported hroot .configChanged
      · rw [fromString_changed (b := b) hdec hb (hcallbacks.trans (by rw [logIniter,hc])),hj]
        exact .none
      · have hassigned := hcj.assigned renderTime (v := v) (.inr (hvs ▸ hlines))
        rw [hvs,if_neg hv] at hassigned
        rw [fromString_changed (b := b) hdec hb (hcallbacks.trans (by rw [logIniter,hc])),hj]
        refine .some ⟨congrArg (logsVar y renderTime reported) (current_append j'.values v).symm,?_⟩
        simpa only [hvs] using hassigned

/-- A text for another variable, which has a value of its own. -/
theorem fromString_other (h : Records c j) {b : ConfigVarBase Console}
    (hb : ∀ e ∈ b.var.cbs.entries, ∀ v old c, e.2 v old c = .returned c) (x : b.T) (text : Text) :
    Option.Rel (fun r j' => (∃ x', r.1 = b.withVal x') ∧ Records r.2 j' ∧ j'.values = j.values)
      ((reports renderTime reported).fromString (b.withVal x) text c)
      (if Journal.Rejects b text then j.report renderTime reported rootName (.fromString b.var.name text)
        else some j) := by
  have hroot := h.shows.intact.wired.rootNamed
  have hcalm : ∀ {cbs : List (ℕ × Listener b.T Console)}, (∀ e ∈ cbs, ∀ v old c, e.2 v old c = .returned c) →
      ∀ v old c, ConfigVar.runCallbacks v old cbs c = .returned c := by
    intro cbs
    induction cbs with
    | nil => exact fun _ _ _ _ => rfl
    | cons e cbs ih =>
      intro he v old c
      obtain ⟨hhead,htail⟩ := List.forall_mem_cons.mp he
      rw [ConfigVar.runCallbacks,hhead]
      exact ih htail v old c
  cases hdec : b.cast.fromStr text with
  | error what =>
    have hrejects : Journal.Rejects b text := by rw [Journal.Rejects,hdec]; rfl
    rw [fromString_error (b := b.withVal x) hdec,if_pos hrejects]
    obtain ⟨hc,hj⟩ | ⟨c',j',hc,hj,hcj,_,hvs,_⟩ :=
      h.report_cases renderTime reported hroot (.fromString b.var.name text)
    · rw [show (reports renderTime reported).exception (b.withVal x).var.name text c = none from hc,hj]
      exact .none
    · rw [show (reports renderTime reported).exception (b.withVal x).var.name text c = some c' from hc,hj]
      exact .some ⟨⟨x,rfl⟩,hcj,hvs⟩
  | ok v =>
    have haccepts : ¬ Journal.Rejects b text := by rw [Journal.Rejects,hdec]; simp [Except.toOption]
    rw [if_neg haccepts]
    cases hv : b.beq.beq x v with
    | true =>
      rw [fromString_same (b := b.withVal x) hdec hv]
      exact .some ⟨⟨x,rfl⟩,h,rfl⟩
    | false =>
      rw [fromString_changed (b := b.withVal x) hdec hv (hcalm hb v x c)]
      exact .some ⟨⟨v,rfl⟩,h,rfl⟩

variable (y renderTime reported) in
/-- What the journal says of the whole state; other variables have kept all but their values. -/
structure Tells (datas : ConfigVarMap Console) (s : State) (j : Journal) : Prop where
  records : Records s.console j
  logs : s.datas.find logsName = some (logsVar y renderTime reported (current j.values))
  others : ∀ {name}, name ≠ logsName →
    Option.Rel (fun b b' => ∃ x, b' = ConfigVarBase.withVal b x) (datas.find name) (s.datas.find name)

variable {datas : ConfigVarMap Console} {s : State}

theorem tells_start (hd : Registered y renderTime reported datas) :
    Tells y renderTime reported datas (start datas) .start := by
  have hnew : Records ⟨.new,[],0⟩ .start := ⟨⟨_,follows_start plainEvent,remembers_start,rfl⟩,rfl,rfl⟩
  refine ⟨hnew.getLogger systemName,hd.logs,fun {name} _ => ?_⟩
  change Option.Rel _ (datas.find name) (datas.find name)
  cases datas.find name with
  | none => exact .none
  | some b => exact .some ⟨b.var.val,rfl⟩

theorem Tells.of_records (h : Tells y renderTime reported datas s j) {c : Console} {j' : Journal}
    (hr : Records c j') (hvs : j'.values = j.values) : Tells y renderTime reported datas ⟨s.datas,c⟩ j' :=
  ⟨hr,hvs ▸ h.logs,h.others⟩

theorem Tells.invalidName (h : Tells y renderTime reported datas s j) (it : Text × Node) :
    Option.Rel (fun c j' => Tells y renderTime reported datas ⟨s.datas,c⟩ j')
      ((reports renderTime reported).invalidName it.1 it.2 s.console)
      (j.report renderTime reported systemName (.invalidName it.1 it.2)) := by
  have hsystem := h.records.getLogger systemName
  have hn := (find_getLogger s.console.manager systemName systemName).trans (if_pos rfl)
  obtain ⟨hc,hj⟩ | ⟨c',j',hc,hj,hcj,_,hvs,_⟩ :=
    hsystem.report_cases renderTime reported hn (.invalidName it.1 it.2)
  · rw [show (reports renderTime reported).invalidName it.1 it.2 s.console = none from hc,hj]
    exact .none
  · rw [show (reports renderTime reported).invalidName it.1 it.2 s.console = some c' from hc,hj]
    exact .some (h.of_records hcj hvs)

theorem Tells.log (h : Tells y renderTime reported datas s j) {name : Text} {l : ℕ}
    (hn : s.console.manager.names.find name = some l) (event : LogEvent) :
    Option.Rel (fun c j' => Tells y renderTime reported datas ⟨s.datas,c⟩ j') (s.console.log renderTime l event)
      (j.log renderTime name event) := by
  have hrel := h.records.log renderTime hn event
  rw [Console.log_eq h.records.shows hn,Journal.log] at hrel ⊢
  split_ifs at hrel ⊢
  · exact .none
  · cases hrel with
    | some hcj => exact .some (h.of_records hcj rfl)

theorem Tells.getLogger (h : Tells y renderTime reported datas s j) (name : Text) :
    Tells y renderTime reported datas
      { s with console := s.console.setManager (s.console.manager.getLogger name).1 } j :=
  h.of_records (h.records.getLogger name) rfl

theorem Tells.loadNode (hd : Registered y renderTime reported datas) {s : ConfigVarMap Console × Console}
    (h : Tells y renderTime reported datas ⟨s.1,s.2⟩ j) {it : Text × Node} (hv : ValidName it.1) :
    Option.Rel (fun r j' => Tells y renderTime reported datas ⟨r.1,r.2⟩ j')
      ((reports renderTime reported).loadNode y s it) (j.loadNode y renderTime reported datas it) := by
  have hlogs : s.1.find logsName = some (logsVar y renderTime reported (current j.values)) := h.logs
  rw [Reports.loadNode,Journal.loadNode,map_toLower hv]
  by_cases hname : it.1 = logsName
  · have hne : logsName.isEmpty = false := rfl
    simp only [hname,hne,Bool.false_eq_true,if_false,if_true,hlogs]
    refine rel_map_left (fromString_logs h.records (nodeText y it.2)) fun {r j'} hr =>
      ⟨hr.2,?_,fun {name} hn => ?_⟩
    · exact (SortedMap.find_assign _ _ _ _).trans ((if_pos rfl).trans (congrArg some hr.1))
    · rw [SortedMap.find_assign,if_neg hn]
      exact h.others hn
  · simp only [if_neg hname]
    have hother := h.others hname
    by_cases hnil : it.1 = []
    · have hj : (match datas.find it.1 with
          | none => some j
          | some b => if it.1 ≠ [] ∧ Journal.Rejects b (nodeText y it.2) then
              j.report renderTime reported rootName (.fromString b.var.name (nodeText y it.2)) else some j) =
          some j := by
        cases datas.find it.1 with
        | none => rfl
        | some b => exact if_neg fun hr => hr.1 hnil
      rw [hj,if_pos (List.isEmpty_iff.mpr hnil)]
      exact .some h
    · rw [if_neg (mt List.isEmpty_iff.mp hnil)]
      cases hb : datas.find it.1 with
      | none =>
        rw [hb] at hother
        have hnone : s.1.find it.1 = none := eq_none_of_rel hother
        simp only [hnone]
        exact .some h
      | some b =>
        rw [hb] at hother
        obtain ⟨b',hx,x,rfl⟩ := exists_of_rel hother
        change s.1.find it.1 = _ at hx
        simp only [hx,ne_eq,hnil,not_false_iff,true_and]
        refine rel_map_left (fromString_other h.records (hd.others hname hb) x (nodeText y it.2)) fun {r j'} hr => ?_
        obtain ⟨⟨x',hx'⟩,hrec,hvs⟩ := hr
        refine ⟨hrec,?_,fun {name} hn => ?_⟩
        · rw [hvs]
          exact (SortedMap.find_assign _ _ _ _).trans ((if_neg (Ne.symm hname)).trans hlogs)
        · rw [SortedMap.find_assign]
          split_ifs with he
          · rw [he,hb]
            exact .some ⟨x',hx'⟩
          · exact h.others hn

/-- A document: first the reports of its names, then its nodes. -/
theorem Tells.step (hd : Registered y renderTime reported datas) (h : Tells y renderTime reported datas s j)
    (a : Act) : Option.Rel (Tells y renderTime reported datas) (step y renderTime reported s a)
      (j.step y renderTime reported datas a) := by
  cases a with
  | load root =>
    rw [Loading.step,Reports.loadFromYaml,Config.listAllMember_nil]
    have hnames := rel_foldlM
      (R := fun c j' => Tells y renderTime reported datas ⟨s.datas,c⟩ j')
      (fun it (_ : it ∈ invalidNames [] root) {_ _} hc => Tells.invalidName hc it) h
    refine rel_map_left (R := fun r j' => Tells y renderTime reported datas ⟨r.1,r.2⟩ j') ?_ id
    refine rel_bind hnames fun {c j'} hc => rel_foldlM (fun it hit {_ _} hr => ?_) hc
    exact Tells.loadNode hd hr (validName_of_mem_visited hit)
  | getLogger name => exact .some (h.getLogger name)
  | log event =>
    refine rel_map_left ((h.getLogger event.loggerName).log ?_ event) id
    exact (find_getLogger _ _ _).trans (if_pos rfl)

theorem tells_run (hd : Registered y renderTime reported datas) (acts : List Act) :
    Option.Rel (Tells y renderTime reported datas) (acts.foldlM (step y renderTime reported) (start datas))
      (acts.foldlM (Journal.step y renderTime reported datas) .start) :=
  rel_foldlM (fun a _ {_ _} h => h.step hd a) (tells_start hd)

section Values
variable {j' : Journal}

variable (y) in
/-- The value that a visited node has for the variable, if it is one of its nodes. -/
def valueOf (it : Text × Node) : Option LogDefines :=
  if it.1 = logsName then ((LogDefines.cast y).fromStr (nodeText y it.2)).toOption else none

variable (y) in
def values : Act → List LogDefines
  | .load root => (visited root).flatMap fun it => (valueOf y it).toList
  | .getLogger _ | .log _ => []

variable (y) in
/-- The values of all documents, in the order of their nodes. -/
def loaded (acts : List Act) : List LogDefines := acts.flatMap (values y)

theorem values_log {name : Text} {event : LogEvent} (h : j.log renderTime name event = some j') :
    j'.values = j.values := by
  rw [Journal.log] at h
  split_ifs at h
  exact (Option.some.inj h) ▸ rfl

theorem values_report {name : Text} {r : Report} (h : j.report renderTime reported name r = some j') :
    j'.values = j.values := by
  obtain ⟨j₁,hj₁,rfl⟩ := Option.map_eq_some_iff.mp h
  exact (values_log hj₁ :)

theorem values_assign {v : LogDefines} (h : j.assign renderTime reported v = some j') :
    j'.values = j.values ++ [v] := by
  obtain ⟨j₁,hj₁,rfl⟩ := Option.map_eq_some_iff.mp h
  split_ifs at hj₁
  · exact (Option.some.inj hj₁) ▸ rfl
  · exact congrArg (· ++ [v]) (values_report hj₁)

theorem values_loadNode {it : Text × Node} (h : j.loadNode y renderTime reported datas it = some j') :
    j'.values = j.values ++ (valueOf y it).toList := by
  rw [Journal.loadNode] at h
  by_cases hname : it.1 = logsName
  · simp only [if_pos hname] at h
    rw [valueOf,if_pos hname]
    cases hdec : (LogDefines.cast y).fromStr (nodeText y it.2) with
    | ok v => rw [hdec] at h; exact values_assign h
    | error _ => rw [hdec] at h; exact (values_report h).trans (List.append_nil _).symm
  · simp only [if_neg hname] at h
    rw [valueOf,if_neg hname,Option.toList_none,List.append_nil]
    cases hb : datas.find it.1 with
    | none => rw [hb] at h; exact (Option.some.inj h) ▸ rfl
    | some b =>
      simp only [hb] at h
      split_ifs at h
      · exact values_report h
      · exact (Option.some.inj h) ▸ rfl

theorem values_step {a : Act} (h : j.step y renderTime reported datas a = some j') :
    j'.values = j.values ++ values y a := by
  cases a with
  | load root =>
    obtain ⟨j₁,hj₁,hj'⟩ := Option.bind_eq_some_iff.mp h
    have hnames := foldlM_appends (p := Journal.values) (q := fun _ => [])
      (fun _ _ _ hr => (values_report hr).trans (List.append_nil _).symm) hj₁
    rw [foldlM_appends (p := Journal.values) (fun _ _ _ hr => values_loadNode hr) hj',hnames]
    simp [values]
  | getLogger name => exact (Option.some.inj h) ▸ (List.append_nil _).symm
  | log event => exact (values_log h).trans (List.append_nil _).symm

end Values

/-- Every logger is what the documents make of it, whatever they have changed before and
whatever they have wrong. -/
theorem configured_of_loaded (hd : Registered y renderTime reported datas) {acts : List Act}
    (h : acts.foldlM (step y renderTime reported) (start datas) = some s) :
    s.console.manager.Shows (loaded y acts) ∧
      s.datas.find logsName = some (logsVar y renderTime reported (current (loaded y acts))) := by
  have hrun := tells_run hd acts
  rw [h] at hrun
  obtain ⟨j,hj,htells⟩ := exists_of_rel hrun
  have hvalues : j.values = loaded y acts := foldlM_appends (p := Journal.values) (fun _ _ _ hr => values_step hr) hj
  exact ⟨hvalues ▸ htells.records.shows,hvalues ▸ htells.logs⟩

end Load

/-- A registry with nothing else in it. -/
def registered : ConfigVarMap Console :=
  SortedMap.empty.assign logsName (logsVar LogDefines.systemYaml (fun f _ => f) (fun _ _ => plainEvent) .empty)

theorem registered_registered :
    Registered LogDefines.systemYaml (fun f _ => f) (fun _ _ => plainEvent) registered := by
  refine ⟨by rw [registered,SortedMap.find_assign,if_pos rfl],fun {name b} hn hb => ?_⟩
  rw [registered,SortedMap.find_assign,if_neg hn] at hb
  cases hb

/-- A document that sends the lines of one logger to a file. -/
def systemDocument : Node := .map [(.scalar logsName,.sequence [(LogDefines.systemDefine .unkonw).toNode])]

def systemActs : List Act := [.load systemDocument,.log { plainEvent with loggerName := systemName }]

theorem systemDocument_loaded : ∃ s,
    systemActs.foldlM (step LogDefines.systemYaml (fun f _ => f) (fun _ _ => plainEvent)) (start registered) =
      some s ∧ s.console.manager.Shows (loaded LogDefines.systemYaml systemActs) := by
  have h : (systemActs.foldlM (step LogDefines.systemYaml (fun f _ => f) (fun _ _ => plainEvent))
    (start registered)).isSome = true := by decide +kernel
  exact ⟨_,(Option.some_get h).symm,(configured_of_loaded registered_registered (Option.some_get h).symm).1⟩

end Zcs.Log.Loading
