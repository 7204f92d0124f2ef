import Zcs.Foundation.Answers
import Zcs.Log.Logger

/-! # One logger for a name

`GetLogger` step by step, with the manager's lock taken. Static initialisers of all
translation units and all threads call it; what they are told is the same for the same
name, whoever comes first.
-/
namespace Zcs.Log.Names

inductive Loc where
  | find (name : Text)
  | found (l : ℕ)
  | construct (name : Text)
  | setRoot (name : Text) (l : ℕ)
  | insert (name : Text) (l : ℕ)

/-- `LoggerManager::GetLogger` as it stands in the source. -/
def methods : Methods LoggerManager Text Text ℕ Loc where
  init name := name
  mode _ := .exclusive
  enter := .find
  read _ _ := none
  write
    | .find name, m => some (match m.names.find name with
      | some l => .found l
      | none => .construct name,m)
    | .construct name, m =>
      some (.setRoot name m.loggers.next,{ m with loggers := m.loggers.alloc (Logger.new name) })
    | .setRoot name l, m =>
      some (.insert name l,{ m with loggers := m.loggers.modify l fun lg => { lg with root := some m.root } })
    | .insert name l, m => some (.found l,{ m with names := m.names.assign name l })
    | .found _, _ => none
  leave
    | .found l => .inr l
    | .find name | .construct name | .setRoot name _ | .insert name _ => .inl name

/-- The same in one moment. -/
def object : Object LoggerManager Text Text ℕ where
  init name := name
  act name m :=
    let r := m.getLogger name
    (r.1,.inr r.2)

/-- Where a thread can be in a section that began in the state `m` and has made it `m'`. -/
inductive At (m m' : LoggerManager) : Text → Loc → Prop
  | find (name : Text) (h : m' = m) : At m m' name (.find name)
  | found (name : Text) (l : ℕ) (h : m.getLogger name = (m',l)) : At m m' name (.found l)
  | construct (name : Text) (h : m' = m) (hn : m.names.find name = none) : At m m' name (.construct name)
  | setRoot (name : Text) (h : m' = { m with loggers := m.loggers.alloc (Logger.new name) })
    (hn : m.names.find name = none) : At m m' name (.setRoot name m.loggers.next)
  | insert (name : Text) (h : m' = { m with loggers := m.loggers.alloc { Logger.new name with root := some m.root } })
    (hn : m.names.find name = none) : At m m' name (.insert name m.loggers.next)

theorem at_write {m m' m₂ : LoggerManager} {name : Text} {l l' : Loc} (hl : At m m' name l)
    (hw : methods.write l m' = some (l',m₂)) : At m m₂ name l' := by
  cases hl <;> simp only [methods,reduceCtorEq,Option.some.injEq,Prod.mk.injEq] at hw
  case find h =>
    obtain ⟨rfl,rfl⟩ := hw
    subst h
    cases hn : m'.names.find name with
    | none => exact .construct name rfl hn
    | some l => exact .found name l (by simp [LoggerManager.getLogger,hn])
  case construct h hn =>
    obtain ⟨rfl,rfl⟩ := hw
    subst h
    exact .setRoot name rfl hn
  case setRoot h hn =>
    obtain ⟨rfl,rfl⟩ := hw
    subst h
    exact .insert name (by rw [Heap.modify_alloc_next]) hn
  case insert h hn =>
    obtain ⟨rfl,rfl⟩ := hw
    subst h
    exact .found name _ (by simp [LoggerManager.getLogger,hn])

theorem at_writeEnd {m m' : LoggerManager} {name : Text} {l : Loc} (hl : At m m' name l)
    (hw : methods.write l m' = none) : object.act name m = (m',methods.leave l) := by
  cases hl <;> simp only [methods,reduceCtorEq] at hw
  case found h => simp [object,methods,h]

theorem methods_implements : methods.Implements object :=
  .of_invariant (fun name m l m' => At m m' name l) rfl (fun name _ => .find name rfl) (fun h => nomatch h)
    (fun _ hl hw => at_write hl hw) (fun h => nomatch h) (fun _ hl hw => at_writeEnd hl hw)

/-- What was there in the beginning is kept. -/
structure Grown (m m' : LoggerManager) : Prop where
  wired : m'.Wired
  root : m'.root = m.root
  names : ∀ {name l}, m.names.find name = some l → m'.names.find name = some l

/-- Once a name has a logger, no call gives it another. -/
theorem find_kept {m : LoggerManager} {name : Text} {l : ℕ} (h : m.names.find name = some l) (other : Text) :
    (m.getLogger other).1.names.find name = some l := by
  rw [LoggerManager.find_getLogger]
  split_ifs with hname
  · subst hname
    simp [LoggerManager.getLogger,h]
  · exact h

theorem root_getLogger (m : LoggerManager) (name : Text) : (m.getLogger name).1.root = m.root := by
  unfold LoggerManager.getLogger
  split <;> rfl

theorem object_settles (m : LoggerManager) :
    object.Settles (Grown m) (fun name p => p = name) fun name l m' => m'.names.find name = some l where
  init _ := rfl
  keeps name h := ⟨h.wired.getLogger name,(root_getLogger _ name).trans h.root,fun hl => find_kept (h.names hl) name⟩
  lasts other _ hl := find_kept hl other
  goesOn _ _ h := by cases h
  ends {m' name p l} _ hp h := by
    subst hp
    obtain rfl := Sum.inr.inj h
    simp [object,LoggerManager.find_getLogger]

section Runs
variable {ι : Type} [DecidableEq ι]

abbrev State (ι : Type) := Methods.State ι LoggerManager Text ℕ Loc

/-- The calls of `GetLogger` of any number of threads, in any interleaving of their steps. -/
abbrev Use (m : LoggerManager) (as : List (ThreadStep ι Text ℕ)) (s : State ι) : Prop :=
  Runs methods.next (fun _ _ => True) (Methods.start m) as s

/-- The names asked for with the loggers that were returned. -/
def told (as : List (ThreadStep ι Text ℕ)) : List (Text × ℕ) :=
  answers (fun _ => none) (as.filterMap ThreadStep.observed)

/-- All calls for a name return one logger, and calls for two names return two. A name that
has a logger keeps it, asked for or not. -/
theorem one_logger {m : LoggerManager} (hm : m.Wired) {as : List (ThreadStep ι Text ℕ)} {s : State ι}
    (h : Use m as s) :
    (∀ a ∈ told as, ∀ b ∈ told as, a.1 = b.1 ↔ a.2 = b.2) ∧
    (∀ a ∈ told as, ∀ l, m.names.find a.1 = some l → a.2 = l) ∧
    (s.mutex.writer = none → s.data.Wired ∧
      (∀ name l, m.names.find name = some l → s.data.names.find name = some l) ∧
      ∀ a ∈ told as, s.data.names.find a.1 = some a.2 ∧
      ∃ lg, s.data.loggers.get a.2 = some lg ∧ lg.name = a.1 ∧ (a.2 ≠ m.root → lg.root = some m.root)) ∧
    ∀ i p, s.status i = .pending p → ∃ j, (methods.next s (.run j)).isSome = true := by
  obtain ⟨m',hdata,hgrown,htold⟩ := (object_settles m).answers_methods methods_implements ⟨hm,rfl,id⟩ h
  refine ⟨fun a ha b hb => ⟨fun hab => ?_,fun hab => ?_⟩,fun a ha l hl => ?_,fun hw => ?_,fun i p hp => ?_⟩
  · exact Option.some.inj ((htold a ha).symm.trans (hab ▸ htold b hb))
  · exact hgrown.wired.name_unique (htold a ha) (hab ▸ htold b hb)
  · exact Option.some.inj ((htold a ha).symm.trans (hgrown.names hl))
  · rw [hdata hw]
    refine ⟨hgrown.wired,fun _ _ hl => hgrown.names hl,fun a ha => ⟨htold a ha,?_⟩⟩
    obtain ⟨lg,hlg,hname,hroot⟩ := hgrown.wired.named _ _ (htold a ha)
    exact ⟨lg,hlg,hname,fun hne => hgrown.root ▸ hroot (hgrown.root.symm ▸ hne)⟩
  · obtain ⟨_,_,_,hR,_⟩ := Methods.refines methods_implements h
    exact hR.can_run hp

end Runs

/-- Two threads ask for a new name at once. -/
def together : List (ThreadStep ℕ Text ℕ) :=
  [.event 0 (.call "net".toList),.event 1 (.call "net".toList)] ++ List.replicate 6 (.run 1) ++
    List.replicate 3 (.run 0) ++ [.event 0 (.ret 1),.event 1 (.ret 1)]

theorem together_one_logger : ∃ s : State ℕ, Use .new together s ∧
    told together = [("net".toList,1),("net".toList,1)] ∧ s.data.Wired ∧ s.data.names.find "net".toList = some 1 := by
  have h := Runs.of_exec methods.next (fun _ _ => True) (Methods.start .new) together (by decide)
  obtain ⟨_,_,hdone,_⟩ := one_logger LoggerManager.wired_new h
  obtain ⟨hwired,_,htold⟩ := hdone (by decide)
  exact ⟨_,h,by decide,hwired,(htold ("net".toList,1) (by decide)).1⟩

end Zcs.Log.Names
