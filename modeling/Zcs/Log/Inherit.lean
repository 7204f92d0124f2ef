import Zcs.Log.Delivery
import Zcs.Log.LoggerView

/-! # Inherited formatters

An appender without a formatter of its own holds a copy of its logger's pointer.
The copy is refreshed when the logger's formatter is set, and written by
`AddAppender` only over a null pointer. The system of this module is made of loggers
and appenders that user code creates, attaches, detaches and sets formatters on.
-/
namespace Zcs.Log

namespace LoggerManager

def newLogger (s : LoggerManager) (name : Text) : LoggerManager :=
  { s with loggers := s.loggers.alloc (Logger.new name) }

def setAppenderFormatter (s : LoggerManager) (a : ℕ) (f : Option LogFormatter) : LoggerManager :=
  { s with appenders := s.appenders.modify a (·.setFormatter f) }

def Attached (s : LoggerManager) (a : ℕ) : Prop := ∃ l < s.loggers.next, a ∈ s.appendersOf l

instance (s : LoggerManager) (a : ℕ) : Decidable (s.Attached a) := Nat.decidableExistsLT _

theorem attached_iff {s : LoggerManager} {a : ℕ} :
    s.Attached a ↔ ∃ l lg, s.loggers.get l = some lg ∧ a ∈ lg.appenders := by
  constructor
  · rintro ⟨l,_,ha⟩
    cases hl : s.loggers.get l with
    | none => simp [appendersOf,hl] at ha
    | some lg => exact ⟨l,lg,hl,by simpa [appendersOf,hl] using ha⟩
  · rintro ⟨l,lg,hl,ha⟩
    exact ⟨l,Heap.lt_next hl,by simpa [appendersOf,hl] using ha⟩

end LoggerManager

/-- `given a` is what `LogAppender::SetFormatter` was last called with on `a`. -/
structure Inheritance where
  manager : LoggerManager
  given : ℕ → Option LogFormatter

namespace Inheritance
open LoggerManager

def start : Inheritance := ⟨.new,fun _ => none⟩

def setManager (s : Inheritance) (m : LoggerManager) : Inheritance := { s with manager := m }

inductive Act where
  | newLogger (name : Text)
  | getLogger (name : Text)
  | newAppender (kind : AppenderKind)
  | addAppender (l a : ℕ)
  | delAppender (l a : ℕ)
  | clearAppender (l : ℕ)
  | setFormatter (l : ℕ) (f : LogFormatter)
  | setFormatterText (l : ℕ) (format : Text)
  | setAppenderFormatter (a : ℕ) (f : Option LogFormatter)

/-- One call; `none` for an address that is no object. -/
def step (s : Inheritance) : Act → Option Inheritance
  | .newLogger name => some (s.setManager (s.manager.newLogger name))
  | .getLogger name => some (s.setManager (s.manager.getLogger name).1)
  | .newAppender kind => some (s.setManager (s.manager.newAppender { kind := kind }))
  | .addAppender l a =>
    if (s.manager.loggers.get l).isSome ∧ (s.manager.appenders.get a).isSome then
      some (s.setManager (s.manager.addAppender l a))
    else none
  | .delAppender l a =>
    if (s.manager.loggers.get l).isSome then some (s.setManager (s.manager.delAppender l a)) else none
  | .clearAppender l =>
    if (s.manager.loggers.get l).isSome then some (s.setManager (s.manager.clearAppender l)) else none
  | .setFormatter l f =>
    if (s.manager.loggers.get l).isSome then some (s.setManager (s.manager.setFormatter l f)) else none
  | .setFormatterText l format =>
    if (s.manager.loggers.get l).isSome then
      some (s.setManager (s.manager.setFormatterText l format))
    else none
  | .setAppenderFormatter a f =>
    if (s.manager.appenders.get a).isSome then
      some ⟨s.manager.setAppenderFormatter a f,Function.update s.given a f⟩
    else none

/-- An appender is attached to at most one logger at a time. -/
def OneLogger (s : Inheritance) : Act → Prop
  | .addAppender l a => ∀ k < s.manager.loggers.next, k ≠ l → a ∉ s.manager.appendersOf k
  | _ => True

instance (s : Inheritance) : ∀ a, Decidable (OneLogger s a)
  | .addAppender l a => inferInstanceAs
    (Decidable (∀ k < s.manager.loggers.next, k ≠ l → a ∉ s.manager.appendersOf k))
  | .newLogger _ | .getLogger _ | .newAppender _ | .delAppender _ _ | .clearAppender _
  | .setFormatter _ _ | .setFormatterText _ _ | .setAppenderFormatter _ _ => inferInstanceAs (Decidable True)

/-- The appender has a formatter, its own or else the logger's. -/
def Carries (s : Inheritance) (f : LogFormatter) (a : ℕ) : Prop :=
  ∃ ap g, s.manager.appenders.get a = some ap ∧ ap.formatter = some g ∧
    (ap.hasFormatter = true → s.given a = some g) ∧ (ap.hasFormatter = false → g = f)

def Inherits (s : Inheritance) : Prop :=
  ∀ l lg, s.manager.loggers.get l = some lg → ∀ a ∈ lg.appenders, s.Carries lg.formatter a

/-- A call that leaves no stale or null copy behind: an appender that is added
without its own formatter has none or the logger's, and no attached appender's
formatter is taken away. -/
def Refreshes (s : Inheritance) : Act → Prop
  | .addAppender l a => ∀ lg ∈ s.manager.loggers.get l, ∀ ap ∈ s.manager.appenders.get a,
    ap.hasFormatter = true ∨ ap.formatter = none ∨ ap.formatter = some lg.formatter
  | .setAppenderFormatter a none => ¬ s.manager.Attached a
  | _ => True

/-- What holds whether or not the copies are fresh. -/
structure Regular (s : Inheritance) : Prop where
  owned : s.manager.Owned
  own : ∀ {a ap}, s.manager.appenders.get a = some ap → ap.hasFormatter = true →
    ∃ f, ap.formatter = some f ∧ s.given a = some f

/-- From `s` to `m` no list grows, no logger's formatter changes, and the appenders
stay as they are but for new ones without a formatter of their own. -/
structure Shrinks (s m : LoggerManager) : Prop where
  lists : ∀ {l lg a}, m.loggers.get l = some lg → a ∈ lg.appenders →
    ∃ lo, s.loggers.get l = some lo ∧ a ∈ lo.appenders ∧ lo.formatter = lg.formatter
  kept : ∀ {a ap}, s.appenders.get a = some ap → m.appenders.get a = some ap
  own : ∀ {a ap}, m.appenders.get a = some ap → ap.hasFormatter = true → s.appenders.get a = some ap

theorem shrinks_alloc (s : LoggerManager) (lg : Logger) (h : lg.appenders = [])
    (names : SortedMap Text ℕ) : Shrinks s { s with loggers := s.loggers.alloc lg, names := names } := by
  refine ⟨?_,fun h => h,fun h _ => h⟩
  intro l lg' a hl ha
  rcases Heap.get_alloc_eq_some_iff.mp hl with ⟨_,rfl⟩ | hl
  · simp [h] at ha
  · exact ⟨lg',hl,ha,rfl⟩

theorem shrinks_getLogger (s : LoggerManager) (name : Text) : Shrinks s (s.getLogger name).1 := by
  unfold LoggerManager.getLogger
  split
  · exact ⟨fun hl ha => ⟨_,hl,ha,rfl⟩,fun h => h,fun h _ => h⟩
  · exact shrinks_alloc s _ rfl _

theorem shrinks_newAppender (s : LoggerManager) (kind : AppenderKind) :
    Shrinks s (s.newAppender { kind := kind }) := by
  refine ⟨fun hl ha => ⟨_,hl,ha,rfl⟩,fun h => Heap.get_alloc_of_get h _,?_⟩
  intro a ap ha hh
  rcases Heap.get_alloc_eq_some_iff.mp ha with ⟨_,rfl⟩ | ha
  · cases hh
  · exact ha

theorem shrinks_modify (s : LoggerManager) (l : ℕ) (f : Logger → Logger)
    (hsub : ∀ lg, (f lg).appenders ⊆ lg.appenders) (hf : ∀ lg, (f lg).formatter = lg.formatter) :
    Shrinks s { s with loggers := s.loggers.modify l f } := by
  refine ⟨?_,fun h => h,fun h _ => h⟩
  intro k lk a hk ha
  rcases Heap.get_modify_eq_some_iff.mp hk with ⟨_,lo,hlo,rfl⟩ | ⟨_,hk⟩
  · exact ⟨lo,hlo,hsub lo ha,(hf lo).symm⟩
  · exact ⟨lk,hk,ha,rfl⟩

theorem Shrinks.regular {s : Inheritance} {m : LoggerManager} (h : Shrinks s.manager m)
    (hs : Regular s) : Regular (s.setManager m) := by
  refine ⟨hs.owned.of_sub (fun hl ha => ?_) (fun a ha => ?_),fun ha hh => hs.own (h.own ha hh) hh⟩
  · obtain ⟨lo,hlo,ha,_⟩ := h.lists hl ha
    exact ⟨lo,hlo,ha⟩
  · obtain ⟨ap,hap⟩ := Option.isSome_iff_exists.mp ha
    exact Option.isSome_of_eq_some (h.kept hap)

theorem Shrinks.inherits {s : Inheritance} {m : LoggerManager} (h : Shrinks s.manager m)
    (hs : Inherits s) : Inherits (s.setManager m) := by
  intro l lg hl a ha
  obtain ⟨lo,hlo,ha,hf⟩ := h.lists hl ha
  obtain ⟨ap,g,hap,hrest⟩ := hs l lo hlo a ha
  exact hf ▸ ⟨ap,g,h.kept hap,hrest⟩

/-- After `SetFormatter` the logger's appenders follow, and all others stay. -/
theorem setFormatter_spec {s : Inheritance} (hs : Regular s) {l : ℕ} {lg : Logger}
    (hl : s.manager.loggers.get l = some lg) (f : LogFormatter) :
    Regular (s.setManager (s.manager.setFormatter l f)) ∧
      (Inherits s → Inherits (s.setManager (s.manager.setFormatter l f))) := by
  have hset : s.manager.setFormatter l f = { s.manager with
      loggers := s.manager.loggers.modify l fun lg => { lg with formatter := f }
      appenders := lg.appenders.foldl (fun h a => h.modify a (·.follow f)) s.manager.appenders } := by
    simp only [LoggerManager.setFormatter,hl]
  have happ : ∀ a, (s.manager.setFormatter l f).appenders.get a = if a ∈ lg.appenders then
      (s.manager.appenders.get a).map (·.follow f) else s.manager.appenders.get a := by
    intro a
    rw [hset,get_foldl_follow]
  constructor
  · refine ⟨(changes_setFormatter hs.owned l f).owned,fun {a ap} ha hh => ?_⟩
    change (s.manager.setFormatter l f).appenders.get a = some ap at ha
    rw [happ] at ha
    split_ifs at ha
    · obtain ⟨ao,hao,rfl⟩ := Option.map_eq_some_iff.mp ha
      by_cases ho : ao.hasFormatter = true
      · obtain ⟨g,hg,hgiven⟩ := hs.own hao ho
        exact ⟨g,by simp [LogAppender.follow,ho,hg],hgiven⟩
      · simp [LogAppender.follow,ho] at hh
    · exact hs.own ha hh
  · intro hi k lk hk a ha
    change (s.manager.setFormatter l f).loggers.get k = some lk at hk
    rw [hset] at hk
    change ∃ ap g, (s.manager.setFormatter l f).appenders.get a = some ap ∧ _
    rw [happ]
    rcases Heap.get_modify_eq_some_iff.mp hk with ⟨rfl,lo,hlo,rfl⟩ | ⟨hkl,hk⟩
    · obtain rfl := Option.some.inj (hl.symm.trans hlo)
      obtain ⟨ap,g,hap,hg,hown,_⟩ := hi k lg hl a ha
      rw [if_pos ha,hap]
      by_cases ho : ap.hasFormatter = true
      · exact ⟨ap,g,by simp [LogAppender.follow,ho],hg,hown,fun hn => absurd ho (by simp [hn])⟩
      · exact ⟨_,f,rfl,by simp [LogAppender.follow,ho],fun hh => by simp [LogAppender.follow,ho] at hh,
          fun _ => rfl⟩
    · have hn : a ∉ lg.appenders := fun h => hkl (hs.owned.apart hk hl ha h)
      rw [if_neg hn]
      exact hi k lk hk a ha

/-- What `AddAppender` leaves of a formatter; the copy is right exactly if it is the
appender's own, or was null, or was this logger's already. -/
theorem carries_added {s : Inheritance} (hs : Regular s) {a : ℕ} {ap : LogAppender}
    (ha : s.manager.appenders.get a = some ap) (f : LogFormatter) :
    (∃ g, (ap.inherit f).formatter = some g ∧
        ((ap.inherit f).hasFormatter = true → s.given a = some g) ∧
        ((ap.inherit f).hasFormatter = false → g = f)) ↔
      ap.hasFormatter = true ∨ ap.formatter = none ∨ ap.formatter = some f := by
  cases hf : ap.formatter with
  | none =>
    have hh : ap.hasFormatter = false := by
      by_contra hh
      obtain ⟨g,hg,_⟩ := hs.own ha (by simpa using hh)
      simp [hf] at hg
    simp [LogAppender.inherit,hf,hh]
  | some g =>
    have hkeep : ap.inherit f = ap := by simp [LogAppender.inherit,hf]
    rw [hkeep]
    cases hh : ap.hasFormatter with
    | false => simp [hf]
    | true =>
      obtain ⟨g',hg',hgiven⟩ := hs.own ha hh
      simp [hg',hgiven]

theorem regular_added {s : Inheritance} {m : LoggerManager} {l a : ℕ} {lg : Logger} {ap : LogAppender}
    (h : Added s.manager m l a lg ap) (hs : Regular s) (hm : m.Owned)
    (ha : s.manager.appenders.get a = some ap) : Regular (s.setManager m) := by
  refine ⟨hm,fun {b bp} hb hh => ?_⟩
  change m.appenders.get b = some bp at hb
  rw [h.appenders] at hb
  split_ifs at hb with hba
  · subst hba
    obtain rfl := Option.some.inj hb
    have hhas : ap.hasFormatter = true := by
      unfold LogAppender.inherit at hh
      split_ifs at hh <;> exact hh
    obtain ⟨g,hg,hgiven⟩ := hs.own ha hhas
    exact ⟨g,by simp [LogAppender.inherit,hg],hgiven⟩
  · exact hs.own hb hh

/-- All others being right, it is the new appender that decides. -/
theorem inherits_added_iff {s : Inheritance} {m : LoggerManager} {l a : ℕ} {lg : Logger} {ap : LogAppender}
    (h : Added s.manager m l a lg ap) (hl : s.manager.loggers.get l = some lg)
    (hone : ∀ {k lk}, s.manager.loggers.get k = some lk → a ∈ lk.appenders → k = l) (hi : Inherits s) :
    Inherits (s.setManager m) ↔ ∃ g, (ap.inherit lg.formatter).formatter = some g ∧
      ((ap.inherit lg.formatter).hasFormatter = true → s.given a = some g) ∧
      ((ap.inherit lg.formatter).hasFormatter = false → g = lg.formatter) := by
  constructor
  · intro ht
    have hl' : m.loggers.get l = some { lg with appenders := lg.appenders ++ [a] } := by
      rw [h.loggers,if_pos rfl]
    obtain ⟨bp,g,hbp,hrest⟩ := ht l _ hl' a (by simp)
    change m.appenders.get a = some bp at hbp
    rw [h.appenders,if_pos rfl] at hbp
    obtain rfl := Option.some.inj hbp
    exact ⟨g,hrest⟩
  · rintro ⟨g,hg⟩ k lk hk b hb
    change m.loggers.get k = some lk at hk
    change ∃ ap g, m.appenders.get b = some ap ∧ _
    rw [h.loggers] at hk
    rw [h.appenders]
    split_ifs at hk with hkl
    · obtain rfl := Option.some.inj hk
      by_cases hba : b = a
      · subst hba
        exact ⟨_,g,if_pos rfl,hg⟩
      · rw [if_neg hba]
        exact hi l lg hl b (by simpa [hba] using hb)
    · have hba : b ≠ a := by
        rintro rfl
        exact hkl (hone hk hb)
      rw [if_neg hba]
      exact hi k lk hk b hb

theorem addAppender_spec {s : Inheritance} (hs : Regular s) {l a : ℕ} {lg : Logger} {ap : LogAppender}
    (hl : s.manager.loggers.get l = some lg) (ha : s.manager.appenders.get a = some ap)
    (hone : ∀ {k lk}, s.manager.loggers.get k = some lk → a ∈ lk.appenders → k = l) :
    Regular (s.setManager (s.manager.addAppender l a)) ∧ (Inherits s →
      (Inherits (s.setManager (s.manager.addAppender l a)) ↔
        ap.hasFormatter = true ∨ ap.formatter = none ∨ ap.formatter = some lg.formatter)) := by
  have h := added_addAppender hl ha
  refine ⟨regular_added h hs (h.owned hl hs.owned hone) ha,fun hi => ?_⟩
  rw [inherits_added_iff h hl hone hi,carries_added hs ha]

/-- A formatter set on an appender is its own; the null pointer takes away an
attached appender's. -/
theorem setAppenderFormatter_spec {s : Inheritance} (hs : Regular s) (a : ℕ) {ap : LogAppender}
    (ha : s.manager.appenders.get a = some ap) (f : Option LogFormatter) :
    let t : Inheritance := ⟨s.manager.setAppenderFormatter a f,Function.update s.given a f⟩
    Regular t ∧ (Inherits s → (Inherits t ↔ (f = none → ¬ s.manager.Attached a))) := by
  intro t
  have happ : ∀ b, t.manager.appenders.get b =
      if b = a then some (ap.setFormatter f) else s.manager.appenders.get b := by
    intro b
    change (s.manager.appenders.modify a (·.setFormatter f)).get b = _
    rw [Heap.get_modify]
    split_ifs with hb
    · rw [hb,ha]
      rfl
    · rfl
  refine ⟨⟨hs.owned.of_sub (fun hl ha => ⟨_,hl,ha⟩) fun b hb => ?_,fun {b bp} hb hh => ?_⟩,fun hi => ?_⟩
  · rw [happ]
    split_ifs
    · rfl
    · exact hb
  · rw [happ] at hb
    split_ifs at hb with hba
    · obtain rfl := Option.some.inj hb
      obtain ⟨g,rfl⟩ := Option.isSome_iff_exists.mp hh
      exact ⟨g,rfl,by simp [t,hba]⟩
    · simpa [t,hba] using hs.own hb hh
  · constructor
    · rintro ht rfl hatt
      obtain ⟨l,lg,hl,hmem⟩ := attached_iff.mp hatt
      obtain ⟨bp,g,hbp,hg,_⟩ := ht l lg hl a hmem
      rw [happ,if_pos rfl] at hbp
      obtain rfl := Option.some.inj hbp
      cases hg
    · intro hnull l lg hl b hb
      unfold Carries
      rw [happ]
      by_cases hba : b = a
      · subst hba
        cases f with
        | none => exact absurd (attached_iff.mpr ⟨l,lg,hl,hb⟩) (hnull rfl)
        | some g => exact ⟨_,g,if_pos rfl,rfl,fun _ => by simp [t],fun hn => by cases hn⟩
      · rw [if_neg hba]
        simpa [t,hba,Carries] using hi l lg hl b hb

theorem Shrinks.spec {s : Inheritance} {m : LoggerManager} (h : Shrinks s.manager m) (hs : Regular s) :
    Regular (s.setManager m) ∧ (Inherits s → (Inherits (s.setManager m) ↔ True)) :=
  ⟨h.regular hs,fun hi => iff_true_intro (h.inherits hi)⟩

theorem step_spec {s t : Inheritance} {a : Act} (hs : Regular s) (hone : OneLogger s a)
    (h : s.step a = some t) : Regular t ∧ (Inherits s → (Inherits t ↔ Refreshes s a)) := by
  cases a with
  | newLogger name =>
    obtain rfl := Option.some.inj h
    exact (shrinks_alloc s.manager _ rfl _).spec hs
  | getLogger name =>
    obtain rfl := Option.some.inj h
    exact (shrinks_getLogger s.manager name).spec hs
  | newAppender kind =>
    obtain rfl := Option.some.inj h
    exact (shrinks_newAppender s.manager kind).spec hs
  | delAppender l a =>
    simp only [step] at h
    split_ifs at h
    obtain rfl := Option.some.inj h
    have hsh : Shrinks s.manager (s.manager.delAppender l a) :=
      shrinks_modify s.manager l _ (fun _ => List.erase_subset) fun _ => rfl
    exact hsh.spec hs
  | clearAppender l =>
    simp only [step] at h
    split_ifs at h
    obtain rfl := Option.some.inj h
    have hsh : Shrinks s.manager (s.manager.clearAppender l) :=
      shrinks_modify s.manager l _ (fun _ => List.nil_subset _) fun _ => rfl
    exact hsh.spec hs
  | setFormatter l f =>
    simp only [step] at h
    split_ifs at h with hl
    obtain rfl := Option.some.inj h
    obtain ⟨lg,hl⟩ := Option.isSome_iff_exists.mp hl
    obtain ⟨hr,hi⟩ := setFormatter_spec hs hl f
    exact ⟨hr,fun h => iff_true_intro (hi h)⟩
  | setFormatterText l format =>
    simp only [step,setFormatterText] at h
    split_ifs at h with hl
    · obtain rfl := Option.some.inj h
      exact ⟨hs,fun h => iff_true_intro h⟩
    · obtain rfl := Option.some.inj h
      obtain ⟨lg,hl⟩ := Option.isSome_iff_exists.mp hl
      obtain ⟨hr,hi⟩ := setFormatter_spec hs hl (.init format)
      exact ⟨hr,fun h => iff_true_intro (hi h)⟩
  | addAppender l a =>
    simp only [step] at h
    split_ifs at h with hla
    obtain rfl := Option.some.inj h
    obtain ⟨lg,hl⟩ := Option.isSome_iff_exists.mp hla.1
    obtain ⟨ap,ha⟩ := Option.isSome_iff_exists.mp hla.2
    have hone' : ∀ {k lk}, s.manager.loggers.get k = some lk → a ∈ lk.appenders → k = l := by
      intro k lk hk hm
      by_contra hne
      exact hone k (Heap.lt_next hk) hne (by simpa [appendersOf,hk] using hm)
    simpa [Refreshes,hl,ha] using addAppender_spec hs hl ha hone'
  | setAppenderFormatter a f =>
    simp only [step] at h
    split_ifs at h with ha
    obtain rfl := Option.some.inj h
    obtain ⟨ap,ha⟩ := Option.isSome_iff_exists.mp ha
    cases f with
    | none => simpa [Refreshes] using setAppenderFormatter_spec hs a ha none
    | some f => simpa [Refreshes] using setAppenderFormatter_spec hs a ha (some f)

theorem regular_start : Regular start := by
  refine ⟨owned_new,fun {a ap} ha hh => ?_⟩
  have hnew : start.manager.appenders = (Heap.empty.alloc { kind := .stdout }).modify 0
      (·.inherit defaultFormatter) := rfl
  rw [hnew] at ha
  by_cases h0 : a = 0
  · subst h0
    obtain rfl := Option.some.inj ha
    cases hh
  · simp [Heap.get_modify,Heap.get_alloc,h0,Heap.empty] at ha

theorem inherits_start : Inherits start := by
  intro l lg hl a ha
  obtain ⟨rfl,rfl⟩ := get_new hl
  obtain rfl := List.mem_singleton.mp ha
  exact ⟨_,_,rfl,rfl,fun h => (by cases h),fun _ => rfl⟩

/-- Throughout a run every attached appender has the right formatter exactly if every
call of the run refreshes the copies; an invalid pattern changes nothing anyway. -/
theorem inherits_iff_refreshes {acts : List Act} {s : Inheritance}
    (h : Runs step OneLogger start acts s) :
    ((∀ pre t, pre <+: acts → Runs step OneLogger start pre t → Inherits t) ↔
        Runs step (fun s a => OneLogger s a ∧ Refreshes s a) start acts s) ∧
      ∀ (t : Inheritance) (l : ℕ) (format : Text), (t.manager.loggers.get l).isSome = true →
        (LogFormatter.init format).isError = true → t.step (.setFormatterText l format) = some t := by
  constructor
  · exact Runs.throughout_iff (fun hj ho hs => (step_spec hj ho hs).1)
      (fun hj hi ho hs => (step_spec hj ho hs).2 hi) h regular_start inherits_start
  · intro t l format hl he
    simp [step,setFormatterText,hl,he,setManager]

/-- An appender added to a logger follows that logger's formatter. -/
theorem inherits_added : ∃ s, Runs step OneLogger start [.getLogger "system".toList,
    .newAppender .stdout,.addAppender 1 1,.setFormatterText 1 "%m".toList] s ∧ Inherits s := by
  have hrun := Runs.of_exec step OneLogger start [.getLogger "system".toList,.newAppender .stdout,
    .addAppender 1 1,.setFormatterText 1 "%m".toList] (by decide)
  refine ⟨_,hrun,(inherits_iff_refreshes hrun).1.mpr ?_ _ _ (List.prefix_refl _) hrun⟩
  refine .step ⟨trivial,trivial⟩ rfl (.step ⟨trivial,trivial⟩ rfl (.step ⟨by decide,?_⟩ rfl
    (.step ⟨trivial,trivial⟩ rfl (.refl _))))
  rintro lg - ap hap
  obtain rfl := Option.some.inj hap
  exact .inr (.inl rfl)

/-- An appender that has been on another logger keeps that logger's formatter. -/
theorem moved_not_inherits : ¬ ∀ (acts : List Act) (s : Inheritance),
    Runs step OneLogger start acts s → Inherits s := by
  intro h
  have hrun := Runs.of_exec step OneLogger start [.getLogger "system".toList,
    .setFormatterText 1 "%m".toList,.newAppender .stdout,.addAppender 1 1,.delAppender 1 1,
    .addAppender 0 1] (by decide)
  obtain ⟨ap,g,hap,hg,_,hinherited⟩ := h _ _ hrun 0 _ rfl 1 (by decide)
  obtain rfl := Option.some.inj hap
  have hdefault : g = defaultFormatter := hinherited rfl
  have hother : g = LogFormatter.init "%m".toList := (Option.some.inj hg).symm
  have hp := congrArg LogFormatter.pattern (hdefault.symm.trans hother)
  revert hp
  decide

end Inheritance
end Zcs.Log
