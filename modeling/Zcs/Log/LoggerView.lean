import Zcs.Log.Initer

/-! # Loggers as values

Seen from outside, a logger is its level, its formatter and the list of its
appenders as values. This is the level at which a configuration speaks. Each method
is shown to change one such view and no other; what makes this true of the shared
objects is that no two loggers hold the same appender.
-/
namespace Zcs.Log

structure LoggerView where
  level : LogLevel
  formatter : LogFormatter
  appenders : List LogAppender

def LoggerView.created : LoggerView := ⟨.debug,defaultFormatter,[]⟩

namespace LoggerManager

def view (s : LoggerManager) (l : ℕ) : Option LoggerView :=
  (s.loggers.get l).map fun lg => ⟨lg.level,lg.formatter,lg.appenders.filterMap s.appenders.get⟩

def configOf (s : LoggerManager) (name : Text) : Option LoggerView := (s.names.find name).bind s.view

/-- Appender addresses are addresses of objects, and no two loggers share one. -/
structure Owned (s : LoggerManager) : Prop where
  allocated : ∀ {l lg a}, s.loggers.get l = some lg → a ∈ lg.appenders → (s.appenders.get a).isSome = true
  apart : ∀ {l k lg lk a}, s.loggers.get l = some lg → s.loggers.get k = some lk →
    a ∈ lg.appenders → a ∈ lk.appenders → l = k

theorem owned_new : Owned new := by
  constructor
  · intro l lg a hl ha
    obtain ⟨rfl,rfl⟩ := get_new hl
    obtain rfl := List.mem_singleton.mp ha
    rfl
  · intro l k lg lk a hl hk _ _
    rw [(get_new hl).1,(get_new hk).1]

theorem Owned.of_sub {s t : LoggerManager} (ho : Owned s)
    (hback : ∀ {l lg a}, t.loggers.get l = some lg → a ∈ lg.appenders →
      ∃ lo, s.loggers.get l = some lo ∧ a ∈ lo.appenders)
    (happ : ∀ a, (s.appenders.get a).isSome = true → (t.appenders.get a).isSome = true) : Owned t := by
  constructor
  · intro l lg a hl ha
    obtain ⟨lo,hlo,ha⟩ := hback hl ha
    exact happ a (ho.allocated hlo ha)
  · intro l k lg lk a hl hk ha ha'
    obtain ⟨lo,hlo,ha⟩ := hback hl ha
    obtain ⟨lp,hlp,ha'⟩ := hback hk ha'
    exact ho.apart hlo hlp ha ha'

/-- From `s` to `t` exactly the view of logger `l` changes, by `f`. -/
structure Changes (s t : LoggerManager) (l : ℕ) (f : LoggerView → LoggerView) : Prop where
  shape : SameShape s t
  owned : Owned t
  view : ∀ k, t.view k = if k = l then (s.view k).map f else s.view k

theorem Changes.trans {s t u : LoggerManager} {l : ℕ} {f g : LoggerView → LoggerView}
    (h : Changes s t l f) (h' : Changes t u l g) : Changes s u l (g ∘ f) := by
  refine ⟨h.shape.trans h'.shape,h'.owned,fun k => ?_⟩
  rw [h'.view,h.view]
  split_ifs <;> simp

theorem Changes.refl {s : LoggerManager} (ho : Owned s) (l : ℕ) : Changes s s l id := by
  refine ⟨.refl s,ho,fun k => ?_⟩
  split_ifs <;> simp

theorem changes_modify {s : LoggerManager} (ho : Owned s) (l : ℕ) (f : Logger → Logger)
    (g : LoggerView → LoggerView) (hf : ∀ lg, (f lg).name = lg.name ∧ (f lg).root = lg.root)
    (hsub : ∀ lg, (f lg).appenders ⊆ lg.appenders)
    (hg : ∀ lg, g ⟨lg.level,lg.formatter,lg.appenders.filterMap s.appenders.get⟩ =
      ⟨(f lg).level,(f lg).formatter,(f lg).appenders.filterMap s.appenders.get⟩) :
    Changes s { s with loggers := s.loggers.modify l f } l g := by
  refine ⟨sameShape_modify s l f s.appenders hf,ho.of_sub (fun {k lk a} hk ha => ?_) (fun _ h => h),fun k => ?_⟩
  · rcases Heap.get_modify_eq_some_iff.mp hk with ⟨_,lo,hlo,rfl⟩ | ⟨_,hk⟩
    · exact ⟨lo,hlo,hsub lo ha⟩
    · exact ⟨lk,hk,ha⟩
  · simp only [LoggerManager.view,Heap.get_modify]
    split_ifs
    · cases s.loggers.get k <;> simp [hg]
    · rfl

theorem changes_setLevel {s : LoggerManager} (ho : Owned s) (l : ℕ) (level : LogLevel) :
    Changes s (s.setLevel l level) l fun v => { v with level := level } :=
  changes_modify ho l _ _ (fun _ => ⟨rfl,rfl⟩) (fun _ => List.Subset.refl _) (fun _ => rfl)

theorem changes_clearAppender {s : LoggerManager} (ho : Owned s) (l : ℕ) :
    Changes s (s.clearAppender l) l fun v => { v with appenders := [] } :=
  changes_modify ho l _ _ (fun _ => ⟨rfl,rfl⟩) (fun _ => List.nil_subset _) (fun _ => rfl)

/-- A pass over a list of addresses changes the objects of that list only, and
each at most once in effect. -/
theorem get_foldl_follow (f : LogFormatter) (as : List ℕ) (h : Heap LogAppender) (i : ℕ) :
    (as.foldl (fun h a => h.modify a (·.follow f)) h).get i =
      if i ∈ as then (h.get i).map (·.follow f) else h.get i := by
  have hidem : ∀ a : LogAppender, (a.follow f).follow f = a.follow f := by
    intro a
    unfold LogAppender.follow
    split_ifs <;> simp_all
  induction as generalizing h with
  | nil => simp
  | cons a as ih =>
    rw [List.foldl_cons,ih,Heap.get_modify]
    by_cases hia : i = a
    · by_cases hi : i ∈ as <;> cases h.get i <;> simp [hia,hidem]
    · simp [hia]

theorem changes_setFormatter {s : LoggerManager} (ho : Owned s) (l : ℕ) (f : LogFormatter) :
    Changes s (s.setFormatter l f) l fun v =>
      { v with formatter := f, appenders := v.appenders.map (·.follow f) } := by
  refine ⟨sameShape_setFormatter s l f,?_,?_⟩
  all_goals
    unfold setFormatter
    cases hl : s.loggers.get l with
    | none => ?_
    | some lg => ?_
  · exact ho
  · refine ho.of_sub (fun {k lk a} hk ha => ?_) fun a h => ?_
    · rcases Heap.get_modify_eq_some_iff.mp hk with ⟨_,lo,hlo,rfl⟩ | ⟨_,hk⟩
      · exact ⟨lo,hlo,ha⟩
      · exact ⟨lk,hk,ha⟩
    · rw [get_foldl_follow]
      split_ifs <;> simpa using h
  · intro k
    by_cases hk : k = l
    · simp [hk,LoggerManager.view,hl]
    · simp [hk]
  · intro k
    by_cases hk : k = l
    · subst hk
      have hmap : lg.appenders.filterMap (fun a => (s.appenders.get a).map (·.follow f)) =
          (lg.appenders.filterMap s.appenders.get).map (·.follow f) := by
        rw [List.map_filterMap]
      simp only [LoggerManager.view,hl,Heap.get_modify_self,Option.map_some,↓reduceIte,← hmap]
      congr 2
      apply List.filterMap_congr
      intro a ha
      rw [get_foldl_follow,if_pos ha]
    · simp only [LoggerManager.view,Heap.get_modify_ne _ _ hk,if_neg hk]
      cases hlk : s.loggers.get k with
      | none => rfl
      | some lk =>
        simp only [Option.map_some]
        congr 2
        apply List.filterMap_congr
        intro a ha
        rw [get_foldl_follow,if_neg fun h => hk (ho.apart hlk hl ha h)]

/-- The formatter after `SetFormatter(text)`: an invalid pattern is not taken. -/
def validOr (format : Text) (f : LogFormatter) : LogFormatter :=
  if (LogFormatter.init format).isError then f else .init format

theorem changes_setFormatterText {s : LoggerManager} (ho : Owned s) (l : ℕ) (format : Text) :
    ∃ g : LoggerView → LoggerView, Changes s (s.setFormatterText l format) l g ∧
      ∀ v, (g v).level = v.level ∧ (g v).formatter = validOr format v.formatter := by
  unfold setFormatterText validOr
  dsimp only
  split_ifs
  · exact ⟨id,.refl ho l,fun v => ⟨rfl,rfl⟩⟩
  · exact ⟨_,changes_setFormatter ho l _,fun v => ⟨rfl,rfl⟩⟩

/-- What an appender of a define should be in a logger whose formatter is `f`. -/
def expectedAppender (f : LogFormatter) (a : LogAppenderDefine) : Option LogAppender :=
  let own := LogFormatter.init a.formatter
  let make (kind : AppenderKind) : LogAppender :=
    if a.formatter ≠ [] ∧ own.isError = false then ⟨kind,a.level,true,some own⟩
    else ⟨kind,a.level,false,some f⟩
  if a.type = 1 then some (make (.file a.file))
  else if a.type = 2 then some (make .stdout)
  else none

theorem expectedAppender_eq (f : LogFormatter) (a : LogAppenderDefine) :
    expectedAppender f a = (makeAppender a).map (·.inherit f) := by
  have hown : ∀ kind : AppenderKind, LogAppender.inherit f
      (let ap := LogAppender.setLevel { kind := kind } a.level
       if a.formatter.isEmpty then ap
       else
         let fmt := LogFormatter.init a.formatter
         if !fmt.isError then ap.setFormatter (some fmt) else ap) =
      if a.formatter ≠ [] ∧ (LogFormatter.init a.formatter).isError = false then
        ⟨kind,a.level,true,some (LogFormatter.init a.formatter)⟩
      else ⟨kind,a.level,false,some f⟩ := by
    intro kind
    by_cases he : a.formatter = []
    · simp [he,LogAppender.setLevel,LogAppender.inherit]
    · cases hb : (LogFormatter.init a.formatter).isError <;>
        simp [he,hb,LogAppender.setLevel,LogAppender.setFormatter,LogAppender.inherit]
  unfold expectedAppender makeAppender
  dsimp only
  by_cases h1 : a.type = 1
  · simp only [h1,↓reduceIte,Option.map_some]
    exact congrArg some (hown _).symm
  · by_cases h2 : a.type = 2
    · simp only [h2,↓reduceIte]
      exact congrArg some (hown _).symm
    · simp [h1,h2]

theorem Owned.ne_next {s : LoggerManager} (ho : Owned s) {l a : ℕ} {lg : Logger}
    (hl : s.loggers.get l = some lg) (ha : a ∈ lg.appenders) : a ≠ s.appenders.next := by
  obtain ⟨ap,hap⟩ := Option.isSome_iff_exists.mp (ho.allocated hl ha)
  exact Nat.ne_of_lt (Heap.lt_next hap)

theorem Owned.newAppender {s : LoggerManager} (ho : Owned s) (ap : LogAppender) :
    Owned (s.newAppender ap) := by
  refine ho.of_sub (fun hl ha => ⟨_,hl,ha⟩) fun a h => ?_
  obtain ⟨old,hold⟩ := Option.isSome_iff_exists.mp h
  exact Option.isSome_of_eq_some (Heap.get_alloc_of_get hold ap)

theorem view_newAppender {s : LoggerManager} (ho : Owned s) (ap : LogAppender) (k : ℕ) :
    (s.newAppender ap).view k = s.view k := by
  unfold view newAppender
  cases hk : s.loggers.get k with
  | none => rfl
  | some lg =>
    simp only [Option.map_some]
    congr 2
    apply List.filterMap_congr
    intro a ha
    rw [Heap.get_alloc,if_neg (ho.ne_next hk ha)]

/-- From `s` to `t` the appender `a` has been added to the logger `l`. -/
structure Added (s t : LoggerManager) (l a : ℕ) (lg : Logger) (ap : LogAppender) : Prop where
  appenders : ∀ b, t.appenders.get b = if b = a then some (ap.inherit lg.formatter) else s.appenders.get b
  loggers : ∀ k, t.loggers.get k =
    if k = l then some { lg with appenders := lg.appenders ++ [a] } else s.loggers.get k

theorem added_addAppender {s : LoggerManager} {l a : ℕ} {lg : Logger} {ap : LogAppender}
    (hl : s.loggers.get l = some lg) (ha : s.appenders.get a = some ap) :
    Added s (s.addAppender l a) l a lg ap := by
  simp only [addAppender,hl]
  constructor
  · intro b
    rw [Heap.get_modify]
    split_ifs with hb
    · rw [hb,ha]
      rfl
    · rfl
  · intro k
    rw [Heap.get_modify]
    split_ifs with hk
    · rw [hk,hl]
      rfl
    · rfl

theorem Added.mem {s t : LoggerManager} {l a : ℕ} {lg : Logger} {ap : LogAppender} (h : Added s t l a lg ap)
    (hl : s.loggers.get l = some lg) {k b : ℕ} {lk : Logger} (hk : t.loggers.get k = some lk)
    (hb : b ∈ lk.appenders) : (b = a ∧ k = l) ∨ ∃ lo, s.loggers.get k = some lo ∧ b ∈ lo.appenders := by
  rw [h.loggers] at hk
  split_ifs at hk with hkl
  · obtain rfl := Option.some.inj hk
    rcases List.mem_append.mp hb with hb | hb
    · exact .inr ⟨lg,hkl ▸ hl,hb⟩
    · exact .inl ⟨List.mem_singleton.mp hb,hkl⟩
  · exact .inr ⟨lk,hk,hb⟩

/-- No two loggers share an appender if the one that is added was on this logger at most. -/
theorem Added.owned {s t : LoggerManager} {l a : ℕ} {lg : Logger} {ap : LogAppender} (h : Added s t l a lg ap)
    (hl : s.loggers.get l = some lg) (ho : Owned s)
    (hone : ∀ {k lk}, s.loggers.get k = some lk → a ∈ lk.appenders → k = l) : Owned t := by
  constructor
  · intro k lk b hk hb
    rw [h.appenders]
    obtain ⟨rfl,_⟩ | ⟨lo,hlo,hb⟩ := h.mem hl hk hb
    · simp
    · split_ifs
      · rfl
      · exact ho.allocated hlo hb
  · intro k j lk lj b hk hj hbk hbj
    obtain ⟨rfl,rfl⟩ | ⟨lo,hlo,hbk⟩ := h.mem hl hk hbk <;> obtain ⟨he,rfl⟩ | ⟨lp,hlp,hbj⟩ := h.mem hl hj hbj
    · rfl
    · exact (hone hlp hbj).symm
    · exact hone hlo (he ▸ hbk)
    · exact ho.apart hlo hlp hbk hbj

theorem changes_addAppender {s : LoggerManager} (ho : Owned s) (l : ℕ) {a : ℕ} {ap : LogAppender}
    (ha : s.appenders.get a = some ap) (hfree : ∀ {k lk}, s.loggers.get k = some lk → a ∉ lk.appenders) :
    Changes s (s.addAppender l a) l fun v =>
      { v with appenders := v.appenders ++ [ap.inherit v.formatter] } := by
  cases hl : s.loggers.get l with
  | none =>
    have hsame : s.addAppender l a = s := by simp only [addAppender,hl]
    refine ⟨sameShape_addAppender s l a,hsame.symm ▸ ho,fun k => ?_⟩
    rw [hsame]
    by_cases hk : k = l
    · simp [hk,LoggerManager.view,hl]
    · simp [hk]
  | some lg =>
    have h := added_addAppender hl ha
    refine ⟨sameShape_addAppender s l a,h.owned hl ho fun hk hm => absurd hm (hfree hk),fun k => ?_⟩
    -- the appenders that the loggers had already have not changed
    have hkeep : ∀ {k lk}, s.loggers.get k = some lk →
        lk.appenders.filterMap (s.addAppender l a).appenders.get = lk.appenders.filterMap s.appenders.get := by
      intro k lk hk
      apply List.filterMap_congr
      intro b hb
      rw [h.appenders,if_neg]
      rintro rfl
      exact hfree hk hb
    rw [LoggerManager.view,LoggerManager.view,h.loggers]
    by_cases hk : k = l
    · subst hk
      have hnew : (s.addAppender k a).appenders.get a = some (ap.inherit lg.formatter) := by
        rw [h.appenders,if_pos rfl]
      simp [hl,hnew,hkeep hl]
    · rw [if_neg hk,if_neg hk]
      cases hlk : s.loggers.get k with
      | none => rfl
      | some lk => simp [hkeep hlk]

theorem changes_addDefined {s : LoggerManager} (ho : Owned s) (l : ℕ) (a : LogAppenderDefine) :
    Changes s (addDefined l s a) l fun v =>
      { v with appenders := v.appenders ++ (expectedAppender v.formatter a).toList } := by
  unfold addDefined
  simp only [expectedAppender_eq]
  cases makeAppender a with
  | none =>
    simp only [Option.map_none,Option.toList_none,List.append_nil]
    exact .refl ho l
  | some ap =>
    have hnew := changes_addAppender (ho.newAppender ap) l (a := s.appenders.next)
      (Heap.get_alloc_next _ _) fun hk hm => ho.ne_next hk hm rfl
    refine ⟨(sameShape_newAppender s ap).trans hnew.shape,hnew.owned,fun k => ?_⟩
    rw [hnew.view,view_newAppender ho]
    rfl

theorem changes_addAllDefined {s : LoggerManager} (ho : Owned s) (l : ℕ) (as : List LogAppenderDefine) :
    Changes s (as.foldl (addDefined l) s) l fun v =>
      { v with appenders := v.appenders ++ as.filterMap (expectedAppender v.formatter) } := by
  induction as generalizing s with
  | nil =>
    simp only [List.foldl_nil,List.filterMap_nil,List.append_nil]
    exact .refl ho l
  | cons a as ih =>
    have h := changes_addDefined ho l a
    have h' := h.trans (ih h.owned)
    have he : ∀ v : LoggerView, (expectedAppender v.formatter a).toList ++
        as.filterMap (expectedAppender v.formatter) = (a :: as).filterMap (expectedAppender v.formatter) := by
      intro v
      cases hv : expectedAppender v.formatter a <;> simp [hv]
    rw [List.foldl_cons]
    simpa only [Function.comp_def,List.append_assoc,he] using h'

end LoggerManager
end Zcs.Log
