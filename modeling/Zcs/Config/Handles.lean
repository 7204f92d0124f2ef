import Zcs.Config.Registry
import Zcs.Foundation.Answers

/-! # One variable for a name

`Config::LookUp`, `Config::LookUpBase` and `Config::Visit` step by step, the one under a
write lock and the others under a read lock of the registry. Variables are static objects
of many files, and threads look them up while others are still being registered. The log
lines of `LookUp` are left out, and the callbacks of `Visit` return and do not call
`Config`.
-/
namespace Zcs.Config.Registry.Handles

section Code
variable {Tag : Type} (types : Tag → ConfigType)

inductive Op where
  | lookUp (name : Text) (tag : Tag) (default : (types tag).T) (description : Text)
  | lookUpBase (name : Text)
  | visit

/-- What `Visit` has given to its callback is listed in the order of the names. -/
inductive Res where
  | found (f : Found)
  | base (p : Option ℕ)
  | visited (ps : List ℕ)
  deriving DecidableEq

inductive Loc where
  | find (name : Text) (tag : Tag) (default : (types tag).T) (description : Text)
  | cast (p : ℕ) (tag : Tag)
  | check (name : Text) (tag : Tag) (default : (types tag).T) (description : Text)
  | construct (name : Text) (tag : Tag) (default : (types tag).T) (description : Text)
  | insert (name : Text) (p : ℕ)
  | found (f : Found)
  | findBase (name : Text)
  | base (p : Option ℕ)
  | visit (seen : List ℕ)

variable (W : Type) [DecidableEq Tag]

/-- The methods as they stand in the source. An exception leaves the section like a result. -/
def methods : Methods (Store types W) (Op types) (Op types) Res (Loc types) where
  init op := op
  mode
    | .lookUp _ _ _ _ => .exclusive
    | .lookUpBase _ | .visit => .shared
  enter
    | .lookUp name tag default description => .find name tag default description
    | .lookUpBase name => .findBase name
    | .visit => .visit []
  read
    | .findBase name, s => some (.base (s.datas.find name))
    | .visit seen, s => s.datas.entries[seen.length]?.map fun it => .visit (seen ++ [it.2])
    | _, _ => none
  write
    | .find name tag default description, s => some (match s.datas.find name with
      | some p => .cast p tag
      | none => .check name tag default description,s)
    | .cast p tag, s => some (.found (match s.objects.get p with
      | some v => if v.tag = tag then .handle p else .null
      | none => .null),s)
    | .check name tag default description, s =>
      some (if !Text.onlyOf lookUpChars name then .found (.invalidArgument name)
        else .construct name tag default description,s)
    | .construct name tag default description, s =>
      some (.insert name s.objects.next,
        { s with objects := s.objects.alloc ⟨tag,name,description,default,.empty⟩ })
    | .insert name p, s => some (.found (.handle p),{ s with datas := s.datas.assign name p })
    | _, _ => none
  leave
    | .found f => .inr (.found f)
    | .base p => .inr (.base p)
    | .visit seen => .inr (.visited seen)
    | .findBase name => .inl (.lookUpBase name)
    | _ => .inr (.found .null)

variable {types W}

/-- The same in one moment. -/
def object : Object (Store types W) (Op types) (Op types) Res where
  init op := op
  act
    | .lookUp name tag default description, s =>
      let r := s.lookUp name tag default description
      (r.1,.inr (.found r.2))
    | .lookUpBase name, s => (s,.inr (.base (s.lookUpBase name)))
    | .visit, s => (s,.inr (.visited (s.datas.entries.map Prod.snd)))

/-- Where a thread can be in a section that began in the state `s` and has made it `s'`. -/
inductive At (s s' : Store types W) : Op types → Loc types → Prop
  | find {name tag default description} (h : s' = s) :
    At s s' (.lookUp name tag default description) (.find name tag default description)
  | cast {name tag default description p} (h : s' = s) (hn : s.datas.find name = some p) :
    At s s' (.lookUp name tag default description) (.cast p tag)
  | check {name tag default description} (h : s' = s) (hn : s.datas.find name = none) :
    At s s' (.lookUp name tag default description) (.check name tag default description)
  | construct {name tag default description} (h : s' = s) (hn : s.datas.find name = none)
    (hname : Text.onlyOf lookUpChars name = true) :
    At s s' (.lookUp name tag default description) (.construct name tag default description)
  | insert {name tag default description}
    (h : s' = { s with objects := s.objects.alloc ⟨tag,name,description,default,.empty⟩ })
    (hn : s.datas.find name = none) (hname : Text.onlyOf lookUpChars name = true) :
    At s s' (.lookUp name tag default description) (.insert name s.objects.next)
  | found {name tag default description f} (h : s.lookUp name tag default description = (s',f)) :
    At s s' (.lookUp name tag default description) (.found f)
  | findBase {name} (h : s' = s) : At s s' (.lookUpBase name) (.findBase name)
  | base {name} (h : s' = s) : At s s' (.lookUpBase name) (.base (s.datas.find name))
  | visit {n} (h : s' = s) (hn : n ≤ s.datas.entries.length) :
    At s s' .visit (.visit ((s.datas.entries.take n).map Prod.snd))

section At
variable {s s' s₂ : Store types W} {op : Op types} {l l' : Loc types}

theorem at_enter (op : Op types) (s : Store types W) : At s s op ((methods types W).enter op) := by
  cases op with
  | lookUp name tag default description => exact .find rfl
  | lookUpBase name => exact .findBase rfl
  | visit => exact .visit (n := 0) rfl (Nat.zero_le _)

theorem at_read (hl : At s s op l) (hr : (methods types W).read l s = some l') : At s s op l' := by
  cases hl <;> simp only [methods,reduceCtorEq,Option.some.injEq] at hr
  case findBase name _ => exact hr ▸ .base rfl
  case visit n _ hn =>
    obtain ⟨it,hit,rfl⟩ := Option.map_eq_some_iff.mp hr
    rw [List.length_map,List.length_take,Nat.min_eq_left hn] at hit
    have htake : (s.datas.entries.take n).map Prod.snd ++ [it.2] = (s.datas.entries.take (n + 1)).map Prod.snd := by
      simp [List.take_add_one,hit]
    rw [htake]
    exact .visit rfl (List.getElem?_eq_some_iff.mp hit).1

theorem at_write (hl : At s s' op l) (hw : (methods types W).write l s' = some (l',s₂)) : At s s₂ op l' := by
  cases hl <;> simp only [methods,reduceCtorEq,Option.some.injEq,Prod.mk.injEq] at hw <;> obtain ⟨rfl,rfl⟩ := hw
  case find name tag default description h =>
    subst h
    cases hn : s'.datas.find name with
    | none => exact .check rfl hn
    | some p => exact .cast rfl hn
  case cast name tag default description p h hn =>
    subst h
    refine .found ?_
    cases hv : s'.objects.get p <;> simp [Store.lookUp,hn,hv]
  case check name tag default description h hn =>
    subst h
    by_cases hname : Text.onlyOf lookUpChars name = true
    · rw [hname]
      exact .construct rfl hn hname
    · rw [Bool.not_eq_true] at hname
      rw [hname]
      exact .found (by simp [Store.lookUp,hn,hname])
  case construct h hn hname =>
    subst h
    exact .insert rfl hn hname
  case insert h hn hname =>
    subst h
    exact .found (by simp [Store.lookUp,hn,hname])

theorem at_readEnd (hm : (methods types W).mode op = .shared) (hl : At s s op l)
    (hr : (methods types W).read l s = none) :
    object.act op s = (s,(methods types W).leave l) := by
  cases hl <;> simp only [methods,reduceCtorEq] at hm hr
  case base => rfl
  case visit n _ hn =>
    rw [List.length_map,List.length_take,Nat.min_eq_left hn] at hr
    have hall : s.datas.entries.length ≤ n := by simpa using hr
    rw [List.take_of_length_le hall]
    rfl

theorem at_writeEnd (hm : (methods types W).mode op = .exclusive) (hl : At s s' op l)
    (hw : (methods types W).write l s' = none) : object.act op s = (s',(methods types W).leave l) := by
  cases hl <;> simp only [methods,reduceCtorEq] at hm hw
  case found h => simp [object,methods,h]

theorem methods_implements : (methods types W).Implements object :=
  .of_invariant (fun op s l s' => At s s' op l) rfl at_enter (fun _ => at_read) (fun _ => at_write) at_readEnd
    at_writeEnd

end At
end Code

section Told
variable {Tag : Type} {types : Tag → ConfigType} {W : Type} [DecidableEq Tag]

/-- Every name in the registry is valid, and is the name of its variable. -/
structure Named (s : Store types W) : Prop where
  valid : ∀ {name p}, s.datas.find name = some p → ValidName name
  var : ∀ {name p}, s.datas.find name = some p → ∃ v, s.objects.get p = some v ∧ v.var.name = name

omit [DecidableEq Tag] in
theorem named_empty (world : W) : Named (⟨.empty,.empty,fun _ => 0,world⟩ : Store types W) :=
  ⟨fun h => (nomatch h),fun h => (nomatch h)⟩

omit [DecidableEq Tag] in
theorem Named.unique {s : Store types W} (hs : Named s) {m n : Text} {p : ℕ} (hm : s.datas.find m = some p)
    (hn : s.datas.find n = some p) : m = n := by
  obtain ⟨v,hv,rfl⟩ := hs.var hm
  obtain ⟨u,hu,rfl⟩ := hs.var hn
  rw [Option.some.inj (hv.symm.trans hu)]

/-- The variables of the registry that are among the first `n` objects. -/
def firstVars (n : ℕ) (s : Store types W) : List ℕ := (s.datas.entries.filter fun it => it.2 < n).map Prod.snd

omit [DecidableEq Tag] in
theorem Named.firstVars_next {s : Store types W} (hs : Named s) :
    firstVars s.objects.next s = s.datas.entries.map Prod.snd := by
  have hall : ∀ it ∈ s.datas.entries, decide (it.2 < s.objects.next) = true := by
    intro it hit
    obtain ⟨v,hv,_⟩ := hs.var (SortedMap.find_of_mem hit)
    simpa using Heap.lt_next hv
  rw [firstVars,List.filter_eq_self.mpr hall]

/-- What there is in the registry stays, and what comes is new. -/
structure Kept (s s' : Store types W) : Prop where
  datas : ∀ {name p}, s.datas.find name = some p → s'.datas.find name = some p
  objects : ∀ {p v}, s.objects.get p = some v → s'.objects.get p = some v
  next : s.objects.next ≤ s'.objects.next
  firstVars : ∀ n ≤ s.objects.next, firstVars n s' = firstVars n s

omit [DecidableEq Tag] in
theorem Kept.refl (s : Store types W) : Kept s s := ⟨id,id,Nat.le_refl _,fun _ _ => rfl⟩

omit [DecidableEq Tag] in
theorem Kept.trans {s t u : Store types W} (h : Kept s t) (h' : Kept t u) : Kept s u :=
  ⟨fun hn => h'.datas (h.datas hn),fun hv => h'.objects (h.objects hv),h.next.trans h'.next,
    fun n hn => (h'.firstVars n (hn.trans h.next)).trans (h.firstVars n hn)⟩

theorem kept_lookUp (s : Store types W) (name : Text) (tag : Tag) (default : (types tag).T) (description : Text) :
    Kept s (s.lookUp name tag default description).1 := by
  unfold Store.lookUp
  cases hn : s.datas.find name with
  | some p => cases hv : s.objects.get p <;> simp only [hv] <;> exact .refl s
  | none =>
    by_cases hname : Text.onlyOf lookUpChars name = true
    · simp only [hname,Bool.not_true,Bool.false_eq_true,if_false]
      refine ⟨fun {m p} hm => ?_,fun hv => Heap.get_alloc_of_get hv _,Nat.le_succ _,fun n hle => ?_⟩
      · rw [SortedMap.find_assign,if_neg]
        · exact hm
        · rintro rfl
          simp [hn] at hm
      · exact congrArg (List.map Prod.snd) (SortedMap.filter_assign hn (by simpa using hle))
    · simp only [hname,Bool.not_false,if_true]
      exact .refl s

theorem kept_act (s : Store types W) (op : Op types) : Kept s (object.act op s).1 := by
  cases op with
  | lookUp name tag default description => exact kept_lookUp s name tag default description
  | lookUpBase | visit => exact .refl s

/-- What a result says about the registry. -/
def Promised : Op types → Res → Store types W → Prop
  | .lookUp name tag _ _, .found (.handle p), s =>
    s.datas.find name = some p ∧ ∃ v, s.objects.get p = some v ∧ v.tag = tag
  | .lookUp name tag _ _, .found .null, s =>
    ∃ p v, s.datas.find name = some p ∧ s.objects.get p = some v ∧ v.tag ≠ tag
  | .lookUp name _ _ _, .found (.invalidArgument what), _ => what = name ∧ ¬ ValidName name
  | .lookUpBase name, .base (some p), s => s.datas.find name = some p
  | .lookUpBase _, .base none, _ => True
  | .visit, .visited ps, s => ∃ n ≤ s.objects.next, ps = firstVars n s
  | _, _, _ => False

omit [DecidableEq Tag] in
theorem Promised.kept {s s' : Store types W} {op : Op types} {res : Res} (h : Promised op res s) (hk : Kept s s') :
    Promised op res s' := by
  match op, res, h with
  | .lookUp _ _ _ _, .found (.handle _), ⟨hn,v,hv,ht⟩ => exact ⟨hk.datas hn,v,hk.objects hv,ht⟩
  | .lookUp _ _ _ _, .found .null, ⟨p,v,hn,hv,ht⟩ => exact ⟨p,v,hk.datas hn,hk.objects hv,ht⟩
  | .lookUp _ _ _ _, .found (.invalidArgument _), h => exact h
  | .lookUpBase _, .base (some _), h => exact hk.datas h
  | .lookUpBase _, .base none, _ => trivial
  | .visit, .visited _, ⟨n,hn,hps⟩ => exact ⟨n,hn.trans hk.next,hps.trans (hk.firstVars n hn).symm⟩

/-- The three ways of `LookUp`. -/
theorem lookUp_spec {s : Store types W} (hs : Named s) (name : Text) (tag : Tag) (default : (types tag).T)
    (description : Text) : let r := s.lookUp name tag default description
    Named r.1 ∧ Promised (.lookUp name tag default description) (.found r.2) r.1 := by
  unfold Store.lookUp
  cases hn : s.datas.find name with
  | some p =>
    obtain ⟨v,hv,_⟩ := hs.var hn
    simp only [hv]
    refine ⟨hs,?_⟩
    by_cases ht : v.tag = tag
    · rw [if_pos ht]
      exact ⟨hn,v,hv,ht⟩
    · rw [if_neg ht]
      exact ⟨p,v,hn,hv,ht⟩
  | none =>
    rw [onlyOf_lookUpChars]
    by_cases hname : ValidName name
    · simp only [hname,decide_true,Bool.not_true,Bool.false_eq_true,if_false]
      refine ⟨⟨fun {m p} hm => ?_,fun {m p} hm => ?_⟩,?_,_,Heap.get_alloc_next _ _,rfl⟩
      · rw [SortedMap.find_assign] at hm
        split_ifs at hm with he
        · exact he ▸ hname
        · exact hs.valid hm
      · rw [SortedMap.find_assign] at hm
        split_ifs at hm with he
        · obtain rfl := Option.some.inj hm
          exact ⟨_,Heap.get_alloc_next _ _,he.symm⟩
        · obtain ⟨v,hv,hvn⟩ := hs.var hm
          exact ⟨v,Heap.get_alloc_of_get hv _,hvn⟩
      · rw [SortedMap.find_assign,if_pos rfl]
    · simp only [hname,decide_false,Bool.not_false,if_true]
      exact ⟨hs,rfl,hname⟩

/-- The registry has grown from `s₀`, if at all. -/
structure Grown (s₀ s : Store types W) : Prop where
  named : Named s
  kept : Kept s₀ s

theorem object_settles (s₀ : Store types W) :
    object.Settles (Grown s₀) (fun op p => p = op) Promised where
  init _ := rfl
  keeps {s} op h := by
    refine ⟨?_,h.kept.trans (kept_act s op)⟩
    cases op with
    | lookUp name tag default description => exact (lookUp_spec h.named name tag default description).1
    | lookUpBase | visit => exact h.named
  lasts {s _ _} op _ hQ := hQ.kept (kept_act s op)
  goesOn {s op p q} _ _ h := by cases p <;> cases h
  ends {s op p res} hs hp h := by
    subst hp
    cases p with
    | lookUp name tag default description =>
      obtain rfl := Sum.inr.inj h
      exact (lookUp_spec hs.named name tag default description).2
    | lookUpBase name =>
      obtain rfl := Sum.inr.inj h
      cases hn : s.lookUpBase name with
      | none => trivial
      | some p => exact hn
    | visit =>
      obtain rfl := Sum.inr.inj h
      exact ⟨_,Nat.le_refl _,hs.named.firstVars_next.symm⟩

section Runs
variable {ι : Type} [DecidableEq ι]

abbrev State (ι : Type) (types : Tag → ConfigType) (W : Type) :=
  Methods.State ι (Store types W) (Op types) Res (Loc types)

/-- The calls of any number of threads, in any interleaving of their steps. -/
abbrev Use (s₀ : Store types W) (as : List (ThreadStep ι (Op types) Res)) (s : State ι types W) : Prop :=
  Runs (methods types W).next (fun _ _ => True) (Methods.start s₀) as s

/-- The calls with their results. -/
def told (as : List (ThreadStep ι (Op types) Res)) : List (Call types) :=
  (answers (fun _ => none) (as.filterMap ThreadStep.observed)).filterMap fun
    | (.lookUp name tag default _,.found f) => some (.lookUp name tag default f)
    | (.lookUpBase name,.base p) => some (.lookUpBase name p)
    | _ => none

omit [DecidableEq Tag] in
theorem mem_told {as : List (ThreadStep ι (Op types) Res)} {c : Call types} (hc : c ∈ told as) :
    ∃ a ∈ answers (fun _ => none) (as.filterMap ThreadStep.observed),
      (∃ name tag default description f, a = (.lookUp name tag default description,.found f) ∧
        c = .lookUp name tag default f) ∨
      ∃ name p, a = (.lookUpBase name,.base p) ∧ c = .lookUpBase name p := by
  obtain ⟨a,ha,hac⟩ := List.mem_filterMap.mp hc
  refine ⟨a,ha,?_⟩
  obtain ⟨op,res⟩ := a
  cases op with
  | lookUp name tag default description =>
    cases res with
    | found f => exact .inl ⟨name,tag,default,description,f,rfl,(Option.some.inj hac).symm⟩
    | base | visited => cases hac
  | lookUpBase name =>
    cases res with
    | base p => exact .inr ⟨name,p,rfl,(Option.some.inj hac).symm⟩
    | found | visited => cases hac
  | visit => cases res <;> cases hac

omit [DecidableEq Tag] in
theorem find_of_told {as : List (ThreadStep ι (Op types) Res)} {s : Store types W}
    (htold : ∀ a ∈ answers (fun _ => none) (as.filterMap ThreadStep.observed), Promised a.1 a.2 s) {name : Text}
    {p : ℕ} (hc : ∃ c ∈ told as, Returned name p c) : s.datas.find name = some p := by
  obtain ⟨c,hc,hr⟩ := hc
  obtain ⟨a,ha,⟨_,_,_,_,_,rfl,rfl⟩ | ⟨_,_,rfl,rfl⟩⟩ := mem_told hc
  · obtain ⟨rfl,rfl⟩ := hr
    exact (htold _ ha).1
  · obtain ⟨rfl,rfl⟩ := hr
    exact htold _ ha

/-- Whoever comes first decides on the type of a name, and everybody gets that variable or
no handle; a name is refused for its characters and for nothing else. -/
theorem one_variable {s₀ : Store types W} (hs : Named s₀) {as : List (ThreadStep ι (Op types) Res)}
    {s : State ι types W} (h : Use s₀ as s) :
    (∀ m n p q, (∃ c ∈ told as, Returned m p c) → (∃ c ∈ told as, Returned n q c) → (m = n ↔ p = q)) ∧
    (∀ name tag default p, .lookUp name tag default (.handle p) ∈ told as → ∀ tag' default' f,
      .lookUp name tag' default' f ∈ told as → f = if tag' = tag then .handle p else .null) ∧
    (∀ name tag default f, .lookUp name tag default f ∈ told as →
      (f = .invalidArgument name ↔ ¬ ValidName name)) ∧
    (s.mutex.writer = none → Named s.data ∧ Kept s₀ s.data ∧
      ∀ name p, (∃ c ∈ told as, Returned name p c) → s.data.datas.find name = some p) ∧
    ∀ i op, s.status i = .pending op → ∃ j, ((methods types W).next s (.run j)).isSome = true := by
  obtain ⟨s',hdata,hgrown,htold⟩ := (object_settles s₀).answers_methods methods_implements ⟨hs,.refl s₀⟩ h
  have hlookUp {name : Text} {tag : Tag} {default : (types tag).T} {f : Found}
      (hc : .lookUp name tag default f ∈ told as) :
      ∃ description, Promised (.lookUp name tag default description) (.found f) s' := by
    obtain ⟨a,ha,⟨_,_,_,description,_,rfl,he⟩ | ⟨_,_,_,he⟩⟩ := mem_told hc
    · cases he
      exact ⟨description,htold _ ha⟩
    · cases he
  have hbound {name : Text} {p : ℕ} (hc : ∃ c ∈ told as, Returned name p c) : s'.datas.find name = some p :=
    find_of_told htold hc
  refine ⟨fun m n p q hm hn => ?_,fun name tag default p hc tag' default' f hf => ?_,fun name tag default f hf => ?_,
    fun hw => ?_,fun i op hop => ?_⟩
  · constructor
    · rintro rfl
      exact Option.some.inj ((hbound hm).symm.trans (hbound hn))
    · rintro rfl
      exact hgrown.named.unique (hbound hm) (hbound hn)
  · obtain ⟨_,hn,v,hv,rfl⟩ := hlookUp hc
    obtain ⟨_,hf⟩ := hlookUp hf
    cases f with
    | handle q =>
      obtain ⟨hq,u,hu,rfl⟩ := hf
      obtain rfl := Option.some.inj (hn.symm.trans hq)
      rw [if_pos (by rw [Option.some.inj (hu.symm.trans hv)])]
    | null =>
      obtain ⟨q,u,hq,hu,hne⟩ := hf
      obtain rfl := Option.some.inj (hn.symm.trans hq)
      obtain rfl := Option.some.inj (hv.symm.trans hu)
      rw [if_neg (Ne.symm hne)]
    | invalidArgument what => exact absurd (hgrown.named.valid hn) hf.2
  · obtain ⟨_,hf⟩ := hlookUp hf
    cases f with
    | handle q => simpa using hgrown.named.valid hf.1
    | null =>
      obtain ⟨q,_,hq,_⟩ := hf
      simpa using hgrown.named.valid hq
    | invalidArgument what =>
      obtain ⟨rfl,hnot⟩ := hf
      simpa using hnot
  · rw [hdata hw]
    exact ⟨hgrown.named,hgrown.kept,fun name p hc => hbound hc⟩
  · obtain ⟨_,_,_,hR,_⟩ := Methods.refines methods_implements h
    exact hR.can_run hop

/-- Some call of `Visit` has given these variables to its callback. -/
def Visited (ps : List ℕ) (as : List (ThreadStep ι (Op types) Res)) : Prop :=
  (.visit,.visited ps) ∈ answers (fun _ => none) (as.filterMap ThreadStep.observed)

omit [DecidableEq Tag] in
theorem firstVars_mono (s : Store types W) {m n : ℕ} (h : m ≤ n) : (firstVars m s).Sublist (firstVars n s) := by
  refine (List.monotone_filter_right _ fun it hit => ?_).map Prod.snd
  simp only [decide_eq_true_eq] at hit ⊢
  omega

omit [DecidableEq Tag] in
theorem Named.nodup_firstVars {s : Store types W} (hs : Named s) (n : ℕ) : (firstVars n s).Nodup := by
  have hdistinct : (s.datas.entries.filter fun it => it.2 < n).Pairwise (fun a b => a.2 ≠ b.2) := by
    refine List.Pairwise.imp_of_mem (fun {a b} ha hb hlt he => ?_) (s.datas.sorted.filter _)
    have hfa := SortedMap.find_of_mem (List.mem_of_mem_filter ha)
    have hfb := SortedMap.find_of_mem (List.mem_of_mem_filter hb)
    exact absurd (hs.unique hfa (he ▸ hfb)) (ne_of_lt hlt)
  exact List.pairwise_map.mpr hdistinct

omit [DecidableEq Tag] in
theorem Named.mem_firstVars {s : Store types W} (hs : Named s) {name : Text} {p : ℕ}
    (hn : s.datas.find name = some p) : p ∈ firstVars s.objects.next s := by
  rw [hs.firstVars_next]
  exact List.mem_map.mpr ⟨(name,p),SortedMap.mem_of_find hn,rfl⟩

/-- What a visit behind the state `v` promises. -/
def Behind (v : Store types W) : Op types → Res → Store types W → Prop
  | .visit, .visited ps, _ => ∀ n ≤ v.objects.next, (firstVars n v).Sublist ps
  | _, _, _ => True

theorem object_settles_behind (v : Store types W) :
    object.Settles (Grown v) (fun op p => p = op) (Behind v) where
  init _ := rfl
  keeps op h := (object_settles v).keeps op h
  lasts {s op res} _ _ h := by
    cases op <;> cases res <;> exact h
  goesOn {s op p q} hs hp h := (object_settles v).goesOn hs hp h
  ends {s op p res} hs hp h := by
    subst hp
    cases p with
    | lookUp | lookUpBase => cases res <;> trivial
    | visit =>
      obtain rfl := Sum.inr.inj h
      intro n hn
      rw [← hs.kept.firstVars n hn]
      rw [← hs.named.firstVars_next]
      exact firstVars_mono s (hn.trans hs.kept.next)

/-- What visits see of a registry that grows: of two visits one has seen all that the other
has, and a visit sees whatever anybody was told of before it was called. -/
theorem visit_snapshot {s₀ : Store types W} (hs : Named s₀) {as bs : List (ThreadStep ι (Op types) Res)}
    {s t : State ι types W} (h : Use s₀ as s) (h' : Runs (methods types W).next (fun _ _ => True) s bs t) :
    (∀ ps, Visited ps (as ++ bs) → ps.Nodup ∧
      (t.mutex.writer = none → ∀ p ∈ ps, ∃ name, t.data.datas.find name = some p) ∧
      ∀ qs, Visited qs (as ++ bs) → ps.Sublist qs ∨ qs.Sublist ps) ∧
    ∀ ps, Visited ps bs →
      (∀ name p, s₀.datas.find name = some p ∨ (∃ c ∈ told as, Returned name p c) → p ∈ ps) ∧
      ∀ qs, Visited qs as → qs.Sublist ps := by
  constructor
  · obtain ⟨s',hdata,hgrown,htold⟩ :=
      (object_settles s₀).answers_methods methods_implements ⟨hs,.refl s₀⟩ (h.trans h')
    intro ps hps
    obtain ⟨n,_,rfl⟩ := htold _ hps
    refine ⟨hgrown.named.nodup_firstVars n,fun hw p hp => ?_,fun qs hqs => ?_⟩
    · obtain ⟨it,hit,rfl⟩ := List.mem_map.mp hp
      exact ⟨it.1,hdata hw ▸ SortedMap.find_of_mem (List.mem_of_mem_filter hit)⟩
    · obtain ⟨m,_,rfl⟩ := htold _ hqs
      exact (Nat.le_total n m).imp (firstVars_mono s') (firstVars_mono s')
  · obtain ⟨v,_,hgrown,htold,hbehind⟩ := (object_settles s₀).answers_behind methods_implements
      (fun hv => ⟨hv.named,.refl _⟩) object_settles_behind ⟨hs,.refl s₀⟩ h h'
    intro ps hps
    have hps : ∀ n ≤ v.objects.next, (firstVars n v).Sublist ps := hbehind _ hps
    refine ⟨fun name p hp => ?_,fun qs hqs => ?_⟩
    · have hn : v.datas.find name = some p := hp.elim (fun hn => hgrown.kept.datas hn) (find_of_told htold)
      exact (hps _ (Nat.le_refl _)).subset (hgrown.named.mem_firstVars hn)
    · obtain ⟨n,hn,rfl⟩ := htold _ hqs
      exact hps n hn

end Runs
end Told

/-- Two threads look up a new name at once, with two types, and a third its base. -/
def rivals : List (ThreadStep ℕ (Op debugTypes) Res) :=
  [.event 0 (.call (.lookUp "debug".toList .flag true [])),.event 1 (.call (.lookUp "debug".toList .flags [] [])),
    .event 2 (.call (.lookUpBase "debug".toList))] ++ List.replicate 6 (.run 0) ++ List.replicate 3 (.run 2) ++
    List.replicate 4 (.run 1) ++ [.event 2 (.ret (.base (some 0))),.event 1 (.ret (.found .null)),
    .event 0 (.ret (.found (.handle 0)))]

theorem rivals_one_variable : ∃ s : State ℕ debugTypes Unit, Use ⟨.empty,.empty,fun _ => 0,()⟩ rivals s ∧
    Named s.data ∧ s.data.datas.find "debug".toList = some 0 := by
  have h := Runs.of_exec (methods debugTypes Unit).next (fun _ _ => True)
    (Methods.start ⟨.empty,.empty,fun _ => 0,()⟩) rivals (by decide)
  obtain ⟨_,_,_,hdone,_⟩ := one_variable (named_empty ()) h
  obtain ⟨hnamed,_,hbound⟩ := hdone (by decide)
  exact ⟨_,h,hnamed,hbound _ 0 ⟨.lookUpBase "debug".toList (some 0),List.mem_cons_self,rfl,rfl⟩⟩

/-- A thread visits a registry in which another one is about to register a variable. -/
def early : List (ThreadStep ℕ (Op debugTypes) Res) :=
  [.event 2 (.call .visit),.event 0 (.call (.lookUp "debug".toList .flag true [])),.run 2,.run 2,.run 0,
    .event 2 (.ret (.visited []))] ++ List.replicate 5 (.run 0) ++ [.event 0 (.ret (.found (.handle 0)))]

def late : List (ThreadStep ℕ (Op debugTypes) Res) :=
  .event 2 (.call .visit) :: List.replicate 3 (.run 2) ++ [.event 2 (.ret (.visited [0]))]

theorem late_visit_snapshot : ∃ s t : State ℕ debugTypes Unit, Use ⟨.empty,.empty,fun _ => 0,()⟩ early s ∧
    Runs (methods debugTypes Unit).next (fun _ _ => True) s late t ∧
      (∀ name p, (∃ c ∈ told early, Returned name p c) → p ∈ [0]) ∧ ([] : List ℕ).Sublist [0] := by
  let next : State ℕ debugTypes Unit → _ → _ := (methods debugTypes Unit).next
  have h := Runs.of_exec next (fun _ _ => True) (Methods.start ⟨.empty,.empty,fun _ => 0,()⟩) early (by decide)
  have h' := Runs.of_exec next (fun _ _ => True)
    ((Runs.exec next (fun _ _ => True) (Methods.start ⟨.empty,.empty,fun _ => 0,()⟩) early).get (by decide)) late
    (by decide)
  obtain ⟨hbefore,hvisited⟩ := (visit_snapshot (named_empty ()) h h').2 [0] List.mem_cons_self
  exact ⟨_,_,h,h',fun name p hp => hbefore name p (.inr hp),hvisited [] List.mem_cons_self⟩

end Zcs.Config.Registry.Handles
