import Zcs.Config.ConfigVar
import Zcs.Foundation.Atomic

/-! # A variable used by many threads

The methods of `ConfigVar` with their sections under `mutex_`, step by step. `SetValue`
has two: it compares and runs the callbacks under a read lock, and assigns under a write
lock, unless a callback has thrown. The callbacks are run outside of this variable; of them
the call records which were run and with what, and how the last one ended. The counter
`s_fun_id` is kept with the variable, the only one of its type.
-/
namespace Zcs.Config.Register

/-- One callback: its id and its two arguments. -/
structure Told (T : Type) where
  listener : ℕ
  newVal : T
  oldVal : T
  deriving DecidableEq

/-- A call of `SetValue` comes with the ids of the listeners that throw when it runs them. -/
inductive Op (T W : Type) where
  | getValue
  | toString
  | setValue (v : T) (throws : ℕ → Bool)
  | addListener (cb : Listener T W)
  | delListener (id : ℕ)
  | clearListener

/-- The results of `setValue` are not the program's: they tell which callbacks were run, and
that the last of them has thrown. -/
inductive Res (T : Type) where
  | value (v : T)
  | text (s : Text)
  | set (told : List (Told T))
  | threw (told : List (Told T))
  | id (id : ℕ)
  | done
  deriving DecidableEq

/-- The sections still to come. -/
inductive Pending (T W : Type) where
  | op (op : Op T W)
  | assign (v : T) (told : List (Told T))

inductive Loc (T W : Type) where
  | getValue
  | gotValue (v : T)
  | toString
  | gotText (s : Text)
  | compare (v : T) (throws : ℕ → Bool)
  | equal
  | telling (v : T) (throws : ℕ → Bool) (told : List (Told T))
  | threw (told : List (Told T))
  | assign (v : T) (told : List (Told T))
  | assigned (told : List (Told T))
  | nextId (cb : Listener T W)
  | insert (cb : Listener T W)
  | readId
  | gotId (id : ℕ)
  | erase (id : ℕ)
  | clear
  | finished

structure Guarded (T W : Type) where
  var : ConfigVar T W
  funId : ℕ

variable {T W : Type}

namespace Guarded

/-- The iterator of the loop over `cbs_`: the first id behind that of the last callback. -/
def nextListener (d : Guarded T W) (told : List (Told T)) : Option ℕ :=
  (d.var.cbs.entries.map Prod.fst).find? fun id => told.getLast?.all fun t => decide (t.listener < id)

/-- All listeners of one moment, told of the change from the value of that moment. -/
def tellAll (d : Guarded T W) (v : T) : List (Told T) :=
  d.var.cbs.entries.map fun e => ⟨e.1,v,d.var.val⟩

end Guarded

/-- The callbacks up to the first that throws. -/
def throwing (throws : ℕ → Bool) : List (Told T) → Option (List (Told T))
  | [] => none
  | t :: ts => if throws t.listener then some [t] else (throwing throws ts).map (t :: ·)

theorem throwing_eq_none {throws : ℕ → Bool} {told : List (Told T)} (h : ∀ t ∈ told, throws t.listener = false) :
    throwing throws told = none := by
  induction told with
  | nil => rfl
  | cons t told ih =>
    obtain ⟨ht,htold⟩ := List.forall_mem_cons.mp h
    simp [throwing,ht,ih htold]

theorem throwing_append {throws : ℕ → Bool} {told : List (Told T)} (h : ∀ t ∈ told, throws t.listener = false)
    {t : Told T} (ht : throws t.listener = true) (rest : List (Told T)) :
    throwing throws (told ++ t :: rest) = some (told ++ [t]) := by
  induction told with
  | nil => simp [throwing,ht]
  | cons u told ih =>
    obtain ⟨hu,htold⟩ := List.forall_mem_cons.mp h
    simp [throwing,hu,ih htold]

variable [DecidableEq T] (cast : LexicalCast T)

/-- The methods as they stand in the source. -/
def methods : Methods (Guarded T W) (Op T W) (Pending T W) (Res T) (Loc T W) where
  init := .op
  mode
    | .op .getValue | .op .toString | .op (.setValue _ _) => .shared
    | .op (.addListener _) | .op (.delListener _) | .op .clearListener | .assign _ _ => .exclusive
  enter
    | .op .getValue => .getValue
    | .op .toString => .toString
    | .op (.setValue v throws) => .compare v throws
    | .op (.addListener cb) => .nextId cb
    | .op (.delListener id) => .erase id
    | .op .clearListener => .clear
    | .assign v told => .assign v told
  read
    | .getValue, d => some (.gotValue d.var.val)
    | .toString, d => some (.gotText (d.var.toString cast))
    | .compare v throws, d => some (if d.var.val == v then .equal else .telling v throws [])
    | .telling v throws told, d => (d.nextListener told).map fun id =>
      if throws id then .threw (told ++ [⟨id,v,d.var.val⟩]) else .telling v throws (told ++ [⟨id,v,d.var.val⟩])
    | _, _ => none
  write
    | .assign v told, d => some (.assigned told,{ d with var := { d.var with val := v } })
    | .nextId cb, d => some (.insert cb,{ d with funId := ConfigVar.nextId d.funId })
    | .insert cb, d => some (.readId,{ d with var := { d.var with cbs := d.var.cbs.assign d.funId cb } })
    | .readId, d => some (.gotId d.funId,d)
    | .erase id, d => some (.finished,{ d with var := d.var.delListener id })
    | .clear, d => some (.finished,{ d with var := d.var.clearListener })
    | _, _ => none
  leave
    | .gotValue v => .inr (.value v)
    | .gotText s => .inr (.text s)
    | .equal => .inr (.set [])
    | .telling v _ told => .inl (.assign v told)
    | .threw told => .inr (.threw told)
    | .assigned told => .inr (.set told)
    | .gotId id => .inr (.id id)
    | _ => .inr .done

/-- The variable with its sections as actions of one moment. -/
def object : Object (Guarded T W) (Op T W) (Pending T W) (Res T) where
  init := .op
  act
    | .op .getValue, d => (d,.inr (.value d.var.val))
    | .op .toString, d => (d,.inr (.text (d.var.toString cast)))
    | .op (.setValue v throws), d =>
      (d,if d.var.val = v then .inr (.set [])
        else match throwing throws (d.tellAll v) with
          | some told => .inr (.threw told)
          | none => .inl (.assign v (d.tellAll v)))
    | .op (.addListener cb), d =>
      let r := d.var.addListener d.funId cb
      (⟨r.2,r.1⟩,.inr (.id r.1))
    | .op (.delListener id), d => ({ d with var := d.var.delListener id },.inr .done)
    | .op .clearListener, d => ({ d with var := d.var.clearListener },.inr .done)
    | .assign v told, d => ({ d with var := { d.var with val := v } },.inr (.set told))

/-- Where a thread can be in a section that began in the state `d` and has made it `d'`. -/
inductive At (d d' : Guarded T W) : Pending T W → Loc T W → Prop
  | getValue (h : d' = d) : At d d' (.op .getValue) .getValue
  | gotValue (h : d' = d) : At d d' (.op .getValue) (.gotValue d.var.val)
  | toString (h : d' = d) : At d d' (.op .toString) .toString
  | gotText (h : d' = d) : At d d' (.op .toString) (.gotText (d.var.toString cast))
  | compare (v : T) (throws : ℕ → Bool) (h : d' = d) : At d d' (.op (.setValue v throws)) (.compare v throws)
  | equal (throws : ℕ → Bool) (h : d' = d) : At d d' (.op (.setValue d.var.val throws)) .equal
  | telling (v : T) (throws : ℕ → Bool) (told rest : List (Told T)) (h : d' = d) (hv : d.var.val ≠ v)
    (ht : d.tellAll v = told ++ rest) (hcalm : ∀ t ∈ told, throws t.listener = false) :
    At d d' (.op (.setValue v throws)) (.telling v throws told)
  | threw (v : T) (throws : ℕ → Bool) (told : List (Told T)) (h : d' = d) (hv : d.var.val ≠ v)
    (ht : throwing throws (d.tellAll v) = some told) : At d d' (.op (.setValue v throws)) (.threw told)
  | assign (v : T) (told : List (Told T)) (h : d' = d) : At d d' (.assign v told) (.assign v told)
  | assigned (v : T) (told : List (Told T)) (h : d' = { d with var := { d.var with val := v } }) :
    At d d' (.assign v told) (.assigned told)
  | nextId (cb : Listener T W) (h : d' = d) : At d d' (.op (.addListener cb)) (.nextId cb)
  | insert (cb : Listener T W) (h : d' = { d with funId := ConfigVar.nextId d.funId }) :
    At d d' (.op (.addListener cb)) (.insert cb)
  | readId (cb : Listener T W) (h : d' = ⟨(d.var.addListener d.funId cb).2,ConfigVar.nextId d.funId⟩) :
    At d d' (.op (.addListener cb)) .readId
  | gotId (cb : Listener T W) (h : d' = ⟨(d.var.addListener d.funId cb).2,ConfigVar.nextId d.funId⟩) :
    At d d' (.op (.addListener cb)) (.gotId (ConfigVar.nextId d.funId))
  | erase (id : ℕ) (h : d' = d) : At d d' (.op (.delListener id)) (.erase id)
  | erased (id : ℕ) (h : d' = { d with var := d.var.delListener id }) : At d d' (.op (.delListener id)) .finished
  | clear (h : d' = d) : At d d' (.op .clearListener) .clear
  | cleared (h : d' = { d with var := d.var.clearListener }) : At d d' (.op .clearListener) .finished

omit [DecidableEq T] in
/-- The iterator comes to the next listener of the table, as long as the table stands still. -/
theorem nextListener_eq {d : Guarded T W} {v : T} {told rest : List (Told T)} (h : d.tellAll v = told ++ rest) :
    d.nextListener told = rest.head?.map Told.listener := by
  have hids : d.var.cbs.entries.map Prod.fst = told.map Told.listener ++ rest.map Told.listener := by
    rw [← List.map_append,← h,Guarded.tellAll,List.map_map]
    rfl
  have hsorted : (told.map Told.listener ++ rest.map Told.listener).Pairwise (· < ·) := by
    rw [← hids]
    exact List.pairwise_map.mpr d.var.cbs.sorted
  obtain ⟨htold,_,hcross⟩ := List.pairwise_append.mp hsorted
  rw [Guarded.nextListener,hids,List.find?_append]
  have hpast : (told.map Told.listener).find?
      (fun id => told.getLast?.all fun t => decide (t.listener < id)) = none := by
    refine List.find?_eq_none.mpr fun id hid => ?_
    obtain ⟨pre,last,rfl⟩ := (List.eq_nil_or_concat told).resolve_left fun h => by simp [h] at hid
    simp only [List.concat_eq_append,List.map_append,List.map_cons,List.map_nil] at htold hid ⊢
    rcases List.mem_append.mp hid with hid | hid
    · have := (List.pairwise_append.mp htold).2.2 id hid last.listener (by simp)
      simp
      omega
    · simp [List.mem_singleton.mp hid]
  rw [hpast,Option.none_or]
  cases rest with
  | nil => rfl
  | cons t rest =>
    have hnext : (told.getLast?.all fun u => decide (u.listener < t.listener)) = true := by
      cases hl : told.getLast? with
      | none => rfl
      | some u =>
        have hu := List.mem_map_of_mem (f := Told.listener) (List.mem_of_getLast? hl)
        simpa using hcross _ hu t.listener (by simp)
    simp [hnext]

section At
variable {cast} {d d' d₂ : Guarded T W} {p : Pending T W} {l l' : Loc T W}

theorem at_enter (d : Guarded T W) (p : Pending T W) : At cast d d p ((methods cast).enter p) := by
  match p with
  | .op .getValue => exact .getValue rfl
  | .op .toString => exact .toString rfl
  | .op (.setValue v throws) => exact .compare v throws rfl
  | .op (.addListener cb) => exact .nextId cb rfl
  | .op (.delListener id) => exact .erase id rfl
  | .op .clearListener => exact .clear rfl
  | .assign v told => exact .assign v told rfl

theorem at_read (hm : (methods cast).mode p = .shared) (hl : At cast d d p l)
    (hr : (methods cast).read l d = some l') : At cast d d p l' := by
  cases hl <;> simp only [methods,reduceCtorEq,Option.some.injEq] at hm hr
  case getValue => exact hr ▸ .gotValue rfl
  case toString => exact hr ▸ .gotText rfl
  case compare v throws _ =>
    by_cases hv : d.var.val = v
    · obtain rfl := hv
      simp only [BEq.rfl,if_true] at hr
      exact hr ▸ .equal throws rfl
    · simp only [beq_iff_eq,if_neg hv] at hr
      exact hr ▸ .telling v throws [] _ rfl hv rfl (by simp)
  case telling v throws told rest _ hv ht hcalm =>
    obtain ⟨id,hid,hl'⟩ := Option.map_eq_some_iff.mp hr
    rw [nextListener_eq ht] at hid
    obtain ⟨t,hhead,rfl⟩ := Option.map_eq_some_iff.mp hid
    obtain ⟨rest,rfl⟩ := List.head?_eq_some_iff.mp hhead
    have hmem : t ∈ d.tellAll v := by simp [ht]
    obtain ⟨e,_,rfl⟩ := List.mem_map.mp hmem
    split_ifs at hl' with hthrows
    · exact hl' ▸ .threw v throws _ rfl hv (ht ▸ throwing_append hcalm hthrows rest)
    · refine hl' ▸ .telling v throws _ rest rfl hv (by simpa using ht) fun t hmem => ?_
      rcases List.mem_append.mp hmem with hmem | hmem
      · exact hcalm t hmem
      · rw [List.mem_singleton.mp hmem]
        exact Bool.not_eq_true _ ▸ hthrows

theorem at_write (hm : (methods cast).mode p = .exclusive) (hl : At cast d d' p l)
    (hw : (methods cast).write l d' = some (l',d₂)) : At cast d d₂ p l' := by
  cases hl <;> simp only [methods,reduceCtorEq,Option.some.injEq,Prod.mk.injEq] at hm hw
  case assign v told h => exact h ▸ hw.1 ▸ .assigned v told hw.2.symm
  case nextId cb h => exact h ▸ hw.1 ▸ .insert cb hw.2.symm
  case insert cb h =>
    subst h
    exact hw.1 ▸ .readId cb hw.2.symm
  case readId cb h =>
    subst h
    exact hw.1 ▸ .gotId cb hw.2.symm
  case erase id h => exact h ▸ hw.1 ▸ .erased id hw.2.symm
  case clear h => exact h ▸ hw.1 ▸ .cleared hw.2.symm

theorem at_readEnd (hm : (methods cast).mode p = .shared) (hl : At cast d d p l)
    (hr : (methods cast).read l d = none) : (object cast).act p d = (d,(methods cast).leave l) := by
  cases hl <;> simp only [methods,reduceCtorEq] at hm hr
  case gotValue => rfl
  case gotText => rfl
  case equal => simp [object,methods]
  case telling v throws told rest _ hv ht hcalm =>
    rw [Option.map_eq_none_iff,nextListener_eq ht,Option.map_eq_none_iff,List.head?_eq_none_iff] at hr
    simp [object,methods,hv,ht,hr,throwing_eq_none hcalm]
  case threw v throws told _ hv ht => simp [object,methods,hv,ht]

theorem at_writeEnd (hm : (methods cast).mode p = .exclusive) (hl : At cast d d' p l)
    (hw : (methods cast).write l d' = none) : (object cast).act p d = (d',(methods cast).leave l) := by
  cases hl <;> simp only [methods,reduceCtorEq] at hm hw
  case assigned h => exact h ▸ rfl
  case gotId h => exact h ▸ rfl
  case erased h => exact h ▸ rfl
  case cleared h => exact h ▸ rfl

theorem methods_implements : (methods cast : Methods (Guarded T W) _ _ _ _).Implements (object cast) :=
  .of_invariant (fun p d l d' => At cast d d' p l) rfl (fun p d => at_enter d p) at_read at_write at_readEnd
    at_writeEnd

end At

/-- The same variable when nobody asks which callbacks were run: every call is one
atomic access. -/
def register : Object (Guarded T W) (Op T W) (Op T W) (Res T) where
  init op := op
  act
    | .getValue, d => (d,.inr (.value d.var.val))
    | .toString, d => (d,.inr (.text (d.var.toString cast)))
    | .setValue v _, d => ({ d with var := { d.var with val := v } },.inr .done)
    | .addListener cb, d =>
      let r := d.var.addListener d.funId cb
      (⟨r.2,r.1⟩,.inr (.id r.1))
    | .delListener id, d => ({ d with var := d.var.delListener id },.inr .done)
    | .clearListener, d => ({ d with var := d.var.clearListener },.inr .done)

def Pending.access : Pending T W → Op T W
  | op a => a
  | .assign v _ => .setValue v fun _ => false

/-- None of the listeners throws. -/
def Op.Calm : Op T W → Prop
  | .setValue _ throws => throws = fun _ => false
  | _ => True

def Res.untold : Res T → Res T
  | .set _ => .done
  | r => r

theorem object_abstracts : (object cast : Object (Guarded T W) _ _ _).Abstracts (register cast)
    (fun p => p.access.Calm) Eq id Pending.access Res.untold where
  init _ := rfl
  keeps {p q d} _ h := by
    match p with
    | .op (.setValue v throws) =>
      simp only [object] at h
      split_ifs at h
      cases ht : throwing throws (d.tellAll v) with
      | some told =>
        rw [ht] at h
        cases h
      | none =>
        rw [ht] at h
        cases h
        rfl
    | .op .getValue | .op .toString | .op (.addListener _) | .op (.delListener _) | .op .clearListener
    | .assign _ _ => cases h
  act p d _ hcalm h := by
    subst h
    match p with
    | .op (.setValue v throws) =>
      obtain rfl : throws = fun _ => false := hcalm
      by_cases hv : d.var.val = v
      · obtain rfl := hv
        right
        simp [object,register,Pending.access,Res.untold]
      · left
        simp [object,hv,Pending.access,throwing_eq_none]
    | .op .getValue | .op .toString | .op (.addListener _) | .op (.delListener _) | .op .clearListener
    | .assign _ _ => exact .inr ⟨_,rfl,rfl⟩

section Runs
variable {ι : Type} [DecidableEq ι]

abbrev State (ι T W : Type) := Methods.State ι (Guarded T W) (Pending T W) (Res T) (Loc T W)

/-- What threads use one variable for, in any interleaving of their steps. -/
abbrev Use (d : Guarded T W) (as : List (ThreadStep ι (Op T W) (Res T))) (s : State ι T W) : Prop :=
  Runs (methods cast).next (fun _ _ => True) (Methods.start d) as s

variable {cast} {d : Guarded T W} {as : List (ThreadStep ι (Op T W) (Res T))} {s : State ι T W}

end Runs

/-- A variable with two listeners. -/
def watched : Guarded Bool Unit :=
  ⟨⟨[],[],false,(SortedMap.empty.assign 1 fun _ _ w => .returned w).assign 2 fun _ _ w => .returned w⟩,2⟩

/-- Thread 0 sets the value, and thread 1 takes a listener away before the assignment. -/
def removal : List (ThreadStep ℕ (Op Bool Unit) (Res Bool)) :=
  .event 0 (.call (.setValue true fun _ => false)) :: .event 1 (.call (.delListener 1)) ::
    List.replicate 5 (.run 0) ++ List.replicate 3 (.run 1) ++ .event 1 (.ret .done) ::
    List.replicate 3 (.run 0) ++ [.event 0 (.ret (.set [⟨1,true,false⟩,⟨2,true,false⟩]))]

/-- The other listener throws at the way back. -/
def refusal : List (ThreadStep ℕ (Op Bool Unit) (Res Bool)) :=
  .event 0 (.call (.setValue false fun id => id = 2)) :: List.replicate 4 (.run 0) ++
    .event 0 (.ret (.threw [⟨2,false,true⟩])) :: .event 1 (.call .getValue) :: List.replicate 3 (.run 1) ++
    [.event 1 (.ret (.value true))]

end Zcs.Config.Register
