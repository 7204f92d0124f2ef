import Mathlib.Logic.Function.Basic
import Zcs.Foundation.LockOrder
import Zcs.Foundation.RWMutex
import Zcs.Foundation.Run

/-! # Methods under a lock, and atomic actions

An object is a state and a set of atomic actions; a call is a sequence of them. Its
methods do each action in a critical section of one readers-writer lock, step by step,
and the sections of other threads come in between. From outside the two cannot be
told apart: the same calls return the same results in the same order.
-/
namespace Zcs

/-- A call of `op` begins at the pending action `init op`. An action leaves a further one
or the result of the call. -/
structure Object (S Op P Res : Type*) where
  init : Op → P
  act : P → S → S × (P ⊕ Res)

inductive Event (Op Res : Type*) where
  | call (op : Op)
  | ret (res : Res)
  deriving DecidableEq

def Event.map {Op Res Op' Res' : Type*} (f : Op → Op') (g : Res → Res') : Event Op Res → Event Op' Res'
  | call op => call (f op)
  | ret res => ret (g res)

@[simp] theorem Event.map_id {Op Res : Type*} (e : Event Op Res) : e.map id id = e := by cases e <;> rfl

inductive Status (P Res : Type*) where
  | idle
  | pending (p : P)
  | ready (res : Res)
  deriving DecidableEq

namespace Status
variable {P Res : Type*}

def after : P ⊕ Res → Status P Res
  | .inl p => pending p
  | .inr res => ready res

/-- The calls and returns of one thread. -/
def move {Op : Type*} [DecidableEq Res] (init : Op → P) : Status P Res → Event Op Res → Option (Status P Res)
  | idle, .call op => some (pending (init op))
  | ready res, .ret res' => if res = res' then some idle else none
  | _, _ => none

def map {P' Res' : Type*} (f : P → P') (g : Res → Res') : Status P Res → Status P' Res'
  | idle => idle
  | pending p => pending (f p)
  | ready res => ready (g res)

@[simp] theorem map_id (st : Status P Res) : st.map id id = st := by cases st <;> rfl

theorem map_after {P' Res' : Type*} (f : P → P') (g : Res → Res') (r : P ⊕ Res) :
    (after r).map f g = after (r.map f g) := by cases r <;> rfl

theorem map_move {Op P' Res' Op' : Type*} [DecidableEq Res] [DecidableEq Res'] {init : Op → P} {init' : Op' → P'}
    {h : Op → Op'} {f : P → P'} {g : Res → Res'} (hinit : ∀ op, f (init op) = init' (h op)) {st st' : Status P Res}
    {e : Event Op Res} (hm : st.move init e = some st') :
    (st.map f g).move init' (e.map h g) = some (st'.map f g) := by
  cases st <;> cases e <;> simp only [move,reduceCtorEq] at hm
  case idle.call op =>
    cases hm
    simp [map,move,Event.map,hinit]
  case ready.ret res res' =>
    split_ifs at hm with hr
    cases hm
    simp [map,move,Event.map,hr]

theorem after_eq_pending {r : P ⊕ Res} {p : P} (h : after r = pending p) : r = .inl p := by
  cases r with
  | inl q => cases h; rfl
  | inr res => cases h

theorem move_eq_pending {Op : Type*} [DecidableEq Res] {init : Op → P} {st : Status P Res} {e : Event Op Res} {p : P}
    (h : st.move init e = some (pending p)) : ∃ op, e = .call op ∧ p = init op := by
  cases st <;> cases e <;> simp only [move,reduceCtorEq,Option.some.injEq,pending.injEq] at h
  case idle.call op => exact ⟨op,rfl,h.symm⟩
  case ready.ret res res' =>
    split_ifs at h
    cases h

theorem move_pending {Op : Type*} [DecidableEq Res] (init : Op → P) (p : P) (e : Event Op Res) :
    (pending p).move init e = none := by cases e <;> rfl

end Status

/-- A step of a thread: a call or a return, or anything in between. -/
inductive ThreadStep (ι Op Res : Type*) where
  | event (i : ι) (e : Event Op Res)
  | run (i : ι)
  deriving DecidableEq

def ThreadStep.observed {ι Op Res : Type*} : ThreadStep ι Op Res → Option (ι × Event Op Res)
  | event i e => some (i,e)
  | run _ => none

namespace Object
variable {ι S Op P Res : Type*}

structure State (ι S P Res : Type*) where
  val : S
  status : ι → Status P Res

def start (val : S) : State ι S P Res := ⟨val,fun _ => .idle⟩

variable [DecidableEq ι] [DecidableEq Res] (o : Object S Op P Res)

def next (s : State ι S P Res) : ThreadStep ι Op Res → Option (State ι S P Res)
  | .event i e => ((s.status i).move o.init e).map fun st => { s with status := Function.update s.status i st }
  | .run i =>
    match s.status i with
    | .pending p =>
      let r := o.act p s.val
      some { val := r.1, status := Function.update s.status i (.after r.2) }
    | .idle | .ready _ => none

/-- An abstraction of the calls and results, and a relation of the states, under which
every action of a good call is the abstract one, or nothing. -/
structure Abstracts {S' Op' P' Res' : Type*} (o : Object S Op P Res) (o' : Object S' Op' P' Res') (good : P → Prop)
    (r : S → S' → Prop) (fop : Op → Op') (fp : P → P') (fres : Res → Res') : Prop where
  init : ∀ op, fp (o.init op) = o'.init (fop op)
  keeps : ∀ {p q s}, good p → (o.act p s).2 = .inl q → good q
  act : ∀ p {s s'}, good p → r s s' → r (o.act p s).1 s' ∧ (∃ q, (o.act p s).2 = .inl q ∧ fp q = fp p) ∨
    ∃ t', o'.act (fp p) s' = (t',(o.act p s).2.map fp fres) ∧ r (o.act p s).1 t'

section Abstracts
variable {S' Op' P' Res' : Type*} [DecidableEq Res'] {o} {o' : Object S' Op' P' Res'} {r : S → S' → Prop}
  {good : P → Prop} {fop : Op → Op'} {fp : P → P'} {fres : Res → Res'}

def State.Related (good : P → Prop) (r : S → S' → Prop) (fp : P → P') (fres : Res → Res') (s : State ι S P Res)
    (t : State ι S' P' Res') : Prop :=
  r s.val t.val ∧ (t.status = fun i => (s.status i).map fp fres) ∧ ∀ i p, s.status i = .pending p → good p

/-- A step that begins none but good calls. -/
def Begins (o : Object S Op P Res) (good : P → Prop) (a : ThreadStep ι Op Res) : Prop :=
  ∀ i op, a = .event i (.call op) → good (o.init op)

omit [DecidableEq Res] [DecidableEq Res'] in
theorem pending_update {status : ι → Status P Res} (h : ∀ i p, status i = .pending p → good p) {i : ι}
    {t : Status P Res} (ht : ∀ p, t = .pending p → good p) :
    ∀ j p, Function.update status i t j = .pending p → good p := by
  intro j p hj
  by_cases hij : j = i
  · subst hij
    exact ht p (by simpa using hj)
  · exact h j p (by simpa [hij] using hj)

omit [DecidableEq Res] [DecidableEq Res'] in
theorem map_update (status : ι → Status P Res) (i : ι) (st : Status P Res) :
    (fun j => (Function.update status i st j).map fp fres) =
      Function.update (fun j => (status j).map fp fres) i (st.map fp fres) := by
  funext j
  by_cases hj : j = i
  · subst hj
    simp
  · simp [hj]

theorem Abstracts.step (ha : o.Abstracts o' good r fop fp fres) {s u : State ι S P Res} {t : State ι S' P' Res'}
    (hR : s.Related good r fp fres t) {a : ThreadStep ι Op Res} (hgood : o.Begins good a) (h : o.next s a = some u) :
    ∃ bs v, Runs o'.next (fun _ _ => True) t bs v ∧ u.Related good r fp fres v ∧
      bs.filterMap ThreadStep.observed = (a.observed.map fun e => (e.1,e.2.map fop fres)).toList := by
  obtain ⟨val,status⟩ := t
  obtain ⟨hr,rfl,hpending⟩ := hR
  cases a with
  | event i e =>
    obtain ⟨st,hst,rfl⟩ := Option.map_eq_some_iff.mp h
    refine ⟨[.event i (e.map fop fres)],⟨val,Function.update _ i (st.map fp fres)⟩,.single trivial ?_,
      ⟨hr,(map_update _ _ _).symm,pending_update hpending fun p hp => ?_⟩,rfl⟩
    · simp only [next]
      rw [Status.map_move ha.init hst]
      rfl
    · subst hp
      obtain ⟨op,rfl,rfl⟩ := Status.move_eq_pending hst
      exact hgood i op rfl
  | run i =>
    simp only [next] at h
    cases hs : s.status i with
    | idle | ready res => simp [hs] at h
    | pending p =>
      simp only [hs,Option.some.injEq] at h
      subst h
      have hp := hpending i p hs
      have hkeeps := pending_update hpending (i := i) (t := .after (o.act p s.val).2) fun q hq =>
        ha.keeps hp (Status.after_eq_pending hq)
      rcases ha.act p hp hr with ⟨hr',q,hq,hpq⟩ | ⟨t',hact,hr'⟩
      · refine ⟨[],_,.refl _,⟨hr',?_,hkeeps⟩,rfl⟩
        funext j
        by_cases hj : j = i
        · subst hj
          simp [hs,hq,hpq,Status.after,Status.map]
        · simp [hj]
      · refine ⟨[.run i],⟨t',Function.update _ i ((Status.after (o.act p s.val).2).map fp fres)⟩,.single trivial ?_,
          ⟨hr',(map_update _ _ _).symm,hkeeps⟩,rfl⟩
        have hpending : (s.status i).map fp fres = .pending (fp p) := by simp [hs,Status.map]
        simp only [next,hpending,hact,Status.map_after]

theorem Abstracts.runs (ha : o.Abstracts o' good r fop fp fres) {val : S} {val' : S'} (hr : r val val')
    {as : List (ThreadStep ι Op Res)} {s : State ι S P Res}
    (h : Runs o.next (fun _ _ => True) (start val) as s)
    (hgood : ∀ i op, (i,Event.call op) ∈ as.filterMap ThreadStep.observed → good (o.init op)) :
    ∃ bs t, Runs o'.next (fun _ _ => True) (start val') bs t ∧ s.Related good r fp fres t ∧
      bs.filterMap ThreadStep.observed =
        (as.filterMap ThreadStep.observed).map fun e => (e.1,e.2.map fop fres) := by
  have hbegins : ∀ a ∈ as, o.Begins good a := by
    rintro a ha i op rfl
    exact hgood i op (List.mem_filterMap.mpr ⟨_,ha,rfl⟩)
  obtain ⟨bs,t,hbs,ht,hobs⟩ := (Runs.and_labels_iff.mpr ⟨h,hbegins⟩).simulate_runs
    (R := State.Related good r fp fres) (fun hR hok hn => ha.step hR hok.2 hn) (c := start val')
    ⟨hr,rfl,fun _ _ hp => by cases hp⟩
  refine ⟨bs,t,hbs,ht,hobs.trans ?_⟩
  rw [List.map_filterMap]

end Abstracts

end Object

/-- The code of an object's methods: for each action the mode of its section, the place
behind the lock, the steps inside, which end where there is none, and what is pending
behind the unlock. A shared section cannot write. -/
structure Methods (S Op P Res Loc : Type*) where
  init : Op → P
  mode : P → LockMode
  enter : P → Loc
  read : Loc → S → Option Loc
  write : Loc → S → Option (Loc × S)
  leave : Loc → P ⊕ Res

namespace Methods
variable {ι S Op P Res Loc : Type*}

structure State (ι S P Res Loc : Type*) where
  data : S
  mutex : RWMutex ι
  inside : ι → Option Loc
  status : ι → Status P Res

section Code
variable (M : Methods S Op P Res Loc)

def reads : ℕ → Loc → S → Option Loc
  | 0, l, _ => some l
  | n + 1, l, d => (reads n l d).bind fun l => M.read l d

def writes : ℕ → Loc → S → Option (Loc × S)
  | 0, l, d => some (l,d)
  | n + 1, l, d => (writes n l d).bind fun r => M.write r.1 r.2

/-- From its beginning to its end, every section is one action of the object. -/
structure Implements (o : Object S Op P Res) : Prop where
  init : M.init = o.init
  read : ∀ {p n l d}, M.mode p = .shared → M.reads n (M.enter p) d = some l → M.read l d = none →
    o.act p d = (d,M.leave l)
  write : ∀ {p n l d d'}, M.mode p = .exclusive → M.writes n (M.enter p) d = some (l,d') →
    M.write l d' = none → o.act p d = (d',M.leave l)

variable {M} in
/-- The rule for sections: an invariant of the steps inside, in which `d` is the state at
the beginning of the section. -/
theorem Implements.of_invariant {o : Object S Op P Res} (I : P → S → Loc → S → Prop) (init : M.init = o.init)
    (enter : ∀ p d, I p d (M.enter p) d)
    (read : ∀ {p d l l'}, M.mode p = .shared → I p d l d → M.read l d = some l' → I p d l' d)
    (write : ∀ {p d l d₁ l' d₂}, M.mode p = .exclusive → I p d l d₁ → M.write l d₁ = some (l',d₂) → I p d l' d₂)
    (readEnd : ∀ {p d l}, M.mode p = .shared → I p d l d → M.read l d = none → o.act p d = (d,M.leave l))
    (writeEnd : ∀ {p d l d'}, M.mode p = .exclusive → I p d l d' → M.write l d' = none →
      o.act p d = (d',M.leave l)) : M.Implements o where
  init := init
  read {p n l d} hm hn hstop := by
    refine readEnd hm ?_ hstop
    clear hstop
    induction n generalizing l with
    | zero =>
      obtain rfl := Option.some.inj hn
      exact enter p d
    | succ n ih =>
      obtain ⟨k,hk,hl⟩ := Option.bind_eq_some_iff.mp hn
      exact read hm (ih hk) hl
  write {p n l d d'} hm hn hstop := by
    refine writeEnd hm ?_ hstop
    clear hstop
    induction n generalizing l d' with
    | zero =>
      obtain ⟨rfl,rfl⟩ := Prod.mk.inj (Option.some.inj hn)
      exact enter p d
    | succ n ih =>
      obtain ⟨⟨k,e⟩,hk,hl⟩ := Option.bind_eq_some_iff.mp hn
      exact write hm (ih hk) hl

end Code

def start (val : S) : State ι S P Res Loc := ⟨val,.free,fun _ => none,fun _ => .idle⟩

variable [DecidableEq ι]

def exit (M : Methods S Op P Res Loc) (s : State ι S P Res Loc) (i : ι) (l : Loc) : State ι S P Res Loc :=
  { s with
    mutex := s.mutex.unlock i
    inside := Function.update s.inside i none
    status := Function.update s.status i (.after (M.leave l)) }

def next [DecidableEq Res] (M : Methods S Op P Res Loc) (s : State ι S P Res Loc) :
    ThreadStep ι Op Res → Option (State ι S P Res Loc)
  | .event i e => ((s.status i).move M.init e).map fun st => { s with status := Function.update s.status i st }
  | .run i =>
    match s.status i with
    | .idle | .ready _ => none
    | .pending p =>
      match s.inside i, M.mode p with
      | none, .shared => (s.mutex.rdlock i).map fun m =>
        { s with mutex := m, inside := Function.update s.inside i (some (M.enter p)) }
      | none, .exclusive => (s.mutex.wrlock i).map fun m =>
        { s with mutex := m, inside := Function.update s.inside i (some (M.enter p)) }
      | some l, .shared =>
        match M.read l s.data with
        | some l => some { s with inside := Function.update s.inside i (some l) }
        | none => some (M.exit s i l)
      | some l, .exclusive =>
        match M.write l s.data with
        | some (l,d) => some { s with data := d, inside := Function.update s.inside i (some l) }
        | none => some (M.exit s i l)

section Refines
variable [DecidableEq Res] {M : Methods S Op P Res Loc} {o : Object S Op P Res}

/-- Everything a step of a thread's code can do: it takes the lock, it reads or writes in
its section, or it leaves it. -/
theorem next_run_cases {s t : State ι S P Res Loc} {i : ι} (h : M.next s (.run i) = some t) :
    ∃ p, s.status i = .pending p ∧
      ((s.inside i = none ∧ ∃ m, (M.mode p = .shared ∧ s.mutex.rdlock i = some m ∨
          M.mode p = .exclusive ∧ s.mutex.wrlock i = some m) ∧
        t = { s with mutex := m, inside := Function.update s.inside i (some (M.enter p)) }) ∨
      ∃ l, s.inside i = some l ∧
        ((M.mode p = .shared ∧ ∃ l', M.read l s.data = some l' ∧
          t = { s with inside := Function.update s.inside i (some l') }) ∨
        (M.mode p = .exclusive ∧ ∃ l' d, M.write l s.data = some (l',d) ∧
          t = { s with data := d, inside := Function.update s.inside i (some l') }) ∨
        ((M.mode p = .shared ∧ M.read l s.data = none ∨ M.mode p = .exclusive ∧ M.write l s.data = none) ∧
          t = M.exit s i l))) := by
  simp only [next] at h
  cases hs : s.status i with
  | idle | ready res => simp [hs] at h
  | pending p =>
    refine ⟨p,rfl,?_⟩
    simp only [hs] at h
    cases hi : s.inside i with
    | none =>
      left
      cases hm : M.mode p with
      | shared =>
        simp only [hi,hm] at h
        obtain ⟨m,hl,rfl⟩ := Option.map_eq_some_iff.mp h
        exact ⟨rfl,m,.inl ⟨rfl,hl⟩,rfl⟩
      | exclusive =>
        simp only [hi,hm] at h
        obtain ⟨m,hl,rfl⟩ := Option.map_eq_some_iff.mp h
        exact ⟨rfl,m,.inr ⟨rfl,hl⟩,rfl⟩
    | some l =>
      refine .inr ⟨l,rfl,?_⟩
      cases hm : M.mode p with
      | shared =>
        simp only [hi,hm] at h
        cases hr : M.read l s.data with
        | some l' =>
          simp only [hr,Option.some.injEq] at h
          exact .inl ⟨rfl,l',rfl,h.symm⟩
        | none =>
          simp only [hr,Option.some.injEq] at h
          exact .inr (.inr ⟨.inl ⟨rfl,rfl⟩,h.symm⟩)
      | exclusive =>
        simp only [hi,hm] at h
        cases hw : M.write l s.data with
        | some r =>
          simp only [hw,Option.some.injEq] at h
          exact .inr (.inl ⟨rfl,r.1,r.2,rfl,h.symm⟩)
        | none =>
          simp only [hw,Option.some.injEq] at h
          exact .inr (.inr ⟨.inr ⟨rfl,rfl⟩,h.symm⟩)

/-- A thread inside has the lock, and has come to its place from the state before the
section of the one that writes. -/
inductive Placed (M : Methods S Op P Res Loc) (s : State ι S P Res Loc) (val : S) (i : ι) (l : Loc) : Prop
  | reading {p : P} {n : ℕ} (hs : s.status i = .pending p) (hm : M.mode p = .shared)
    (hl : i ∈ s.mutex.readers) (h : M.reads n (M.enter p) val = some l)
  | writing {p : P} {n : ℕ} (hs : s.status i = .pending p) (hm : M.mode p = .exclusive)
    (hl : s.mutex.writer = some i) (h : M.writes n (M.enter p) val = some (l,s.data))

/-- The object is behind by the section of the thread that writes, if there is one. -/
structure Matches (M : Methods S Op P Res Loc) (s : State ι S P Res Loc) (t : Object.State ι S P Res) :
    Prop where
  status : s.status = t.status
  placed : ∀ {i l}, s.inside i = some l → Placed M s t.val i l
  readers : ∀ i ∈ s.mutex.readers, (s.inside i).isSome = true
  writer : ∀ {i}, s.mutex.writer = some i → (s.inside i).isSome = true
  nodup : s.mutex.readers.Nodup
  data : s.mutex.writer = none → s.data = t.val

omit [DecidableEq ι] [DecidableEq Res] in
theorem matches_start (val : S) : Matches M (start val : State ι S P Res Loc) (Object.start val) where
  status := rfl
  placed h := by cases h
  readers i h := by cases h
  writer h := by cases h
  nodup := List.nodup_nil
  data _ := rfl

section Placed
variable {s s' : State ι S P Res Loc} {val : S} {i : ι} {l : Loc}

omit [DecidableEq ι] [DecidableEq Res]

theorem Placed.pending (h : Placed M s val i l) : ∃ p, s.status i = .pending p := by
  cases h with
  | reading hs => exact ⟨_,hs⟩
  | writing hs => exact ⟨_,hs⟩

/-- A thread stays where it is while others move, if the one that writes is alone. -/
theorem Placed.frame (h : Placed M s val i l) (hs : s'.status i = s.status i)
    (hr : i ∈ s.mutex.readers → i ∈ s'.mutex.readers)
    (hw : s.mutex.writer = some i → s'.mutex.writer = some i ∧ s'.data = s.data) : Placed M s' val i l := by
  cases h with
  | reading hp hm hl hn => exact .reading (hs.trans hp) hm (hr hl) hn
  | writing hp hm hl hn => exact .writing (hs.trans hp) hm (hw hl).1 ((hw hl).2 ▸ hn)

end Placed

section Step
variable {s : State ι S P Res Loc} {t : Object.State ι S P Res} {i : ι}

omit [DecidableEq Res]

omit [DecidableEq ι] in
theorem Matches.alone (hR : Matches M s t) (hw : s.mutex.writer = some i) {j : ι} {l : Loc}
    (hj : s.inside j = some l) : j = i := by
  cases hR.placed hj with
  | reading _ _ hl =>
    rw [s.mutex.exclusive (by simp [hw])] at hl
    cases hl
  | writing _ _ hl => exact Option.some.inj (hl.symm.trans hw)

theorem Matches.locked (hR : Matches M s t) {p : P} (hp : s.status i = .pending p) (hi : s.inside i = none)
    {m : RWMutex ι} (hm : M.mode p = .shared ∧ s.mutex.rdlock i = some m ∨
      M.mode p = .exclusive ∧ s.mutex.wrlock i = some m) :
    Matches M { s with mutex := m, inside := Function.update s.inside i (some (M.enter p)) } t := by
  have hout : i ∉ s.mutex.readers := fun h => by simpa [hi] using hR.readers i h
  have hw : s.mutex.writer = none := by
    rcases hm with ⟨_,hl⟩ | ⟨_,hl⟩
    · exact (RWMutex.rdlock_eq_some_iff.mp hl).1
    · exact (RWMutex.wrlock_eq_some_iff.mp hl).1
  have hreaders : ∀ j ∈ m.readers, j = i ∨ j ∈ s.mutex.readers := by
    rcases hm with ⟨_,hl⟩ | ⟨_,hl⟩
    · intro j hj
      rw [(RWMutex.rdlock_eq_some_iff.mp hl).2.2] at hj
      exact List.mem_cons.mp hj
    · intro j hj
      rw [(RWMutex.wrlock_eq_some_iff.mp hl).2.2.2] at hj
      cases hj
  have hwriter : ∀ {j}, m.writer = some j → j = i := by
    intro j hj
    rcases hm with ⟨_,hl⟩ | ⟨_,hl⟩
    · rw [(RWMutex.rdlock_eq_some_iff.mp hl).2.1] at hj
      cases hj
    · rw [(RWMutex.wrlock_eq_some_iff.mp hl).2.2.1] at hj
      exact (Option.some.inj hj).symm
  have hinside : ∀ j, (s.inside j).isSome = true →
      (Function.update s.inside i (some (M.enter p)) j).isSome = true := by
    intro j hj
    by_cases hji : j = i <;> simp [hji,hj]
  refine ⟨hR.status,fun {j l} hj => ?_,fun j hj => ?_,fun {j} hj => ?_,?_,fun _ => hR.data hw⟩
  · by_cases hji : j = i
    · subst hji
      obtain rfl : M.enter p = l := by simpa using hj
      rcases hm with ⟨hmode,hl⟩ | ⟨hmode,hl⟩
      · have hin : j ∈ m.readers := by simp [(RWMutex.rdlock_eq_some_iff.mp hl).2.2]
        exact .reading (n := 0) hp hmode hin rfl
      · rw [← hR.data hw]
        exact .writing (n := 0) hp hmode (RWMutex.wrlock_eq_some_iff.mp hl).2.2.1 rfl
    · have hj : s.inside j = some l := by simpa [hji] using hj
      refine (hR.placed hj).frame rfl (fun hr => ?_) fun h => by simp [hw] at h
      rcases hm with ⟨_,hl⟩ | ⟨_,hl⟩
      · simp [(RWMutex.rdlock_eq_some_iff.mp hl).2.2,hr]
      · simp [(RWMutex.wrlock_eq_some_iff.mp hl).2.1] at hr
  · rcases hreaders j hj with rfl | hj
    · simp
    · exact hinside j (hR.readers j hj)
  · obtain rfl := hwriter hj
    simp
  · rcases hm with ⟨_,hl⟩ | ⟨_,hl⟩
    · rw [(RWMutex.rdlock_eq_some_iff.mp hl).2.2]
      exact List.nodup_cons.mpr ⟨hout,hR.nodup⟩
    · rw [(RWMutex.wrlock_eq_some_iff.mp hl).2.2.2]
      exact List.nodup_nil

theorem Matches.body (hR : Matches M s t) {l l' : Loc} {d : S} (hi : s.inside i = some l)
    (hplaced : Placed M { s with data := d, inside := Function.update s.inside i (some l') } t.val i l')
    (hd : s.mutex.writer ≠ some i → d = s.data) :
    Matches M { s with data := d, inside := Function.update s.inside i (some l') } t := by
  have hinside : ∀ j, (s.inside j).isSome = true → (Function.update s.inside i (some l') j).isSome = true := by
    intro j hj
    by_cases hji : j = i <;> simp [hji,hj]
  refine ⟨hR.status,fun {j k} hj => ?_,fun j hj => hinside j (hR.readers j hj),fun hj => hinside _ (hR.writer hj),
    hR.nodup,fun hw => ?_⟩
  · by_cases hji : j = i
    · subst hji
      obtain rfl : l' = k := by simpa using hj
      exact hplaced
    · have hj : s.inside j = some k := by simpa [hji] using hj
      refine (hR.placed hj).frame rfl id fun hw => ⟨hw,?_⟩
      exact absurd (hR.alone hw hi).symm hji
  · exact (hd (by simp [show s.mutex.writer = none from hw])).trans (hR.data hw)

/-- At the end of a section the object does its action. -/
theorem Matches.exit (hM : M.Implements o) (hR : Matches M s t) {p : P} {l : Loc} (hp : s.status i = .pending p)
    (hi : s.inside i = some l) (hend : M.mode p = .shared ∧ M.read l s.data = none ∨
      M.mode p = .exclusive ∧ M.write l s.data = none) :
    Matches M (M.exit s i l)
      { val := (o.act p t.val).1, status := Function.update t.status i (.after (o.act p t.val).2) } := by
  obtain ⟨hdata,hval,hwriter⟩ : o.act p t.val = (s.data,M.leave l) ∧
      (∀ j k, j ≠ i → s.inside j = some k → s.data = t.val) ∧
      (s.mutex.writer = none ∨ s.mutex.writer = some i) := by
    cases hR.placed hi with
    | @reading q n hq hm hl hn =>
      obtain rfl : q = p := by simpa [hq] using hp
      have hfree : s.mutex.writer = none := by
        by_contra hw
        rw [s.mutex.exclusive hw] at hl
        cases hl
      have hstop : M.read l t.val = none := by
        rcases hend with ⟨_,h⟩ | ⟨hx,_⟩
        · rwa [← hR.data hfree]
        · simp [hm] at hx
      have hact := hM.read hm hn hstop
      rw [← hR.data hfree] at hact ⊢
      exact ⟨hact,fun _ _ _ _ => rfl,.inl hfree⟩
    | @writing q n hq hm hl hn =>
      obtain rfl : q = p := by simpa [hq] using hp
      have hstop : M.write l s.data = none := by
        rcases hend with ⟨hx,_⟩ | ⟨_,h⟩
        · simp [hm] at hx
        · exact h
      exact ⟨hM.write hm hn hstop,fun j k hj hk => absurd (hR.alone hl hk) hj,.inr hl⟩
  have hstay : ∀ j, j ≠ i → (s.inside j).isSome = true → ((M.exit s i l).inside j).isSome = true := by
    intro j hj h
    simpa [Methods.exit,hj] using h
  rw [hdata]
  refine ⟨?_,fun {j k} hj => ?_,fun j hj => ?_,fun {j} hj => ?_,?_,fun _ => rfl⟩
  · simp [Methods.exit,hR.status]
  · have hji : j ≠ i := by
      rintro rfl
      simp [Methods.exit] at hj
    have hk : s.inside j = some k := by simpa [Methods.exit,hji] using hj
    have hpl := hR.placed hk
    rw [← hval j k hji hk] at hpl
    refine hpl.frame ?_ (fun hr => ?_) fun hw => ⟨?_,rfl⟩
    · simp [Methods.exit,hji]
    · simpa [Methods.exit,RWMutex.readers_unlock] using (List.mem_erase_of_ne hji).mpr hr
    · rw [Methods.exit,RWMutex.writer_unlock,if_neg (by simp [hw,hji]),hw]
  · rw [Methods.exit,RWMutex.readers_unlock,hR.nodup.mem_erase_iff] at hj
    exact hstay j hj.1 (hR.readers j hj.2)
  · rw [Methods.exit,RWMutex.writer_unlock] at hj
    rcases hwriter with hw | hw <;> simp [hw] at hj
  · rw [Methods.exit,RWMutex.readers_unlock]
    exact hR.nodup.erase i

end Step

/-- Every step of the methods is a step of the object, or none. -/
theorem matches_step (hM : M.Implements o) {s s' : State ι S P Res Loc} {t : Object.State ι S P Res}
    {a : ThreadStep ι Op Res} (hR : Matches M s t) (h : M.next s a = some s') :
    ∃ as t', Runs o.next (fun _ _ => True) t as t' ∧ Matches M s' t' ∧
      as.filterMap ThreadStep.observed = a.observed.toList := by
  cases a with
  | event i e =>
    obtain ⟨st,hst,rfl⟩ := Option.map_eq_some_iff.mp h
    refine ⟨[.event i e],_,.single trivial (t := { t with status := Function.update t.status i st }) ?_,?_,rfl⟩
    · simp [Object.next,← hR.status,← hM.init,hst]
    · refine ⟨by simp [hR.status],fun {j l} hj => ?_,hR.readers,hR.writer,hR.nodup,hR.data⟩
      have hpl := hR.placed hj
      refine hpl.frame ?_ id fun hw => ⟨hw,rfl⟩
      by_cases hji : j = i
      · subst hji
        obtain ⟨p,hp⟩ := hpl.pending
        rw [hp,Status.move_pending] at hst
        cases hst
      · simp [hji]
  | run i =>
    obtain ⟨p,hp,⟨hi,m,hm,rfl⟩ | ⟨l,hi,hl⟩⟩ := next_run_cases h
    · exact ⟨[],t,.refl t,hR.locked hp hi hm,rfl⟩
    · rcases hl with ⟨hm,l',hr,rfl⟩ | ⟨hm,l',d,hw,rfl⟩ | ⟨hend,rfl⟩
      · refine ⟨[],t,.refl t,hR.body hi ?_ fun _ => rfl,rfl⟩
        cases hR.placed hi with
        | @reading q n hq hmq hlq hn =>
          refine .reading (n := n + 1) hq hmq hlq ?_
          have hfree : s.mutex.writer = none := by
            by_contra hw
            rw [s.mutex.exclusive hw] at hlq
            cases hlq
          rw [reads,hn,Option.bind_some,← hR.data hfree]
          exact hr
        | @writing q n hq hmq =>
          obtain rfl : q = p := by simpa [hq] using hp
          simp [hm] at hmq
      · cases hR.placed hi with
        | @reading q n hq hmq =>
          obtain rfl : q = p := by simpa [hq] using hp
          simp [hm] at hmq
        | @writing q n hq hmq hlq hn =>
          refine ⟨[],t,.refl t,hR.body hi ?_ fun h => absurd hlq h,rfl⟩
          refine .writing (n := n + 1) hq hmq hlq ?_
          simpa [writes,hn] using hw
      · refine ⟨[.run i],_,.single trivial ?_,hR.exit hM hp hi hend,rfl⟩
        simp [Object.next,← hR.status,hp]

theorem isSome_next_of_inside {s : State ι S P Res Loc} {i : ι} {p : P} {l : Loc} (hp : s.status i = .pending p)
    (hi : s.inside i = some l) : (M.next s (.run i)).isSome = true := by
  cases hm : M.mode p with
  | shared => cases hr : M.read l s.data <;> simp [next,hp,hi,hm,hr]
  | exclusive => cases hw : M.write l s.data <;> simp [next,hp,hi,hm,hw]

/-- The lock blocks nobody for good: while a call is pending some thread can go on. -/
theorem Matches.can_run {s : State ι S P Res Loc} {t : Object.State ι S P Res} (hR : Matches M s t) {i : ι} {p : P}
    (hp : s.status i = .pending p) : ∃ j, (M.next s (.run j)).isSome = true := by
  by_cases hin : ∃ j l, s.inside j = some l
  · obtain ⟨j,l,hj⟩ := hin
    obtain ⟨q,hq⟩ := (hR.placed hj).pending
    exact ⟨j,isSome_next_of_inside hq hj⟩
  · have hout : ∀ j, (s.inside j).isSome = false := fun j =>
      Bool.eq_false_iff.mpr fun h => hin ⟨j,Option.isSome_iff_exists.mp h⟩
    have hw : s.mutex.writer = none := Option.eq_none_iff_forall_ne_some.mpr fun j hj => by
      simpa [hout j] using hR.writer hj
    have hr : s.mutex.readers = [] := List.eq_nil_iff_forall_not_mem.mpr fun j hj => by
      simpa [hout j] using hR.readers j hj
    have hi : s.inside i = none := by simpa using hout i
    refine ⟨i,?_⟩
    cases hm : M.mode p <;> simp [next,hp,hi,hm,RWMutex.rdlock,RWMutex.wrlock,hw,hr]

/-- What the callers of the methods can see, callers of the object can see. -/
theorem refines (hM : M.Implements o) {val : S} {as : List (ThreadStep ι Op Res)} {s : State ι S P Res Loc}
    (h : Runs M.next (fun _ _ => True) (start val) as s) :
    ∃ bs t, Runs o.next (fun _ _ => True) (Object.start val) bs t ∧ Matches M s t ∧
      bs.filterMap ThreadStep.observed = as.filterMap ThreadStep.observed :=
  h.simulate_runs (fun hR _ hn => matches_step hM hR hn) (matches_start val)

end Refines

end Methods
end Zcs
