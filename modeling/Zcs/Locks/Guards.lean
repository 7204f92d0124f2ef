import Mathlib.Logic.Function.Basic
import Zcs.Foundation.RWMutex
import Zcs.Foundation.Run

/-! # Guards on a lock

`ReadScopedLockImpl` and `WriteScopedLockImpl` have the methods of `ScopedLockImpl` and
call `rdlock` or `wrlock` in them for `lock`. A step is one call of a method, one call of
the mutex, or one read or write of a guard's own `locked_`, so that every interleaving of
the threads is a run of this system. The second half is about a readers-writer lock, on
which no thread has two guards at a time.
-/
namespace Zcs.Locks.Guards

inductive Call where
  | new | lock | unlock | delete
  deriving DecidableEq

inductive Act (ι : Type) where
  | call (g : ι) (c : Call)
  | run (g : ι)

def Act.guard {ι : Type} : Act ι → ι
  | call g _ | run g => g

/-- The places of a guard in its methods. `dying` is set when `Unlock` is called by
the destructor. -/
inductive Pc where
  | unborn
  | acquire
  | setLocked
  | idle
  | lock
  | unlock (dying : Bool)
  | release (dying : Bool)
  | resetLocked (dying : Bool)
  | destroyed
  deriving DecidableEq

/-- A guard between two steps. What it was last called for is history. -/
structure Guard where
  pc : Pc
  locked : Bool
  last : Option Call
  deriving DecidableEq

/-- What a guard calls of the mutex. -/
inductive Op where
  | acquire
  | release
  deriving DecidableEq

/-- The mutex that the template is for. A call that cannot have it is `none`: it is
tried again, if the mutex spins, and blocks otherwise. -/
structure Lockable (L ι : Type) where
  acquire : ι → L → Option L
  release : ι → L → L
  spins : Bool

/-- A call is made between calls; the constructor takes the mutex without a look at `locked_`. -/
def enter : Call → Pc → Option Pc
  | .new, .unborn => some .acquire
  | .lock, .idle => some .lock
  | .unlock, .idle => some (.unlock false)
  | .delete, .idle => some (.unlock true)
  | _, _ => none

def leave (dying : Bool) : Pc := if dying then .destroyed else .idle

namespace Guard

def call (g : Guard) (c : Call) : Option Guard := (enter c g.pc).map fun p => { g with pc := p, last := some c }

/-- The next statement of a method, with the call of the mutex in it. -/
def run (g : Guard) : Option (Option Op × Guard) :=
  match g.pc with
  | .acquire => some (some .acquire,{ g with pc := .setLocked })
  | .setLocked => some (none,{ g with locked := true, pc := .idle })
  | .lock => some (none,{ g with pc := if g.locked then .idle else .acquire })
  | .unlock dying => some (none,{ g with pc := if g.locked then .release dying else leave dying })
  | .release dying => some (some .release,{ g with pc := .resetLocked dying })
  | .resetLocked dying => some (none,{ g with locked := false, pc := leave dying })
  | .unborn | .idle | .destroyed => none

/-- The guard has the mutex: `locked_` says so where no call of the mutex is under way. -/
def owns (g : Guard) : Bool :=
  match g.pc with
  | .setLocked | .release _ => true
  | .unborn | .acquire | .resetLocked _ | .destroyed => false
  | .idle | .lock | .unlock _ => g.locked

/-- The guard was last called to have the mutex. -/
def wants (g : Guard) : Prop := g.last = some .new ∨ g.last = some .lock

/-- What the last call was, told from the place. -/
def Fits (g : Guard) : Prop :=
  match g.pc with
  | .unborn => g.last = none
  | .acquire | .setLocked => g.wants
  | .idle => g.locked = true ↔ g.wants
  | .lock => g.last = some .lock
  | .unlock dying | .release dying | .resetLocked dying => g.last = some (if dying then .delete else .unlock)
  | .destroyed => g.last = some .delete

theorem call_eq {g g' : Guard} {c : Call} (h : g.call c = some g') :
    ∃ p, enter c g.pc = some p ∧ g' = { g with pc := p, last := some c } := by
  obtain ⟨p,hp,rfl⟩ := Option.map_eq_some_iff.mp h
  exact ⟨p,hp,rfl⟩

/-- A call of a method is not yet one of the mutex. -/
theorem owns_call {g g' : Guard} {c : Call} (h : g.call c = some g') : g'.owns = g.owns := by
  obtain ⟨p,hp,rfl⟩ := call_eq h
  obtain ⟨pc,locked,last⟩ := g
  cases c <;> cases pc <;> simp only [enter,reduceCtorEq,Option.some.injEq] at hp <;> subst hp <;> rfl

theorem Fits.call {g g' : Guard} {c : Call} (h : g.call c = some g') : g'.Fits := by
  obtain ⟨p,hp,rfl⟩ := call_eq h
  obtain ⟨pc,locked,last⟩ := g
  cases c <;> cases pc <;> simp only [enter,reduceCtorEq,Option.some.injEq] at hp <;> subst hp <;> simp [Fits,wants]

theorem owns_leave (dying : Bool) (last : Option Call) : owns ⟨leave dying,false,last⟩ = false := by
  cases dying <;> rfl

/-- A guard has the mutex from one call of it to the other. -/
theorem owns_run {g g' : Guard} {op : Option Op} (h : g.run = some (op,g')) :
    g'.owns = match op with
      | none => g.owns
      | some .acquire => true
      | some .release => false := by
  obtain ⟨pc,locked,last⟩ := g
  cases pc with
  | unborn | idle | destroyed => cases h
  | acquire | setLocked | release => cases h; rfl
  | resetLocked dying => cases h; exact owns_leave dying last
  | lock => cases h; cases locked <;> rfl
  | unlock dying =>
    cases h
    cases locked with
    | true => rfl
    | false => exact owns_leave dying last

theorem owns_of_op {g g' : Guard} {op : Op} (h : g.run = some (some op,g')) : g.owns = (op == .release) := by
  obtain ⟨pc,locked,last⟩ := g
  cases pc with
  | acquire | release => cases h; rfl
  | _ => cases h

theorem Fits.run {g g' : Guard} {op : Option Op} (hg : g.Fits) (h : g.run = some (op,g')) : g'.Fits := by
  obtain ⟨pc,locked,last⟩ := g
  have hleave : ∀ {dying}, last = some (if dying then .delete else .unlock) → Fits ⟨leave dying,false,last⟩ := by
    rintro (_ | _) rfl <;> simp [Fits,leave,wants]
  cases pc with
  | unborn | idle | destroyed => cases h
  | acquire | release => cases h; exact hg
  | setLocked => cases h; exact ⟨fun _ => hg,fun _ => rfl⟩
  | resetLocked dying => cases h; exact hleave hg
  | lock =>
    cases h
    cases locked with
    | true => exact ⟨fun _ => .inr hg,fun _ => rfl⟩
    | false => exact .inr hg
  | unlock dying =>
    cases h
    cases locked with
    | true => exact hg
    | false => exact hleave hg

end Guard

/-- The guards of a mutex. -/
structure State (L ι : Type) where
  mutex : L
  guards : ι → Guard

section Template
variable {L ι : Type} [DecidableEq ι] (m : Lockable L ι)

def start (l : L) (locked : ι → Bool) : State L ι := ⟨l,fun i => ⟨.unborn,locked i,none⟩⟩

def Lockable.apply (i : ι) : Option Op → L → Option L
  | none, l => some l
  | some .acquire, l => m.acquire i l
  | some .release, l => some (m.release i l)

def next (s : State L ι) : Act ι → Option (State L ι)
  | .call i c => ((s.guards i).call c).map fun g => { s with guards := Function.update s.guards i g }
  | .run i => (s.guards i).run.bind fun r =>
      match m.apply i r.1 s.mutex with
      | some l => some ⟨l,Function.update s.guards i r.2⟩
      | none => if m.spins then some s else none

/-- The mutex used as it should be: nobody takes it twice or gives up what he has not. -/
def use (s : L × (ι → Bool)) (a : ι × Op) : Option (L × (ι → Bool)) :=
  if s.2 a.1 = (a.2 == .release) then
    (m.apply a.1 (some a.2) s.1).map fun l => (l,Function.update s.2 a.1 (a.2 == .acquire))
  else none

variable {m}

theorem update_owns (guards : ι → Guard) (i : ι) (g : Guard) :
    (fun k => (Function.update guards i g k).owns) = Function.update (fun k => (guards k).owns) i g.owns := by
  funext k
  by_cases hk : k = i
  · subst hk
    simp
  · simp [hk]

/-- Everything one step can do: it moves its guard and leaves the mutex alone, or it is
a call of the mutex. -/
theorem next_cases {s t : State L ι} {a : Act ι} (h : next m s a = some t) :
    (∃ g, g.owns = (s.guards a.guard).owns ∧ ((s.guards a.guard).Fits → g.Fits) ∧
      t = { s with guards := Function.update s.guards a.guard g }) ∨
    (∃ op g l, (s.guards a.guard).run = some (some op,g) ∧ m.apply a.guard (some op) s.mutex = some l ∧
      t = ⟨l,Function.update s.guards a.guard g⟩) := by
  cases a with
  | call i c =>
    obtain ⟨g,hg,rfl⟩ := Option.map_eq_some_iff.mp h
    exact .inl ⟨g,Guard.owns_call hg,fun _ => .call hg,rfl⟩
  | run i =>
    obtain ⟨⟨op,g⟩,hg,h⟩ := Option.bind_eq_some_iff.mp h
    simp only at h
    cases hl : m.apply i op s.mutex with
    | none =>
      -- the guard spins
      simp only [hl] at h
      split_ifs at h
      obtain rfl := Option.some.inj h
      exact .inl ⟨s.guards i,rfl,id,by simp [Act.guard]⟩
    | some l =>
      simp only [hl] at h
      obtain rfl := Option.some.inj h
      cases op with
      | none =>
        obtain rfl := Option.some.inj hl
        exact .inl ⟨g,Guard.owns_run hg,fun hf => hf.run hg,rfl⟩
      | some op => exact .inr ⟨op,g,l,hg,hl,rfl⟩

/-- The mutex, and which guards have it. -/
def State.view (s : State L ι) : L × (ι → Bool) := (s.mutex,fun i => (s.guards i).owns)

/-- Whatever the guards are called for, they use the mutex as it should be used. -/
theorem use_of_next {s t : State L ι} {a : Act ι} (h : next m s a = some t) :
    t.view = s.view ∨ ∃ op, use m s.view (a.guard,op) = some t.view := by
  rcases next_cases h with ⟨g,hg,-,rfl⟩ | ⟨op,g,l,hg,hl,rfl⟩
  · refine .inl ?_
    simp only [State.view,update_owns,hg]
    rw [Function.update_eq_self_iff.mpr rfl]
  · refine .inr ⟨op,?_⟩
    have hmay : s.view.2 a.guard = (op == .release) := Guard.owns_of_op hg
    have hown : g.owns = (op == .acquire) := (Guard.owns_run hg).trans (by cases op <;> rfl)
    have hl' : m.apply a.guard (some op) s.view.1 = some l := hl
    rw [use,if_pos hmay,hl',← hown]
    exact congrArg some (Prod.ext rfl (update_owns s.guards a.guard g).symm)

/-- What the calls of the mutex keep, a run of guards keeps. -/
theorem view_of_runs {P : L × (ι → Bool) → Prop}
    (huse : ∀ {s a t}, P s → use m s a = some t → P t)
    {ok : State L ι → Act ι → Prop} {l : L} {locked : ι → Bool} {acts : List (Act ι)} {s : State L ι}
    (h : Runs (next m) ok (start l locked) acts s) (hl : P (l,fun _ => false)) : P s.view := by
  refine h.invariant (P := fun s => P s.view) (fun {s t a} hs _ hn => ?_) hl
  rcases use_of_next hn with hv | ⟨op,hu⟩
  · rw [hv]
    exact hs
  · exact huse hs hu

theorem fits_of_runs {ok : State L ι → Act ι → Prop} {l : L} {locked : ι → Bool} {acts : List (Act ι)}
    {s : State L ι} (h : Runs (next m) ok (start l locked) acts s) (i : ι) : (s.guards i).Fits := by
  refine h.invariant (P := fun s => (s.guards i).Fits) (fun {s t a} hs _ hn => ?_) rfl
  have hupdate {k : ι} {g : Guard} (hg : k = i → g.Fits) : (Function.update s.guards k g i).Fits := by
    by_cases hk : i = k
    · subst hk
      simpa using hg rfl
    · simpa [hk] using hs
  rcases next_cases hn with ⟨g,-,hg,rfl⟩ | ⟨op,g,l,hg,-,rfl⟩
  · exact hupdate fun hk => hg (by rw [hk]; exact hs)
  · exact hupdate fun hk => Guard.Fits.run (by rw [hk]; exact hs) hg

end Template

section ReadWrite
variable {ι : Type} [DecidableEq ι]

/-- The guards for which `write` is true are `WriteScopedLockImpl<RWMutex>`, the others
`ReadScopedLockImpl<RWMutex>`. -/
def rwmutex (write : ι → Bool) : Lockable (RWMutex ι) ι where
  acquire i l := if write i then l.wrlock i else l.rdlock i
  release i l := l.unlock i
  spins := false

/-- The mutex has the holders, each in its own way. -/
structure Holders (write : ι → Bool) (s : RWMutex ι × (ι → Bool)) : Prop where
  nodup : s.1.readers.Nodup
  readers : ∀ i, i ∈ s.1.readers ↔ s.2 i = true ∧ write i = false
  writer : ∀ i, s.1.writer = some i ↔ s.2 i = true ∧ write i = true

omit [DecidableEq ι] in
theorem holders_free (write : ι → Bool) : Holders write (RWMutex.free,fun _ => false) :=
  ⟨List.nodup_nil,by simp [RWMutex.free],by simp [RWMutex.free]⟩

theorem Holders.use {write : ι → Bool} {s t : RWMutex ι × (ι → Bool)} {a : ι × Op} (h : Holders write s)
    (hn : Guards.use (rwmutex write) s a = some t) : Holders write t := by
  obtain ⟨l,holds⟩ := s
  obtain ⟨i,op⟩ := a
  rw [Guards.use] at hn
  split_ifs at hn with hi
  obtain ⟨l',hl,rfl⟩ := Option.map_eq_some_iff.mp hn
  have hreaders := h.readers
  have hwriters := h.writer
  simp only at hi hreaders hwriters
  cases op with
  | acquire =>
    have hnot : holds i = false := hi
    cases hw : write i with
    | true =>
      -- a writer comes when nobody is there
      simp only [Lockable.apply,rwmutex,hw,if_true] at hl
      obtain ⟨hwriter,hnil,hwriter',hnil'⟩ := RWMutex.wrlock_eq_some_iff.mp hl
      rw [hnil] at hreaders
      rw [hwriter] at hwriters
      have hnobody (k : ι) : holds k = false := by
        have hr := hreaders k
        have hw' := hwriters k
        grind
      refine ⟨by simp [hnil'],fun k => ?_,fun k => ?_⟩
      · by_cases hk : k = i <;> grind
      · by_cases hk : k = i <;> grind
    | false =>
      simp only [Lockable.apply,rwmutex,hw,Bool.false_eq_true,if_false] at hl
      obtain ⟨hwriter,hwriter',hreaders'⟩ := RWMutex.rdlock_eq_some_iff.mp hl
      have hnew : i ∉ l.readers := by simp [hreaders,hnot]
      refine ⟨?_,fun k => ?_,fun k => ?_⟩
      · rw [hreaders']
        exact List.nodup_cons.mpr ⟨hnew,h.nodup⟩
      · have hr := hreaders k
        by_cases hk : k = i <;> grind
      · have hw' := hwriters k
        by_cases hk : k = i <;> grind
  | release =>
    obtain rfl := Option.some.inj hl
    refine ⟨?_,fun k => ?_,fun k => ?_⟩
    · rw [rwmutex,RWMutex.readers_unlock]
      exact h.nodup.erase i
    · have hr := hreaders k
      simp only [rwmutex,RWMutex.readers_unlock,h.nodup.mem_erase_iff]
      by_cases hk : k = i <;> grind
    · have hw' := hwriters k
      simp only [rwmutex,RWMutex.writer_unlock]
      by_cases hk : k = i <;> grind

/-- What the guards promise in a state. Between its calls a guard has the mutex exactly if
it was last constructed or locked. -/
structure Safe (write : ι → Bool) (s : State (RWMutex ι) ι) : Prop where
  idle : ∀ i, (s.guards i).pc = .idle → ((s.guards i).owns = true ↔ (s.guards i).wants)
  holders : Holders write (s.mutex,fun i => (s.guards i).owns)
  exclusive : ∀ i j, write i = true → (s.guards i).owns = true → (s.guards j).owns = true → i = j
  unlocks : ∀ i dying, (s.guards i).pc = .release dying →
    if write i then s.mutex.writer = some i else i ∈ s.mutex.readers
  free : (∀ i, (s.guards i).pc = .unborn ∨ (s.guards i).pc = .destroyed) →
    s.mutex.readers = [] ∧ s.mutex.writer = none
  live : ∀ i, (s.guards i).pc ∉ [.unborn,.idle,.destroyed] → ∃ j,
    (next (rwmutex write) s (.run j)).isSome = true ∨ (s.guards j).pc = .idle ∧ (s.guards j).wants

omit [DecidableEq ι] in
theorem Holders.exclusive {write : ι → Bool} {s : RWMutex ι × (ι → Bool)} (h : Holders write s) {i j : ι}
    (hw : write i = true) (hi : s.2 i = true) (hj : s.2 j = true) : i = j := by
  have hwriter := (h.writer i).mpr ⟨hi,hw⟩
  cases hwj : write j with
  | true => exact Option.some.inj (hwriter.symm.trans ((h.writer j).mpr ⟨hj,hwj⟩))
  | false =>
    have hnil := s.1.exclusive (by rw [hwriter]; exact nofun)
    have hmem := (h.readers j).mpr ⟨hj,hwj⟩
    rw [hnil] at hmem
    cases hmem

/-- A guard that has the mutex can go on, if its thread does not keep it between its calls. -/
theorem run_of_owns {m : Lockable (RWMutex ι) ι} {s : State (RWMutex ι) ι} {i : ι}
    (h : (s.guards i).owns = true) (hidle : (s.guards i).pc ≠ .idle) : (next m s (.run i)).isSome = true := by
  cases hp : (s.guards i).pc with
  | idle => exact absurd hp hidle
  | unborn | acquire | resetLocked | destroyed => simp [Guard.owns,hp] at h
  | _ => simp [next,Guard.run,hp,Lockable.apply]

/-- Who waits for the mutex waits for one who has it. -/
theorem Holders.blocked {write : ι → Bool} {s : State (RWMutex ι) ι} (h : Holders write s.view) {i : ι}
    (hi : (rwmutex write).acquire i s.mutex = none) : ∃ j, (s.guards j).owns = true := by
  cases hw : s.mutex.writer with
  | some j => exact ⟨j,((h.writer j).mp hw).1⟩
  | none =>
    cases hr : s.mutex.readers with
    | cons j _ =>
      have hj : j ∈ s.mutex.readers := by simp [hr]
      exact ⟨j,((h.readers j).mp hj).1⟩
    | nil =>
      simp only [rwmutex,RWMutex.wrlock,RWMutex.rdlock,hw,hr] at hi
      split_ifs at hi

/-- In every interleaving, with redundant calls of `Lock` and `Unlock`. -/
theorem guards_of_runs {ok : State (RWMutex ι) ι → Act ι → Prop} {write : ι → Bool} {locked : ι → Bool}
    {acts : List (Act ι)} {s : State (RWMutex ι) ι}
    (h : Runs (next (rwmutex write)) ok (start .free locked) acts s) : Safe write s := by
  have hholders : Holders write s.view := view_of_runs (fun hs hn => hs.use hn) h (holders_free write)
  have hidle (i : ι) (hp : (s.guards i).pc = .idle) : (s.guards i).owns = true ↔ (s.guards i).wants := by
    have hfits := fits_of_runs h i
    simpa [Guard.Fits,Guard.owns,hp] using hfits
  refine ⟨hidle,hholders,fun i j => hholders.exclusive,fun i dying hp => ?_,fun hall => ?_,fun i hp => ?_⟩
  · have howns : (s.guards i).owns = true := by simp [Guard.owns,hp]
    split_ifs with hw
    · exact (hholders.writer i).mpr ⟨howns,hw⟩
    · exact (hholders.readers i).mpr ⟨howns,by simpa using hw⟩
  · have hnone (i : ι) : ¬ (s.guards i).owns = true := by rcases hall i with hp | hp <;> simp [Guard.owns,hp]
    refine ⟨List.eq_nil_iff_forall_not_mem.mpr fun i hi => hnone i ((hholders.readers i).mp hi).1,?_⟩
    exact Option.eq_none_iff_forall_ne_some.mpr fun i hi => hnone i ((hholders.writer i).mp hi).1
  · by_cases hrun : (next (rwmutex write) s (.run i)).isSome = true
    · exact ⟨i,.inl hrun⟩
    · -- a method stops at the mutex only
      have hblocked : (rwmutex write).acquire i s.mutex = none := by
        cases hpc : (s.guards i).pc with
        | unborn | idle | destroyed => simp [hpc] at hp
        | acquire =>
          cases hl : (rwmutex write).acquire i s.mutex with
          | none => rfl
          | some l => simp [next,Guard.run,hpc,Lockable.apply,hl] at hrun
        | _ => simp [next,Guard.run,hpc,Lockable.apply] at hrun
      obtain ⟨j,hj⟩ := hholders.blocked hblocked
      by_cases hpj : (s.guards j).pc = .idle
      · exact ⟨j,.inr ⟨hpj,(hidle j hpj).mp hj⟩⟩
      · exact ⟨j,.inl (run_of_owns hj hpj)⟩

/-- Two readers share the mutex. Guard 1 gives it up twice, and the writer waits for guard 0. -/
def shared : List (Act ℕ) :=
  [.call 0 .new,.call 1 .new,.run 0,.run 1,.run 1,.run 0,.call 1 .unlock,.run 1,.run 1,.run 1,.call 1 .unlock,.run 1,
    .call 2 .new,.call 0 .lock,.run 0]

theorem guards_shared : Safe (· == 2)
    ((Runs.exec (next (rwmutex (· == 2))) (fun _ _ => True) (start .free fun _ => true) shared).get rfl) :=
  guards_of_runs (Runs.of_exec (next (rwmutex (· == 2))) (fun _ _ => True) _ shared rfl)

end ReadWrite
end Zcs.Locks.Guards
