import Mathlib.Data.Fintype.Basic
import Mathlib.Logic.Function.Basic
import Zcs.Foundation.Run
import Zcs.Foundation.RWMutex

/-! # Concurrent callers of `ConfigVar::SetValue`

Every caller is a thread inside one call of `SetValue`; its program counter is
the place it has reached in the source. The read section compares and runs the
callbacks, the write section assigns, and between the two the caller holds no lock.
-/
namespace Zcs.Config.SetValueRace

/-- The places of `SetValue(v)`. In `notify` the list holds the callbacks still
to be run. -/
inductive Pc (T : Type) where
  | idle (v : T)
  | compare (v : T)
  | notify (v : T) (rest : List ℕ)
  | unlockEqual
  | wantWrite (v : T)
  | assign (v : T)
  | unlockWrite
  | done
  deriving DecidableEq

namespace Pc
variable {T : Type}

/-- A caller whose comparison found a difference and whose assignment is still
to come: its value and the callbacks it has left. -/
def remaining : Pc T → Option (T × List ℕ)
  | notify v rest => some (v,rest)
  | wantWrite v | assign v => some (v,[])
  | idle _ | compare _ | unlockEqual | unlockWrite | done => none

def pending (p : Pc T) : Bool := p.remaining.isSome

def finished : Pc T → Bool
  | unlockWrite | done => true
  | _ => false

def outside : Pc T → Bool
  | idle _ | done => true
  | _ => false

theorem not_pending_of_outside {p : Pc T} (h : p.outside = true) : p.pending = false := by
  cases p <;> simp_all [outside,pending,remaining]

end Pc

structure Call (ι T : Type) where
  caller : ι
  listener : ℕ
  newVal : T
  oldVal : T
  deriving DecidableEq

/-- `calls` and `replaced` are the history: the callbacks run so far, and for each
caller the value that its assignment has overwritten. -/
structure State (ι T : Type) where
  val : T
  mutex : RWMutex ι
  pc : ι → Pc T
  calls : List (Call ι T)
  replaced : ι → Option T

variable {ι T : Type}

/-- The variable holds `val`, and caller `i` is about to call `SetValue(args i)`. -/
def start (val : T) (args : ι → T) : State ι T :=
  ⟨val,.free,fun i => .idle (args i),[],fun _ => none⟩

def lastNew (l : ℕ) (calls : List (Call ι T)) : Option T :=
  ((calls.filter (fun c => decide (c.listener = l))).getLast?).map Call.newVal

def Quiet (s : State ι T) : Prop := ∀ i, (s.pc i).outside = true

/-- Every listener was last told the present value, and every old value it was
told is the one that the very same call has overwritten. -/
def Coherent (s : State ι T) : Prop :=
  (∀ l n, lastNew l s.calls = some n → n = s.val) ∧
  ∀ c ∈ s.calls, s.replaced c.caller = some c.oldVal

/-- A comparison that finds a difference is made only while no other caller
stands between its own comparison and its assignment. -/
def Undisturbed (cbs : List ℕ) (s : State ι T) (i : ι) : Prop :=
  match s.pc i with
  | .compare v => s.val = v ∨ cbs = [] ∨ ∀ j, (s.pc j).pending = false
  | _ => True

instance [DecidableEq T] [Fintype ι] (cbs : List ℕ) (s : State ι T) (i : ι) : Decidable (Undisturbed cbs s i) := by
  unfold Undisturbed
  cases s.pc i <;> infer_instance

@[simp] theorem lastNew_append (l : ℕ) (calls : List (Call ι T)) (c : Call ι T) :
    lastNew l (calls ++ [c]) = if c.listener = l then some c.newVal else lastNew l calls := by
  by_cases h : c.listener = l <;> simp [lastNew,List.filter_append,h]

variable [DecidableEq ι]

/-- One step of caller `i`, with the registered listeners in the order of their ids. -/
def step [DecidableEq T] (cbs : List ℕ) (s : State ι T) (i : ι) : Option (State ι T) :=
  match s.pc i with
  | .idle v =>
    (s.mutex.rdlock i).map fun m => { s with mutex := m, pc := Function.update s.pc i (.compare v) }
  | .compare v =>
    if s.val = v then some { s with pc := Function.update s.pc i .unlockEqual }
    else some { s with pc := Function.update s.pc i (.notify v cbs) }
  | .unlockEqual =>
    some { s with mutex := s.mutex.unlock i, pc := Function.update s.pc i .done }
  | .notify v (l :: rest) =>
    some { s with
      calls := s.calls ++ [⟨i,l,v,s.val⟩]
      pc := Function.update s.pc i (.notify v rest) }
  | .notify v [] =>
    some { s with mutex := s.mutex.unlock i, pc := Function.update s.pc i (.wantWrite v) }
  | .wantWrite v =>
    (s.mutex.wrlock i).map fun m => { s with mutex := m, pc := Function.update s.pc i (.assign v) }
  | .assign v =>
    some { s with
      val := v
      replaced := Function.update s.replaced i (some s.val)
      pc := Function.update s.pc i .unlockWrite }
  | .unlockWrite =>
    some { s with mutex := s.mutex.unlock i, pc := Function.update s.pc i .done }
  | .done => none

/-- Everything one step can do: a move that leaves value and history alone, the
entry into the callback loop, one callback, or the assignment. -/
theorem step_cases [DecidableEq T] {cbs : List ℕ} {s t : State ι T} {i : ι} (h : step cbs s i = some t) :
    (∃ m p, t = { s with mutex := m, pc := Function.update s.pc i p } ∧
      p.remaining = (s.pc i).remaining ∧ ((s.pc i).finished = true → p.finished = true)) ∨
    (∃ v, s.pc i = .compare v ∧ s.val ≠ v ∧
      t = { s with pc := Function.update s.pc i (.notify v cbs) }) ∨
    (∃ v l rest, s.pc i = .notify v (l :: rest) ∧
      t = { s with
        calls := s.calls ++ [⟨i,l,v,s.val⟩]
        pc := Function.update s.pc i (.notify v rest) }) ∨
    (∃ v, s.pc i = .assign v ∧
      t = { s with
        val := v
        replaced := Function.update s.replaced i (some s.val)
        pc := Function.update s.pc i .unlockWrite }) := by
  unfold step at h
  cases hp : s.pc i with
  | idle v =>
    simp only [hp] at h
    obtain ⟨m,_,rfl⟩ := Option.map_eq_some_iff.mp h
    exact .inl ⟨m,_,rfl,rfl,by simp [Pc.finished]⟩
  | compare v =>
    simp only [hp] at h
    split_ifs at h with hv
    · cases h
      exact .inl ⟨s.mutex,_,rfl,rfl,by simp [Pc.finished]⟩
    · cases h
      exact .inr (.inl ⟨v,rfl,hv,rfl⟩)
  | notify v rest =>
    cases rest with
    | nil =>
      simp only [hp] at h
      cases h
      exact .inl ⟨_,_,rfl,rfl,by simp [Pc.finished]⟩
    | cons l rest =>
      simp only [hp] at h
      cases h
      exact .inr (.inr (.inl ⟨v,l,rest,rfl,rfl⟩))
  | unlockEqual =>
    simp only [hp] at h
    cases h
    exact .inl ⟨_,_,rfl,rfl,by simp [Pc.finished]⟩
  | wantWrite v =>
    simp only [hp] at h
    obtain ⟨m,_,rfl⟩ := Option.map_eq_some_iff.mp h
    exact .inl ⟨m,_,rfl,rfl,by simp [Pc.finished]⟩
  | assign v =>
    simp only [hp] at h
    cases h
    exact .inr (.inr (.inr ⟨v,rfl,rfl⟩))
  | unlockWrite =>
    simp only [hp] at h
    cases h
    exact .inl ⟨_,_,rfl,rfl,by simp [Pc.finished]⟩
  | done => simp [hp] at h

/-- Only registered listeners are told anything, or are still to be told. -/
structure Registered (cbs : List ℕ) (s : State ι T) : Prop where
  told : ∀ c ∈ s.calls, c.listener ∈ cbs
  rest : ∀ i v rest, (s.pc i).remaining = some (v,rest) → rest ⊆ cbs

/-- What holds in every state of a run without disturbance. While a caller is
pending, the listeners it has told know its value and the others know the present
one; while none is, all know the present one. -/
structure Inv (cbs : List ℕ) (s : State ι T) : Prop where
  unique : ∀ i j, (s.pc i).pending = true → (s.pc j).pending = true → i = j
  assigned : ∀ i, s.replaced i ≠ none → (s.pc i).finished = true
  old : ∀ c ∈ s.calls, s.replaced c.caller = some c.oldVal ∨
    ((s.pc c.caller).pending = true ∧ c.oldVal = s.val)
  settled : (∀ i, (s.pc i).pending = false) → ∀ l n, lastNew l s.calls = some n → n = s.val
  telling : ∀ i v rest, (s.pc i).remaining = some (v,rest) →
    ∃ told, cbs = told ++ rest ∧ (∀ l ∈ told, lastNew l s.calls = some v) ∧
      ∀ l, l ∉ told → ∀ n, lastNew l s.calls = some n → n = s.val

omit [DecidableEq ι] in
theorem inv_start (cbs : List ℕ) (val : T) (args : ι → T) : Inv cbs (start val args) where
  unique i j hi _ := by simp [start,Pc.pending,Pc.remaining] at hi
  assigned i hi := absurd rfl hi
  old c hc := by simp [start] at hc
  settled _ l n hn := by simp [start,lastNew] at hn
  telling i v rest hr := by simp [start,Pc.remaining] at hr

omit [DecidableEq ι] in
theorem registered_start (cbs : List ℕ) (val : T) (args : ι → T) : Registered cbs (start val args) where
  told c hc := by simp [start] at hc
  rest i v rest hr := by simp [start,Pc.remaining] at hr

theorem registered_step [DecidableEq T] {cbs : List ℕ} {s t : State ι T} {i : ι}
    (hr : Registered cbs s) (h : step cbs s i = some t) : Registered cbs t := by
  have hrest : ∀ p : Pc T, (∀ v rest, p.remaining = some (v,rest) → rest ⊆ cbs) →
      ∀ j v rest, (Function.update s.pc i p j).remaining = some (v,rest) → rest ⊆ cbs := by
    intro p hp j v rest hj
    by_cases hji : j = i
    · subst j
      exact hp v rest (by simpa using hj)
    · exact hr.rest j v rest (by simpa [hji] using hj)
  obtain ⟨m,p,rfl,hp,_⟩ | ⟨v,_,_,rfl⟩ | ⟨v,l,rest,hp,rfl⟩ | ⟨v,_,rfl⟩ := step_cases h
  · exact ⟨hr.told,hrest p fun v rest hv => hr.rest i v rest (hp ▸ hv)⟩
  · exact ⟨hr.told,hrest _ (by simp [Pc.remaining])⟩
  · have hsub := hr.rest i v (l :: rest) (by simp [hp,Pc.remaining])
    constructor
    · intro c hc
      rcases List.mem_append.mp hc with hc | hc
      · exact hr.told c hc
      · rw [List.mem_singleton.mp hc]
        exact hsub List.mem_cons_self
    · exact hrest _ (by simpa [Pc.remaining] using (List.cons_subset.mp hsub).2)
  · exact ⟨hr.told,hrest _ (by simp [Pc.remaining])⟩

theorem Inv.move {cbs : List ℕ} {s : State ι T} (hi : Inv cbs s) {i : ι} {m : RWMutex ι} {p : Pc T}
    (hp : p.remaining = (s.pc i).remaining) (hf : (s.pc i).finished = true → p.finished = true) :
    Inv cbs { s with mutex := m, pc := Function.update s.pc i p } := by
  have hr : ∀ j, (Function.update s.pc i p j).remaining = (s.pc j).remaining := by
    intro j
    by_cases hj : j = i
    · subst j
      simpa using hp
    · simp [hj]
  have hpend : ∀ j, (Function.update s.pc i p j).pending = (s.pc j).pending := fun j =>
    congrArg Option.isSome (hr j)
  constructor
  · intro j k hj hk
    exact hi.unique j k (hpend j ▸ hj) (hpend k ▸ hk)
  · intro j hj
    have h := hi.assigned j hj
    by_cases hji : j = i
    · subst j
      simpa using hf h
    · simpa [hji] using h
  · intro c hc
    simpa only [hpend] using hi.old c hc
  · intro hq
    exact hi.settled fun j => hpend j ▸ hq j
  · intro j v rest hj
    exact hi.telling j v rest (hr j ▸ hj)

theorem Inv.enter {cbs : List ℕ} {s : State ι T} (hi : Inv cbs s) {i : ι} {v : T}
    (hp : s.pc i = .compare v) (hq : ∀ j, (s.pc j).pending = false) :
    Inv cbs { s with pc := Function.update s.pc i (.notify v cbs) } := by
  have hother : ∀ j, j ≠ i → (Function.update s.pc i (.notify v cbs) j).pending = false := by
    intro j hj
    simpa [hj] using hq j
  have honly : ∀ j, (Function.update s.pc i (.notify v cbs) j).pending = true → j = i := by
    intro j hj
    by_contra h
    simp [hother j h] at hj
  constructor
  · intro j k hj hk
    exact (honly j hj).trans (honly k hk).symm
  · intro j hj
    have h := hi.assigned j hj
    have hne : j ≠ i := by
      rintro rfl
      simp [hp,Pc.finished] at h
    simpa [hne] using h
  · intro c hc
    rcases hi.old c hc with h | ⟨h,_⟩
    · exact .inl h
    · simp [hq] at h
  · intro h
    have hn := h i
    simp [Pc.pending,Pc.remaining] at hn
  · intro j w rest hj
    obtain rfl : j = i := honly j (by simp [Pc.pending,hj])
    obtain ⟨rfl,rfl⟩ : v = w ∧ cbs = rest := by simpa [Pc.remaining] using hj
    exact ⟨[],rfl,by simp,fun l _ => hi.settled hq l⟩

theorem Inv.tell {cbs : List ℕ} {s : State ι T} (hi : Inv cbs s) {i : ι} {v : T} {l : ℕ} {rest : List ℕ}
    (hp : s.pc i = .notify v (l :: rest)) :
    Inv cbs { s with
      calls := s.calls ++ [⟨i,l,v,s.val⟩]
      pc := Function.update s.pc i (.notify v rest) } := by
  have hpi : (s.pc i).pending = true := by simp [hp,Pc.pending,Pc.remaining]
  have hpend : ∀ j, (Function.update s.pc i (.notify v rest) j).pending = (s.pc j).pending := by
    intro j
    by_cases hj : j = i
    · subst j
      rw [hpi]
      simp [Pc.pending,Pc.remaining]
    · simp [hj]
  obtain ⟨told,hcbs,htold,hrest⟩ := hi.telling i v (l :: rest) (by simp [hp,Pc.remaining])
  constructor
  · intro j k hj hk
    exact hi.unique j k (hpend j ▸ hj) (hpend k ▸ hk)
  · intro j hj
    have h := hi.assigned j hj
    have hne : j ≠ i := by
      rintro rfl
      simp [hp,Pc.finished] at h
    simpa [hne] using h
  · intro c hc
    simp only [hpend]
    rcases List.mem_append.mp hc with hc | hc
    · exact hi.old c hc
    · obtain rfl := List.mem_singleton.mp hc
      exact .inr ⟨hpi,rfl⟩
  · intro hq
    have h := hq i
    rw [hpend,hpi] at h
    cases h
  · intro j w rest' hj
    obtain rfl : j = i := hi.unique j i (by rw [← hpend j]; simp [Pc.pending,hj]) hpi
    obtain ⟨rfl,rfl⟩ : v = w ∧ rest = rest' := by simpa [Pc.remaining] using hj
    refine ⟨told ++ [l],by simp [hcbs],?_,?_⟩
    · intro k hk
      rw [lastNew_append]
      split_ifs with hkl
      · rfl
      · rcases List.mem_append.mp hk with hk | hk
        · exact htold k hk
        · exact absurd (List.mem_singleton.mp hk).symm hkl
    · intro k hk n hn
      have hkl : l ≠ k := fun h => hk (by simp [h])
      rw [lastNew_append,if_neg hkl] at hn
      exact hrest k (fun h => hk (by simp [h])) n hn

theorem Inv.assign {cbs : List ℕ} {s : State ι T} (hi : Inv cbs s) (hr : Registered cbs s) {i : ι}
    {v : T} (hp : s.pc i = .assign v) :
    Inv cbs { s with
      val := v
      replaced := Function.update s.replaced i (some s.val)
      pc := Function.update s.pc i .unlockWrite } := by
  have hpi : (s.pc i).pending = true := by simp [hp,Pc.pending,Pc.remaining]
  have hnone : ∀ j, (Function.update s.pc i .unlockWrite j).pending = false := by
    intro j
    by_cases hj : j = i
    · subst j
      simp [Pc.pending,Pc.remaining]
    · by_contra h
      exact hj (hi.unique j i (by simpa [hj] using h) hpi)
  obtain ⟨told,hcbs,htold,_⟩ := hi.telling i v [] (by simp [hp,Pc.remaining])
  constructor
  · intro j k hj _
    simp [hnone] at hj
  · intro j hj
    by_cases hji : j = i
    · subst j
      simp [Pc.finished]
    · simpa [hji] using hi.assigned j (by simpa [hji] using hj)
  · intro c hc
    left
    by_cases hci : c.caller = i
    · rcases hi.old c hc with h | ⟨_,h⟩
      · have hf := hi.assigned c.caller (by simp [h])
        rw [hci] at hf
        simp [hp,Pc.finished] at hf
      · simp [hci,h]
    · rcases hi.old c hc with h | ⟨h,_⟩
      · simpa [hci] using h
      · exact absurd (hi.unique _ i h hpi) hci
  · intro _ l n hn
    have hl : l ∈ told := by
      obtain ⟨c,hc,_⟩ := Option.map_eq_some_iff.mp hn
      have hm := List.mem_filter.mp (List.mem_of_getLast? hc)
      have hreg := hr.told c hm.1
      simpa [hcbs,of_decide_eq_true hm.2] using hreg
    have hlast : lastNew l s.calls = some v := htold l hl
    exact Option.some.inj (hn.symm.trans hlast)
  · intro j w rest hj
    have hj' := hnone j
    simp [Pc.pending,hj] at hj'

theorem Inv.step [DecidableEq T] {cbs : List ℕ} (hc : cbs ≠ []) {s t : State ι T} {i : ι}
    (hi : Inv cbs s) (hr : Registered cbs s) (hu : Undisturbed cbs s i)
    (h : SetValueRace.step cbs s i = some t) : Inv cbs t := by
  obtain ⟨m,p,rfl,hp,hf⟩ | ⟨v,hp,hv,rfl⟩ | ⟨v,l,rest,hp,rfl⟩ | ⟨v,hp,rfl⟩ := step_cases h
  · exact hi.move hp hf
  · simp only [Undisturbed,hp,hv,hc,false_or] at hu
    exact hi.enter hp hu
  · exact hi.tell hp
  · exact hi.assign hr hp

omit [DecidableEq ι] in
theorem Inv.coherent {cbs : List ℕ} {s : State ι T} (hi : Inv cbs s) (hq : Quiet s) : Coherent s := by
  have hn : ∀ i, (s.pc i).pending = false := fun i => Pc.not_pending_of_outside (hq i)
  refine ⟨hi.settled hn,?_⟩
  intro c hc
  rcases hi.old c hc with h | ⟨h,_⟩
  · exact h
  · simp [hn] at h

/-- In a run of any number of callers in which no caller starts to tell the
listeners while another one is between its comparison and its assignment, the
listeners agree with the variable whenever no call is in progress. -/
theorem coherent_of_undisturbed [DecidableEq T] {cbs : List ℕ} {val : T} {args : ι → T} {s : State ι T}
    {schedule : List ι} (h : Runs (SetValueRace.step cbs) (Undisturbed cbs) (start val args) schedule s)
    (hq : Quiet s) : Coherent s := by
  have hinv : Registered cbs s ∧ (cbs ≠ [] → Inv cbs s) := by
    refine h.invariant (P := fun s => Registered cbs s ∧ (cbs ≠ [] → Inv cbs s)) ?_
      ⟨registered_start cbs val args,fun _ => inv_start cbs val args⟩
    rintro s t i ⟨hr,hi⟩ hu hs
    exact ⟨registered_step hr hs,fun hc => (hi hc).step hc hr hu hs⟩
  by_cases hc : cbs = []
  · -- without listeners there is no call to be wrong about
    have hcalls : s.calls = [] := by
      apply List.eq_nil_iff_forall_not_mem.mpr
      intro c hm
      have h := hinv.1.told c hm
      simp [hc] at h
    simp [Coherent,hcalls,lastNew]
  · exact (hinv.2 hc).coherent hq

def twoArgs : Bool → ℕ
  | false => 1
  | true => 2

def serialSchedule : List Bool := List.replicate 7 false ++ List.replicate 7 true

theorem coherent_serial : ∃ s, Runs (SetValueRace.step [1]) (Undisturbed [1]) (start 0 twoArgs) serialSchedule s ∧
    s.val = 2 ∧ lastNew 1 s.calls = some 2 ∧ Coherent s := by
  have hrun := Runs.of_exec (SetValueRace.step [1]) (Undisturbed [1]) (start 0 twoArgs) serialSchedule
    (by decide)
  exact ⟨_,hrun,by decide,by decide,coherent_of_undisturbed hrun (by unfold Quiet; decide)⟩

/-- Both tell the listener before either assigns, and they assign in the other order. -/
def raceSchedule : List Bool :=
  List.replicate 4 false ++ List.replicate 7 true ++ List.replicate 3 false

/-- The listener is left with 2 while the variable holds 1, and the first caller
announced 0 as the old value although it overwrote 2. -/
theorem race_not_coherent : ¬ ∀ (cbs : List ℕ) (val : ℕ) (args : Bool → ℕ) (schedule : List Bool)
    (s : State Bool ℕ), Runs (SetValueRace.step cbs) (fun _ _ => True) (start val args) schedule s →
      (∀ i, s.pc i = .done) → Coherent s := by
  intro h
  have hrun := Runs.of_exec (SetValueRace.step [1]) (fun _ _ => True) (start 0 twoArgs) raceSchedule
    (by decide)
  have hc := (h [1] 0 twoArgs raceSchedule _ hrun (by decide)).1 1 2 (by decide)
  exact absurd hc (by decide)

end Zcs.Config.SetValueRace
