import Zcs.Foundation.CString
import Zcs.Foundation.Run

/-! # The lifetime of a `Thread` object

One party constructs the object, may join the thread and destroys the object; the other
is the thread that the constructor starts. It has the object's address in `arg` and in
`t_thread`, and what it does with an object whose lifetime is over is undefined.
-/
namespace Zcs.Threads

/-- What the callback calls. `GetThis` hands out the object. -/
inductive Call where
  | setCurName (name : Text)
  | getThis
  deriving DecidableEq

/-- `id` is -1 until the thread has started, and `thread` is `thread_ != 0`. -/
structure Object where
  id : Option ℕ := none
  thread : Bool := false
  cb : List Call
  name : Text
  semaphore : ℕ := 0
  deriving DecidableEq

/-- The places of the creator: in the constructor in front of `pthread_create` and in
`semaphore_.Wait()`, behind it, and when the object is gone. -/
inductive Creator where
  | creating
  | waiting
  | owner
  | threw
  | destroyed
  deriving DecidableEq

/-- The places of the started thread: the statements of `Run`, with the local `cb` once
it has been taken from the object. -/
inductive Started where
  | no
  | setThis
  | copyName
  | setId
  | setOsName
  | swapCb
  | notify (cb : List Call)
  | callback (calls : List Call)
  | exited
  | undefined
  deriving DecidableEq

/-- `object` is `none` when its lifetime is over. Of the started thread: `t_thread` is
set or null, `t_thread_name`, and the name and the id that the system has for it. -/
structure State where
  object : Option Object
  creator : Creator
  started : Started
  tThread : Bool
  tThreadName : Text
  osName : Text
  tid : ℕ
  deriving DecidableEq

def defaultName : Text := "UNKONW".toList

def start (cb : List Call) (name : Text) (tid : ℕ) : State where
  object := some { cb := cb, name := if name.isEmpty then defaultName else name }
  creator := .creating
  started := .no
  tThread := false
  tThreadName := defaultName
  osName := []
  tid := tid

inductive Act where
  | create (ok : Bool)
  | wait
  | interrupt
  | join (ok : Bool)
  | destroy
  | run
  deriving DecidableEq

/-- What `pthread_setname_np` is told: `name_.substr(0, 15).c_str()`. -/
def shortName (name : Text) : Text := cStr (name.take 15)

namespace State

/-- An access of the started thread to the object. -/
def access (s : State) (f : Object → State) : State :=
  match s.object with
  | some o => f o
  | none => { s with started := .undefined }

/-- `SetCurName`, with the calls that come behind it. -/
def setCurName (s : State) (name : Text) (rest : List Call) : State :=
  if name.isEmpty then { s with started := .callback rest }
  else if s.tThread then s.access fun o =>
    { s with object := some { o with name := name }, tThreadName := name, started := .callback rest }
  else { s with tThreadName := name, started := .callback rest }

def getThis (s : State) (rest : List Call) : State :=
  if s.tThread then s.access fun _ => { s with started := .callback rest }
  else { s with started := .callback rest }

/-- The next statement of `Run` or of the callback. -/
def run (s : State) : Option State :=
  match s.started with
  | .no | .exited | .undefined => none
  | .setThis => some { s with tThread := true, started := .copyName }
  | .copyName => some (s.access fun o => { s with tThreadName := o.name, started := .setId })
  | .setId => some (s.access fun o => { s with object := some { o with id := some s.tid }, started := .setOsName })
  | .setOsName => some (s.access fun o => { s with osName := shortName o.name, started := .swapCb })
  | .swapCb => some (s.access fun o => { s with object := some { o with cb := [] }, started := .notify o.cb })
  | .notify cb => some (s.access fun o =>
      { s with object := some { o with semaphore := o.semaphore + 1 }, started := .callback cb })
  | .callback (.setCurName name :: rest) => some (s.setCurName name rest)
  | .callback (.getThis :: rest) => some (s.getThis rest)
  | .callback [] => some { s with started := .exited }

/-- A constructor that throws destroys the members without running `~Thread`, so that the
thread is not detached; the object is gone either way. -/
def next (s : State) : Act → Option State
  | .create ok =>
    match s.creator, s.object with
    | .creating, some o =>
      if ok then some { s with object := some { o with thread := true }, creator := .waiting, started := .setThis }
      else some { s with object := none, creator := .threw }
    | _, _ => none
  | .wait =>
    match s.creator, s.object with
    | .waiting, some o =>
      if 0 < o.semaphore then
        some { s with object := some { o with semaphore := o.semaphore - 1 }, creator := .owner }
      else none
    | _, _ => none
  | .interrupt => if s.creator = .waiting then some { s with object := none, creator := .threw } else none
  | .join ok =>
    match s.creator, s.object with
    | .owner, some o =>
      if o.thread then
        -- an error of `pthread_join` is thrown, and the handle is kept
        if ok then if s.started = .exited then some { s with object := some { o with thread := false } } else none
        else some s
      else some s
    | _, _ => none
  | .destroy => if s.creator = .owner then some { s with object := none, creator := .destroyed } else none
  | .run => s.run

end State

/-- A call that reaches the object. -/
def Call.reaches : Call → Bool
  | .setCurName name => !name.isEmpty
  | .getThis => true

namespace Started

/-- The thread has an access to the object ahead of it. -/
def uses : Started → Bool
  | no | exited | undefined => false
  | setThis | copyName | setId | setOsName | swapCb | notify _ => true
  | callback calls => calls.any Call.reaches

def begun : Started → Bool
  | no | setThis => false
  | _ => true

end Started

/-- Every access so far was one to a living object, and so will be every one to come if
the thread is left to run on. -/
def Outlived (s : State) : Prop :=
  ∀ acts t, Runs State.next (fun _ a => a = .run) s acts t → t.started ≠ .undefined

/-- The object goes only when the started thread has no further use for it. -/
def NotInUse (s : State) : Act → Prop
  | .interrupt | .destroy => s.started.uses = false
  | _ => True

instance (s : State) : ∀ a, Decidable (NotInUse s a)
  | .interrupt | .destroy => inferInstanceAs (Decidable (s.started.uses = false))
  | .create _ | .wait | .join _ | .run => inferInstanceAs (Decidable True)

structure Invariant (s : State) : Prop where
  defined : s.started ≠ .undefined
  alive : s.started.uses = true → s.object.isSome = true
  this : s.started.begun = true → s.tThread = true
  creating : s.creator = .creating → s.started = .no

namespace State
variable {s t : State} {f : Object → State} {a : Act}

theorem access_some {o : Object} (h : s.object = some o) : s.access f = f o := by
  unfold access
  rw [h]

theorem access_none (h : s.object = none) : (s.access f).started = .undefined := by
  unfold access
  rw [h]

/-- What the creator's steps do to the object and the started thread. -/
theorem next_cases (h : s.next a = some t) :
    (a = .run ∧ s.run = some t) ∨
    ((a = .interrupt ∨ a = .destroy) ∧ ∃ c, c ≠ .creating ∧ t = { s with object := none, creator := c }) ∨
    ((∃ ok, a = .create ok) ∧ s.creator = .creating ∧ t.creator ≠ .creating ∧ t.tThread = s.tThread ∧
      ((t.started = .setThis ∧ t.object.isSome = true) ∨ t.started = s.started)) ∨
    ((a = .wait ∨ ∃ ok, a = .join ok) ∧ t.creator ≠ .creating ∧ t.tThread = s.tThread ∧
      t.started = s.started ∧ t.object.isSome = true) := by
  cases a with
  | run => exact .inl ⟨rfl,h⟩
  | interrupt | destroy =>
    simp only [next] at h
    split_ifs at h
    obtain rfl := Option.some.inj h
    exact .inr (.inl ⟨by simp,_,by simp,rfl⟩)
  | create ok =>
    simp only [next] at h
    split at h
    · rename_i hc _
      cases ok with
      | true =>
        obtain rfl := Option.some.inj h
        exact .inr (.inr (.inl ⟨⟨_,rfl⟩,hc,by simp,rfl,.inl ⟨rfl,rfl⟩⟩))
      | false =>
        obtain rfl := Option.some.inj h
        exact .inr (.inr (.inl ⟨⟨_,rfl⟩,hc,by simp,rfl,.inr rfl⟩))
    · cases h
  | wait =>
    simp only [next] at h
    split at h
    · split_ifs at h
      obtain rfl := Option.some.inj h
      exact .inr (.inr (.inr ⟨.inl rfl,by simp,rfl,rfl,rfl⟩))
    · cases h
  | join ok =>
    simp only [next] at h
    split at h
    · rename_i hc ho
      split_ifs at h
      all_goals
        obtain rfl := Option.some.inj h
        exact .inr (.inr (.inr ⟨.inr ⟨_,rfl⟩,by simp [hc],rfl,rfl,by simp [ho]⟩))
    · cases h

end State

namespace Invariant
variable {s t : State} {a : Act}

theorem of_alive (hd : s.started ≠ .undefined) (ha : s.object.isSome = true) (ht : s.tThread = true)
    (hc : s.creator ≠ .creating) : Invariant s :=
  ⟨hd,fun _ => ha,fun _ => ht,fun h => absurd h hc⟩

/-- A thread that has the object alive as long as it uses it goes on to do so. -/
theorem run (h : Invariant s) (hn : s.run = some t) : Invariant t := by
  have halive : s.started.uses = true → ∃ o, s.object = some o := fun hu => Option.isSome_iff_exists.mp (h.alive hu)
  have hthis := h.this
  have hc : s.creator ≠ .creating := fun hc => by simp [State.run,h.creating hc] at hn
  unfold State.run at hn
  cases hs : s.started with
  | no | exited | undefined => simp [hs] at hn
  | setThis =>
    obtain ⟨o,ho⟩ := halive (by rw [hs]; rfl)
    simp only [hs,Option.some.injEq] at hn
    subst hn
    exact of_alive (by simp) (by simp [ho]) rfl hc
  | copyName | setId | setOsName | swapCb | notify =>
    obtain ⟨o,ho⟩ := halive (by rw [hs]; rfl)
    simp only [hs,Option.some.injEq,State.access_some ho] at hn
    subst hn
    exact of_alive (by simp) (by simp [ho]) (hthis (by rw [hs]; rfl)) hc
  | callback calls =>
    have ht : s.tThread = true := hthis (by rw [hs]; rfl)
    cases calls with
    | nil =>
      simp only [hs,Option.some.injEq] at hn
      subst hn
      exact ⟨by simp,fun hu => (by cases hu),fun _ => ht,fun h => absurd h hc⟩
    | cons c rest =>
      have hrest : rest.any Call.reaches = true → s.object.isSome = true :=
        fun hu => h.alive (by simp [hs,Started.uses,hu])
      have hreach : c.reaches = true → ∃ o, s.object = some o := fun hc => halive (by simp [hs,Started.uses,hc])
      cases c with
      | setCurName name =>
        simp only [hs,Option.some.injEq,State.setCurName,if_pos ht] at hn
        split_ifs at hn with he
        · subst hn
          exact ⟨by simp,hrest,fun _ => ht,fun h => absurd h hc⟩
        · obtain ⟨o,ho⟩ := hreach (by simp [Call.reaches,he])
          rw [State.access_some ho] at hn
          subst hn
          exact of_alive (by simp) rfl ht hc
      | getThis =>
        obtain ⟨o,ho⟩ := hreach rfl
        simp only [hs,Option.some.injEq,State.getThis,if_pos ht,State.access_some ho] at hn
        subst hn
        exact of_alive (by simp) (by simp [ho]) ht hc

theorem next (h : Invariant s) (ha : NotInUse s a) (hn : s.next a = some t) : Invariant t := by
  rcases State.next_cases hn with ⟨rfl,hn⟩ | ⟨hgone,c,hc,rfl⟩ | ⟨_,hc,hc',_,hs⟩ | ⟨_,hc',ht,hs,ho⟩
  · exact h.run hn
  · have hu : s.started.uses = false := by rcases hgone with rfl | rfl <;> exact ha
    exact ⟨h.defined,fun hu' => absurd (hu.symm.trans hu') Bool.false_ne_true,h.this,fun h => absurd h hc⟩
  · have hno := h.creating hc
    rcases hs with ⟨hs,ho⟩ | hs
    · exact ⟨by simp [hs],fun _ => ho,fun hb => (by rw [hs] at hb; cases hb),fun h => absurd h hc'⟩
    · rw [hno] at hs
      exact ⟨by simp [hs],fun hu => (by rw [hs] at hu; cases hu),fun hb => (by rw [hs] at hb; cases hb),
        fun h => absurd h hc'⟩
  · exact ⟨by rw [hs]; exact h.defined,fun _ => ho,by rw [hs,ht]; exact h.this,fun h => absurd h hc'⟩

theorem outlived (h : Invariant s) : Outlived s := by
  intro acts t hr
  refine (hr.invariant (P := Invariant) ?_ h).defined
  rintro s t _ hs rfl hn
  exact hs.run hn

end Invariant

/-- A thread that still uses an object that is gone comes to do so. -/
theorem undefined_of_uses {s : State} (ho : s.object = none) (ht : s.started.begun = true → s.tThread = true)
    (hu : s.started.uses = true) :
    ∃ acts t, Runs State.next (fun _ a => a = .run) s acts t ∧ t.started = .undefined := by
  have haccess : ∀ {s : State} {f : Object → State}, s.object = none → s.run = some (s.access f) →
      ∃ acts t, Runs State.next (fun _ a => a = .run) s acts t ∧ t.started = .undefined :=
    fun ho hr => ⟨[.run],_,.single rfl hr,State.access_none ho⟩
  have hcalls : ∀ (calls : List Call) (s : State), s.object = none → s.tThread = true →
      s.started = .callback calls → calls.any Call.reaches = true →
        ∃ acts t, Runs State.next (fun _ a => a = .run) s acts t ∧ t.started = .undefined := by
    intro calls
    induction calls with
    | nil => exact fun _ _ _ _ hu => (by cases hu)
    | cons c rest ih =>
      intro s ho ht hs hu
      cases c with
      | getThis => exact haccess ho (by simp only [State.run,hs,State.getThis,if_pos ht]; rfl)
      | setCurName name =>
        by_cases he : name.isEmpty = true
        · have hrest : rest.any Call.reaches = true := by simpa [Call.reaches,he] using hu
          obtain ⟨acts,t,hr,hd⟩ := ih { s with started := .callback rest } ho ht rfl hrest
          refine ⟨.run :: acts,t,.step rfl ?_ hr,hd⟩
          simp only [State.next,State.run,hs,State.setCurName,if_pos he]
        · exact haccess ho (by simp only [State.run,hs,State.setCurName,if_neg he,if_pos ht]; rfl)
  cases hs : s.started with
  | no | exited | undefined => rw [hs] at hu; cases hu
  | setThis =>
    obtain ⟨acts,t,hr,hd⟩ := haccess (s := { s with tThread := true, started := .copyName }) ho rfl
    exact ⟨.run :: acts,t,.step rfl (by simp only [State.next,State.run,hs]) hr,hd⟩
  | copyName | setId | setOsName | swapCb | notify => exact haccess ho (by simp only [State.run,hs]; rfl)
  | callback calls =>
    rw [hs] at ht hu
    exact hcalls calls s ho (ht rfl) hs hu

/-- In an interleaving of the creator and the started thread all accesses of the thread,
those still to come included, are to a living object exactly if the object never goes,
by an interrupted wait or by `~Thread`, while the thread has an access ahead of it. -/
theorem outlivedThroughout_iff {cb : List Call} {name : Text} {tid : ℕ} {acts : List Act} {s : State}
    (h : Runs State.next (fun _ _ => True) (start cb name tid) acts s) :
    (∀ pre u, pre <+: acts → Runs State.next (fun _ _ => True) (start cb name tid) pre u → Outlived u) ↔
      Runs State.next (fun s a => True ∧ NotInUse s a) (start cb name tid) acts s := by
  refine h.held_iff (I := Invariant) (fun hs _ ha hn => hs.next ha hn) Invariant.outlived ?_
    ⟨by simp [start],fun hu => (by cases hu),fun hb => (by cases hb),fun _ => rfl⟩
  intro s t a hs _ hn ht
  rcases State.next_cases hn with ⟨rfl,_⟩ | ⟨hgone,c,_,rfl⟩ | ⟨⟨_,rfl⟩,_⟩ | ⟨rfl | ⟨_,rfl⟩,_⟩
  · trivial
  · have hu : s.started.uses = false := by
      by_contra hu
      obtain ⟨acts,v,hr,hd⟩ := undefined_of_uses (s := { s with object := none, creator := c }) rfl hs.this
        (Bool.not_eq_false _ ▸ hu)
      exact ht acts v hr hd
    rcases hgone with rfl | rfl <;> exact hu
  all_goals trivial

/-- The constructor and the thread up to the end of the handshake. -/
def constructed : List Act := [.create true,.run,.run,.run,.run,.run,.run,.wait]

def joinedActs : List Act := constructed ++ [.run,.run,.run,.join true,.destroy]

theorem outlivedThroughout_joined : ∃ s,
    Runs State.next (fun _ _ => True) (start [.setCurName ['i','o'],.getThis] ['t'] 7) joinedActs s ∧
      ∀ pre u, pre <+: joinedActs →
        Runs State.next (fun _ _ => True) (start [.setCurName ['i','o'],.getThis] ['t'] 7) pre u → Outlived u := by
  have hgood := Runs.of_exec State.next (fun s a => True ∧ NotInUse s a)
    (start [.setCurName ['i','o'],.getThis] ['t'] 7) joinedActs (by decide)
  have hrun := hgood.imp (fun _ _ h => h.1)
  exact ⟨_,hrun,(outlivedThroughout_iff hrun).mpr hgood⟩

/-- The object is destroyed without a `Join` while the callback has a `SetCurName` ahead. -/
theorem detached_not_outlived : ¬ ∀ (cb : List Call) (name : Text) (tid : ℕ) (acts : List Act) (s : State),
    Runs State.next (fun _ _ => True) (start cb name tid) acts s → s.started ≠ .undefined := by
  intro h
  exact h [.setCurName ['i','o']] ['t'] 7 (constructed ++ [.destroy,.run]) _
    (Runs.of_exec State.next (fun _ _ => True) _ _ (by decide)) rfl

end Zcs.Threads
