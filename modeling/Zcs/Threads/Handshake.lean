import Zcs.Threads.Lifetime

/-! # What the constructor of a `Thread` waits for

The constructor returns behind `semaphore_.Wait()`, and the thread notifies when it has
set its id and taken the callback. From then on the name of the object and the name that
the thread has for itself are one, as long as there is an object.
-/
namespace Zcs.Threads

def givenName (name : Text) : Text := if name.isEmpty then defaultName else name

/-- The name behind a call. -/
def Call.rename (old : Text) : Call → Text
  | .setCurName name => if name.isEmpty then old else name
  | .getThis => old

def lastName (first : Text) (calls : List Call) : Text := calls.foldl Call.rename first

/-- What can be seen of a thread: the members of the object, `t_thread` and the two names. -/
structure Seen where
  id : Option ℕ
  cb : List Call
  name : Text
  tThread : Bool
  tThreadName : Text
  osName : Text

def Started.notified : Started → Bool
  | .callback _ | .exited => true
  | _ => false

section Place
variable (cb : List Call) (name : Text) (tid : ℕ)

/-- What there is to be seen at each place of the started thread. -/
inductive Place : Started → Seen → Prop
  | no : Place .no ⟨none,cb,givenName name,false,defaultName,[]⟩
  | setThis : Place .setThis ⟨none,cb,givenName name,false,defaultName,[]⟩
  | copyName : Place .copyName ⟨none,cb,givenName name,true,defaultName,[]⟩
  | setId : Place .setId ⟨none,cb,givenName name,true,givenName name,[]⟩
  | setOsName : Place .setOsName ⟨some tid,cb,givenName name,true,givenName name,[]⟩
  | swapCb : Place .swapCb ⟨some tid,cb,givenName name,true,givenName name,shortName (givenName name)⟩
  | notify : Place (.notify cb) ⟨some tid,[],givenName name,true,givenName name,shortName (givenName name)⟩
  | callback (done rest : List Call) (h : cb = done ++ rest) : Place (.callback rest)
    ⟨some tid,[],lastName (givenName name) done,true,lastName (givenName name) done,shortName (givenName name)⟩
  | exited : Place .exited
    ⟨some tid,[],lastName (givenName name) cb,true,lastName (givenName name) cb,shortName (givenName name)⟩

/-- The object, if it is alive, and the thread have what is to be seen. -/
structure Shows (s : State) (v : Seen) : Prop where
  object : ∀ {o}, s.object = some o → o.id = v.id ∧ o.cb = v.cb ∧ o.name = v.name
  tThread : s.tThread = v.tThread
  tThreadName : s.tThreadName = v.tThreadName
  osName : s.osName = v.osName

/-- What the creator can count on. -/
def Awaited (s : State) : Prop :=
  match s.creator with
  | .creating => s.started = .no ∧ ∃ o, s.object = some o ∧ o.semaphore = 0
  | .waiting => s.started ≠ .no ∧ ∃ o, s.object = some o ∧ o.thread = true ∧
      o.semaphore = if s.started.notified then 1 else 0
  | .owner => s.started.notified = true ∧ ∃ o, s.object = some o ∧ (o.thread = false → s.started = .exited)
  | .threw => s.object = none
  | .destroyed => s.object = none ∧ (s.started = .undefined ∨ s.started.notified = true)

structure Shaken (s : State) : Prop where
  place : s.started = .undefined ∧ s.object = none ∨ ∃ v, Place cb name tid s.started v ∧ Shows s v
  tid : s.tid = tid
  creator : Awaited s

end Place

section Step
variable {cb : List Call} {name : Text} {tid : ℕ} {s t : State}

theorem shaken_start : Shaken cb name tid (start cb name tid) := by
  refine ⟨.inr ⟨_,.no,⟨fun ho => ?_,rfl,rfl,rfl⟩⟩,rfl,rfl,_,rfl,rfl⟩
  obtain rfl := Option.some.inj ho
  exact ⟨rfl,rfl,rfl⟩

/-- The thread has gone from `s` to `t`, which has done `g` to the object. -/
structure Moves (s t : State) (g : Object → Object) : Prop where
  creator : t.creator = s.creator
  tid : t.tid = s.tid
  object : t.object = s.object.map g
  thread : ∀ o, (g o).thread = o.thread
  semaphore : ∀ o, (g o).semaphore = o.semaphore + if !s.started.notified && t.started.notified then 1 else 0
  notified : s.started.notified = true → t.started.notified = true
  ahead : s.started ≠ .no ∧ s.started ≠ .exited ∧ s.started ≠ .undefined ∧ t.started ≠ .no

/-- A step that the creator does not hear of. -/
theorem Moves.silent {g : Object → Object} (hc : t.creator = s.creator) (htid : t.tid = s.tid)
    (ho : t.object = s.object.map g) (hg : ∀ o, (g o).thread = o.thread ∧ (g o).semaphore = o.semaphore)
    (hn : s.started.notified = t.started.notified)
    (ha : s.started ≠ .no ∧ s.started ≠ .exited ∧ s.started ≠ .undefined ∧ t.started ≠ .no) : Moves s t g :=
  ⟨hc,htid,ho,fun o => (hg o).1,fun o => by simp [(hg o).2,hn],fun h => hn ▸ h,ha⟩

theorem Awaited.moves {g : Object → Object} (h : Awaited s) (hm : Moves s t g) : Awaited t := by
  obtain ⟨hno,hexited,hundefined,hno'⟩ := hm.ahead
  unfold Awaited at h ⊢
  rw [hm.creator,hm.object]
  cases hc : s.creator with
  | creating => exact absurd (hc ▸ h : _ ∧ _).1 hno
  | waiting =>
    rw [hc] at h
    obtain ⟨_,o,ho,hthread,hsem⟩ := h
    refine ⟨hno',g o,by rw [ho]; rfl,(hm.thread o).trans hthread,?_⟩
    rw [hm.semaphore,hsem]
    cases hs : s.started.notified with
    | true => simp [hm.notified hs]
    | false => cases t.started.notified <;> rfl
  | owner =>
    rw [hc] at h
    obtain ⟨hnotified,o,ho,hjoined⟩ := h
    exact ⟨hm.notified hnotified,g o,by rw [ho]; rfl,fun hf => absurd (hjoined ((hm.thread o).symm.trans hf)) hexited⟩
  | threw =>
    rw [hc] at h
    rw [show s.object = none from h]
    rfl
  | destroyed =>
    rw [hc] at h
    obtain ⟨ho,hs⟩ := h
    exact ⟨by rw [ho]; rfl,.inr (hm.notified (hs.resolve_left hundefined))⟩

theorem Shaken.moves {g : Object → Object} (h : Shaken cb name tid s) (hm : Moves s t g) {v : Seen}
    (hplace : Place cb name tid t.started v) (hshows : Shows t v) : Shaken cb name tid t :=
  ⟨.inr ⟨v,hplace,hshows⟩,hm.tid.trans h.tid,h.creator.moves hm⟩

/-- Without an object the creator is past caring. -/
theorem Shaken.undefined (h : Shaken cb name tid s) (ho : s.object = none) :
    Shaken cb name tid { s with started := .undefined } := by
  refine ⟨.inl ⟨rfl,ho⟩,h.tid,?_⟩
  have hc := h.creator
  unfold Awaited at hc ⊢
  cases hs : s.creator with
  | creating | waiting | owner =>
    simp only [hs,ho] at hc
    simp at hc
  | threw => exact ho
  | destroyed => exact ⟨ho,.inl rfl⟩

/-- An access takes the thread on to its next place if the object is alive. -/
theorem Shaken.access {f : Object → State} (h : Shaken cb name tid s)
    (hf : ∀ {o}, s.object = some o → ∃ g v, Moves s (f o) g ∧ Place cb name tid (f o).started v ∧ Shows (f o) v) :
    Shaken cb name tid (s.access f) := by
  cases ho : s.object with
  | none =>
    have hs : s.access f = { s with started := .undefined } := by
      unfold State.access
      rw [ho]
    exact hs ▸ h.undefined ho
  | some o =>
    obtain ⟨g,v,hm,hplace,hv⟩ := hf ho
    rw [State.access_some ho]
    exact h.moves hm hplace hv

/-- One statement of `Run` or one call of the callback. -/
theorem Shaken.run (h : Shaken cb name tid s) (hn : s.run = some t) : Shaken cb name tid t := by
  rcases h.place with ⟨hs,_⟩ | ⟨v,hplace,hv⟩
  · simp [State.run,hs] at hn
  generalize hs : s.started = place at hplace
  unfold State.run at hn
  have htid := h.tid
  cases hplace with
  | no | exited => simp [hs] at hn
  | setThis =>
    simp only [hs,Option.some.injEq] at hn
    subst hn
    exact h.moves (g := id) (.silent rfl rfl (by simp) (fun _ => ⟨rfl,rfl⟩) (by rw [hs]; rfl) (by simp [hs]))
      .copyName ⟨hv.object,rfl,hv.tThreadName,hv.osName⟩
  | copyName =>
    simp only [hs,Option.some.injEq] at hn
    subst hn
    refine h.access fun {o} ho => ⟨id,_,
      .silent rfl rfl (by simp) (fun _ => ⟨rfl,rfl⟩) (by rw [hs]; rfl) (by simp [hs]),.setId,
      ⟨hv.object,hv.tThread,(hv.object ho).2.2,hv.osName⟩⟩
  | setId =>
    simp only [hs,Option.some.injEq] at hn
    subst hn
    refine h.access fun {o} ho => ⟨fun o => { o with id := some s.tid },_,
      .silent rfl rfl (by simp [ho]) (fun _ => ⟨rfl,rfl⟩) (by rw [hs]; rfl) (by simp [hs]),.setOsName,
      ⟨?_,hv.tThread,hv.tThreadName,hv.osName⟩⟩
    rintro _ ⟨⟩
    exact ⟨congrArg some htid,(hv.object ho).2⟩
  | setOsName =>
    simp only [hs,Option.some.injEq] at hn
    subst hn
    refine h.access fun {o} ho => ⟨id,_,
      .silent rfl rfl (by simp) (fun _ => ⟨rfl,rfl⟩) (by rw [hs]; rfl) (by simp [hs]),.swapCb,
      ⟨hv.object,hv.tThread,hv.tThreadName,?_⟩⟩
    exact congrArg shortName (hv.object ho).2.2
  | swapCb =>
    simp only [hs,Option.some.injEq] at hn
    subst hn
    refine h.access fun {o} ho => ⟨fun o => { o with cb := [] },
      ⟨some tid,[],givenName name,true,givenName name,shortName (givenName name)⟩,
      .silent rfl rfl (by simp [ho]) (fun _ => ⟨rfl,rfl⟩) (by rw [hs]; rfl) (by simp [hs]),?_,
      ⟨?_,hv.tThread,hv.tThreadName,hv.osName⟩⟩
    · have hcb : o.cb = cb := (hv.object ho).2.1
      simp only [hcb]
      exact .notify
    · rintro _ ⟨⟩
      exact ⟨(hv.object ho).1,rfl,(hv.object ho).2.2⟩
  | notify =>
    simp only [hs,Option.some.injEq] at hn
    subst hn
    refine h.access fun {o} ho => ⟨fun o => { o with semaphore := o.semaphore + 1 },_,⟨rfl,rfl,by simp [ho],
      fun _ => rfl,by simp [hs,Started.notified],by simp [hs,Started.notified],by simp [hs]⟩,.callback [] cb rfl,
      ⟨?_,hv.tThread,hv.tThreadName,hv.osName⟩⟩
    rintro _ ⟨⟩
    exact ⟨(hv.object ho).1,(hv.object ho).2⟩
  | callback done rest hcb =>
    cases rest with
    | nil =>
      simp only [hs,Option.some.injEq] at hn
      subst hn
      obtain rfl : cb = done := by simpa using hcb
      exact h.moves (g := id) (.silent rfl rfl (by simp) (fun _ => ⟨rfl,rfl⟩) (by rw [hs]; rfl) (by simp [hs]))
        .exited ⟨hv.object,hv.tThread,hv.tThreadName,hv.osName⟩
    | cons c rest =>
      have hcb' : cb = (done ++ [c]) ++ rest := by simpa using hcb
      have hlast : lastName (givenName name) (done ++ [c]) = c.rename (lastName (givenName name) done) := by
        simp [lastName]
      have hnext : Place cb name tid _ _ := .callback (done ++ [c]) rest hcb'
      rw [hlast] at hnext
      have hthis : s.tThread = true := hv.tThread
      cases c with
      | setCurName new =>
        simp only [hs,Option.some.injEq,State.setCurName,if_pos hthis] at hn
        split_ifs at hn with he
        · subst hn
          rw [Call.rename,if_pos he] at hnext
          exact h.moves (g := id) (.silent rfl rfl (by simp) (fun _ => ⟨rfl,rfl⟩) (by rw [hs]; rfl) (by simp [hs]))
            hnext ⟨hv.object,hv.tThread,hv.tThreadName,hv.osName⟩
        · subst hn
          rw [Call.rename,if_neg he] at hnext
          refine h.access fun {o} ho => ⟨fun o => { o with name := new },_,
            .silent rfl rfl (by simp [ho]) (fun _ => ⟨rfl,rfl⟩) (by rw [hs]; rfl) (by simp [hs]),hnext,
            ⟨?_,hv.tThread,rfl,hv.osName⟩⟩
          rintro _ ⟨⟩
          exact ⟨(hv.object ho).1,(hv.object ho).2.1,rfl⟩
      | getThis =>
        simp only [hs,Option.some.injEq,State.getThis,if_pos hthis] at hn
        subst hn
        exact h.access fun {o} _ => ⟨id,_,
          .silent rfl rfl (by simp) (fun _ => ⟨rfl,rfl⟩) (by rw [hs]; rfl) (by simp [hs]),hnext,
          ⟨hv.object,hv.tThread,hv.tThreadName,hv.osName⟩⟩

/-- The creator leaves the thread where it is, and the name of the object with it. -/
theorem Shaken.creator_moves (h : Shaken cb name tid s) {o' : Option Object} {c : Creator}
    (ho : ∀ {o}, o' = some o → ∃ p, s.object = some p ∧ o.id = p.id ∧ o.cb = p.cb ∧ o.name = p.name)
    (hc : Awaited { s with object := o', creator := c }) :
    Shaken cb name tid { s with object := o', creator := c } := by
  refine ⟨?_,h.tid,hc⟩
  rcases h.place with ⟨hs,hnone⟩ | ⟨v,hplace,hv⟩
  · refine .inl ⟨hs,Option.eq_none_iff_forall_ne_some.mpr fun o hsome => ?_⟩
    obtain ⟨p,hp,_⟩ := ho hsome
    exact absurd (hnone.symm.trans hp) nofun
  · refine .inr ⟨v,hplace,fun hsome => ?_,hv.tThread,hv.tThreadName,hv.osName⟩
    obtain ⟨p,hp,hid,hcb,hname⟩ := ho hsome
    obtain ⟨hid',hcb',hname'⟩ := hv.object hp
    exact ⟨hid.trans hid',hcb.trans hcb',hname.trans hname'⟩

theorem Shaken.next {a : Act} (h : Shaken cb name tid s) (hn : s.next a = some t) : Shaken cb name tid t := by
  have hawaited := h.creator
  unfold Awaited at hawaited
  cases a with
  | run => exact h.run hn
  | create ok =>
    cases hc : s.creator with
    | creating =>
      rw [hc] at hawaited
      obtain ⟨hno,o,ho,hsem⟩ := hawaited
      rcases h.place with ⟨hs,_⟩ | ⟨v,hplace,hv⟩
      · rw [hno] at hs; cases hs
      rw [hno] at hplace
      cases hplace
      simp only [State.next,hc,ho] at hn
      cases ok with
      | true =>
        obtain rfl := Option.some.inj hn
        refine ⟨.inr ⟨_,.setThis,fun hp => ?_,hv.tThread,hv.tThreadName,hv.osName⟩,h.tid,by simp,_,rfl,rfl,hsem⟩
        obtain rfl := Option.some.inj hp
        exact ⟨(hv.object ho).1,(hv.object ho).2⟩
      | false =>
        obtain rfl := Option.some.inj hn
        exact h.creator_moves (fun ho => by cases ho) rfl
    | _ => simp [State.next,hc] at hn
  | wait =>
    cases hc : s.creator with
    | waiting =>
      rw [hc] at hawaited
      obtain ⟨_,o,ho,hthread,hsem⟩ := hawaited
      simp only [State.next,hc,ho] at hn
      split_ifs at hn with hpos
      obtain rfl := Option.some.inj hn
      refine h.creator_moves (fun hp => ⟨_,ho,by obtain rfl := Option.some.inj hp; exact ⟨rfl,rfl,rfl⟩⟩)
        ⟨?_,_,rfl,fun hf => by rw [hthread] at hf; cases hf⟩
      by_contra hnot
      rw [if_neg hnot] at hsem
      omega
    | _ => simp [State.next,hc] at hn
  | interrupt =>
    simp only [State.next] at hn
    split_ifs at hn
    obtain rfl := Option.some.inj hn
    exact h.creator_moves (fun ho => by cases ho) rfl
  | join ok =>
    cases hc : s.creator with
    | owner =>
      rw [hc] at hawaited
      obtain ⟨hnotified,o,ho,_⟩ := hawaited
      simp only [State.next,hc,ho] at hn
      split_ifs at hn with hthread hok hexited
      · obtain rfl := Option.some.inj hn
        exact h.creator_moves (fun hp => ⟨_,ho,by obtain rfl := Option.some.inj hp; exact ⟨rfl,rfl,rfl⟩⟩)
          ⟨hnotified,_,rfl,fun _ => hexited⟩
      all_goals
        obtain rfl := Option.some.inj hn
        exact h
    | _ => simp [State.next,hc] at hn
  | destroy =>
    simp only [State.next] at hn
    split_ifs at hn with howner
    obtain rfl := Option.some.inj hn
    rw [howner] at hawaited
    exact h.creator_moves (fun ho => by cases ho) ⟨rfl,.inr hawaited.1⟩

theorem shaken_run {acts : List Act} (h : Runs State.next (fun _ _ => True) (start cb name tid) acts s) :
    Shaken cb name tid s :=
  h.invariant (P := Shaken cb name tid) (fun hs _ hn => hs.next hn) shaken_start

/-- The calls of the callback behind it, the rest of them ahead, and its last name. -/
def Called (cb : List Call) (first : Text) (s : State) (last : Text) : Prop :=
  ∃ done rest, cb = done ++ rest ∧ (s.started = .callback rest ∨ s.started = .exited ∧ rest = []) ∧
    last = lastName first done

theorem Place.called {v : Seen} (h : Place cb name tid s.started v) (hs : s.started.notified = true) :
    Called cb (givenName name) s v.tThreadName ∧ v.id = some tid ∧ v.cb = [] ∧ v.name = v.tThreadName ∧
      v.osName = shortName (givenName name) := by
  generalize hp : s.started = place at h hs
  cases h with
  | callback done rest hcb => exact ⟨⟨done,rest,hcb,.inl hp,rfl⟩,rfl,rfl,rfl,rfl⟩
  | exited => exact ⟨⟨cb,[],by simp,.inr ⟨hp,rfl⟩,rfl⟩,rfl,rfl,rfl,rfl⟩
  | _ => cases hs

/-- The statements in front of the end of `Notify`. -/
def Started.ahead : Started → ℕ
  | .setThis => 6
  | .copyName => 5
  | .setId => 4
  | .setOsName => 3
  | .swapCb => 2
  | .notify _ => 1
  | _ => 0

/-- As long as the creator waits, the thread comes closer to its notification. -/
theorem Shaken.closer (h : Shaken cb name tid s) (hc : s.creator = .waiting) (hs : s.started.notified = false) :
    ∃ t, s.run = some t ∧ t.creator = .waiting ∧ t.started.ahead + 1 = s.started.ahead := by
  have hawaited := h.creator
  simp only [Awaited,hc] at hawaited
  obtain ⟨hno,o,ho,_⟩ := hawaited
  rcases h.place with ⟨_,hnone⟩ | ⟨v,hplace,_⟩
  · exact absurd (hnone.symm.trans ho) nofun
  · generalize hp : s.started = place at hplace hs hno
    cases hplace with
    | no => exact absurd rfl hno
    | callback | exited => cases hs
    | _ => simp [State.run,hp,State.access_some ho,hc,Started.ahead]

/-- The wait of the constructor comes to an end when the thread is left to run. -/
theorem Shaken.waits : ∀ {s : State}, Shaken cb name tid s → s.creator = .waiting →
    ∃ acts u v, acts.length = s.started.ahead ∧ Runs State.next (fun _ a => a = .run) s acts u ∧
      u.next .wait = some v := by
  intro s
  generalize hn : s.started.ahead = n
  induction n generalizing s with
  | zero =>
    intro h hc
    have hawaited := h.creator
    simp only [Awaited,hc] at hawaited
    obtain ⟨_,o,ho,_,hsem⟩ := hawaited
    have hnotified : s.started.notified = true := by
      by_contra hnot
      obtain ⟨t,_,_,ht⟩ := h.closer hc (by simpa using hnot)
      omega
    rw [if_pos hnotified] at hsem
    obtain ⟨v,hv⟩ : ∃ v, s.next .wait = some v := by simp [State.next,hc,ho,hsem]
    exact ⟨[],s,v,rfl,.refl s,hv⟩
  | succ n ih =>
    intro h hc
    have hnot : s.started.notified = false := by
      cases hs : s.started with
      | callback | exited => rw [hs] at hn; cases hn
      | _ => rfl
    obtain ⟨t,ht,htc,hahead⟩ := h.closer hc hnot
    obtain ⟨acts,u,v,hlength,hr,hv⟩ := ih (by omega) (h.run ht) htc
    exact ⟨.run :: acts,u,v,by simp [hlength],.step rfl ht hr,hv⟩

/-- In every interleaving: the constructor does not wait for ever. Once it has returned,
the id is set, the callback has been taken, and the object and the thread have the name
of the last call of `SetCurName`, while the system keeps the first one,
cut at fifteen characters and at a terminator in it; without its
object the thread still has its name, or has run into undefined behaviour. -/
theorem handshake {acts : List Act} (h : Runs State.next (fun _ _ => True) (start cb name tid) acts s) :
    (s.creator = .waiting → ∃ acts u v, acts.length ≤ 6 ∧ Runs State.next (fun _ a => a = .run) s acts u ∧
      u.next .wait = some v) ∧
    (s.creator = .owner → s.osName = shortName (givenName name) ∧ ∃ o, s.object = some o ∧ o.id = some tid ∧
      o.cb = [] ∧ o.name = s.tThreadName ∧ Called cb (givenName name) s o.name ∧
        (o.thread = false → s.started = .exited)) ∧
    (s.creator = .destroyed → s.object = none ∧
      (s.started = .undefined ∨ Called cb (givenName name) s s.tThreadName)) := by
  have hs := shaken_run h
  have hawaited := hs.creator
  refine ⟨fun hc => ?_,fun hc => ?_,fun hc => ?_⟩
  · obtain ⟨acts,u,v,hlength,hr,hv⟩ := hs.waits hc
    refine ⟨acts,u,v,?_,hr,hv⟩
    rw [hlength]
    cases s.started <;> simp [Started.ahead]
  · simp only [Awaited,hc] at hawaited
    obtain ⟨hnotified,o,ho,hjoined⟩ := hawaited
    rcases hs.place with ⟨_,hnone⟩ | ⟨v,hplace,hv⟩
    · exact absurd (hnone.symm.trans ho) nofun
    · obtain ⟨hcalled,hid,hcb,hname,hos⟩ := hplace.called hnotified
      obtain ⟨hoid,hocb,honame⟩ := hv.object ho
      have hlast : o.name = v.tThreadName := honame.trans hname
      exact ⟨hv.osName.trans hos,o,ho,hoid.trans hid,hocb.trans hcb,hlast.trans hv.tThreadName.symm,hlast ▸ hcalled,
        hjoined⟩
  · simp only [Awaited,hc] at hawaited
    obtain ⟨ho,hundefined | hnotified⟩ := hawaited
    · exact ⟨ho,.inl hundefined⟩
    · rcases hs.place with ⟨hundefined,_⟩ | ⟨v,hplace,hv⟩
      · exact ⟨ho,.inl hundefined⟩
      · exact ⟨ho,.inr (hv.tThreadName ▸ (hplace.called hnotified).1)⟩

theorem constructed_handshake : ∃ s,
    Runs State.next (fun _ _ => True) (start [.setCurName ['i','o'],.getThis] ['t',nul,'x'] 7)
      (constructed ++ [.run]) s ∧
      s.osName = ['t'] ∧ ∃ o, s.object = some o ∧ o.id = some 7 ∧ o.name = s.tThreadName ∧
        Called [.setCurName ['i','o'],.getThis] ['t',nul,'x'] s o.name := by
  have hr := Runs.of_exec State.next (fun _ _ => True) (start [.setCurName ['i','o'],.getThis] ['t',nul,'x'] 7)
    (constructed ++ [.run]) (by decide)
  obtain ⟨hos,o,ho,hid,_,hname,hcalled,_⟩ := (handshake hr).2.1 (by decide)
  exact ⟨_,hr,hos,o,ho,hid,hname,hcalled⟩

end Step
end Zcs.Threads
