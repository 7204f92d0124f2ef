import Zcs.Fibers.Switching

/-! # What a finished fiber still holds

`MainFunc` is to empty `cb_` when the callback has returned, but it compares. A child
has its callback for as long as it exists, and it is TERM from the return of that
callback on.
-/
namespace Zcs.Fibers
variable {K σ : Type}

/-- When the main fiber runs, a child in state TERM has let go of its callback. -/
def Released (s : Thread K σ) : Prop :=
  s.stack = .thread → ∀ f x, s.fibers.get f = some x → x.hasStack = true → x.state = .term → x.cb = none

def NoTerm (h : Heap (Fiber K)) : Prop := ∀ f x, h.get f = some x → x.state ≠ .term

namespace NoTerm
variable {h : Heap (Fiber K)}

theorem modify (hh : NoTerm h) {f : ℕ} {g : Fiber K → Fiber K} (hg : ∀ x, x.state ≠ .term → (g x).state ≠ .term) :
    NoTerm (h.modify f g) := by
  intro i x hx
  rcases Heap.get_modify_eq_some_iff.mp hx with ⟨_,y,hy,rfl⟩ | ⟨_,hx⟩
  · exact hg y (hh i y hy)
  · exact hh i x hx

theorem alloc (hh : NoTerm h) {z : Fiber K} (hz : z.state ≠ .term) : NoTerm (h.alloc z) := by
  intro i x hx
  rcases Heap.get_alloc_eq_some_iff.mp hx with ⟨_,rfl⟩ | hx
  · exact hz
  · exact hh i x hx

theorem free (hh : NoTerm h) (f : ℕ) : NoTerm (h.free f) := by
  intro i x hx
  obtain ⟨_,hx⟩ := Heap.get_free_eq_some_iff.mp hx
  exact hh i x hx

variable {s t : Thread K σ}

theorem getThis (hs : NoTerm s.fibers) {f : ℕ} (ht : s.getThis = .ok (t,f)) : NoTerm t.fibers := by
  unfold Thread.getThis at ht
  cases hf : s.tFiber with
  | some i =>
    rw [hf] at ht
    obtain ⟨_,_,ht⟩ := bind_eq_ok_iff.mp ht
    obtain ⟨rfl,_⟩ := Prod.mk.inj (Except.ok.inj ht)
    exact hs
  | none =>
    rw [hf] at ht
    obtain ⟨rfl,_⟩ := Prod.mk.inj (Except.ok.inj ht)
    exact hs.alloc (by simp)

theorem resume (hs : NoTerm s.fibers) {ctx : Context K} (ht : s.resume ctx = .ok t) : NoTerm t.fibers := by
  unfold Thread.resume at ht
  cases hp : ctx.point with
  | ctor | finished => simp [hp] at ht
  | call fr =>
    rw [hp] at ht
    obtain rfl := Except.ok.inj ht
    exact hs
  | mainFunc =>
    rw [hp] at ht
    obtain ⟨⟨u,cur⟩,hu,ht⟩ := bind_eq_ok_iff.mp ht
    obtain ⟨fiber,_,ht⟩ := bind_eq_ok_iff.mp ht
    have hu := getThis (s := { s with stack := ctx.stack }) hs hu
    cases hc : fiber.cb with
    | none => simp [hc] at ht
    | some code =>
      simp only [hc] at ht
      obtain rfl := Except.ok.inj ht
      exact hu

theorem swapcontext (hs : NoTerm s.fibers) {oucp ucp : ℕ} {point : Point K}
    (ht : s.swapcontext oucp ucp point = .ok t) : NoTerm t.fibers := by
  obtain ⟨_,_,ht⟩ := bind_eq_ok_iff.mp ht
  obtain ⟨_,_,ht⟩ := bind_eq_ok_iff.mp ht
  have hsaved : NoTerm (s.fibers.modify oucp fun x => { x with ctx := ⟨s.stack,point⟩ }) := hs.modify fun _ hx => hx
  exact resume (s := { s with fibers := _ }) hsaved ht

theorem swapOut (hs : NoTerm s.fibers) {f : ℕ} {point : Point K} (ht : s.swapOut f point = .ok t) :
    NoTerm t.fibers := by
  unfold Thread.swapOut at ht
  cases hm : s.tThreadFiber with
  | none => simp [hm] at ht
  | some m =>
    rw [hm] at ht
    exact swapcontext (s := s.setThis m) hs ht

/-- Only the return of a callback makes a fiber TERM, whoever switches to whom. -/
theorem step (hs : NoTerm s.fibers) {a : Act K σ} (ha : a ≠ .callbackReturns) (ht : s.step a = .ok t) :
    NoTerm t.fibers := by
  cases a with
  | segment x code =>
    obtain rfl := Except.ok.inj ht
    exact hs
  | newFiber cb stacksize code =>
    obtain rfl := Except.ok.inj ht
    exact hs.alloc (by simp)
  | reset f cb code =>
    obtain ⟨u,hu,ht⟩ := bind_eq_ok_iff.mp ht
    obtain rfl := Except.ok.inj ht
    obtain ⟨_,_,_,_,rfl⟩ := Thread.reset_cases hu
    exact hs.modify fun _ _ => by simp
  | destroy f code =>
    obtain ⟨u,hu,ht⟩ := bind_eq_ok_iff.mp ht
    obtain rfl := Except.ok.inj ht
    obtain ⟨x,_,hu⟩ := bind_eq_ok_iff.mp hu
    -- with and without a stack, the object is gone in the end
    simp only at hu
    split_ifs at hu
    all_goals obtain ⟨_,_,hu⟩ := bind_eq_ok_iff.mp hu
    · obtain rfl := Except.ok.inj hu
      exact hs.free f
    all_goals
      obtain ⟨_,_,hu⟩ := bind_eq_ok_iff.mp hu
      obtain rfl := Except.ok.inj hu
      exact hs.free f
  | swapIn f code =>
    obtain ⟨_,_,ht⟩ := bind_eq_ok_iff.mp ht
    obtain ⟨_,_,ht⟩ := bind_eq_ok_iff.mp ht
    have hexec : NoTerm ((s.setThis f).setState f .exec).fibers := hs.modify fun _ _ => by simp
    cases hm : ((s.setThis f).setState f .exec).tThreadFiber with
    | none => simp [hm] at ht
    | some m =>
      simp only [hm] at ht
      exact hexec.swapcontext ht
  | yieldTo y code =>
    obtain ⟨⟨u,cur⟩,hu,ht⟩ := bind_eq_ok_iff.mp ht
    obtain ⟨_,_,ht⟩ := bind_eq_ok_iff.mp ht
    obtain ⟨_,_,ht⟩ := bind_eq_ok_iff.mp ht
    have hyield : NoTerm (u.setState cur y.state).fibers :=
      (getThis hs hu).modify fun _ _ => by cases y <;> simp [Yield.state]
    exact hyield.swapOut ht
  | callbackReturns => exact absurd rfl ha
  | callbackThrows std =>
    change s.callbackThrows std = .ok t at ht
    unfold Thread.callbackThrows at ht
    cases hc : s.frame.cur with
    | none => simp [hc] at ht
    | some cur =>
      simp only [hc] at ht
      have hthrow : NoTerm (if std then s else s.setState cur .execpt).fibers := by
        split
        · exact hs
        · exact hs.modify fun _ _ => by simp
      exact hthrow.swapOut ht

theorem released (hs : NoTerm s.fibers) : Released s := fun _ f x hx _ ht => absurd ht (hs f x hx)

end NoTerm

/-- Behind the return of its callback a child is TERM and holds that callback. -/
theorem Switching.not_released {home : Option K} {s t : Thread K σ} (h : Switching home s)
    (ht : s.step .callbackReturns = .ok t) : ¬ Released t := by
  cases hstack : s.stack with
  | thread =>
    rw [h.noCallback hstack (.inl rfl)] at ht
    cases ht
  | own f =>
    obtain ⟨hf,x,hx,_⟩ := h.running f hstack
    have hcur : s.frame.cur = some f := by rw [h.cur,hstack]; rfl
    obtain ⟨code,_,hleft⟩ := h.swapOut_eq hstack (fun x => { x with state := .term }) .finished
    have hstep : s.step .callbackReturns = .ok (s.left f (fun x => { x with state := .term }) .finished code) := by
      rw [← hleft]
      simp only [Thread.step,Thread.callbackReturns,hcur]
      rfl
    obtain rfl := Except.ok.inj (hstep.symm.trans ht)
    intro hr
    have hc := h.children f x hf hx
    have hget : (s.left f (fun x => { x with state := .term }) .finished code).fibers.get f =
        some { x with state := .term, ctx := ⟨.own f,.finished⟩ } := by
      simp [Thread.left,hx]
    have hnone := hr rfl f _ hget hc.hasStack rfl
    have hsome := hc.cb
    simp only at hnone
    rw [hnone] at hsome
    cases hsome

/-- A run in which no callback returns keeps no callback of a finished fiber, whoever
switches to whom in it. If the main fiber does all switching, no other run does. -/
theorem released_iff (stacksizeConfig : ℕ) (code : K) (acts : List (Act K σ)) :
    (.callbackReturns ∉ acts → ∀ s, Runs Thread.next (fun _ _ => True) (Thread.start stacksizeConfig code) acts s →
      Released s) ∧
    ∀ s, Runs Thread.next ByMain (Thread.start stacksizeConfig code) acts s →
      ((∀ pre u, pre <+: acts → Runs Thread.next ByMain (Thread.start stacksizeConfig code) pre u → Released u) ↔
        .callbackReturns ∉ acts) := by
  have hstart : NoTerm (Thread.start stacksizeConfig code : Thread K σ).fibers :=
    NoTerm.alloc (h := .empty) (fun _ _ hx => by cases hx) (by simp)
  constructor
  · intro hno s h
    have hne : ∀ a ∈ acts, a ≠ .callbackReturns := fun a ha he => hno (he ▸ ha)
    have hinv : NoTerm s.fibers := (Runs.and_labels_iff.mpr ⟨h,hne⟩).invariant (P := fun s => NoTerm s.fibers)
      (fun hs ha hn => hs.step ha.2 (Thread.next_eq_some_iff.mp hn)) hstart
    exact hinv.released
  · intro s h
    have hiff : (∀ pre u, pre <+: acts →
        Runs Thread.next ByMain (Thread.start stacksizeConfig code) pre u → Released u) ↔
          Runs Thread.next (fun s a => ByMain s a ∧ a ≠ .callbackReturns) (Thread.start stacksizeConfig code)
            acts s := by
      refine h.held_iff (I := fun s => (∃ home, Switching home s) ∧ NoTerm s.fibers) ?_ (fun hs => hs.2.released) ?_
        ⟨⟨_,.start stacksizeConfig code⟩,hstart⟩
      · rintro s t a ⟨⟨home,hs⟩,hn⟩ hby hgood ht
        have ht := Thread.next_eq_some_iff.mp ht
        exact ⟨⟨_,(hs.step hby ht).1⟩,hn.step hgood ht⟩
      · rintro s t a ⟨⟨home,hs⟩,_⟩ _ ht hr rfl
        exact hs.not_released (Thread.next_eq_some_iff.mp ht) hr
    rw [hiff,Runs.and_labels_iff]
    exact ⟨fun hall hmem => hall.2 _ hmem rfl,fun hno => ⟨h,fun a ha he => hno (he ▸ ha)⟩⟩

theorem released_ready : ∃ s, Runs Thread.next ByMain (Thread.start 1048576 ()) readyActs s ∧
    ∀ pre u, pre <+: readyActs → Runs Thread.next ByMain (Thread.start 1048576 ()) pre u → Released u := by
  have hrun := Runs.of_exec Thread.next ByMain (Thread.start 1048576 ()) readyActs (by decide)
  exact ⟨_,hrun,((released_iff 1048576 () readyActs).2 _ hrun).mpr (by simp [readyActs])⟩

/-- A fiber whose callback has returned, and nobody has reset or destroyed it. -/
theorem returned_not_released : ¬ ∀ (acts : List (Act Unit Unit)) (s : Thread Unit Unit),
    Runs Thread.next (fun _ _ => True) (Thread.start 1048576 ()) acts s → Released s := by
  intro h
  have hrun := Runs.of_exec Thread.next (fun _ _ => True) (Thread.start 1048576 ())
    ([.newFiber () 0 (),.swapIn 1 (),.callbackReturns] : List (Act Unit Unit)) (by decide)
  have hnone := h _ _ hrun rfl 1 _ rfl rfl rfl
  cases hnone

end Zcs.Fibers
