import Zcs.Fibers.Coroutine

/-! # The fibers of a thread are coroutines

Each coroutine is a fiber object whose state and saved context say what its phase
is. While a coroutine runs, its own saved context is stale and the main fiber's is
the place where the main program is to go on; while the main program runs it is the
other way round. Every label that the coroutines accept can be taken by the thread
without a failed assertion, and keeps this correspondence.
-/
namespace Zcs.Fibers
variable {K σ : Type}

namespace Phase

def state : Phase K → State
  | fresh _ => .init
  | suspended y _ => y.state
  | running => .exec
  | ended .returned => .term
  | ended (.threw false) => .execpt
  | ended (.threw true) => .exec

/-- Where the saved context goes on, if that is of any use. -/
def point (f : ℕ) : Phase K → Option (Point K)
  | fresh _ => some .mainFunc
  | suspended _ code => some (.call ⟨some f,code⟩)
  | running => none
  | ended _ => some .finished

theorem state_of_idle {p : Phase K} (h : p.idle = true) :
    p.state = .init ∨ p.state = .term ∨ p.state = .execpt := by
  cases p with
  | fresh => exact .inl rfl
  | suspended => cases h
  | running => cases h
  | ended e =>
    cases e with
    | returned => exact .inr (.inl rfl)
    | threw std => cases std with
      | false => exact .inr (.inr rfl)
      | true => cases h

end Phase

structure IsChild (f : ℕ) (p : Phase K) (x : Fiber K) : Prop where
  hasStack : x.hasStack = true
  state : x.state = p.state
  cb : ∀ cb, p = .fresh cb → x.cb = some cb
  ctx : ∀ point, p.point f = some point → x.ctx = ⟨.own f,point⟩

/-- The fiber objects are the main fiber's and those of the coroutines. -/
structure Children (m : ℕ) (fibers : Heap (Fiber K)) (phases : Heap (Phase K)) : Prop where
  next : phases.next = fibers.next
  mainFiber : ∃ x, fibers.get m = some x ∧ x.state = .exec ∧ x.hasStack = false ∧ x.cb = none
  mainPhase : phases.get m = none
  child : ∀ f p, phases.get f = some p → ∃ x, fibers.get f = some x ∧ IsChild f p x
  others : ∀ f, f ≠ m → phases.get f = none → fibers.get f = none

namespace Children
variable {m : ℕ} {fibers : Heap (Fiber K)} {phases : Heap (Phase K)}

theorem ne_main (h : Children m fibers phases) {f : ℕ} {p : Phase K} (hf : phases.get f = some p) :
    f ≠ m := by
  rintro rfl
  rw [h.mainPhase] at hf
  cases hf

theorem modify (h : Children m fibers phases) {f : ℕ} {p : Phase K} (hf : phases.get f = some p)
    {g : Fiber K → Fiber K} {q : Phase K} (hg : ∀ x, IsChild f p x → IsChild f q (g x)) :
    Children m (fibers.modify f g) (phases.modify f fun _ => q) := by
  have hne := h.ne_main hf
  constructor
  · exact h.next
  · obtain ⟨x,hx,hm⟩ := h.mainFiber
    exact ⟨x,by rwa [Heap.get_modify_ne _ _ hne.symm],hm⟩
  · rw [Heap.get_modify_ne _ _ hne.symm]
    exact h.mainPhase
  · intro i r hi
    rcases Heap.get_modify_eq_some_iff.mp hi with ⟨rfl,_,_,rfl⟩ | ⟨hif,hi⟩
    · obtain ⟨x,hx,hc⟩ := h.child i p hf
      exact ⟨g x,by rw [Heap.get_modify_self,hx]; rfl,hg x hc⟩
    · rw [Heap.get_modify_ne _ _ hif]
      exact h.child i r hi
  · intro i him hi
    by_cases hif : i = f
    · subst hif
      rw [Heap.get_modify_self,hf] at hi
      cases hi
    · rw [Heap.get_modify_ne _ _ hif] at hi ⊢
      exact h.others i him hi

theorem modify_main (h : Children m fibers phases) (ctx : Context K) :
    Children m (fibers.modify m fun x => { x with ctx := ctx }) phases := by
  constructor
  · exact h.next
  · obtain ⟨x,hx,hm⟩ := h.mainFiber
    exact ⟨{ x with ctx := ctx },by rw [Heap.get_modify_self,hx]; rfl,hm⟩
  · exact h.mainPhase
  · intro f p hf
    rw [Heap.get_modify_ne _ _ (h.ne_main hf)]
    exact h.child f p hf
  · intro f hfm hf
    rw [Heap.get_modify_ne _ _ hfm]
    exact h.others f hfm hf

theorem alloc (h : Children m fibers phases) {x : Fiber K} {p : Phase K}
    (hx : IsChild fibers.next p x) : Children m (fibers.alloc x) (phases.alloc p) := by
  obtain ⟨y,hy,hm⟩ := h.mainFiber
  have hlt := Heap.lt_next hy
  constructor
  · simp [h.next]
  · exact ⟨y,Heap.get_alloc_of_get hy x,hm⟩
  · rw [Heap.get_alloc,if_neg (by rw [h.next]; omega)]
    exact h.mainPhase
  · intro f q hf
    rcases Heap.get_alloc_eq_some_iff.mp hf with ⟨rfl,rfl⟩ | hf
    · rw [h.next]
      exact ⟨x,Heap.get_alloc_next _ _,hx⟩
    · obtain ⟨y,hy,hc⟩ := h.child f q hf
      exact ⟨y,Heap.get_alloc_of_get hy x,hc⟩
  · intro f hfm hf
    rw [Heap.get_alloc,h.next] at hf
    rw [Heap.get_alloc]
    split_ifs at hf ⊢ with hfn
    exact h.others f hfm hf

theorem free (h : Children m fibers phases) {f : ℕ} (hne : f ≠ m) :
    Children m (fibers.free f) (phases.free f) := by
  constructor
  · exact h.next
  · obtain ⟨x,hx,hm⟩ := h.mainFiber
    exact ⟨x,by rwa [Heap.get_free,if_neg hne.symm],hm⟩
  · rw [Heap.get_free,if_neg hne.symm]
    exact h.mainPhase
  · intro i p hi
    obtain ⟨hif,hi⟩ := Heap.get_free_eq_some_iff.mp hi
    rw [Heap.get_free,if_neg hif]
    exact h.child i p hi
  · intro i him hi
    rw [Heap.get_free] at hi ⊢
    split_ifs at hi ⊢ with hif
    · rfl
    · exact h.others i him hi

end Children

def stackOf : Option ℕ → Stack
  | none => .thread
  | some f => .own f

/-- The running stack, `t_fiber`, and, while a coroutine runs, the context of the
main fiber. -/
def At (m : ℕ) (s : Thread K σ) : Control K → Prop
  | .main code => s.stack = .thread ∧ s.frame = ⟨none,code⟩ ∧ s.tFiber = some m
  | .child f code mainCode => s.stack = .own f ∧ s.frame = ⟨some f,code⟩ ∧ s.tFiber = some f ∧
    ∃ x, s.fibers.get m = some x ∧ x.ctx = ⟨.thread,.call ⟨none,mainCode⟩⟩

/-- No more of a thread is spoken of than these four. -/
theorem At.congr {m : ℕ} {s t : Thread K σ} {control : Control K} (h : At m s control)
    (hs : t.stack = s.stack) (hf : t.frame = s.frame) (ht : t.tFiber = s.tFiber)
    (hm : t.fibers.get m = s.fibers.get m) : At m t control := by
  cases control with
  | main k =>
    obtain ⟨h₁,h₂,h₃⟩ := h
    exact ⟨hs.trans h₁,hf.trans h₂,ht.trans h₃⟩
  | child f k mainCode =>
    obtain ⟨h₁,h₂,h₃,x,hx,hctx⟩ := h
    exact ⟨hs.trans h₁,hf.trans h₂,ht.trans h₃,x,hm.trans hx,hctx⟩

structure Refines (m : ℕ) (s : Thread K σ) (c : Coroutines K σ) : Prop where
  children : Children m s.fibers c.phases
  threadFiber : s.tThreadFiber = some m
  control : At m s c.control
  running : ∀ f, c.phases.get f = some .running ↔ c.control.running = some f
  trace : s.trace = c.trace.map fun e => (stackOf e.1,e.2)

namespace Refines
variable {m : ℕ} {s : Thread K σ} {c : Coroutines K σ}

theorem goOn (h : Refines m s c) (code : K) : Refines m (s.goOn code) (c.goOn code) := by
  refine ⟨h.children,h.threadFiber,?_,fun f => ?_,h.trace⟩
  · have hat := h.control
    unfold Coroutines.goOn
    cases hc : c.control with
    | main k =>
      rw [hc] at hat
      obtain ⟨hs,hf,ht⟩ := hat
      exact ⟨hs,by rw [Thread.goOn,hf],ht⟩
    | child f k mainCode =>
      rw [hc] at hat
      obtain ⟨hs,hf,ht,hm⟩ := hat
      exact ⟨hs,by rw [Thread.goOn,hf],ht,hm⟩
  · rw [Coroutines.goOn,Control.running_goOn]
    exact h.running f

theorem stack_eq (h : Refines m s c) : s.stack = stackOf c.control.running := by
  have hat := h.control
  cases hc : c.control with
  | main k => rw [hc] at hat; exact hat.1
  | child f k mainCode => rw [hc] at hat; exact hat.1

theorem frame_eq (h : Refines m s c) : s.frame = ⟨c.control.running,c.control.code⟩ := by
  have hat := h.control
  cases hc : c.control with
  | main k => rw [hc] at hat; exact hat.2.1
  | child f k mainCode => rw [hc] at hat; exact hat.2.1

theorem code_eq (h : Refines m s c) : s.frame.code = c.control.code := by rw [h.frame_eq]

theorem segment (h : Refines m s c) (x : σ) :
    Refines m { s with trace := s.trace ++ [(s.stack,x)] }
      { c with trace := c.trace ++ [(c.control.running,x)] } := by
  refine ⟨h.children,h.threadFiber,h.control.congr rfl rfl rfl rfl,h.running,?_⟩
  simp [h.trace,h.stack_eq]

theorem get_main (h : Refines m s c) : ∃ x, s.fibers.get m = some x ∧ x.state = .exec := by
  obtain ⟨x,hx,he,_⟩ := h.children.mainFiber
  exact ⟨x,hx,he⟩

theorem newFiber (h : Refines m s c) (cb : K) (stacksize : ℕ) :
    Refines m (s.newFiber cb stacksize) { c with phases := c.phases.alloc (.fresh cb) } := by
  have hchild : IsChild s.fibers.next (.fresh cb) ({
      id := (s.fiberId + 1) % 2 ^ 64
      stacksize := (if stacksize ≠ 0 then stacksize else s.stacksizeConfig) % 2 ^ 32
      ctx := ⟨.own s.fibers.next,.mainFunc⟩
      hasStack := true
      cb := some cb } : Fiber K) := by
    refine ⟨rfl,rfl,fun _ he => ?_,fun _ he => ?_⟩
    · rw [Phase.fresh.inj he]
    · rw [← Option.some.inj he]
  obtain ⟨x,hx,_⟩ := h.get_main
  refine ⟨h.children.alloc hchild,h.threadFiber,?_,fun f => ?_,h.trace⟩
  · exact h.control.congr rfl rfl rfl (by rw [hx]; exact Heap.get_alloc_of_get hx _)
  · rw [← h.running f]
    simp only [Heap.get_alloc]
    split_ifs with hf
    · subst hf
      simp
    · rfl

theorem modify (h : Refines m s c) {f : ℕ} {p q : Phase K} (hf : c.phases.get f = some p)
    (hp : p ≠ .running) (hq : q ≠ .running) {g : Fiber K → Fiber K} (hg : ∀ x, IsChild f p x → IsChild f q (g x)) :
    Refines m { s with fibers := s.fibers.modify f g } (c.setPhase f q) := by
  refine ⟨h.children.modify hf hg,h.threadFiber,?_,fun i => ?_,h.trace⟩
  · exact h.control.congr rfl rfl rfl (Heap.get_modify_ne _ _ (h.children.ne_main hf).symm)
  · change (c.phases.modify f fun _ => q).get i = some .running ↔ c.control.running = some i
    rw [← h.running i,Heap.get_modify]
    split_ifs with hi
    · subst hi
      simp [hf,hp,hq]
    · rfl

theorem reset (h : Refines m s c) {f : ℕ} {p : Phase K} (hf : c.phases.get f = some p)
    (hp : p.idle = true) (cb : K) :
    ∃ t, s.reset f cb = .ok t ∧ Refines m t (c.setPhase f (.fresh cb)) := by
  obtain ⟨x,hx,hc⟩ := h.children.child f p hf
  have hstate : x.state = .init ∨ x.state = .term ∨ x.state = .execpt := hc.state ▸ Phase.state_of_idle hp
  refine ⟨{ s with
    fibers := s.fibers.modify f fun fiber =>
      { fiber with cb := some cb, ctx := ⟨.own f,.mainFunc⟩, state := .init } },?_,
    h.modify hf (by rintro rfl; cases hp) (by simp) fun x hc => ?_⟩
  · simp only [Thread.reset,Thread.deref,hx,check,hc.hasStack,hstate,decide_true,↓reduceIte,bind,Except.bind]
    rfl
  · refine ⟨hc.hasStack,rfl,fun _ he => ?_,fun _ he => ?_⟩
    · rw [Phase.fresh.inj he]
    · rw [← Option.some.inj he]

theorem destroy (h : Refines m s c) {f : ℕ} {p : Phase K} (hf : c.phases.get f = some p)
    (hp : p.idle = true) :
    ∃ t, s.destroy f = .ok t ∧ Refines m t { c with phases := c.phases.free f } := by
  obtain ⟨x,hx,hc⟩ := h.children.child f p hf
  have hstate : x.state = .init ∨ x.state = .term ∨ x.state = .execpt := hc.state ▸ Phase.state_of_idle hp
  have hne := h.children.ne_main hf
  refine ⟨{ s with fibers := s.fibers.free f, fiberCount := (s.fiberCount + (2 ^ 64 - 1)) % 2 ^ 64 },?_,
    h.children.free hne,h.threadFiber,?_,fun i => ?_,h.trace⟩
  · simp only [Thread.destroy,Thread.deref,hx,check,hc.hasStack,hstate,decide_true,↓reduceIte,bind,Except.bind]
    rfl
  · exact h.control.congr rfl rfl rfl (by rw [Heap.get_free,if_neg hne.symm])
  · rw [← h.running i]
    simp only [Heap.get_free]
    split_ifs with hi
    · subst hi
      simp only [hf,Option.some.injEq,false_iff]
      rintro rfl
      cases hp
    · rfl

theorem swapIn (h : Refines m s c) {k₀ : K} (hmain : c.control = .main k₀) {f : ℕ} {p : Phase K} {k : K}
    (hf : c.phases.get f = some p) (hp : p = .fresh k ∨ ∃ y, p = .suspended y k) (code : K) :
    ∃ t, s.swapIn f code = .ok t ∧ Refines m t (c.enter f k code) := by
  obtain ⟨x,hx,hc⟩ := h.children.child f p hf
  obtain ⟨y,hy,_⟩ := h.get_main
  have hne := h.children.ne_main hf
  have hat := h.control
  rw [hmain] at hat
  obtain ⟨hstack,hframe,_⟩ := hat
  have hexec : x.state ≠ .exec := by
    rw [hc.state]
    rcases hp with rfl | ⟨y,rfl⟩
    · simp [Phase.state]
    · cases y <;> simp [Phase.state,Yield.state]
  -- the fibers after the two changes that are made before control is given away
  let fibers := (s.fibers.modify f fun x => { x with state := .exec }).modify m
    fun x => { x with ctx := ⟨.thread,.call ⟨none,code⟩⟩ }
  let t : Thread K σ := { s with
    fibers := fibers, tFiber := some f, stack := .own f, frame := ⟨some f,k⟩ }
  have hfm : fibers.get m = some { y with ctx := ⟨.thread,.call ⟨none,code⟩⟩ } := by
    simp [fibers,Heap.get_modify_ne _ _ hne.symm,hy]
  have hff : fibers.get f = some { x with state := .exec } := by
    simp [fibers,Heap.get_modify_ne _ _ hne,hx]
  refine ⟨t,?_,?_,h.threadFiber,⟨rfl,rfl,rfl,_,hfm,rfl⟩,fun i => ?_,h.trace⟩
  · have hswap : s.swapIn f code =
        ({ s with fibers := fibers, tFiber := some f } : Thread K σ).resume x.ctx := by
      simp only [Thread.swapIn,Thread.deref,hx,check,hexec,decide_true,ne_eq,not_false_eq_true,↓reduceIte,
        Thread.setThis,Thread.setState,h.threadFiber,bind,Except.bind]
      rw [Thread.swapcontext_eq (x := y) (z := { x with state := .exec })
        (by simp [Heap.get_modify_ne _ _ hne.symm,hy]) (by simp [hx]) hne,hstack,hframe]
    rw [hswap]
    rcases hp with rfl | ⟨y,rfl⟩
    · rw [hc.ctx _ rfl]
      simp [Thread.resume,Thread.mainFunc,Thread.getThis,Thread.deref,hff,hc.cb,bind,Except.bind,pure,
        Except.pure,t]
    · rw [hc.ctx _ rfl]
      rfl
  · refine (h.children.modify hf fun x hc => ?_).modify_main _
    exact ⟨hc.hasStack,rfl,fun _ he => (by cases he),fun _ he => (by cases he)⟩
  · change (c.phases.modify f fun _ => .running).get i = some .running ↔ some f = some i
    rw [Heap.get_modify]
    split_ifs with hi
    · subst hi
      simp [hf]
    · rw [h.running i,hmain]
      simp [Control.running,Ne.symm hi]

/-- The running coroutine has stopped in a phase that its fiber object already
shows; switching out of it brings the main program back. -/
theorem leave (h : Refines m s c) {d : Coroutines K σ} {p : Phase K} (hd : c.leave p = some d)
    (hp : p ≠ .running) (point : Point K) (g : Fiber K → Fiber K)
    (hg : ∀ f x, IsChild f .running x → s.frame.cur = some f →
      IsChild f p { g x with ctx := ⟨.own f,point⟩ }) :
    ∃ f x t, s.frame.cur = some f ∧ s.tFiber = some f ∧ s.fibers.get f = some x ∧ x.state = .exec ∧
      ({ s with fibers := s.fibers.modify f g } : Thread K σ).swapOut f point = .ok t ∧ Refines m t d := by
  obtain ⟨f,k,mainCode,hc,rfl⟩ := Coroutines.leave_cases hd
  have hat := h.control
  rw [hc] at hat
  obtain ⟨hstack,hframe,hthis,y,hy,hctx⟩ := hat
  have hf : c.phases.get f = some .running := (h.running f).mpr (by rw [hc]; rfl)
  obtain ⟨x,hx,hchild⟩ := h.children.child f _ hf
  have hne := h.children.ne_main hf
  let fibers := (s.fibers.modify f g).modify f fun x => { x with ctx := ⟨.own f,point⟩ }
  have hcur : s.frame.cur = some f := by rw [hframe]
  refine ⟨f,x,
    { s with fibers := fibers, tFiber := some m, stack := .thread, frame := ⟨none,mainCode⟩ },
    hcur,hthis,hx,hchild.state,?_,?_⟩
  · simp only [Thread.swapOut,h.threadFiber,Thread.setThis]
    rw [Thread.swapcontext_eq (x := g x) (z := y) (by simp [hx])
      (by simp [Heap.get_modify_ne _ _ hne.symm,hy]) hne.symm,hctx,hstack]
    rfl
  · refine ⟨?_,h.threadFiber,⟨rfl,rfl,rfl⟩,fun i => ?_,h.trace⟩
    · have hm := h.children.modify hf (g := fun x => { g x with ctx := ⟨.own f,point⟩ })
        fun x hx => hg f x hx hcur
      simp only [fibers,Heap.modify_modify]
      exact hm
    · change (c.phases.modify f fun _ => p).get i = some .running ↔ none = some i
      rw [Heap.get_modify]
      split_ifs with hi
      · subst hi
        simp [hf,hp]
      · rw [h.running i,hc]
        simp [Control.running,Ne.symm hi]

/-- What the coroutines accept, the thread does, and without a failed assertion. -/
theorem step (h : Refines m s c) {a : Act K σ} {d : Coroutines K σ} (ha : c.step a = some d) :
    ∃ t, s.step a = .ok t ∧ Refines m t d := by
  cases a with
  | segment x code =>
    obtain rfl := Option.some.inj ha
    exact ⟨_,rfl,(h.segment x).goOn code⟩
  | newFiber cb stacksize code =>
    obtain rfl := Option.some.inj ha
    exact ⟨_,rfl,(h.newFiber cb stacksize).goOn code⟩
  | reset f cb code =>
    obtain ⟨p,hf,hp,rfl⟩ := Coroutines.reset_cases ha
    obtain ⟨t,ht,hR⟩ := h.reset hf hp cb
    exact ⟨t.goOn code,by simp only [Thread.step,ht]; rfl,hR.goOn code⟩
  | destroy f code =>
    obtain ⟨p,hf,hp,rfl⟩ := Coroutines.destroy_cases ha
    obtain ⟨t,ht,hR⟩ := h.destroy hf hp
    exact ⟨t.goOn code,by simp only [Thread.step,ht]; rfl,hR.goOn code⟩
  | swapIn f code =>
    obtain ⟨k₀,k,p,hc,hf,hp,rfl⟩ := Coroutines.swapIn_cases ha
    exact h.swapIn hc hf hp code
  | yieldTo y code =>
    obtain ⟨f,x,t,hcur,hthis,hx,hexec,ht,hR⟩ := h.leave ha (by simp) (.call { s.frame with code := code })
      (fun x => { x with state := y.state }) fun f x hx hcur =>
        ⟨hx.hasStack,rfl,fun _ he => (by cases he),fun _ he => by
          obtain rfl := Option.some.inj he
          simp only [hcur]⟩
    refine ⟨t,?_,hR⟩
    simp only [Thread.step,Thread.yieldTo,Thread.getThis,hthis,Thread.deref,hx,hexec,check,bind,Except.bind,
      pure,Except.pure,decide_true,↓reduceIte]
    exact ht
  | callbackReturns =>
    obtain ⟨f,_,t,hcur,_,_,_,ht,hR⟩ := h.leave ha (by simp) .finished (fun x => { x with state := .term })
      fun f x hx _ => ⟨hx.hasStack,rfl,fun _ he => (by cases he),fun _ he => (by cases he; rfl)⟩
    refine ⟨t,?_,hR⟩
    simp only [Thread.step,Thread.callbackReturns,hcur]
    exact ht
  | callbackThrows std =>
    cases std with
    | false =>
      obtain ⟨f,_,t,hcur,_,_,_,ht,hR⟩ := h.leave ha (by simp) .finished (fun x => { x with state := .execpt })
        fun f x hx _ => ⟨hx.hasStack,rfl,fun _ he => (by cases he),fun _ he => (by cases he; rfl)⟩
      refine ⟨t,?_,hR⟩
      simp only [Thread.step,Thread.callbackThrows,hcur]
      exact ht
    | true =>
      -- the handler leaves the state as it is
      obtain ⟨f,_,t,hcur,_,_,_,ht,hR⟩ := h.leave ha (by simp) .finished (fun x => x)
        fun f x hx _ => ⟨hx.hasStack,hx.state,fun _ he => (by cases he),fun _ he => (by cases he; rfl)⟩
      refine ⟨t,?_,hR⟩
      rw [Heap.modify_id] at ht
      simp only [Thread.step,Thread.callbackThrows,hcur]
      exact ht

theorem start (stacksizeConfig : ℕ) (code : K) :
    Refines 0 (Thread.start stacksizeConfig code : Thread K σ) (Coroutines.start code) := by
  refine ⟨⟨rfl,⟨_,rfl,rfl,rfl,rfl⟩,rfl,fun f p hf => (by cases hf),fun f hf _ => if_neg hf⟩,rfl,
    ⟨rfl,rfl,rfl⟩,fun f => ⟨fun h => (by cases h),fun h => (by cases h)⟩,rfl⟩

theorem next {a : Act K σ} {d : Coroutines K σ} (h : Refines m s c) (ha : c.step a = some d) :
    ∃ t, s.next a = some t ∧ Refines m t d := by
  obtain ⟨t,ht,hR⟩ := h.step ha
  exact ⟨t,by rw [Thread.next,ht]; rfl,hR⟩

/-- Every run that the coroutines accept is a run of the thread. -/
theorem run (stacksizeConfig : ℕ) {code : K} {accept : Coroutines K σ → Act K σ → Prop}
    {acts : List (Act K σ)} {c : Coroutines K σ}
    (h : Runs Coroutines.step accept (Coroutines.start code) acts c) :
    ∃ s, Runs Thread.next (fun _ _ => True) (Thread.start stacksizeConfig code) acts s ∧ Refines 0 s c :=
  h.simulate (fun hR _ ha => ⟨trivial,hR.next ha⟩) (.start stacksizeConfig code)

end Refines
end Zcs.Fibers
