import Zcs.Fibers.States
import Zcs.Foundation.Pointwise

/-! # Who may switch to whom

`SwapIn` and the yields save and restore one context of the main fiber, whoever calls
them, and their assertions only look at the state of one fiber. What they keep up is
stated here for runs in which `SwapIn` is called by the main fiber.
-/
namespace Zcs.Fibers
variable {K σ : Type}

/-- What the state of a child says about the context that it has saved. -/
structure IsSaved (f : ℕ) (x : Fiber K) : Prop where
  hasStack : x.hasStack = true
  cb : x.cb.isSome = true
  init : x.state = .init → x.ctx = ⟨.own f,.mainFunc⟩
  yielded : x.state = .hold ∨ x.state = .ready → ∃ code, x.ctx = ⟨.own f,.call ⟨some f,code⟩⟩
  ended : x.state = .term ∨ x.state = .execpt → x.ctx.point = .finished

def Stack.cur : Stack → Option ℕ
  | .thread => none
  | .own f => some f

/-- Who is running. While a child runs, `home` is where the main fiber is to go on. -/
structure Switching (home : Option K) (s : Thread K σ) : Prop where
  threadFiber : s.tThreadFiber = some 0
  mainFiber : ∃ x, s.fibers.get 0 = some x ∧ x.hasStack = false ∧
    ∀ f, s.stack = .own f → ∃ code, home = some code ∧ x.ctx = ⟨.thread,.call ⟨none,code⟩⟩
  this : s.tFiber = some s.stack.fiber
  cur : s.frame.cur = s.stack.cur
  running : ∀ f, s.stack = .own f → f ≠ 0 ∧ ∃ x, s.fibers.get f = some x ∧ x.state = .exec
  children : ∀ f x, f ≠ 0 → s.fibers.get f = some x → IsSaved f x

/-- `SwapIn` is called by the main fiber and on a child. Nobody but `t_thread_fiber` can
let go of the main fiber. -/
def ByMain (s : Thread K σ) : Act K σ → Prop
  | .swapIn f _ => s.stack = .thread ∧ s.tThreadFiber ≠ some f
  | .destroy f _ => s.tThreadFiber ≠ some f
  | _ => True

instance (s : Thread K σ) : ∀ a, Decidable (ByMain s a)
  | .swapIn f _ => inferInstanceAs (Decidable (s.stack = .thread ∧ s.tThreadFiber ≠ some f))
  | .destroy f _ => inferInstanceAs (Decidable (s.tThreadFiber ≠ some f))
  | .segment _ _ | .newFiber _ _ _ | .reset _ _ _ | .yieldTo _ _ | .callbackReturns | .callbackThrows _ =>
    inferInstanceAs (Decidable True)

namespace Thread

def home (s : Thread K σ) : Act K σ → Option K → Option K
  | .swapIn _ code, home => if s.stack = .thread then some code else home
  | _, home => home

/-- Behind a `SwapIn` of `f` by code that is to go on with `code`. -/
def entered (s : Thread K σ) (f : ℕ) (code k : K) : Thread K σ :=
  { s with
    fibers := (s.fibers.modify f fun x => { x with state := .exec }).modify 0
      fun x => { x with ctx := ⟨s.stack,.call { s.frame with code := code }⟩ }
    tFiber := some f
    stack := .own f
    frame := ⟨some f,k⟩ }

/-- Behind a `SwapOut` of `f` at `point`, with `g` done to it before. -/
def left (s : Thread K σ) (f : ℕ) (g : Fiber K → Fiber K) (point : Point K) (code : K) : Thread K σ :=
  { s with
    fibers := (s.fibers.modify f g).modify f fun x => { x with ctx := ⟨.own f,point⟩ }
    tFiber := some 0
    stack := .thread
    frame := ⟨none,code⟩ }

def neverReach : Fault := .assertion "never reach!".toList

def mainState (s : Thread K σ) : Option State := (s.fibers.get 0).map (·.state)

end Thread

theorem check_eq_ok_iff {expr : String} {b : Bool} {u : Unit} : check expr b = .ok u ↔ b = true := by
  unfold check
  cases b <;> simp

namespace Thread
variable {s t : Thread K σ} {f : ℕ}

theorem deref_eq_ok_iff {x : Fiber K} : s.deref f = .ok x ↔ s.fibers.get f = some x := by
  unfold deref
  cases s.fibers.get f <;> simp

theorem next_eq_some_iff {a : Act K σ} : s.next a = some t ↔ s.step a = .ok t := by
  unfold next
  cases s.step a <;> simp [Except.toOption]

theorem reset_cases {cb : K} (h : s.reset f cb = .ok t) : ∃ x, s.fibers.get f = some x ∧ x.hasStack = true ∧
    (x.state = .init ∨ x.state = .term ∨ x.state = .execpt) ∧
    t = { s with
      fibers := s.fibers.modify f fun x => { x with cb := some cb, ctx := ⟨.own f,.mainFunc⟩, state := .init } } := by
  unfold reset at h
  obtain ⟨x,hx,h⟩ := bind_eq_ok_iff.mp h
  obtain ⟨_,hstack,h⟩ := bind_eq_ok_iff.mp h
  obtain ⟨_,hstate,h⟩ := bind_eq_ok_iff.mp h
  obtain rfl := Except.ok.inj h
  exact ⟨x,deref_eq_ok_iff.mp hx,check_eq_ok_iff.mp hstack,of_decide_eq_true (check_eq_ok_iff.mp hstate),rfl⟩

theorem destroy_cases (h : s.destroy f = .ok t) {x : Fiber K} (hx : s.fibers.get f = some x)
    (hstack : x.hasStack = true) : (x.state = .init ∨ x.state = .term ∨ x.state = .execpt) ∧
    t = { s with fibers := s.fibers.free f, fiberCount := (s.fiberCount + (2 ^ 64 - 1)) % 2 ^ 64 } := by
  unfold destroy at h
  obtain ⟨y,hy,h⟩ := bind_eq_ok_iff.mp h
  obtain rfl := Option.some.inj (hx.symm.trans (deref_eq_ok_iff.mp hy))
  rw [if_pos hstack] at h
  obtain ⟨_,hstate,h⟩ := bind_eq_ok_iff.mp h
  obtain rfl := Except.ok.inj h
  exact ⟨of_decide_eq_true (check_eq_ok_iff.mp hstate),rfl⟩

end Thread

namespace Switching
variable {home : Option K} {s : Thread K σ}

theorem goOn (h : Switching home s) (code : K) : Switching home (s.goOn code) :=
  ⟨h.threadFiber,h.mainFiber,h.this,h.cur,h.running,h.children⟩

/-- An update of one child that is not running. -/
theorem modify (h : Switching home s) {f : ℕ} (hf : f ≠ 0) (hr : s.stack ≠ .own f) {g : Fiber K → Fiber K}
    (hg : ∀ x, s.fibers.get f = some x → IsSaved f (g x)) :
    Switching home { s with fibers := s.fibers.modify f g } := by
  refine ⟨h.threadFiber,?_,h.this,h.cur,fun i hi => ?_,fun i x hi hx => ?_⟩
  · simpa only [Heap.get_modify_ne _ _ hf.symm] using h.mainFiber
  · have hne : i ≠ f := by
      rintro rfl
      exact hr hi
    simpa only [Heap.get_modify_ne _ _ hne] using h.running i hi
  · rcases Heap.get_modify_eq_some_iff.mp hx with ⟨rfl,y,hy,rfl⟩ | ⟨_,hx⟩
    · exact hg y hy
    · exact h.children i x hi hx

theorem get_main_swapIn (h : Switching home s) {f : ℕ} (hf : f ≠ 0) : ∃ y, s.fibers.get 0 = some y ∧
    (s.fibers.modify f fun x => { x with state := .exec }).get 0 = some y := by
  obtain ⟨y,hy,_⟩ := h.mainFiber
  exact ⟨y,hy,by rwa [Heap.get_modify_ne _ _ hf.symm]⟩

/-- `SwapIn` of a child, up to the place where the child goes on. -/
theorem swapIn_eq (h : Switching home s) {f : ℕ} (hf : f ≠ 0) {x : Fiber K} (hx : s.fibers.get f = some x)
    (he : x.state ≠ .exec) (code : K) :
    s.swapIn f code = ({ s with
      fibers := (s.fibers.modify f fun x => { x with state := .exec }).modify 0
        fun x => { x with ctx := ⟨s.stack,.call { s.frame with code := code }⟩ }
      tFiber := some f } : Thread K σ).resume x.ctx := by
  obtain ⟨y,_,hy⟩ := h.get_main_swapIn hf
  simp only [Thread.swapIn,Thread.deref,hx,check,he,decide_true,ne_eq,not_false_eq_true,↓reduceIte,
    Thread.setThis,Thread.setState,h.threadFiber,bind,Except.bind]
  rw [Thread.swapcontext_eq (x := y) (z := { x with state := .exec }) hy (by simp [hx]) hf]

/-- A child goes on where its state says, unless its callback has ended. -/
theorem swapIn_cases (h : Switching home s) {f : ℕ} (hf : f ≠ 0) {x : Fiber K} (hx : s.fibers.get f = some x)
    (he : x.state ≠ .exec) (code : K) :
    ((x.state = .term ∨ x.state = .execpt) ∧ s.swapIn f code = .error Thread.neverReach) ∨
    (¬ (x.state = .term ∨ x.state = .execpt) ∧ ∃ k, s.swapIn f code = .ok (s.entered f code k)) := by
  have hc := h.children f x hf hx
  rw [h.swapIn_eq hf hx he]
  have hcall : (x.state = .hold ∨ x.state = .ready) → ∃ k, ({ s with
      fibers := (s.fibers.modify f fun x => { x with state := .exec }).modify 0
        fun x => { x with ctx := ⟨s.stack,.call { s.frame with code := code }⟩ }
      tFiber := some f } : Thread K σ).resume x.ctx = .ok (s.entered f code k) := by
    intro hst
    obtain ⟨k,hctx⟩ := hc.yielded hst
    exact ⟨k,by rw [hctx]; rfl⟩
  cases hst : x.state with
  | exec => exact absurd hst he
  | term | execpt =>
    refine .inl ⟨by simp,?_⟩
    rw [Thread.resume,hc.ended (by simp [hst])]
    rfl
  | hold | ready => exact .inr ⟨by simp,hcall (by simp [hst])⟩
  | init =>
    refine .inr ⟨by simp,?_⟩
    obtain ⟨k,hk⟩ := Option.isSome_iff_exists.mp hc.cb
    refine ⟨k,?_⟩
    rw [hc.init hst]
    simp [Thread.resume,Thread.mainFunc,Thread.getThis,Thread.deref,Heap.get_modify_ne _ _ hf,hx,hk,bind,
      Except.bind,pure,Except.pure,Thread.entered]

theorem entered (h : Switching home s) (hs : s.stack = .thread) {f : ℕ} (hf : f ≠ 0) {x : Fiber K}
    (hx : s.fibers.get f = some x) (code k : K) : Switching (some code) (s.entered f code k) := by
  have hcur : s.frame.cur = none := by rw [h.cur,hs]; rfl
  obtain ⟨y,hy,hstack,_⟩ := h.mainFiber
  have hff : (s.entered f code k).fibers.get f = some { x with state := .exec } := by
    simp [Thread.entered,Heap.get_modify_ne _ _ hf,hx]
  refine ⟨h.threadFiber,⟨{ y with ctx := ⟨.thread,.call ⟨none,code⟩⟩ },?_,hstack,fun _ _ => ⟨code,rfl,rfl⟩⟩,rfl,rfl,
    fun i hi => ?_,fun i z hi hz => ?_⟩
  · simp [Thread.entered,Heap.get_modify_ne _ _ hf.symm,hy,hs,hcur]
  · obtain rfl := Stack.own.inj hi
    exact ⟨hf,_,hff,rfl⟩
  · by_cases hif : i = f
    · subst hif
      obtain rfl := Option.some.inj (hff.symm.trans hz)
      have hc := h.children i x hf hx
      exact ⟨hc.hasStack,hc.cb,fun he => (by cases he),fun he => (by simp at he),fun he => (by simp at he)⟩
    · refine h.children i z hi ?_
      simpa [Thread.entered,Heap.get_modify_ne _ _ hi,Heap.get_modify_ne _ _ hif] using hz

/-- A child's `SwapOut` brings the main fiber back, behind its own `SwapIn`. -/
theorem swapOut_eq (h : Switching home s) {f : ℕ} (hs : s.stack = .own f) (g : Fiber K → Fiber K)
    (point : Point K) : ∃ code, home = some code ∧
      ({ s with fibers := s.fibers.modify f g } : Thread K σ).swapOut f point = .ok (s.left f g point code) := by
  obtain ⟨hf,x,hx,_⟩ := h.running f hs
  obtain ⟨y,hy,_,hctx⟩ := h.mainFiber
  obtain ⟨code,hcode,hctx⟩ := hctx f hs
  refine ⟨code,hcode,?_⟩
  simp only [Thread.swapOut,h.threadFiber,Thread.setThis]
  rw [Thread.swapcontext_eq (x := g x) (z := y) (by simp [hx]) (by simp [Heap.get_modify_ne _ _ hf.symm,hy])
    hf.symm,hctx,hs]
  simp [Thread.resume,Thread.left,h.threadFiber]

theorem left (h : Switching home s) {f : ℕ} (hs : s.stack = .own f) {g : Fiber K → Fiber K} {point : Point K}
    (hg : ∀ x, IsSaved f x → x.state = .exec → IsSaved f { g x with ctx := ⟨.own f,point⟩ }) (code : K) :
    Switching home (s.left f g point code) := by
  obtain ⟨hf,x,hx,he⟩ := h.running f hs
  have hfibers : (s.left f g point code).fibers =
      s.fibers.modify f fun x => { g x with ctx := ⟨.own f,point⟩ } := Heap.modify_modify _ _ _ _
  obtain ⟨y,hy,hstack,_⟩ := h.mainFiber
  refine ⟨h.threadFiber,⟨y,?_,hstack,fun _ hi => (by cases hi)⟩,rfl,rfl,fun _ hi => (by cases hi),fun i z hi hz => ?_⟩
  · rwa [hfibers,Heap.get_modify_ne _ _ hf.symm]
  · rw [hfibers] at hz
    rcases Heap.get_modify_eq_some_iff.mp hz with ⟨rfl,x',hx',rfl⟩ | ⟨_,hz⟩
    · obtain rfl := Option.some.inj (hx.symm.trans hx')
      exact hg x (h.children i x hi hx) he
    · exact h.children i z hi hz

/-- How a child stops running: by a yield, or with its callback. -/
theorem leave (h : Switching home s) {f : ℕ} (hs : s.stack = .own f) {a : Act K σ}
    (ha : a = .callbackReturns ∨ (∃ std, a = .callbackThrows std) ∨ ∃ y code, a = .yieldTo y code) :
    ∃ t code, s.step a = .ok t ∧ home = some code ∧ t.stack = .thread ∧ t.frame = ⟨none,code⟩ ∧
      t.fibers.get 0 = s.fibers.get 0 ∧ Switching home t := by
  obtain ⟨hf,x,hx,he⟩ := h.running f hs
  have hcur : s.frame.cur = some f := by rw [h.cur,hs]; rfl
  have hthis : s.tFiber = some f := by rw [h.this,hs]; rfl
  obtain ⟨g,point,hstep,hg⟩ : ∃ g point, s.step a =
      ({ s with fibers := s.fibers.modify f g } : Thread K σ).swapOut f point ∧
        ∀ x, IsSaved f x → x.state = .exec → IsSaved f { g x with ctx := ⟨.own f,point⟩ } := by
    rcases ha with rfl | ⟨std,rfl⟩ | ⟨y,code,rfl⟩
    · refine ⟨fun x => { x with state := .term },.finished,?_,fun x hc he => ?_⟩
      · simp only [Thread.step,Thread.callbackReturns,hcur]
        rfl
      · exact ⟨hc.hasStack,hc.cb,fun hi => (by cases hi),fun hi => (by simp at hi),fun _ => rfl⟩
    · cases std with
      | false =>
        refine ⟨fun x => { x with state := .execpt },.finished,?_,fun x hc he => ?_⟩
        · simp only [Thread.step,Thread.callbackThrows,hcur]
          rfl
        · exact ⟨hc.hasStack,hc.cb,fun hi => (by cases hi),fun hi => (by simp at hi),fun _ => rfl⟩
      | true =>
        -- the handler leaves the state as it is
        refine ⟨fun x => x,.finished,?_,fun x hc he => ?_⟩
        · simp only [Thread.step,Thread.callbackThrows,hcur,Heap.modify_id]
          rfl
        · exact ⟨hc.hasStack,hc.cb,fun hi => (by simp [he] at hi),fun hi => (by simp [he] at hi),
            fun hi => (by simp [he] at hi)⟩
    · refine ⟨fun x => { x with state := y.state },.call { s.frame with code := code },?_,fun x hc he => ?_⟩
      · simp only [Thread.step,Thread.yieldTo,Thread.getThis,hthis,Thread.deref,hx,he,check,bind,Except.bind,
          pure,Except.pure,decide_true,↓reduceIte]
        rfl
      · refine ⟨hc.hasStack,hc.cb,fun hi => ?_,fun _ => ⟨code,by simp [hcur]⟩,fun hi => ?_⟩
        · cases y <;> cases hi
        · cases y <;> simp [Yield.state] at hi
  obtain ⟨code,hcode,ht⟩ := h.swapOut_eq hs g point
  refine ⟨_,code,hstep.trans ht,hcode,rfl,rfl,?_,h.left hs hg code⟩
  simp [Thread.left,Heap.get_modify_ne _ _ hf.symm]

theorem newFiber (h : Switching home s) (cb : K) (stacksize : ℕ) : Switching home (s.newFiber cb stacksize) := by
  obtain ⟨y,hy,hm⟩ := h.mainFiber
  refine ⟨h.threadFiber,⟨y,Heap.get_alloc_of_get hy _,hm⟩,h.this,h.cur,fun f hf => ?_,fun f x hf hx => ?_⟩
  · obtain ⟨hne,x,hx,he⟩ := h.running f hf
    exact ⟨hne,x,Heap.get_alloc_of_get hx _,he⟩
  · rcases Heap.get_alloc_eq_some_iff.mp hx with ⟨rfl,rfl⟩ | hx
    · exact ⟨rfl,rfl,fun _ => rfl,fun he => (by simp at he),fun he => (by simp at he)⟩
    · exact h.children f x hf hx

theorem free (h : Switching home s) {f : ℕ} (hf : f ≠ 0) (hr : s.stack ≠ .own f) (count : ℕ) :
    Switching home { s with fibers := s.fibers.free f, fiberCount := count } := by
  have hget : ∀ i, i ≠ f → (s.fibers.free f).get i = s.fibers.get i := fun i hi => by
    rw [Heap.get_free,if_neg hi]
  obtain ⟨y,hy,hm⟩ := h.mainFiber
  refine ⟨h.threadFiber,⟨y,(hget 0 hf.symm).trans hy,hm⟩,h.this,h.cur,fun i hi => ?_,fun i x hi hx => ?_⟩
  · have hne : i ≠ f := by
      rintro rfl
      exact hr hi
    obtain ⟨hi0,x,hx,he⟩ := h.running i hi
    exact ⟨hi0,x,(hget i hne).trans hx,he⟩
  · exact h.children i x hi (Heap.get_free_eq_some_iff.mp hx).2

/-- A fiber that may be reset or destroyed is not running. -/
theorem not_running (h : Switching home s) {f : ℕ} {x : Fiber K} (hx : s.fibers.get f = some x)
    (hidle : x.state = .init ∨ x.state = .term ∨ x.state = .execpt) : s.stack ≠ .own f := by
  intro hs
  obtain ⟨_,y,hy,he⟩ := h.running f hs
  obtain rfl := Option.some.inj (hx.symm.trans hy)
  simp [he] at hidle

/-- A yield of the main fiber comes straight back to it. -/
theorem yield_main (h : Switching home s) (hs : s.stack = .thread) {x : Fiber K} (hx : s.fibers.get 0 = some x)
    (y : Yield) (code : K) : s.step (.yieldTo y code) =
      if x.state = .exec then .ok { s with
        fibers := (s.fibers.modify 0 fun x => { x with state := y.state }).modify 0
          fun x => { x with ctx := ⟨s.stack,.call { s.frame with code := code }⟩ }
        tFiber := some 0
        frame := { s.frame with code := code } }
      else .error (.assertion "cur->state_ == EXEC".toList) := by
  have hthis : s.tFiber = some 0 := by rw [h.this,hs]; rfl
  have hm := h.threadFiber
  by_cases he : x.state = .exec
  · simp [Thread.step,Thread.yieldTo,Thread.getThis,hthis,Thread.deref,hx,he,check,Thread.swapOut,Thread.setState,
      Thread.setThis,hm,Thread.swapcontext,Thread.resume,bind,Except.bind,pure,Except.pure]
  · simp [Thread.step,Thread.yieldTo,Thread.getThis,hthis,Thread.deref,hx,he,check,bind,Except.bind,pure,Except.pure]

theorem yielded_main (h : Switching home s) (hs : s.stack = .thread) (y : Yield) (code : K) :
    Switching home { s with
      fibers := (s.fibers.modify 0 fun x => { x with state := y.state }).modify 0
        fun x => { x with ctx := ⟨s.stack,.call { s.frame with code := code }⟩ }
      tFiber := some 0
      frame := { s.frame with code := code } } := by
  obtain ⟨x,hx,hstack,_⟩ := h.mainFiber
  have hnone : ∀ f, s.stack ≠ .own f := fun f hf => by rw [hs] at hf; cases hf
  refine ⟨h.threadFiber,⟨{ x with state := y.state, ctx := ⟨s.stack,.call { s.frame with code := code }⟩ },?_,
    hstack,fun f hf => absurd hf (hnone f)⟩,by rw [hs]; rfl,h.cur,fun f hf => absurd hf (hnone f),
    fun f z hf hz => h.children f z hf ?_⟩
  · simp [hx]
  simpa [Heap.get_modify_ne _ _ hf] using hz

theorem noCallback (h : Switching home s) (hs : s.stack = .thread) {a : Act K σ}
    (ha : a = .callbackReturns ∨ ∃ std, a = .callbackThrows std) : s.step a = .error .noCallback := by
  have hcur : s.frame.cur = none := by rw [h.cur,hs]; rfl
  rcases ha with rfl | ⟨std,rfl⟩
  · simp only [Thread.step,Thread.callbackReturns,hcur]
  · simp only [Thread.step,Thread.callbackThrows,hcur]

theorem reset (h : Switching home s) {f : ℕ} {cb : K} {t : Thread K σ} (hs : s.reset f cb = .ok t) :
    Switching home t ∧ t.mainState = s.mainState := by
  obtain ⟨m,hm,hmstack,_⟩ := h.mainFiber
  obtain ⟨x,hx,hstack,hidle,rfl⟩ := Thread.reset_cases hs
  have hf : f ≠ 0 := by
    rintro rfl
    obtain rfl := Option.some.inj (hx.symm.trans hm)
    exact absurd (hmstack.symm.trans hstack) Bool.false_ne_true
  refine ⟨h.modify hf (h.not_running hx hidle) fun z hz => ?_,?_⟩
  · have hc := h.children f z hf hz
    exact ⟨hc.hasStack,rfl,fun _ => rfl,fun he => (by simp at he),fun he => (by simp at he)⟩
  · simp [Thread.mainState,Heap.get_modify_ne _ _ hf.symm]

theorem destroy (h : Switching home s) {f : ℕ} (hf : f ≠ 0) {t : Thread K σ} (hs : s.destroy f = .ok t) :
    Switching home t ∧ t.mainState = s.mainState := by
  obtain ⟨x,hx,_⟩ := bind_eq_ok_iff.mp hs
  have hx := Thread.deref_eq_ok_iff.mp hx
  obtain ⟨hidle,rfl⟩ := Thread.destroy_cases hs hx (h.children f x hf hx).hasStack
  refine ⟨h.free hf (h.not_running hx hidle) _,?_⟩
  simp [Thread.mainState,Heap.get_free,hf.symm]

theorem swapIn (h : Switching home s) {f : ℕ} (hf : f ≠ 0) (hstack : s.stack = .thread) {code : K}
    {t : Thread K σ} (hs : s.swapIn f code = .ok t) :
    Switching (some code) t ∧ t.mainState = s.mainState := by
  obtain ⟨m,hm,_⟩ := h.mainFiber
  obtain ⟨x,hx,hs'⟩ := bind_eq_ok_iff.mp hs
  have hx := Thread.deref_eq_ok_iff.mp hx
  obtain ⟨_,he,_⟩ := bind_eq_ok_iff.mp hs'
  have he : x.state ≠ .exec := of_decide_eq_true (check_eq_ok_iff.mp he)
  rcases h.swapIn_cases hf hx he code with ⟨_,herr⟩ | ⟨_,k,hk⟩
  · rw [herr] at hs
    cases hs
  · obtain rfl := Except.ok.inj (hk.symm.trans hs)
    refine ⟨h.entered hstack hf hx code k,?_⟩
    simp [Thread.mainState,Thread.entered,Heap.get_modify_ne _ _ hf.symm,hm]

/-- Whatever a child does to stop running. -/
theorem left_main (h : Switching home s) {f : ℕ} (hs : s.stack = .own f) {a : Act K σ}
    (ha : a = .callbackReturns ∨ (∃ std, a = .callbackThrows std) ∨ ∃ y code, a = .yieldTo y code)
    {t : Thread K σ} (ht : s.step a = .ok t) : Switching home t ∧ t.mainState = s.mainState := by
  obtain ⟨u,_,hu,_,_,_,hmain,hS⟩ := h.leave hs ha
  obtain rfl := Except.ok.inj (hu.symm.trans ht)
  exact ⟨hS,by rw [Thread.mainState,hmain,Thread.mainState]⟩

/-- Calls by the main fiber keep to the rules, and so does everything else that a fiber
does. Only a yield of the main fiber itself changes the main fiber's state. -/
theorem step (h : Switching home s) {a : Act K σ} (ha : ByMain s a) {t : Thread K σ} (hs : s.step a = .ok t) :
    Switching (s.home a home) t ∧
      ((s.stack = .thread ∧ ∃ y code, a = .yieldTo y code) ∨ t.mainState = s.mainState) := by
  have hchild : ∀ {f}, s.tThreadFiber ≠ some f → f ≠ 0 := by
    rintro f hf rfl
    exact hf h.threadFiber
  cases a with
  | segment x code =>
    obtain rfl := Except.ok.inj hs
    have htrace : Switching home { s with trace := s.trace ++ [(s.stack,x)] } :=
      ⟨h.threadFiber,h.mainFiber,h.this,h.cur,h.running,h.children⟩
    exact ⟨htrace.goOn code,.inr rfl⟩
  | newFiber cb stacksize code =>
    obtain rfl := Except.ok.inj hs
    obtain ⟨m,hm,_⟩ := h.mainFiber
    refine ⟨(h.newFiber cb stacksize).goOn code,.inr ?_⟩
    change ((s.fibers.alloc _).get 0).map _ = _
    rw [Heap.get_alloc_of_get hm,Thread.mainState,hm]
  | reset f cb code =>
    obtain ⟨u,hu,hs⟩ := bind_eq_ok_iff.mp hs
    obtain rfl := Except.ok.inj hs
    obtain ⟨hS,hmain⟩ := h.reset hu
    exact ⟨hS.goOn code,.inr hmain⟩
  | destroy f code =>
    obtain ⟨u,hu,hs⟩ := bind_eq_ok_iff.mp hs
    obtain rfl := Except.ok.inj hs
    obtain ⟨hS,hmain⟩ := h.destroy (hchild ha) hu
    exact ⟨hS.goOn code,.inr hmain⟩
  | swapIn f code =>
    obtain ⟨hstack,hne⟩ := ha
    have hhome : s.home (.swapIn f code) home = some code := if_pos hstack
    obtain ⟨hS,hmain⟩ := h.swapIn (hchild hne) hstack hs
    exact ⟨hhome ▸ hS,.inr hmain⟩
  | yieldTo y code =>
    cases hstack : s.stack with
    | own f =>
      obtain ⟨hS,hmain⟩ := h.left_main hstack (.inr (.inr ⟨y,code,rfl⟩)) hs
      exact ⟨hS,.inr hmain⟩
    | thread =>
      obtain ⟨x,hx,_⟩ := h.mainFiber
      rw [h.yield_main hstack hx] at hs
      split_ifs at hs
      obtain rfl := Except.ok.inj hs
      exact ⟨h.yielded_main hstack y code,.inl ⟨rfl,y,code,rfl⟩⟩
  | callbackReturns =>
    cases hstack : s.stack with
    | own f =>
      obtain ⟨hS,hmain⟩ := h.left_main hstack (.inl rfl) hs
      exact ⟨hS,.inr hmain⟩
    | thread =>
      rw [h.noCallback hstack (.inl rfl)] at hs
      cases hs
  | callbackThrows std =>
    cases hstack : s.stack with
    | own f =>
      obtain ⟨hS,hmain⟩ := h.left_main hstack (.inr (.inl ⟨std,rfl⟩)) hs
      exact ⟨hS,.inr hmain⟩
    | thread =>
      rw [h.noCallback hstack (.inr ⟨std,rfl⟩)] at hs
      cases hs

theorem start (stacksizeConfig : ℕ) (code : K) :
    Switching none (Thread.start stacksizeConfig code : Thread K σ) := by
  refine ⟨rfl,⟨_,rfl,rfl,fun _ hf => (by cases hf)⟩,rfl,rfl,fun _ hf => (by cases hf),fun f x hf hx => ?_⟩
  have hnone : (Thread.start stacksizeConfig code : Thread K σ).fibers.get f = none := if_neg hf
  rw [hnone] at hx
  cases hx

end Switching
end Zcs.Fibers
