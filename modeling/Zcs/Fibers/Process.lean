import Mathlib.Algebra.BigOperators.Group.Finset.Piecewise
import Mathlib.Logic.Relation
import Zcs.Fibers.Switching

/-! # Fibers of several threads

Threads share the two counters and the config variable "fiber.stacksize", and each has
fibers of its own. The counters give every fiber its id and say how many there are; the
threads do not come to know of one another by them.
-/
namespace Zcs.Fibers
variable {K σ ι : Type}

/-- What a thread does: it calls `GetThis`, or its code goes on. -/
inductive Move (K σ : Type) where
  | getThis
  | act (a : Act K σ)

def Thread.move (s : Thread K σ) : Move K σ → Except Fault (Thread K σ)
  | .getThis => do return (← s.getThis).1
  | .act a => s.step a

def Act.creates : Act K σ → Bool
  | .newFiber .. => true
  | _ => false

def Move.creates : Move K σ → Bool
  | .getThis => false
  | .act a => a.creates

/-- The counters and the stack size in a thread are those of the moment of its last step. -/
structure Process (ι K σ : Type) where
  threads : ι → Thread K σ
  fiberId : ℕ
  fiberCount : ℕ
  stacksizeConfig : ℕ

namespace Process

inductive Label (ι K σ : Type) where
  | move (i : ι) (m : Move K σ)
  | setStacksize (n : ℕ)

def start (stacksizeConfig : ℕ) (code : ι → K) : Process ι K σ :=
  ⟨fun i => .fresh stacksizeConfig (code i),0,0,stacksizeConfig⟩

/-- A thread as it is when it takes its next step. -/
def view (p : Process ι K σ) (i : ι) : Thread K σ :=
  { p.threads i with fiberId := p.fiberId, fiberCount := p.fiberCount, stacksizeConfig := p.stacksizeConfig }

variable [DecidableEq ι]

def put (p : Process ι K σ) (i : ι) (s : Thread K σ) : Process ι K σ :=
  { p with threads := Function.update p.threads i s, fiberId := s.fiberId, fiberCount := s.fiberCount }

/-- The increments are atomic, and no step reads a counter twice. -/
def step (p : Process ι K σ) : Label ι K σ → Except Fault (Process ι K σ)
  | .move i m => do return p.put i (← (p.view i).move m)
  | .setStacksize n => .ok { p with stacksizeConfig := n }

def next (p : Process ι K σ) (l : Label ι K σ) : Option (Process ι K σ) := (p.step l).toOption

end Process

section Agree
variable {α β α' β' : Type}

/-- Two results in a relation, or the same fault. -/
inductive Agree (R : α → β → Prop) : Except Fault α → Except Fault β → Prop
  | ok {a b} (h : R a b) : Agree R (.ok a) (.ok b)
  | error (e : Fault) : Agree R (.error e) (.error e)

theorem Agree.bind {R : α → β → Prop} {R' : α' → β' → Prop} {x : Except Fault α} {y : Except Fault β}
    (h : Agree R x y) {f : α → Except Fault α'} {g : β → Except Fault β'}
    (hfg : ∀ {a b}, R a b → Agree R' (f a) (g b)) : Agree R' (x >>= f) (y >>= g) := by
  cases h with
  | ok h => exact hfg h
  | error e => exact .error e

theorem Agree.of_ok {R : α → β → Prop} {x : Except Fault α} {b : β} (h : Agree R x (.ok b)) :
    ∃ a, x = .ok a ∧ R a b := by
  cases h with
  | ok h => exact ⟨_,rfl,h⟩

theorem Agree.to_ok {R : α → β → Prop} {a : α} {y : Except Fault β} (h : Agree R (.ok a) y) :
    ∃ b, y = .ok b ∧ R a b := by
  cases h with
  | ok h => exact ⟨_,rfl,h⟩

theorem Agree.error_iff {R : α → β → Prop} {x : Except Fault α} {y : Except Fault β} (h : Agree R x y) {e : Fault} :
    x = .error e ↔ y = .error e := by
  cases h with
  | ok h => simp
  | error e' => simp

theorem Agree.refl {R : α → α → Prop} (hR : ∀ a, R a a) (x : Except Fault α) : Agree R x x := by
  cases x with
  | ok a => exact .ok (hR a)
  | error e => exact .error e

end Agree

/-- The same fiber but for its id and the size of its stack. -/
structure Fiber.Alike (x y : Fiber K) : Prop where
  state : x.state = y.state
  ctx : x.ctx = y.ctx
  hasStack : x.hasStack = y.hasStack
  cb : x.cb = y.cb

namespace Thread

/-- The same thread but for the counters and what comes of them. -/
structure Alike (s t : Thread K σ) : Prop where
  fibers : ∀ f, Option.Rel Fiber.Alike (s.fibers.get f) (t.fibers.get f)
  next : s.fibers.next = t.fibers.next
  tFiber : s.tFiber = t.tFiber
  tThreadFiber : s.tThreadFiber = t.tThreadFiber
  stack : s.stack = t.stack
  frame : s.frame = t.frame
  trace : s.trace = t.trace

namespace Alike
variable {s t : Thread K σ}

theorem deref (h : Alike s t) (f : ℕ) : Agree Fiber.Alike (s.deref f) (t.deref f) := by
  have hf := h.fibers f
  unfold Thread.deref
  cases hs : s.fibers.get f with
  | none =>
    rw [hs] at hf
    cases ht : t.fibers.get f with
    | none => exact .error _
    | some y => rw [ht] at hf; cases hf
  | some x =>
    rw [hs] at hf
    cases ht : t.fibers.get f with
    | none => rw [ht] at hf; cases hf
    | some y =>
      rw [ht] at hf
      cases hf with
      | some hxy => exact .ok hxy

/-- The same change of one fiber. -/
theorem modify (h : Alike s t) (f : ℕ) {g : Fiber K → Fiber K} (hg : ∀ {x y}, x.Alike y → (g x).Alike (g y)) :
    Alike { s with fibers := s.fibers.modify f g } { t with fibers := t.fibers.modify f g } := by
  refine ⟨fun k => ?_,h.next,h.tFiber,h.tThreadFiber,h.stack,h.frame,h.trace⟩
  have hk := h.fibers k
  by_cases hkf : k = f
  · subst hkf
    simp only [Heap.get_modify_self]
    cases hs : s.fibers.get k <;> cases ht : t.fibers.get k <;> rw [hs,ht] at hk <;> cases hk
    · exact .none
    · exact .some (hg ‹_›)
  · simpa only [Heap.get_modify_ne _ _ hkf] using hk

theorem alloc (h : Alike s t) {x y : Fiber K} (hxy : x.Alike y) (k : ℕ) :
    Option.Rel Fiber.Alike ((s.fibers.alloc x).get k) ((t.fibers.alloc y).get k) := by
  rw [Heap.get_alloc,Heap.get_alloc,h.next]
  split_ifs
  · exact .some hxy
  · exact h.fibers k

theorem setThis (h : Alike s t) (f : ℕ) : Alike (s.setThis f) (t.setThis f) := { h with tFiber := rfl }

theorem setState (h : Alike s t) (f : ℕ) (state : State) : Alike (s.setState f state) (t.setState f state) :=
  h.modify f fun hxy => { hxy with state := rfl }

theorem goOn (h : Alike s t) (code : K) : Alike (s.goOn code) (t.goOn code) :=
  { h with frame := by simp [Thread.goOn,h.frame] }

theorem newMain (h : Alike s t) : Alike s.newMain.1 t.newMain.1 ∧ s.newMain.2 = t.newMain.2 := by
  have hx : Fiber.Alike (K := K) { state := .exec, ctx := ⟨s.stack,.ctor⟩ }
      { state := .exec, ctx := ⟨t.stack,.ctor⟩ } := ⟨rfl,by rw [h.stack],rfl,rfl⟩
  have hnext := h.next
  exact ⟨⟨h.alloc hx,congrArg (· + 1) hnext,congrArg some hnext,congrArg some hnext,h.stack,h.frame,h.trace⟩,hnext⟩

theorem newFiber (h : Alike s t) (cb : K) (stacksize : ℕ) :
    Alike (s.newFiber cb stacksize) (t.newFiber cb stacksize) :=
  ⟨h.alloc ⟨rfl,by simp [h.next],rfl,rfl⟩,congrArg (· + 1) h.next,h.tFiber,h.tThreadFiber,h.stack,h.frame,h.trace⟩

theorem getThis (h : Alike s t) : Agree (fun r u => Alike r.1 u.1 ∧ r.2 = u.2) s.getThis t.getThis := by
  unfold Thread.getThis
  rw [← h.tFiber]
  cases s.tFiber with
  | none => exact .ok h.newMain
  | some f => exact (h.deref f).bind fun _ => .ok ⟨h,rfl⟩

theorem mainFunc (h : Alike s t) : Agree Alike s.mainFunc t.mainFunc := by
  refine h.getThis.bind fun {r u} hr => ?_
  obtain ⟨r,cur⟩ := r
  obtain ⟨u,_⟩ := u
  obtain ⟨hr,rfl⟩ := hr
  refine (hr.deref cur).bind fun {x y} hxy => ?_
  rw [hxy.cb]
  cases y.cb with
  | none => exact .error _
  | some code => exact .ok { hr with frame := rfl }

theorem resume (h : Alike s t) (ctx : Context K) : Agree Alike (s.resume ctx) (t.resume ctx) := by
  unfold Thread.resume
  cases ctx.point with
  | ctor | finished => exact .error _
  | mainFunc => exact mainFunc { h with stack := rfl }
  | call fr => exact .ok { h with stack := rfl, frame := rfl }

theorem swapcontext (h : Alike s t) (oucp ucp : ℕ) (point : Point K) :
    Agree Alike (s.swapcontext oucp ucp point) (t.swapcontext oucp ucp point) := by
  refine (h.deref oucp).bind fun _ => ?_
  have hsaved := h.modify oucp (g := fun fiber => { fiber with ctx := ⟨s.stack,point⟩ })
    fun hxy => { hxy with ctx := rfl }
  rw [← h.stack]
  refine (hsaved.deref ucp).bind fun {x y} hxy => ?_
  rw [hxy.ctx]
  exact hsaved.resume y.ctx

theorem check (expr : String) {a b : Bool} (hab : a = b) : Agree (fun _ _ => True) (check expr a) (check expr b) := by
  subst hab
  exact .refl (fun _ => trivial) _

theorem swapOut (h : Alike s t) (f : ℕ) (point : Point K) : Agree Alike (s.swapOut f point) (t.swapOut f point) := by
  unfold Thread.swapOut
  rw [← h.tThreadFiber]
  cases s.tThreadFiber with
  | none => exact .error _
  | some m => exact (h.setThis m).swapcontext f m point

theorem swapIn (h : Alike s t) (f : ℕ) (code : K) : Agree Alike (s.swapIn f code) (t.swapIn f code) := by
  refine (h.deref f).bind fun {x y} hxy => (check _ (by rw [hxy.state])).bind fun _ => ?_
  have hset := (h.setThis f).setState f .exec
  dsimp only
  rw [← hset.tThreadFiber,← hset.frame]
  cases ((s.setThis f).setState f .exec).tThreadFiber with
  | none => exact .error _
  | some m => exact hset.swapcontext m f _

theorem yieldTo (h : Alike s t) (y : Yield) (code : K) : Agree Alike (s.yieldTo y code) (t.yieldTo y code) := by
  refine h.getThis.bind fun {r u} hr => ?_
  obtain ⟨r,cur⟩ := r
  obtain ⟨u,_⟩ := u
  obtain ⟨hr,rfl⟩ := hr
  refine (hr.deref cur).bind fun {a b} hab => (check _ (by rw [hab.state])).bind fun _ => ?_
  have hset := hr.setState cur y.state
  dsimp only
  rw [← hr.frame]
  exact hset.swapOut cur _

theorem reset (h : Alike s t) (f : ℕ) (cb : K) : Agree Alike (s.reset f cb) (t.reset f cb) := by
  exact (h.deref f).bind fun {x y} hxy => (check _ hxy.hasStack).bind fun _ =>
    (check _ (by rw [hxy.state])).bind fun _ => .ok (h.modify f fun hxy => ⟨rfl,rfl,hxy.hasStack,rfl⟩)

theorem free (h : Alike s t) (f : ℕ) {r u : Option ℕ} (hr : r = u) (count count' : ℕ) :
    Alike { s with fibers := s.fibers.free f, tFiber := r, fiberCount := count }
      { t with fibers := t.fibers.free f, tFiber := u, fiberCount := count' } := by
  refine ⟨fun k => ?_,h.next,hr,h.tThreadFiber,h.stack,h.frame,h.trace⟩
  simp only [Heap.get_free]
  split_ifs
  · exact .none
  · exact h.fibers k

theorem destroy (h : Alike s t) (f : ℕ) : Agree Alike (s.destroy f) (t.destroy f) := by
  refine (h.deref f).bind fun {x y} hxy => ?_
  dsimp only
  rw [← hxy.hasStack,← hxy.state,← hxy.cb]
  cases x.hasStack with
  | true => exact (check _ rfl).bind fun _ => .ok (h.free f h.tFiber _ _)
  | false =>
    refine (check _ rfl).bind fun _ => (check _ rfl).bind fun _ => .ok ?_
    have ht := h.tFiber
    by_cases hf : s.tFiber = some f
    · simp only [if_pos hf,if_pos (ht ▸ hf)]
      exact h.free f rfl _ _
    · simp only [if_neg hf,if_neg (ht ▸ hf)]
      exact h.free f ht _ _

theorem callbackReturns (h : Alike s t) : Agree Alike s.callbackReturns t.callbackReturns := by
  unfold Thread.callbackReturns
  rw [← h.frame]
  cases s.frame.cur with
  | none => exact .error _
  | some cur => exact (h.setState cur .term).swapOut cur .finished

theorem callbackThrows (h : Alike s t) (std : Bool) : Agree Alike (s.callbackThrows std) (t.callbackThrows std) := by
  unfold Thread.callbackThrows
  rw [← h.frame]
  cases s.frame.cur with
  | none => exact .error _
  | some cur =>
    cases std with
    | true => exact h.swapOut cur .finished
    | false => exact (h.setState cur .execpt).swapOut cur .finished

/-- No step depends on a counter. -/
theorem step (h : Alike s t) (a : Act K σ) : Agree Alike (s.step a) (t.step a) := by
  cases a with
  | segment x code =>
    have htrace : Alike { s with trace := s.trace ++ [(s.stack,x)] } { t with trace := t.trace ++ [(t.stack,x)] } :=
      ⟨h.fibers,h.next,h.tFiber,h.tThreadFiber,h.stack,h.frame,by rw [h.trace,h.stack]⟩
    exact .ok (htrace.goOn code)
  | newFiber cb stacksize code => exact .ok ((h.newFiber cb stacksize).goOn code)
  | reset f cb code => exact (h.reset f cb).bind fun hr => .ok (hr.goOn code)
  | destroy f code => exact (h.destroy f).bind fun hd => .ok (hd.goOn code)
  | swapIn f code => exact h.swapIn f code
  | yieldTo y code => exact h.yieldTo y code
  | callbackReturns => exact h.callbackReturns
  | callbackThrows std => exact h.callbackThrows std

theorem move (h : Alike s t) (m : Move K σ) : Agree Alike (s.move m) (t.move m) := by
  cases m with
  | getThis => exact h.getThis.bind fun hr => .ok hr.1
  | act a => exact h.step a

end Alike

/-- One change of the fibers that there are, with what it does to the counters. A fiber with a
stack is not made in this way. -/
inductive Change (s t : Thread K σ) : Prop
  | keep (hid : t.fiberId = s.fiberId) (hcount : t.fiberCount = s.fiberCount)
    (hnext : t.fibers.next = s.fibers.next)
    (hget : ∀ f, (t.fibers.get f).map (fun x => (x.id,x.hasStack)) = (s.fibers.get f).map fun x => (x.id,x.hasStack))
  | main (x : Fiber K) (hx : x.hasStack = false ∧ x.id = 0) (hid : t.fiberId = s.fiberId)
    (hcount : t.fiberCount = (s.fiberCount + 1) % 2 ^ 64) (ht : t.fibers = s.fibers.alloc x)
  | gone (f : ℕ) (hf : (s.fibers.get f).isSome = true) (hid : t.fiberId = s.fiberId)
    (hcount : t.fiberCount = (s.fiberCount + (2 ^ 64 - 1)) % 2 ^ 64) (ht : t.fibers = s.fibers.free f)

abbrev Changes (s t : Thread K σ) : Prop := Relation.ReflTransGen Change s t

section Changes
variable {s t : Thread K σ}

theorem Change.of_fibers (hf : t.fibers = s.fibers) (hid : t.fiberId = s.fiberId)
    (hcount : t.fiberCount = s.fiberCount) : Change s t :=
  .keep hid hcount (by rw [hf]) fun _ => by rw [hf]

theorem Change.modify (s : Thread K σ) (f : ℕ) {g : Fiber K → Fiber K}
    (hg : ∀ x, (g x).id = x.id ∧ (g x).hasStack = x.hasStack) :
    Change s { s with fibers := s.fibers.modify f g } := by
  refine .keep rfl rfl rfl fun k => ?_
  by_cases hk : k = f
  · subst hk
    cases hs : s.fibers.get k <;> simp [hs,hg]
  · simp only [Heap.get_modify_ne _ _ hk]

theorem changes_getThis {f : ℕ} (h : s.getThis = .ok (t,f)) : Changes s t := by
  unfold getThis at h
  cases hf : s.tFiber with
  | none =>
    rw [hf] at h
    obtain ⟨rfl,_⟩ := Prod.mk.inj (Except.ok.inj h)
    exact .single (.main _ ⟨rfl,rfl⟩ rfl rfl rfl)
  | some g =>
    rw [hf] at h
    obtain ⟨x,_,h⟩ := bind_eq_ok_iff.mp h
    obtain ⟨rfl,_⟩ := Prod.mk.inj (Except.ok.inj h)
    exact .refl

theorem changes_mainFunc (h : s.mainFunc = .ok t) : Changes s t := by
  obtain ⟨⟨u,cur⟩,hu,h⟩ := bind_eq_ok_iff.mp h
  obtain ⟨x,_,h⟩ := bind_eq_ok_iff.mp h
  refine (changes_getThis hu).tail ?_
  cases hx : x.cb with
  | none => rw [hx] at h; cases h
  | some code =>
    rw [hx] at h
    obtain rfl := Except.ok.inj h
    exact .of_fibers rfl rfl rfl

theorem changes_resume {ctx : Context K} (h : s.resume ctx = .ok t) : Changes s t := by
  unfold resume at h
  cases hp : ctx.point with
  | ctor | finished => rw [hp] at h; cases h
  | mainFunc =>
    rw [hp] at h
    have hstack : Change s { s with stack := ctx.stack } := .of_fibers rfl rfl rfl
    exact (Relation.ReflTransGen.single hstack).trans (changes_mainFunc h)
  | call fr =>
    rw [hp] at h
    obtain rfl := Except.ok.inj h
    exact .single (.of_fibers rfl rfl rfl)

theorem changes_swapcontext {oucp ucp : ℕ} {point : Point K} (h : s.swapcontext oucp ucp point = .ok t) :
    Changes s t := by
  obtain ⟨_,_,h⟩ := bind_eq_ok_iff.mp h
  obtain ⟨_,_,h⟩ := bind_eq_ok_iff.mp h
  exact (Relation.ReflTransGen.single (.modify s oucp fun _ => ⟨rfl,rfl⟩)).trans (changes_resume h)

theorem changes_setThis (s : Thread K σ) (f : ℕ) : Changes s (s.setThis f) := .single (.of_fibers rfl rfl rfl)

theorem changes_setState (s : Thread K σ) (f : ℕ) (state : State) : Changes s (s.setState f state) :=
  .single (.modify s f fun _ => ⟨rfl,rfl⟩)

theorem changes_goOn (s : Thread K σ) (code : K) : Changes s (s.goOn code) := .single (.of_fibers rfl rfl rfl)

theorem changes_swapOut {f : ℕ} {point : Point K} (h : s.swapOut f point = .ok t) : Changes s t := by
  unfold swapOut at h
  cases hm : s.tThreadFiber with
  | none => rw [hm] at h; cases h
  | some m =>
    rw [hm] at h
    exact (changes_setThis s m).trans (changes_swapcontext h)

theorem changes_swapIn {f : ℕ} {code : K} (h : s.swapIn f code = .ok t) : Changes s t := by
  obtain ⟨_,_,h⟩ := bind_eq_ok_iff.mp h
  obtain ⟨_,_,h⟩ := bind_eq_ok_iff.mp h
  refine (changes_setThis s f).trans ((changes_setState _ f .exec).trans ?_)
  dsimp only at h
  cases hm : ((s.setThis f).setState f .exec).tThreadFiber with
  | none => rw [hm] at h; cases h
  | some m =>
    rw [hm] at h
    exact changes_swapcontext h

theorem changes_yieldTo {y : Yield} {code : K} (h : s.yieldTo y code = .ok t) : Changes s t := by
  obtain ⟨⟨u,cur⟩,hu,h⟩ := bind_eq_ok_iff.mp h
  obtain ⟨_,_,h⟩ := bind_eq_ok_iff.mp h
  obtain ⟨_,_,h⟩ := bind_eq_ok_iff.mp h
  exact (changes_getThis hu).trans ((changes_setState u cur y.state).trans (changes_swapOut h))

theorem changes_reset {f : ℕ} {cb : K} (h : s.reset f cb = .ok t) : Changes s t := by
  obtain ⟨_,_,h⟩ := bind_eq_ok_iff.mp h
  obtain ⟨_,_,h⟩ := bind_eq_ok_iff.mp h
  obtain ⟨_,_,h⟩ := bind_eq_ok_iff.mp h
  obtain rfl := Except.ok.inj h
  exact .single (.modify s f fun _ => ⟨rfl,rfl⟩)

theorem changes_destroy {f : ℕ} (h : s.destroy f = .ok t) : Changes s t := by
  obtain ⟨x,hx,h⟩ := bind_eq_ok_iff.mp h
  have hf : (s.fibers.get f).isSome = true := by rw [deref_eq_ok_iff.mp hx]; rfl
  dsimp only at h
  cases hstack : x.hasStack with
  | true =>
    rw [hstack] at h
    obtain ⟨_,_,h⟩ := bind_eq_ok_iff.mp h
    obtain rfl := Except.ok.inj h
    exact .single (.gone f hf rfl rfl rfl)
  | false =>
    rw [hstack] at h
    obtain ⟨_,_,h⟩ := bind_eq_ok_iff.mp h
    obtain ⟨_,_,h⟩ := bind_eq_ok_iff.mp h
    obtain rfl := Except.ok.inj h
    split_ifs <;> exact .single (.gone f hf rfl rfl rfl)

theorem changes_step {a : Act K σ} (ha : a.creates = false) (h : s.step a = .ok t) : Changes s t := by
  cases a with
  | segment x code =>
    obtain rfl := Except.ok.inj h
    exact .single (.of_fibers rfl rfl rfl)
  | newFiber cb stacksize code => cases ha
  | reset f cb code =>
    obtain ⟨u,hu,h⟩ := bind_eq_ok_iff.mp h
    obtain rfl := Except.ok.inj h
    exact (changes_reset hu).trans (changes_goOn u code)
  | destroy f code =>
    obtain ⟨u,hu,h⟩ := bind_eq_ok_iff.mp h
    obtain rfl := Except.ok.inj h
    exact (changes_destroy hu).trans (changes_goOn u code)
  | swapIn f code => exact changes_swapIn h
  | yieldTo y code => exact changes_yieldTo h
  | callbackReturns =>
    change s.callbackReturns = .ok t at h
    unfold callbackReturns at h
    cases hcur : s.frame.cur with
    | none => rw [hcur] at h; cases h
    | some cur =>
      rw [hcur] at h
      exact (changes_setState s cur .term).trans (changes_swapOut h)
  | callbackThrows std =>
    change s.callbackThrows std = .ok t at h
    unfold callbackThrows at h
    cases hcur : s.frame.cur with
    | none => rw [hcur] at h; cases h
    | some cur =>
      rw [hcur] at h
      cases std with
      | true => exact changes_swapOut h
      | false => exact (changes_setState s cur .execpt).trans (changes_swapOut h)

theorem changes_move {m : Move K σ} (hm : m.creates = false) (h : s.move m = .ok t) : Changes s t := by
  cases m with
  | getThis =>
    obtain ⟨⟨u,f⟩,hu,h⟩ := bind_eq_ok_iff.mp h
    obtain rfl := Except.ok.inj h
    exact changes_getThis hu
  | act a => exact changes_step hm h

/-- How many fibers there are. -/
def alive (s : Thread K σ) : ℕ := {f ∈ Finset.range s.fibers.next | (s.fibers.get f).isSome = true}.card

theorem alive_congr (hnext : t.fibers.next = s.fibers.next)
    (hget : ∀ f, (t.fibers.get f).isSome = (s.fibers.get f).isSome) : t.alive = s.alive := by
  simp only [alive,hnext,hget]

theorem alive_alloc {x : Fiber K} (ht : t.fibers = s.fibers.alloc x) : t.alive = s.alive + 1 := by
  have hold : {f ∈ Finset.range s.fibers.next | (t.fibers.get f).isSome = true} =
      {f ∈ Finset.range s.fibers.next | (s.fibers.get f).isSome = true} := by
    refine Finset.filter_congr fun f hf => ?_
    rw [ht,Heap.get_alloc,if_neg (Nat.ne_of_lt (Finset.mem_range.mp hf))]
  have hnew : (t.fibers.get s.fibers.next).isSome = true := by simp [ht]
  have hnext : t.fibers.next = s.fibers.next + 1 := by rw [ht]; rfl
  rw [alive,hnext,Finset.range_add_one,Finset.filter_insert,if_pos hnew,hold,Finset.card_insert_of_notMem (by simp),
    alive]

theorem alive_free {f : ℕ} (hf : (s.fibers.get f).isSome = true) (ht : t.fibers = s.fibers.free f) :
    t.alive + 1 = s.alive := by
  obtain ⟨x,hx⟩ := Option.isSome_iff_exists.mp hf
  have herase : {k ∈ Finset.range t.fibers.next | (t.fibers.get k).isSome = true} =
      {k ∈ Finset.range s.fibers.next | (s.fibers.get k).isSome = true}.erase f := by
    ext k
    by_cases hk : k = f <;> simp [ht,Heap.free,hk]
  rw [alive,herase,alive]
  exact Finset.card_erase_add_one (by simp [hx,Heap.lt_next hx])

end Changes

def nextMove (s : Thread K σ) (m : Move K σ) : Option (Thread K σ) := (s.move m).toOption

end Thread

namespace Process

/-- The fiber at an address of a thread. -/
def get (p : Process ι K σ) (a : ι × ℕ) : Option (Fiber K) := (p.threads a.1).fibers.get a.2

/-- Ids and the number of fibers over all threads, behind so many calls of `Fiber(cb)`: main
fibers have no id, and the others have one of their own until the counter comes round. -/
structure Census [Fintype ι] (created : ℕ) (p : Process ι K σ) : Prop where
  counter : p.fiberId = created % 2 ^ 64
  main : ∀ {a x}, p.get a = some x → x.hasStack = false → x.id = 0
  child : created < 2 ^ 64 → ∀ {a x}, p.get a = some x → x.hasStack = true → 0 < x.id ∧ x.id ≤ created
  unique : created < 2 ^ 64 → ∀ {a b x y}, p.get a = some x → p.get b = some y → x.hasStack = true →
    y.hasStack = true → x.id = y.id → a = b
  count : p.fiberCount = (∑ i, (p.threads i).alive) % 2 ^ 64

section Census
variable [Fintype ι] {p q : Process ι K σ} {n : ℕ}

/-- Old fibers keep their ids; a new one, at `a₀`, is a main fiber or gets the next id. -/
theorem Census.of_old {n' : ℕ} (h : Census n p) (hn : n ≤ n') (hid : q.fiberId = n' % 2 ^ 64)
    (hcount : q.fiberCount = (∑ i, (q.threads i).alive) % 2 ^ 64)
    (a₀ : ι × ℕ) (hold : ∀ {a y}, q.get a = some y →
      (∃ x, p.get a = some x ∧ x.id = y.id ∧ x.hasStack = y.hasStack) ∨
      a = a₀ ∧ (y.hasStack = false ∧ y.id = 0 ∨ y.hasStack = true ∧ y.id = (n + 1) % 2 ^ 64 ∧ n' = n + 1)) :
    Census n' q := by
  refine ⟨hid,fun {a y} hy hs => ?_,fun hlt {a y} hy hs => ?_,fun hlt {a b y z} hy hz hsy hsz he => ?_,hcount⟩
  · rcases hold hy with ⟨x,hx,hxy,hstack⟩ | ⟨_,⟨_,h0⟩ | ⟨hs',_⟩⟩
    · exact hxy ▸ h.main hx (hstack.trans hs)
    · exact h0
    · exact absurd (hs.symm.trans hs') Bool.false_ne_true
  · rcases hold hy with ⟨x,hx,hxy,hstack⟩ | ⟨_,⟨hs',_⟩ | ⟨_,hid',hn'⟩⟩
    · obtain ⟨hpos,hle⟩ := h.child (by omega) hx (hstack.trans hs)
      omega
    · exact absurd (hs'.symm.trans hs) Bool.false_ne_true
    · rw [hid',Nat.mod_eq_of_lt (by omega)]
      omega
  · rcases hold hy with ⟨x,hx,hxy,hstack⟩ | ⟨rfl,⟨hs',_⟩ | ⟨_,hidy,hn'⟩⟩
    · obtain ⟨_,hle⟩ := h.child (by omega) hx (hstack.trans hsy)
      rcases hold hz with ⟨w,hw,hwz,hstack'⟩ | ⟨_,⟨hs',_⟩ | ⟨_,hidz,hn'⟩⟩
      · exact h.unique (by omega) hx hw (hstack.trans hsy) (hstack'.trans hsz) (hxy.trans (he.trans hwz.symm))
      · exact absurd (hs'.symm.trans hsz) Bool.false_ne_true
      · rw [Nat.mod_eq_of_lt (by omega)] at hidz
        omega
    · exact absurd (hs'.symm.trans hsy) Bool.false_ne_true
    · rcases hold hz with ⟨w,hw,hwz,hstack'⟩ | ⟨rfl,_⟩
      · obtain ⟨_,hle⟩ := h.child (by omega) hw (hstack'.trans hsz)
        rw [Nat.mod_eq_of_lt (by omega)] at hidy
        omega
      · rfl

variable [DecidableEq ι]

omit [Fintype ι] in
theorem get_put (i : ι) (s : Thread K σ) (a : ι × ℕ) :
    (p.put i s).get a = if a.1 = i then s.fibers.get a.2 else p.get a := by
  obtain ⟨j,f⟩ := a
  by_cases hj : j = i
  · subst hj
    simp [get,put]
  · simp [get,put,hj]

omit [Fintype ι] in
/-- Behind an allocation there is the new fiber, and what was there. -/
theorem get_put_alloc {i : ι} {s t : Thread K σ} {x : Fiber K} (ht : t.fibers = s.fibers.alloc x) {a : ι × ℕ}
    {y : Fiber K} (hy : (p.put i t).get a = some y) :
    a = (i,s.fibers.next) ∧ y = x ∨ (p.put i s).get a = some y := by
  rw [get_put] at hy ⊢
  split_ifs at hy ⊢ with ha
  · rw [ht] at hy
    exact (Heap.get_alloc_eq_some_iff.mp hy).imp_left fun ⟨hf,hx⟩ => ⟨Prod.ext ha hf,hx⟩
  · exact .inr hy

theorem sum_put (p : Process ι K σ) (i : ι) (s : Thread K σ) :
    ∑ j, ((p.put i s).threads j).alive = s.alive + ∑ j ∈ Finset.univ \ {i}, (p.threads j).alive := by
  have hupdate : (fun j => ((p.put i s).threads j).alive) =
      Function.update (fun j => (p.threads j).alive) i s.alive := by
    funext j
    by_cases hj : j = i
    · subst hj
      simp [put]
    · simp [put,hj]
  rw [hupdate,Finset.sum_update_of_mem (Finset.mem_univ i)]

theorem Census.count_put {i : ι} {s : Thread K σ} (h : Census n (p.put i s)) :
    s.fiberId = n % 2 ^ 64 ∧
      s.fiberCount = (s.alive + ∑ j ∈ Finset.univ \ {i}, (p.threads j).alive) % 2 ^ 64 := by
  have hcount := h.count
  rw [sum_put] at hcount
  exact ⟨h.counter,hcount⟩

/-- `Fiber(cb)` -/
theorem Census.newFiber {i : ι} {s : Thread K σ} (h : Census n (p.put i s)) (cb : K) (stacksize : ℕ) :
    Census (n + 1) (p.put i (s.newFiber cb stacksize)) := by
  obtain ⟨hid,hcount⟩ := h.count_put
  have hnext : (s.fiberId + 1) % 2 ^ 64 = (n + 1) % 2 ^ 64 := by omega
  refine h.of_old (Nat.le_succ n) hnext ?_ (i,s.fibers.next) fun {a y} hy => ?_
  · rw [sum_put,Thread.alive_alloc rfl]
    change (s.fiberCount + 1) % 2 ^ 64 = _
    omega
  · rcases get_put_alloc rfl hy with ⟨ha,rfl⟩ | hy
    · exact .inr ⟨ha,.inr ⟨rfl,hnext,rfl⟩⟩
    · exact .inl ⟨y,hy,rfl,rfl⟩

theorem Census.change {i : ι} {s t : Thread K σ} (h : Census n (p.put i s)) (hc : s.Change t) :
    Census n (p.put i t) := by
  obtain ⟨hfiberId,hcount⟩ := h.count_put
  have hother {a : ι × ℕ} {y : Fiber K} (ha : a.1 ≠ i) (hy : (p.put i t).get a = some y) :
      (p.put i s).get a = some y := by
    rw [get_put,if_neg ha] at hy ⊢
    exact hy
  cases hc with
  | keep hid hcount' hnext hget =>
    refine h.of_old le_rfl (hid.trans hfiberId) ?_ (i,0) fun {a y} hy => .inl ?_
    · rw [sum_put,Thread.alive_congr hnext fun f => by simpa using congrArg Option.isSome (hget f)]
      exact hcount'.trans hcount
    · by_cases ha : a.1 = i
      · rw [get_put,if_pos ha] at hy ⊢
        have hf := hget a.2
        rw [hy] at hf
        obtain ⟨x,hx,hxy⟩ := Option.map_eq_some_iff.mp hf.symm
        exact ⟨x,hx,(Prod.mk.inj hxy).1,(Prod.mk.inj hxy).2⟩
      · exact ⟨y,hother ha hy,rfl,rfl⟩
  | main x hx hid hcount' ht =>
    refine h.of_old le_rfl (hid.trans hfiberId) ?_ (i,s.fibers.next) fun {a y} hy => ?_
    · rw [sum_put,Thread.alive_alloc ht]
      change t.fiberCount = _
      omega
    · rcases get_put_alloc ht hy with ⟨ha,rfl⟩ | hy
      · exact .inr ⟨ha,.inl hx⟩
      · exact .inl ⟨y,hy,rfl,rfl⟩
  | gone f hf hid hcount' ht =>
    refine h.of_old le_rfl (hid.trans hfiberId) ?_ (i,0) fun {a y} hy => .inl ⟨y,?_,rfl,rfl⟩
    · have halive := Thread.alive_free hf ht
      rw [sum_put]
      change t.fiberCount = _
      omega
    · by_cases ha : a.1 = i
      · rw [get_put,if_pos ha,ht] at hy
        rw [get_put,if_pos ha]
        exact (Heap.get_free_eq_some_iff.mp hy).2
      · exact hother ha hy

theorem Census.changes {i : ι} {s t : Thread K σ} (h : Census n (p.put i s)) (hc : s.Changes t) :
    Census n (p.put i t) := by
  induction hc with
  | refl => exact h
  | tail _ hc ih => exact ih.change hc

omit [DecidableEq ι] in
theorem census_start (stacksizeConfig : ℕ) (code : ι → K) : Census 0 (start stacksizeConfig code : Process ι K σ) :=
  ⟨rfl,fun h => (by cases h),fun _ _ _ h => (by cases h),fun _ _ _ _ _ h => (by cases h),
    by simp [start,Thread.alive,Thread.fresh,Heap.empty]⟩

omit [Fintype ι] in
theorem step_eq_ok_iff {l : Label ι K σ} : p.next l = some q ↔ p.step l = .ok q := by
  unfold next
  cases p.step l <;> simp [Except.toOption]

/-- A thread when it takes its next step. -/
theorem Census.view (h : Census n p) (i : ι) : Census n (p.put i (p.view i)) := by
  refine h.of_old le_rfl h.counter ?_ (i,0) fun {a y} hy => .inl ⟨y,?_,rfl,rfl⟩
  · have hsum := sum_put p i (p.threads i)
    have hsame : p.put i (p.threads i) = { p with
        fiberId := (p.threads i).fiberId, fiberCount := (p.threads i).fiberCount } := by
      simp [put]
    rw [hsame] at hsum
    rw [sum_put]
    exact h.count.trans (congrArg (· % 2 ^ 64) hsum)
  · rw [get_put] at hy
    split_ifs at hy with ha
    · rw [get,ha]
      exact hy
    · exact hy

def Label.creates : Label ι K σ → Bool
  | .move _ m => m.creates
  | .setStacksize _ => false

theorem Census.step {l : Label ι K σ} (h : Census n p) (hs : p.step l = .ok q) :
    Census (n + if l.creates then 1 else 0) q := by
  cases l with
  | setStacksize _ =>
    obtain rfl := Except.ok.inj hs
    exact ⟨h.counter,h.main,h.child,h.unique,h.count⟩
  | move i m =>
    obtain ⟨t,ht,hs⟩ := bind_eq_ok_iff.mp hs
    obtain rfl := Except.ok.inj hs
    cases hm : m.creates with
    | false =>
      rw [show (Label.move i m : Label ι K σ).creates = false from hm]
      exact (h.view i).changes (Thread.changes_move hm ht)
    | true =>
      rw [show (Label.move i m : Label ι K σ).creates = true from hm]
      cases m with
      | getThis => cases hm
      | act a =>
        cases a with
        | newFiber cb stacksize code =>
          obtain rfl := Except.ok.inj ht
          exact ((h.view i).newFiber cb stacksize).changes (Thread.changes_goOn _ code)
        | _ => cases hm

theorem Census.run {ls : List (Label ι K σ)} (h : Runs next (fun _ _ => True) p ls q) (hp : Census n p) :
    Census (n + ls.countP Label.creates) q := by
  induction h generalizing n with
  | refl => exact hp
  | @step p u q l ls _ hn _ ih =>
    have hq := ih (hp.step (step_eq_ok_iff.mp hn))
    rw [List.countP_cons,Nat.add_comm (ls.countP Label.creates),← Nat.add_assoc]
    exact hq

theorem census_of_runs {stacksizeConfig : ℕ} {code : ι → K} {ls : List (Label ι K σ)}
    (h : Runs next (fun _ _ => True) (start stacksizeConfig code) ls p) : Census (ls.countP Label.creates) p :=
  Nat.zero_add (ls.countP Label.creates) ▸ (census_start stacksizeConfig code).run h

end Census

section Alone
variable [DecidableEq ι] {p q : Process ι K σ}

/-- What a label is for the thread `i`. -/
def Label.own (i : ι) : Label ι K σ → Option (Move K σ)
  | .move j m => if j = i then some m else none
  | .setStacksize _ => none

/-- Each of the threads is as it would be alone. -/
def AllAlike (ss : ι → Thread K σ) (p : Process ι K σ) : Prop := ∀ i, (ss i).Alike (p.view i)

theorem AllAlike.put {ss : ι → Thread K σ} (h : AllAlike ss p) {i : ι} {r s : Thread K σ} (hr : r.Alike s) :
    AllAlike (Function.update ss i r) (p.put i s) := by
  intro j
  by_cases hj : j = i
  · subst hj
    simp only [Function.update_self,view,Process.put]
    exact { hr with }
  · simp only [Function.update_of_ne hj,view,Process.put]
    exact { h j with }

theorem runs_own_cons {ss : ι → Thread K σ} {i : ι} {m : Move K σ} {r : Thread K σ} (hr : (ss i).move m = .ok r)
    {ls : List (Label ι K σ)} {j : ι} {t : Thread K σ} :
    Runs Thread.nextMove (fun _ _ => True) (ss j) ((.move i m :: ls).filterMap (Label.own j)) t ↔
      Runs Thread.nextMove (fun _ _ => True) (Function.update ss i r j) (ls.filterMap (Label.own j)) t := by
  by_cases hj : i = j
  · subst hj
    have hnext : (ss i).nextMove m = some r := by rw [Thread.nextMove,hr]; rfl
    rw [List.filterMap_cons_some (show Label.own i (.move i m) = some m from if_pos rfl),Function.update_self]
    constructor
    · intro h
      cases h with
      | step _ hn h =>
        obtain rfl := Option.some.inj (hnext.symm.trans hn)
        exact h
    · exact .step trivial hnext
  · rw [List.filterMap_cons_none (show Label.own j (.move i m) = none from if_neg hj),
      Function.update_of_ne (Ne.symm hj)]

/-- A thread of a process makes the run that it would make alone. -/
theorem alone_of_runs {ls : List (Label ι K σ)} (h : Runs next (fun _ _ => True) p ls q) {ss : ι → Thread K σ}
    (hss : AllAlike ss p) :
    ∃ ts, AllAlike ts q ∧ ∀ i, Runs Thread.nextMove (fun _ _ => True) (ss i) (ls.filterMap (Label.own i)) (ts i) := by
  induction h generalizing ss with
  | refl => exact ⟨ss,hss,fun i => .refl _⟩
  | @step p u q l ls _ hn _ ih =>
    have hn := step_eq_ok_iff.mp hn
    cases l with
    | setStacksize n =>
      obtain rfl := Except.ok.inj hn
      exact ih fun i => { hss i with }
    | move i m =>
      obtain ⟨s,hs,hn⟩ := bind_eq_ok_iff.mp hn
      obtain rfl := Except.ok.inj hn
      obtain ⟨r,hr,hrs⟩ := (hs ▸ (hss i).move m).of_ok
      obtain ⟨ts,hts,hruns⟩ := ih (hss.put hrs)
      exact ⟨ts,hts,fun j => (runs_own_cons hr).mpr (hruns j)⟩

/-- Whatever the threads can do alone they can do in any order. -/
theorem runs_of_alone {ls : List (Label ι K σ)} {ss : ι → Thread K σ} (hss : AllAlike ss p)
    (h : ∀ i, ∃ t, Runs Thread.nextMove (fun _ _ => True) (ss i) (ls.filterMap (Label.own i)) t) :
    ∃ q, Runs next (fun _ _ => True) p ls q := by
  induction ls generalizing p ss with
  | nil => exact ⟨p,.refl p⟩
  | cons l ls ih =>
    cases l with
    | setStacksize n =>
      obtain ⟨q,hq⟩ := ih (p := { p with stacksizeConfig := n }) (fun i => { hss i with }) h
      exact ⟨q,.step trivial rfl hq⟩
    | move i m =>
      obtain ⟨t,ht⟩ := h i
      rw [List.filterMap_cons_some (show Label.own i (.move i m) = some m from if_pos rfl)] at ht
      cases ht with
      | @step _ r _ _ _ _ hn _ =>
        have hr : (ss i).move m = .ok r := by
          unfold Thread.nextMove at hn
          cases hm : (ss i).move m with
          | error e => rw [hm] at hn; cases hn
          | ok r' => rw [hm] at hn; exact congrArg Except.ok (Option.some.inj hn)
        obtain ⟨s,hs,hrs⟩ := (hr ▸ (hss i).move m).to_ok
        obtain ⟨q,hq⟩ := ih (hss.put hrs) fun j => (h j).imp fun _ => (runs_own_cons hr).mp
        exact ⟨q,.step trivial (step_eq_ok_iff.mpr (bind_eq_ok_iff.mpr ⟨s,hs,rfl⟩)) hq⟩

theorem alike_fresh (stacksizeConfig : ℕ) (code : K) : (Thread.fresh stacksizeConfig code : Thread K σ).Alike
    (Thread.fresh stacksizeConfig code) := ⟨fun _ => .none,rfl,rfl,rfl,rfl,rfl,rfl⟩

/-- Two threads with a fiber each, which one of them runs to its end and destroys. -/
def pair : List (Label Bool Unit Unit) :=
  [.move false .getThis,.move true .getThis,.move true (.act (.newFiber () 0 ())),.setStacksize 4096,
    .move false (.act (.newFiber () 0 ())),.move true (.act (.swapIn 1 ())),.move false (.act (.swapIn 1 ())),
    .move true (.act .callbackReturns),.move true (.act (.destroy 1 ()))]

end Alone
end Process
end Zcs.Fibers
