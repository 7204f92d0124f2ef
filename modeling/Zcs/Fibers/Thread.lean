import Mathlib.Algebra.Group.Nat.Defs
import Zcs.Foundation.Heap
import Zcs.Foundation.Run
import Zcs.Foundation.Text

/-! # Fibers of one thread

A context is a stack together with the place on it where execution goes on. What
user code does between two calls of the library is a continuation of an arbitrary
type `K`; one label of `step` is one thing that the code on the running stack does,
and it names the continuation behind it. A failed assertion, or anything worse, is
a `Fault`.
-/
namespace Zcs.Fibers

inductive State where
  | init | hold | exec | term | ready | execpt
  deriving DecidableEq

inductive Stack where
  | thread
  | own (f : ℕ)
  deriving DecidableEq

/-- A stack that user code runs on: the local `cur` of the `MainFunc` below that
code, if there is one, and the continuation. -/
structure Frame (K : Type) where
  cur : Option ℕ
  code : K
  deriving DecidableEq

/-- Where a context goes on: behind the `getcontext` of a constructor, at the entry
of `MainFunc`, in a call of the library that returns to a frame, or behind the last
`SwapOut` of `MainFunc`. -/
inductive Point (K : Type) where
  | ctor
  | mainFunc
  | call (fr : Frame K)
  | finished
  deriving DecidableEq

structure Context (K : Type) where
  stack : Stack
  point : Point K
  deriving DecidableEq

/-- A fiber object. `hasStack` is `stack_ != nullptr`, and an empty `cb_` is `none`. -/
structure Fiber (K : Type) where
  id : ℕ := 0
  stacksize : ℕ := 0
  state : State := .init
  ctx : Context K
  hasStack : Bool := false
  cb : Option K := none

/-- What a thread has: the fiber objects, the counters, the config variable
"fiber.stacksize", `t_fiber` and `t_thread_fiber`, and the stack it is running on. The counters
have 64 bits.
`trace` lists what user code has done, and on which stack. -/
structure Thread (K σ : Type) where
  fibers : Heap (Fiber K)
  fiberId : ℕ
  fiberCount : ℕ
  stacksizeConfig : ℕ
  tFiber : Option ℕ
  tThreadFiber : Option ℕ
  stack : Stack
  frame : Frame K
  trace : List (Stack × σ)

inductive Fault where
  | assertion (expr : Text)
  | dangling
  | nullThreadFiber
  | staleContext
  | emptyCallback
  | noCallback
  deriving DecidableEq

/-- `ZCS_ASSERT` -/
def check (expr : String) (b : Bool) : Except Fault Unit :=
  if b then .ok () else .error (.assertion expr.toList)

inductive Yield where
  | hold | ready
  deriving DecidableEq

def Yield.state : Yield → State
  | hold => .hold
  | ready => .ready

namespace Thread
variable {K σ : Type}

def fresh (stacksizeConfig : ℕ) (code : K) : Thread K σ :=
  ⟨.empty,0,0,stacksizeConfig,none,none,.thread,⟨none,code⟩,[]⟩

def deref (s : Thread K σ) (f : ℕ) : Except Fault (Fiber K) :=
  match s.fibers.get f with
  | some fiber => .ok fiber
  | none => .error .dangling

def setThis (s : Thread K σ) (f : ℕ) : Thread K σ := { s with tFiber := some f }

def setState (s : Thread K σ) (f : ℕ) (state : State) : Thread K σ :=
  { s with fibers := s.fibers.modify f fun fiber => { fiber with state := state } }

def goOn (s : Thread K σ) (code : K) : Thread K σ := { s with frame := { s.frame with code := code } }

/-- `Fiber::Fiber()`, for the main fiber, and `t_thread_fiber = main_fiber`. -/
def newMain (s : Thread K σ) : Thread K σ × ℕ :=
  let f := s.fibers.next
  ({ s with
      fibers := s.fibers.alloc { state := .exec, ctx := ⟨s.stack,.ctor⟩ }
      fiberCount := (s.fiberCount + 1) % 2 ^ 64
      tFiber := some f
      tThreadFiber := some f },
    f)

def getThis (s : Thread K σ) : Except Fault (Thread K σ × ℕ) :=
  match s.tFiber with
  | some f => do
    let _ ← s.deref f
    return (s,f)
  | none => .ok s.newMain

/-- `Fiber::Fiber(std::function<void()> cb, size_t stacksize)`. The stack size is
kept in 32 bits. -/
def newFiber (s : Thread K σ) (cb : K) (stacksize : ℕ) : Thread K σ :=
  { s with
    fibers := s.fibers.alloc {
      id := (s.fiberId + 1) % 2 ^ 64
      stacksize := (if stacksize ≠ 0 then stacksize else s.stacksizeConfig) % 2 ^ 32
      ctx := ⟨.own s.fibers.next,.mainFunc⟩
      hasStack := true
      cb := some cb }
    fiberId := (s.fiberId + 1) % 2 ^ 64
    fiberCount := (s.fiberCount + 1) % 2 ^ 64 }

/-- `Fiber::~Fiber` -/
def destroy (s : Thread K σ) (f : ℕ) : Except Fault (Thread K σ) := do
  let fiber ← s.deref f
  let s := { s with fiberCount := (s.fiberCount + (2 ^ 64 - 1)) % 2 ^ 64 }
  if fiber.hasStack then
    check "state_ == INIT || state_ == TERM || state_ == EXECPT"
      (fiber.state = .init ∨ fiber.state = .term ∨ fiber.state = .execpt)
    return { s with fibers := s.fibers.free f }
  else
    check "!cb_" fiber.cb.isNone
    check "state_ == EXEC" (fiber.state = .exec)
    let s := if s.tFiber = some f then { s with tFiber := none } else s
    return { s with fibers := s.fibers.free f }

def reset (s : Thread K σ) (f : ℕ) (cb : K) : Except Fault (Thread K σ) := do
  let fiber ← s.deref f
  check "stack_" fiber.hasStack
  check "state_ == INIT || state_ == TERM || state_ == EXECPT"
    (fiber.state = .init ∨ fiber.state = .term ∨ fiber.state = .execpt)
  return { s with
    fibers := s.fibers.modify f fun fiber =>
      { fiber with cb := some cb, ctx := ⟨.own f,.mainFunc⟩, state := .init } }

/-- `Fiber::MainFunc` up to the call of the callback. -/
def mainFunc (s : Thread K σ) : Except Fault (Thread K σ) := do
  let (s,cur) ← s.getThis
  let fiber ← s.deref cur
  match fiber.cb with
  | some code => return { s with frame := ⟨some cur,code⟩ }
  | none => throw .emptyCallback

def resume (s : Thread K σ) (ctx : Context K) : Except Fault (Thread K σ) :=
  match ctx.point with
  | .ctor => .error .staleContext
  | .mainFunc => mainFunc { s with stack := ctx.stack }
  | .call fr => .ok { s with stack := ctx.stack, frame := fr }
  | .finished => .error (.assertion "never reach!".toList)

/-- `swapcontext`: the running continuation, which is at `point`, is saved in the
first fiber's context, and then the second one's is resumed. -/
def swapcontext (s : Thread K σ) (oucp ucp : ℕ) (point : Point K) : Except Fault (Thread K σ) := do
  let _ ← s.deref oucp
  let s := { s with fibers := s.fibers.modify oucp fun fiber => { fiber with ctx := ⟨s.stack,point⟩ } }
  let fiber ← s.deref ucp
  s.resume fiber.ctx

/-- `Fiber::SwapIn`, called by user code that goes on with `code`. -/
def swapIn (s : Thread K σ) (f : ℕ) (code : K) : Except Fault (Thread K σ) := do
  let fiber ← s.deref f
  let s := s.setThis f
  check "state_ != EXEC" (fiber.state ≠ .exec)
  let s := s.setState f .exec
  match s.tThreadFiber with
  | none => throw .nullThreadFiber
  | some m => s.swapcontext m f (.call { s.frame with code := code })

/-- `Fiber::SwapOut` of fiber `f`, with the place behind the call. -/
def swapOut (s : Thread K σ) (f : ℕ) (point : Point K) : Except Fault (Thread K σ) :=
  match s.tThreadFiber with
  | none => .error .nullThreadFiber
  | some m => (s.setThis m).swapcontext f m point

def yieldTo (s : Thread K σ) (y : Yield) (code : K) : Except Fault (Thread K σ) := do
  let (s,cur) ← s.getThis
  let fiber ← s.deref cur
  check "cur->state_ == EXEC" (fiber.state = .exec)
  (s.setState cur y.state).swapOut cur (.call { s.frame with code := code })

/-- The rest of `MainFunc` once the callback has returned. The statement
`cur->cb_ == nullptr;` compares and changes nothing. -/
def callbackReturns (s : Thread K σ) : Except Fault (Thread K σ) :=
  match s.frame.cur with
  | none => .error .noCallback
  | some cur => (s.setState cur .term).swapOut cur .finished

/-- The rest of `MainFunc` once the callback has thrown. The handler for
`std::exception` only logs. -/
def callbackThrows (s : Thread K σ) (std : Bool) : Except Fault (Thread K σ) :=
  match s.frame.cur with
  | none => .error .noCallback
  | some cur => (if std then s else s.setState cur .execpt).swapOut cur .finished

end Thread

/-- What the code on the running stack does next. `segment` is anything that is no
call of the library. -/
inductive Act (K σ : Type) where
  | segment (x : σ) (code : K)
  | newFiber (cb : K) (stacksize : ℕ) (code : K)
  | reset (f : ℕ) (cb code : K)
  | destroy (f : ℕ) (code : K)
  | swapIn (f : ℕ) (code : K)
  | yieldTo (y : Yield) (code : K)
  | callbackReturns
  | callbackThrows (std : Bool)

namespace Thread
variable {K σ : Type}

def step (s : Thread K σ) : Act K σ → Except Fault (Thread K σ)
  | .segment x code => .ok ({ s with trace := s.trace ++ [(s.stack,x)] }.goOn code)
  | .newFiber cb stacksize code => .ok ((s.newFiber cb stacksize).goOn code)
  | .reset f cb code => do return (← s.reset f cb).goOn code
  | .destroy f code => do return (← s.destroy f).goOn code
  | .swapIn f code => s.swapIn f code
  | .yieldTo y code => s.yieldTo y code
  | .callbackReturns => s.callbackReturns
  | .callbackThrows std => s.callbackThrows std

theorem swapcontext_eq {s : Thread K σ} {oucp ucp : ℕ} {x z : Fiber K} (ho : s.fibers.get oucp = some x)
    (hu : s.fibers.get ucp = some z) (hne : ucp ≠ oucp) (point : Point K) :
    s.swapcontext oucp ucp point =
      ({ s with fibers := s.fibers.modify oucp fun fiber =>
          { fiber with ctx := ⟨s.stack,point⟩ } } : Thread K σ).resume z.ctx := by
  simp [swapcontext,deref,ho,Heap.get_modify_ne _ _ hne,hu,bind,Except.bind]

def next (s : Thread K σ) (a : Act K σ) : Option (Thread K σ) := (s.step a).toOption

/-- The thread behind its first call of `GetThis`. -/
def start (stacksizeConfig : ℕ) (code : K) : Thread K σ := (fresh stacksizeConfig code).newMain.1

end Thread
end Zcs.Fibers
