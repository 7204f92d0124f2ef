import Zcs.Foundation.Heap
import Zcs.Fibers.Thread

/-! # What fibers are for

A coroutine is a computation with a continuation of its own. The main program
resumes one at a time; the one resumed goes on where it stopped, and when it stops
again the main program goes on where it left off. Contexts, states and thread-local
pointers do not occur in this model. A label is accepted when the rules of use allow
it: only the main program resumes, and only what has not ended; only a coroutine
yields; and only one that has not started or is through with its callback is reset
or destroyed.
-/
namespace Zcs.Fibers

inductive Ending where
  | returned
  | threw (std : Bool)
  deriving DecidableEq

inductive Phase (K : Type) where
  | fresh (cb : K)
  | suspended (y : Yield) (code : K)
  | running
  | ended (e : Ending)

/-- A coroutine that may be given another callback or be destroyed. One that was
left by a `std::exception` is not among them. -/
def Phase.idle {K : Type} : Phase K → Bool
  | fresh _ | ended .returned | ended (.threw false) => true
  | suspended _ _ | running | ended (.threw true) => false

/-- Who runs, and what the main program does after that. -/
inductive Control (K : Type) where
  | main (code : K)
  | child (f : ℕ) (code mainCode : K)

namespace Control
variable {K : Type}

def running : Control K → Option ℕ
  | main _ => none
  | child f _ _ => some f

def code : Control K → K
  | main k => k
  | child _ k _ => k

def goOn (code : K) : Control K → Control K
  | main _ => main code
  | child f _ mainCode => child f code mainCode

@[simp] theorem running_goOn (code : K) (c : Control K) : (c.goOn code).running = c.running := by
  cases c <;> rfl

end Control

structure Coroutines (K σ : Type) where
  phases : Heap (Phase K)
  control : Control K
  trace : List (Option ℕ × σ)

namespace Coroutines
variable {K σ : Type}

def setPhase (c : Coroutines K σ) (f : ℕ) (p : Phase K) : Coroutines K σ :=
  { c with phases := c.phases.modify f fun _ => p }

def goOn (c : Coroutines K σ) (code : K) : Coroutines K σ := { c with control := c.control.goOn code }

/-- Give control to a coroutine; `mainCode` is what the main program does after that. -/
def enter (c : Coroutines K σ) (f : ℕ) (code mainCode : K) : Coroutines K σ :=
  { c.setPhase f .running with control := .child f code mainCode }

def leave (c : Coroutines K σ) (p : Phase K) : Option (Coroutines K σ) :=
  match c.control with
  | .main _ => none
  | .child f _ mainCode => some { c.setPhase f p with control := .main mainCode }

def step (c : Coroutines K σ) : Act K σ → Option (Coroutines K σ)
  | .segment x code => some ({ c with trace := c.trace ++ [(c.control.running,x)] }.goOn code)
  | .newFiber cb _ code => some ({ c with phases := c.phases.alloc (.fresh cb) }.goOn code)
  | .reset f cb code =>
    match c.phases.get f with
    | some p => if p.idle then some ((c.setPhase f (.fresh cb)).goOn code) else none
    | none => none
  | .destroy f code =>
    match c.phases.get f with
    | some p => if p.idle then some ({ c with phases := c.phases.free f }.goOn code) else none
    | none => none
  | .swapIn f code =>
    match c.control,c.phases.get f with
    | .main _,some (.fresh cb) => some (c.enter f cb code)
    | .main _,some (.suspended _ k) => some (c.enter f k code)
    | _,_ => none
  | .yieldTo y code => c.leave (.suspended y code)
  | .callbackReturns => c.leave (.ended .returned)
  | .callbackThrows std => c.leave (.ended (.threw std))

theorem leave_cases {c d : Coroutines K σ} {p : Phase K} (h : c.leave p = some d) :
    ∃ f code mainCode, c.control = .child f code mainCode ∧
      d = { c.setPhase f p with control := .main mainCode } := by
  unfold leave at h
  cases hc : c.control with
  | main _ => simp [hc] at h
  | child f code mainCode =>
    simp only [hc,Option.some.injEq] at h
    exact ⟨f,code,mainCode,rfl,h.symm⟩

theorem reset_cases {c d : Coroutines K σ} {f : ℕ} {cb code : K} (h : c.step (.reset f cb code) = some d) :
    ∃ p, c.phases.get f = some p ∧ p.idle = true ∧ d = (c.setPhase f (.fresh cb)).goOn code := by
  cases hf : c.phases.get f with
  | none => simp [step,hf] at h
  | some p =>
    simp only [step,hf] at h
    split_ifs at h with hp
    exact ⟨p,rfl,hp,(Option.some.inj h).symm⟩

theorem destroy_cases {c d : Coroutines K σ} {f : ℕ} {code : K} (h : c.step (.destroy f code) = some d) :
    ∃ p, c.phases.get f = some p ∧ p.idle = true ∧
      d = ({ c with phases := c.phases.free f } : Coroutines K σ).goOn code := by
  cases hf : c.phases.get f with
  | none => simp [step,hf] at h
  | some p =>
    simp only [step,hf] at h
    split_ifs at h with hp
    exact ⟨p,rfl,hp,(Option.some.inj h).symm⟩

theorem swapIn_cases {c d : Coroutines K σ} {f : ℕ} {code : K} (h : c.step (.swapIn f code) = some d) :
    ∃ k₀ k p, c.control = .main k₀ ∧ c.phases.get f = some p ∧ (p = .fresh k ∨ ∃ y, p = .suspended y k) ∧
      d = c.enter f k code := by
  cases hc : c.control with
  | child _ _ _ => simp [step,hc] at h
  | main k₀ =>
    cases hf : c.phases.get f with
    | none => simp [step,hc,hf] at h
    | some p =>
      cases p with
      | fresh cb =>
        simp only [step,hc,hf,Option.some.injEq] at h
        exact ⟨k₀,cb,_,rfl,rfl,.inl rfl,h.symm⟩
      | suspended y k =>
        simp only [step,hc,hf,Option.some.injEq] at h
        exact ⟨k₀,k,_,rfl,rfl,.inr ⟨y,rfl⟩,h.symm⟩
      | running => simp [step,hc,hf] at h
      | ended _ => simp [step,hc,hf] at h

/-- No coroutine yet. The address 0 is the main fiber's. -/
def start (code : K) : Coroutines K σ := ⟨.emptyFrom 1,.main code,[]⟩

end Coroutines
end Zcs.Fibers
