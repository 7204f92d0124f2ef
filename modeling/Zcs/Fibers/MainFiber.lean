import Zcs.Fibers.Switching

/-! # Switching through the main fiber

Children are to be switched to by the main fiber and to yield to it. No assertion says
so: a child can call `SwapIn`, which saves the child's context as the main fiber's, and
the main fiber can yield, which leaves its state at HOLD or READY.
-/
namespace Zcs.Fibers
variable {K σ : Type}

/-- A thread, and where its main fiber goes on once the child that it has switched to
gives control back. -/
structure Watched (K σ : Type) where
  thread : Thread K σ
  home : Option K

/-- The ways in which a child gives up control. -/
def GivesBack : Act K σ → Prop
  | .yieldTo _ _ | .callbackReturns | .callbackThrows _ => True
  | _ => False

namespace Watched

def start (stacksizeConfig : ℕ) (code : K) : Watched K σ := ⟨.start stacksizeConfig code,none⟩

def next (s : Watched K σ) (a : Act K σ) : Option (Watched K σ) :=
  (s.thread.next a).map fun t => ⟨t,s.thread.home a s.home⟩

/-- `t_thread_fiber` holds a reference to the main fiber. -/
def Holds (s : Watched K σ) : Act K σ → Prop
  | .destroy f _ => s.thread.tThreadFiber ≠ some f
  | _ => True

/-- Only the main fiber switches to another fiber, and it does not yield. -/
def ThroughMain (s : Watched K σ) : Act K σ → Prop
  | .swapIn _ _ => s.thread.stack = .thread
  | .yieldTo _ _ => s.thread.stack ≠ .thread
  | _ => True

instance (s : Watched K σ) : ∀ a, Decidable (s.Holds a)
  | .destroy f _ => inferInstanceAs (Decidable (s.thread.tThreadFiber ≠ some f))
  | .segment _ _ | .newFiber _ _ _ | .reset _ _ _ | .swapIn _ _ | .yieldTo _ _ | .callbackReturns
  | .callbackThrows _ => inferInstanceAs (Decidable True)

instance (s : Watched K σ) : ∀ a, Decidable (s.ThroughMain a)
  | .swapIn _ _ => inferInstanceAs (Decidable (s.thread.stack = .thread))
  | .yieldTo _ _ => inferInstanceAs (Decidable (s.thread.stack ≠ .thread))
  | .segment _ _ | .newFiber _ _ _ | .reset _ _ _ | .destroy _ _ | .callbackReturns | .callbackThrows _ =>
    inferInstanceAs (Decidable True)

/-- The main fiber is EXEC and its context, while a child runs, is its own; children give
control back to it; `t_fiber` is the fiber whose code runs. -/
structure Kept (s : Watched K σ) : Prop where
  mainFiber : ∃ m x, s.thread.tThreadFiber = some m ∧ s.thread.fibers.get m = some x ∧ x.state = .exec ∧
    ∀ f, s.thread.stack = .own f → ∃ code, s.home = some code ∧ x.ctx = ⟨.thread,.call ⟨none,code⟩⟩
  givesBack : ∀ f a, s.thread.stack = .own f → GivesBack a → ∃ t code, s.thread.step a = .ok t ∧
    s.home = some code ∧ t.stack = .thread ∧ t.frame = ⟨none,code⟩
  this : s.thread.tFiber = match s.thread.stack with
    | .thread => s.thread.tThreadFiber
    | .own f => some f

def Invariant (s : Watched K σ) : Prop := Switching s.home s.thread ∧ s.thread.mainState = some .exec

variable {s t : Watched K σ} {a : Act K σ}

theorem next_cases (h : s.next a = some t) : s.thread.step a = .ok t.thread ∧ t.home = s.thread.home a s.home := by
  obtain ⟨u,hu,rfl⟩ := Option.map_eq_some_iff.mp h
  exact ⟨Thread.next_eq_some_iff.mp hu,rfl⟩

theorem kept (h : Invariant s) : Kept s := by
  obtain ⟨hs,hmain⟩ := h
  obtain ⟨x,hx,_,hctx⟩ := hs.mainFiber
  have he : x.state = .exec := by simpa [Thread.mainState,hx] using hmain
  refine ⟨⟨0,x,hs.threadFiber,hx,he,hctx⟩,fun f a hf ha => ?_,?_⟩
  · have hleave : a = .callbackReturns ∨ (∃ std, a = .callbackThrows std) ∨ ∃ y code, a = .yieldTo y code := by
      cases a with
      | yieldTo y code => exact .inr (.inr ⟨y,code,rfl⟩)
      | callbackReturns => exact .inl rfl
      | callbackThrows std => exact .inr (.inl ⟨std,rfl⟩)
      | segment | newFiber | reset | destroy | swapIn => cases ha
    obtain ⟨u,code,hu,hcode,hstack,hframe,_⟩ := hs.leave hf hleave
    exact ⟨u,code,hu,hcode,hstack,hframe⟩
  · rw [hs.this,hs.threadFiber]
    cases s.thread.stack <;> rfl

/-- A `SwapIn` whose assertion holds is not one of the main fiber, which is EXEC. -/
theorem ne_main (h : Invariant s) {f : ℕ} {code : K} {u : Thread K σ} (hn : s.thread.swapIn f code = .ok u) :
    f ≠ 0 ∧ ∃ x, s.thread.fibers.get f = some x ∧ x.state ≠ .exec := by
  obtain ⟨x,hx,hn⟩ := bind_eq_ok_iff.mp hn
  obtain ⟨_,he,_⟩ := bind_eq_ok_iff.mp hn
  have hx := Thread.deref_eq_ok_iff.mp hx
  have he : x.state ≠ .exec := of_decide_eq_true (check_eq_ok_iff.mp he)
  refine ⟨?_,x,hx,he⟩
  rintro rfl
  exact he (by simpa [Thread.mainState,hx] using h.2)

theorem step (h : Invariant s) (hok : s.Holds a) (hgood : s.ThroughMain a) (hn : s.next a = some t) :
    Invariant t := by
  obtain ⟨hstep,hhome⟩ := next_cases hn
  have hby : ByMain s.thread a := by
    cases a with
    | swapIn f code =>
      refine ⟨hgood,fun hf => ?_⟩
      obtain rfl := Option.some.inj (h.1.threadFiber.symm.trans hf)
      exact (ne_main h hstep).1 rfl
    | destroy f code => exact hok
    | segment | newFiber | reset | yieldTo | callbackReturns | callbackThrows => trivial
  obtain ⟨hS,hmain⟩ := h.1.step hby hstep
  refine ⟨hhome ▸ hS,?_⟩
  rcases hmain with ⟨hstack,y,code,rfl⟩ | hmain
  · exact absurd hstack hgood
  · exact hmain.trans h.2

/-- A child's `SwapIn` puts the child's own context in the place of the main fiber's, and
a yield of the main fiber takes its state away. -/
theorem good_of_kept (h : Invariant s) (hn : s.next a = some t) (hk : Kept t) : s.ThroughMain a := by
  obtain ⟨hstep,_⟩ := next_cases hn
  obtain ⟨m,x,hm,hx,he,hctx⟩ := hk.mainFiber
  obtain ⟨z,hz,_⟩ := h.1.mainFiber
  cases a with
  | swapIn f code =>
    obtain ⟨hf,y,hy,hne⟩ := ne_main h hstep
    rcases h.1.swapIn_cases hf hy hne code with ⟨_,herr⟩ | ⟨_,k,hk⟩
    · cases herr.symm.trans hstep
    · have ht : t.thread = s.thread.entered f code k := (Except.ok.inj (hk.symm.trans hstep)).symm
      rw [ht] at hm hx hctx
      obtain rfl := Option.some.inj (h.1.threadFiber.symm.trans hm)
      obtain ⟨_,_,hxctx⟩ := hctx f rfl
      have hx' : x = { z with ctx := ⟨s.thread.stack,.call { s.thread.frame with code := code }⟩ } := by
        simpa [Thread.entered,Heap.get_modify_ne _ _ hf.symm,hz] using hx.symm
      rw [hx'] at hxctx
      exact congrArg Context.stack hxctx
  | yieldTo y code =>
    intro hstack
    rw [h.1.yield_main hstack hz,if_pos (by simpa [Thread.mainState,hz] using h.2)] at hstep
    have ht := (Except.ok.inj hstep).symm
    rw [ht] at hm hx
    obtain rfl := Option.some.inj (h.1.threadFiber.symm.trans hm)
    have hx' : x.state = y.state := by
      simp [hz] at hx
      rw [← hx]
    rw [hx'] at he
    cases y <;> cases he
  | segment | newFiber | reset | destroy | callbackReturns | callbackThrows => trivial

/-- In a run in which any fiber calls `SwapIn` and the yields, and the assertions hold,
the main fiber keeps its state and its context exactly if only the main fiber calls
`SwapIn` and only children yield. -/
theorem keptThroughout_iff (stacksizeConfig : ℕ) {code : K} {acts : List (Act K σ)}
    (h : Runs next Holds (start stacksizeConfig code) acts s) :
    (∀ pre u, pre <+: acts → Runs next Holds (start stacksizeConfig code) pre u → Kept u) ↔
      Runs next (fun s a => Holds s a ∧ ThroughMain s a) (start stacksizeConfig code) acts s :=
  h.held_iff (I := Invariant) step kept (fun hs _ hn hk => good_of_kept hs hn hk)
    ⟨.start stacksizeConfig code,rfl⟩

theorem keptThroughout_ready : ∃ s, Runs next Holds (start 1048576 ()) readyActs s ∧
    ∀ pre u, pre <+: readyActs → Runs next Holds (start 1048576 ()) pre u → Kept u := by
  have hgood := Runs.of_exec next (fun s a => Holds s a ∧ ThroughMain s a) (start 1048576 ()) readyActs (by decide)
  have hrun := hgood.imp (fun _ _ h => h.1)
  exact ⟨_,hrun,(keptThroughout_iff 1048576 hrun).mpr hgood⟩

/-- A child switches to another one, and the main fiber's context becomes the child's. -/
theorem childSwapIn_not_kept : ¬ ∀ (acts : List (Act Unit Unit)) (s : Watched Unit Unit),
    Runs next Holds (start 1048576 ()) acts s → Kept s := by
  intro h
  have hrun := Runs.of_exec next Holds (start 1048576 ())
    ([.newFiber () 0 (),.newFiber () 0 (),.swapIn 1 (),.swapIn 2 ()] : List (Act Unit Unit)) (by decide)
  obtain ⟨m,x,hm,hx,_,hctx⟩ := (h _ _ hrun).mainFiber
  obtain rfl := Option.some.inj hm
  obtain rfl := Option.some.inj hx
  obtain ⟨_,_,hctx⟩ := hctx 2 rfl
  cases hctx

end Watched
end Zcs.Fibers
