import Mathlib.Data.Nat.Notation
import Mathlib.Logic.Function.Basic
import Mathlib.Logic.Relation

/-! # Locks taken in order

Of a program only its scoped locks are kept; what it reads and computes is a choice
of the continuation. If every lock it takes ranks above the locks that it holds at
that point, then no threads of such programs, however many and however interleaved,
come to wait for each other in a circle.
-/
namespace Zcs

inductive LockMode where
  | shared
  | exclusive

inductive LockCmd (L : Type) : Type 1 where
  | skip
  | locked (m : LockMode) (x : L) (body : LockCmd L)
  | seq (c d : LockCmd L)
  | any {α : Type} (f : α → LockCmd L)

namespace LockCmd
variable {L : Type}

def each {α : Type} (f : α → LockCmd L) : List α → LockCmd L
  | [] => skip
  | a :: as => seq (f a) (each f as)

/-- Run with the locks `held`, the command takes locks of higher rank only. -/
def Ascends (rank : L → ℕ) : List L → LockCmd L → Prop
  | _, skip => True
  | held, locked _ x body => (∀ y ∈ held, rank y < rank x) ∧ Ascends rank (x :: held) body
  | held, seq c d => Ascends rank held c ∧ Ascends rank held d
  | held, any f => ∀ a, Ascends rank held (f a)

variable {rank : L → ℕ} {held : List L}

theorem Ascends.each {α : Type} {f : α → LockCmd L} {as : List α} (h : ∀ a ∈ as, Ascends rank held (f a)) :
    Ascends rank held (each f as) := by
  induction as with
  | nil => trivial
  | cons a as ih => exact ⟨h a List.mem_cons_self,ih fun b hb => h b (List.mem_cons_of_mem a hb)⟩

end LockCmd

/-- What a thread has still to do: a command, or the end of a lock's scope. -/
inductive LockItem (L : Type) : Type 1 where
  | run (c : LockCmd L)
  | release (m : LockMode) (x : L)

namespace LockItem
variable {L ι : Type} [DecidableEq ι]

def holds (k : List (LockItem L)) : List (LockMode × L) :=
  k.filterMap fun
    | run _ => none
    | release m x => some (m,x)

def held (k : List (LockItem L)) : List L := (holds k).map Prod.snd

/-- The lock may be taken: shared if nobody holds it exclusively, exclusively if
nobody holds it. -/
def Free (s : ι → List (LockItem L)) (m : LockMode) (x : L) : Prop :=
  ∀ t, ∀ h ∈ holds (s t), h.2 = x → m = .shared ∧ h.1 = .shared

omit [DecidableEq ι] in
theorem free_of_not_held {s : ι → List (LockItem L)} {m : LockMode} {x : L} (h : ∀ t, x ∉ held (s t)) :
    Free s m x :=
  fun t _ hp hx => absurd (hx ▸ List.mem_map_of_mem hp) (h t)

inductive Step (s : ι → List (LockItem L)) : (ι → List (LockItem L)) → Prop
  | skip {t : ι} {k : List (LockItem L)} (h : s t = run .skip :: k) : Step s (Function.update s t k)
  | acquire {t : ι} {k : List (LockItem L)} {m : LockMode} {x : L} {body : LockCmd L}
    (h : s t = run (.locked m x body) :: k) (hf : Free s m x) :
    Step s (Function.update s t (run body :: release m x :: k))
  | release {t : ι} {k : List (LockItem L)} {m : LockMode} {x : L} (h : s t = release m x :: k) :
    Step s (Function.update s t k)
  | seq {t : ι} {k : List (LockItem L)} {c d : LockCmd L} (h : s t = run (.seq c d) :: k) :
    Step s (Function.update s t (run c :: run d :: k))
  | any {t : ι} {k : List (LockItem L)} {α : Type} {f : α → LockCmd L} (h : s t = run (.any f) :: k)
    (a : α) : Step s (Function.update s t (run (f a) :: k))

/-- The thread is about to take the lock, or waits for it. -/
def Takes (s : ι → List (LockItem L)) (t : ι) (x : L) : Prop :=
  ∃ m body k, s t = run (.locked m x body) :: k

def WaitsFor (s : ι → List (LockItem L)) (t u : ι) : Prop := ∃ x, Takes s t x ∧ x ∈ held (s u)

variable {rank : L → ℕ}

variable (rank) in
def Ascending : List (LockItem L) → Prop
  | [] => True
  | run c :: k => c.Ascends rank (held k) ∧ Ascending k
  | release _ _ :: k => Ascending k

theorem Ascending.step {s s' : ι → List (LockItem L)} (hs : ∀ t, Ascending rank (s t)) (h : Step s s')
    (u : ι) : Ascending rank (s' u) := by
  have hupdate : ∀ {t k}, Ascending rank k → Ascending rank (Function.update s t k u) := by
    intro t k hk
    by_cases hu : u = t
    · rw [hu,Function.update_self]
      exact hk
    · rw [Function.update_of_ne hu]
      exact hs u
  cases h with
  | @skip t k h =>
    have ht := hs t
    rw [h] at ht
    exact hupdate ht.2
  | @acquire t k m x body h hf =>
    have ht := hs t
    rw [h] at ht
    exact hupdate ⟨ht.1.2,ht.2⟩
  | @release t k m x h =>
    have ht := hs t
    rw [h] at ht
    exact hupdate ht
  | @seq t k c d h =>
    have ht := hs t
    rw [h] at ht
    exact hupdate ⟨ht.1.1,ht.1.2,ht.2⟩
  | @any t k α f h a =>
    have ht := hs t
    rw [h] at ht
    exact hupdate ⟨ht.1 a,ht.2⟩

theorem Ascending.reachable {s s' : ι → List (LockItem L)} (h : Relation.ReflTransGen Step s s')
    (hs : ∀ t, Ascending rank (s t)) : ∀ t, Ascending rank (s' t) := by
  induction h with
  | refl => exact hs
  | tail _ hstep ih => exact Ascending.step ih hstep

theorem ascending_of_runs {cs : List (LockCmd L)} (h : ∀ c ∈ cs, c.Ascends rank []) :
    Ascending rank (cs.map run) := by
  have hheld : ∀ cs : List (LockCmd L), held (cs.map run) = [] := by
    intro cs
    induction cs with
    | nil => rfl
    | cons c cs ih => exact ih
  induction cs with
  | nil => trivial
  | cons c cs ih =>
    refine ⟨?_,ih fun d hd => h d (List.mem_cons_of_mem c hd)⟩
    rw [hheld]
    exact h c List.mem_cons_self

omit [DecidableEq ι] in
theorem lt_of_takes {s : ι → List (LockItem L)} (hs : ∀ t, Ascending rank (s t)) {t : ι} {x y : L}
    (hx : Takes s t x) (hy : y ∈ held (s t)) : rank y < rank x := by
  obtain ⟨m,body,k,h⟩ := hx
  have ht := hs t
  rw [h] at ht hy
  exact ht.1.1 y hy

omit [DecidableEq ι] in
/-- Along a chain of waiting threads the ranks rise, so it never comes back. -/
theorem not_waitsFor_cycle {s : ι → List (LockItem L)} (hs : ∀ t, Ascending rank (s t)) (t : ι) :
    ¬ Relation.TransGen (WaitsFor s) t t := by
  have hchain : ∀ {u}, Relation.TransGen (WaitsFor s) t u →
      ∃ x z, Takes s t x ∧ z ∈ held (s u) ∧ rank x ≤ rank z := by
    intro u h
    induction h with
    | single h =>
      obtain ⟨x,hx,hu⟩ := h
      exact ⟨x,x,hx,hu,Nat.le_refl _⟩
    | tail _ h ih =>
      obtain ⟨x,z,hx,hz,hle⟩ := ih
      obtain ⟨y,hy,hu⟩ := h
      have hlt : rank z < rank y := lt_of_takes hs hy hz
      exact ⟨x,y,hx,hu,by omega⟩
  intro h
  obtain ⟨x,z,hx,hz,hle⟩ := hchain h
  have hlt : rank z < rank x := lt_of_takes hs hx hz
  omega

end LockItem
end Zcs
