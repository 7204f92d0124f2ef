import Mathlib.Algebra.Group.Nat.Defs
import Zcs.Config.LexicalCast

/-! # Configuration variables

A listener may act on the rest of the program, the world `W`. A `std::exception`
is its message, and a null dereference ends the program.
-/
namespace Zcs.Config

inductive Outcome (W : Type*) where
  | returned (w : W)
  | threw (w : W) (what : Text)
  | crashed

abbrev Listener (T W : Type*) := T → T → W → Outcome W

/-- The members of a `ConfigVar`; `cbs` is the map from listener ids. -/
structure ConfigVar (T W : Type*) where
  name : Text
  description : Text
  val : T
  cbs : SortedMap ℕ (Listener T W)

namespace ConfigVar
variable {T : Type} {W : Type*}

def runCallbacks (v old : T) : List (ℕ × Listener T W) → W → Outcome W
  | [], w => .returned w
  | (_,cb) :: rest, w =>
    match cb v old w with
    | .returned w => runCallbacks v old rest w
    | .threw w what => .threw w what
    | .crashed => .crashed

/-- `ConfigVar::SetValue`: a value that compares equal changes nothing, and a
listener that throws keeps the assignment from happening. -/
def setValue [BEq T] (var : ConfigVar T W) (v : T) (w : W) : Outcome (ConfigVar T W × W) :=
  if var.val == v then .returned (var,w)
  else match runCallbacks v var.val var.cbs.entries w with
    | .returned w => .returned ({ var with val := v },w)
    | .threw w what => .threw (var,w) what
    | .crashed => .crashed

/-- `ConfigVar::FromString` up to the report in its catch clause, which is made in
`Reports.fromString`; `none` is a crash. -/
def fromString [BEq T] (cast : LexicalCast T) (var : ConfigVar T W) (val : Text) (w : W) :
    Option (Bool × ConfigVar T W × W) :=
  match cast.fromStr val with
  | .error _ => some (false,var,w)
  | .ok v =>
    match var.setValue v w with
    | .returned (var,w) => some (true,var,w)
    | .threw (var,w) _ => some (false,var,w)
    | .crashed => none

/-- `ConfigVar::ToString`; a codec that throws gives the empty text. -/
def toString (cast : LexicalCast T) (var : ConfigVar T W) : Text :=
  match cast.toStr var.val with
  | .ok s => s
  | .error _ => []

/-- `++s_fun_id` on the counter that all variables of one type share. -/
def nextId (funId : ℕ) : ℕ := (funId + 1) % 2 ^ 64

/-- `ConfigVar::AddListener`; the result is the new value of the counter too. -/
def addListener (var : ConfigVar T W) (funId : ℕ) (cb : Listener T W) : ℕ × ConfigVar T W :=
  (nextId funId,{ var with cbs := var.cbs.assign (nextId funId) cb })

def delListener (var : ConfigVar T W) (id : ℕ) : ConfigVar T W := { var with cbs := var.cbs.erase id }

def clearListener (var : ConfigVar T W) : ConfigVar T W := { var with cbs := .empty }

theorem runCallbacks_singleton (v old : T) (i : ℕ) (cb : Listener T W) (w : W) :
    runCallbacks v old [(i,cb)] w = cb v old w := by
  rw [runCallbacks]
  cases cb v old w <;> rfl

theorem setValue_returned [BEq T] {var var' : ConfigVar T W} {v : T} {w w' : W}
    (h : var.setValue v w = .returned (var',w')) :
    var' = { var with val := v } ∨ ((var.val == v) = true ∧ var' = var ∧ w' = w) := by
  unfold setValue at h
  split_ifs at h with hb
  · right
    obtain ⟨rfl,rfl⟩ := Prod.mk.inj (Outcome.returned.inj h)
    exact ⟨hb,rfl,rfl⟩
  · left
    cases hr : runCallbacks v var.val var.cbs.entries w with
    | returned u =>
      simp only [hr,Outcome.returned.injEq,Prod.mk.injEq] at h
      exact h.1.symm
    | threw _ _ => simp [hr] at h
    | crashed => simp [hr] at h

theorem setValue_of_beq [BEq T] {var : ConfigVar T W} {v : T} (h : (var.val == v) = true) (w : W) :
    var.setValue v w = .returned (var,w) := by
  simp [setValue,h]

end ConfigVar
end Zcs.Config
