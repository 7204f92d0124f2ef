import Mathlib.Data.Char
import Mathlib.Data.List.Lex
import Zcs.Foundation.HashTable
import Zcs.Foundation.Ordered
import Zcs.Foundation.Yaml

/-! # Conversions between values and texts

The specialisations of `LexicalCast` for the containers. All of them go through a
YAML document: an element is encoded to a text, which is loaded into a node of the
document; on the way back every node is emitted again to be decoded.
-/
namespace Zcs.Config

/-- `LexicalCast<std::string, T>` and `LexicalCast<T, std::string>`, either of which
may throw. -/
structure LexicalCast (T : Type) where
  fromStr : Text → Except Text T
  toStr : T → Except Text Text

/-- `boost::lexical_cast` between `bool` and `std::string`. -/
def boolCast : LexicalCast Bool where
  fromStr s := if s = ['1'] then .ok true else if s = ['0'] then .ok false else .error "bad lexical cast".toList
  toStr b := .ok [if b then '1' else '0']

abbrev keyLt {T : Type} (a b : Text × T) : Bool := decide (a.1 < b.1)

instance {T : Type} : StrictWeakOrder (keyLt : Text × T → Text × T → Bool) where
  irrefl a := by simp
  trans hab hbc := by
    simp only [decide_eq_true_eq] at hab hbc ⊢
    exact lt_trans hab hbc

def sameKey (T : Type) : Setoid (Text × T) where
  r a b := a.1 = b.1
  iseqv := ⟨fun _ => rfl,Eq.symm,Eq.trans⟩

instance (T : Type) : DecidableRel (sameKey T) := fun a b => inferInstanceAs (Decidable (a.1 = b.1))

namespace LexicalCast
variable (y : YamlCpp) {T S : Type} (cast : LexicalCast T)

def loaded (x : T) : Except Text Node := do y.load (← cast.toStr x)

def sequenceNode (xs : List T) : Except Text Node := do
  return .sequence (← xs.mapM (cast.loaded y))

/-- `node[i.first] = YAML::Load(LexicalCast<T, std::string>()(i.second))` -/
def putLoaded (fields : Fields) (e : Text × T) : Except Text Fields := do
  return fields.put e.1 (← cast.loaded y e.2)

def mapNode (es : List (Text × T)) : Except Text Node := do
  return .map (← es.foldlM (cast.putLoaded y) [])

def addItem (add : S → T → S) (vec : S) (s : Text) : Except Text S := do
  return add vec (← cast.fromStr s)

/-- The loop over `node[i]`. -/
def readItems (add : S → T → S) (init : S) (v : Text) : Except Text S := do
  (y.itemTexts (← y.load v)).foldlM (cast.addItem add) init

def addEntry (add : S → Text × T → S) (vec : S) (e : Node × Node) : Except Text S := do
  return add vec (e.1.text,← cast.fromStr (y.emit e.2))

/-- The loop from `begin()` to `end()`. -/
def readEntries (add : S → Text × T → S) (init : S) (v : Text) : Except Text S := do
  (← y.entries (← y.load v)).foldlM (cast.addEntry y add) init

def vector : LexicalCast (List T) where
  fromStr := readItems y cast (fun vec x => vec ++ [x]) []
  toStr v := do return y.emit (← sequenceNode y cast v)

def set (lt : T → T → Bool) [StrictWeakOrder lt] : LexicalCast (SortedSet T lt) where
  fromStr := readItems y cast SortedSet.insert .empty
  toStr v := do return y.emit (← sequenceNode y cast v.toList)

def unorderedSet (same : Setoid T) [DecidableRel same] (arr : Arrangement T) :
    LexicalCast (HashTable same) where
  fromStr := readItems y cast (HashTable.insert arr) .empty
  toStr v := do return y.emit (← sequenceNode y cast v.toList)

def list : LexicalCast (List T) where
  fromStr := readItems y cast (fun vec x => vec ++ [x]) []
  toStr v := do return y.emit (← sequenceNode y cast v)

def map : LexicalCast (SortedSet (Text × T) keyLt) where
  fromStr := readEntries y cast SortedSet.insert .empty
  toStr v := do return y.emit (← mapNode y cast v.toList)

def unorderedMap (arr : Arrangement (Text × T)) : LexicalCast (HashTable (sameKey T)) where
  fromStr := readEntries y cast (HashTable.insert arr) .empty
  toStr v := do return y.emit (← mapNode y cast v.toList)

end LexicalCast
end Zcs.Config
