import Zcs.Foundation.Text

/-! # YAML documents and the library that reads and writes them

A document is a finite tree. The text format itself is the business of yaml-cpp:
`YamlCpp` has what the program uses of it, and each result says what it relies on.
-/
namespace Zcs

inductive Node where
  | null
  | scalar (s : Text)
  | sequence (items : List Node)
  | map (entries : List (Node × Node))

/-- What the tree alone does not determine. A `YAML::Exception` is its message;
`readsAs` is the conversion of a map key to a number. -/
structure YamlCpp where
  load : Text → Except Text Node
  emit : Node → Text
  asString : Node → Except Text Text
  readsAs : Text → ℕ → Bool
  badSubscript : Text → Text
  invalidNode : Text

abbrev Fields := List (Node × Node)

namespace Fields

def hasKey (key : Text) : Node → Bool
  | .scalar s => s == key
  | _ => false

def update (key : Text) (f : Option Node → Node) : Fields → Fields
  | [] => [(.scalar key,f none)]
  | e :: es => if hasKey key e.1 then (e.1,f (some e.2)) :: es else e :: update key f es

/-- `node[key] = value` -/
def put (fields : Fields) (key : Text) (value : Node) : Fields := fields.update key fun _ => value

/-- `node[key].push_back(value)`, for a key that is absent or has a sequence. -/
def pushBack (fields : Fields) (key : Text) (value : Node) : Fields :=
  fields.update key fun
    | some (.sequence items) => .sequence (items ++ [value])
    | _ => .sequence [value]

/-- A `YAML::Node` that was default constructed and then given these entries. -/
def node (fields : Fields) : Node := if fields.isEmpty then .null else .map fields

theorem update_append {key : Text} {fields : Fields} (h : ∀ e ∈ fields, hasKey key e.1 = false)
    (f : Option Node → Node) (rest : Fields) :
    update key f (fields ++ rest) = fields ++ update key f rest := by
  induction fields with
  | nil => rfl
  | cons e es ih =>
    have he : hasKey key e.1 = false := h e List.mem_cons_self
    rw [List.cons_append,update,he,if_neg Bool.false_ne_true,
      ih fun d hd => h d (List.mem_cons_of_mem e hd),List.cons_append]

theorem update_of_absent {key : Text} {fields : Fields} (h : ∀ e ∈ fields, hasKey key e.1 = false)
    (f : Option Node → Node) : update key f fields = fields ++ [(.scalar key,f none)] := by
  have hu := update_append h f []
  rwa [List.append_nil] at hu

def lookup (key : Text) (fields : Fields) : Option Node :=
  (fields.find? fun e => hasKey key e.1).map Prod.snd

@[simp] theorem lookup_nil (key : Text) : lookup key [] = none := rfl

theorem lookup_update (k key : Text) (f : Option Node → Node) (fields : Fields) :
    lookup k (update key f fields) = if k = key then some (f (lookup key fields)) else lookup k fields := by
  unfold lookup
  induction fields with
  | nil =>
    by_cases hk : k = key
    · simp [update,hasKey,hk]
    · simp [update,hasKey,hk,Ne.symm hk]
  | cons e es ih =>
    unfold update
    cases he : hasKey key e.1 with
    | true =>
      by_cases hk : k = key
      · simp [hk,he]
      · have hek : hasKey k e.1 = false := by
          cases hn : e.1 with
          | scalar s =>
            rw [hn,hasKey,beq_iff_eq] at he
            simp [hasKey,he,Ne.symm hk]
          | _ => rfl
        simp [hk,hek]
    | false =>
      by_cases hk : k = key
      · simpa [hk,he] using ih
      · simp only [Bool.false_eq_true,↓reduceIte,List.find?_cons,hk]
        cases hasKey k e.1 with
        | true => rfl
        | false => simpa [hk] using ih

@[simp] theorem lookup_put (k key : Text) (value : Node) (fields : Fields) :
    lookup k (put fields key value) = if k = key then some value else lookup k fields :=
  lookup_update k key _ fields

theorem lookup_pushBack_of_ne {k key : Text} (hk : k ≠ key) (value : Node) (fields : Fields) :
    lookup k (pushBack fields key value) = lookup k fields := by
  rw [pushBack,lookup_update,if_neg hk]

theorem lookup_pushBack (key : Text) (value : Node) (fields : Fields) :
    lookup key (pushBack fields key value) = some (match lookup key fields with
      | some (.sequence items) => .sequence (items ++ [value])
      | _ => .sequence [value]) := by
  rw [pushBack,lookup_update,if_pos rfl]

theorem node_of_lookup {key : Text} {fields : Fields} {value : Node} (h : lookup key fields = some value) :
    fields.node = .map fields := by
  cases fields with
  | nil => cases h
  | cons e es => rfl

theorem hasKey_scalar (key s : Text) : hasKey key (.scalar s) = (s == key) := rfl

theorem foldl_put {kvs : List (Text × Node)} (h : (kvs.map Prod.fst).Nodup) {fields : Fields}
    (hf : ∀ e ∈ fields, ∀ kv ∈ kvs, hasKey kv.1 e.1 = false) :
    kvs.foldl (fun (fields : Fields) kv => fields.put kv.1 kv.2) fields =
      fields ++ kvs.map fun kv => (.scalar kv.1,kv.2) := by
  induction kvs generalizing fields with
  | nil => simp
  | cons kv kvs ih =>
    obtain ⟨hkv,hkvs⟩ := List.nodup_cons.mp h
    have hput : fields.put kv.1 kv.2 = fields ++ [(.scalar kv.1,kv.2)] :=
      update_of_absent (fun e he => hf e he kv List.mem_cons_self) _
    rw [List.foldl_cons,hput,ih hkvs]
    · simp
    · intro e he d hd
      rcases List.mem_append.mp he with he | he
      · exact hf e he d (List.mem_cons_of_mem kv hd)
      · obtain rfl := List.mem_singleton.mp he
        rw [hasKey_scalar,beq_eq_false_iff_ne]
        intro he
        exact hkv (he ▸ List.mem_map_of_mem hd)

end Fields

namespace Node

def text : Node → Text
  | .scalar s => s
  | _ => []

def size : Node → ℕ
  | .sequence items => items.length
  | .map entries => entries.length
  | _ => 0

end Node

namespace YamlCpp
variable (y : YamlCpp)

/-- `node[key]`; `none` is an undefined node. -/
def get (key : Text) : Node → Except Text (Option Node)
  | .scalar _ => .error (y.badSubscript key)
  | .map entries => .ok (Fields.lookup key entries)
  | _ => .ok none

/-- `node[i]`, which the source asks for below `size()` only. -/
def index (i : ℕ) : Node → Option Node
  | .sequence items => items[i]?
  | .map entries =>
    (entries.find? fun e => match e.1 with
      | .scalar s => y.readsAs s i
      | _ => false).map Prod.snd
  | _ => none

def print : Option Node → Text
  | some node => y.emit node
  | none => []

def itemTexts (node : Node) : List Text :=
  (List.range node.size).map fun i => y.print (y.index i node)

/-- `node[0]`, `node[1]`, …, `node[size - 1]`; an undefined node reads like a null one. -/
def itemNodes (node : Node) : List Node :=
  (List.range node.size).map fun i => (y.index i node).getD .null

/-- What `begin()` to `end()` gives as pairs. The elements of a sequence are no
pairs, and their `first` is an invalid node. -/
def entries : Node → Except Text (List (Node × Node))
  | .map entries => .ok entries
  | .sequence (_ :: _) => .error y.invalidNode
  | _ => .ok []

@[simp] theorem itemTexts_sequence (items : List Node) :
    y.itemTexts (.sequence items) = items.map y.emit := by
  apply List.ext_getElem?
  intro i
  by_cases hi : i < items.length
  · simp [itemTexts,Node.size,hi,index,print]
  · simp [itemTexts,Node.size,hi]

@[simp] theorem itemNodes_sequence (items : List Node) : y.itemNodes (.sequence items) = items := by
  apply List.ext_getElem?
  intro i
  by_cases hi : i < items.length
  · simp [itemNodes,Node.size,hi,index]
  · simp [itemNodes,Node.size,hi]

def Loads (node : Node) : Prop := y.load (y.emit node) = .ok node

end YamlCpp
end Zcs
