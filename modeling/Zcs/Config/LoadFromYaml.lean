import Mathlib.Data.Bool.AllAny
import Mathlib.Data.List.Induction
import Mathlib.Data.List.Infix
import Mathlib.Tactic.IntervalCases
import Zcs.Config.ConfigVar

/-! # Loading a document into the variables

`Config::LoadFromYaml` flattens a document into the list of its nodes with dotted
names and hands each node's text to the variable of that name. What this does to a
variable is stated on the document itself: the last node that can be reached under
the variable's name and is accepted by its codec decides.
-/
namespace Zcs.Config

def nameChars : Text := "abcdefghikjlmnopqrstuvwxyz._0123456789".toList

/-- `perfix.empty() ? key : perfix + "." + key` -/
def joined (perfix key : Text) : Text := if perfix.isEmpty then key else perfix ++ '.' :: key

mutual

/-- `ListAllMember`, with the entries it appends to its output. -/
def listAllMember (perfix : Text) : Node → List (Text × Node)
  | .map entries =>
    if Text.onlyOf nameChars perfix then (perfix,.map entries) :: listEntries perfix entries else []
  | node => if Text.onlyOf nameChars perfix then [(perfix,node)] else []

def listEntries (perfix : Text) : List (Node × Node) → List (Text × Node)
  | [] => []
  | (key,value) :: rest => listAllMember (joined perfix key.text) value ++ listEntries perfix rest

end

/-- A `ConfigVar` of some type behind its `ConfigVarBase`, with the codec and the
`operator==` of the type. -/
structure ConfigVarBase (W : Type*) where
  T : Type
  beq : BEq T
  cast : LexicalCast T
  var : ConfigVar T W

namespace ConfigVarBase
variable {W : Type*}

/-- `FromString` as `LoadFromYaml` calls it, which ignores the result. -/
def fromString (b : ConfigVarBase W) (val : Text) (w : W) : Option (ConfigVarBase W × W) :=
  letI := b.beq
  (b.var.fromString b.cast val w).map fun r => ({ b with var := r.2.1 },r.2.2)

def withVal (b : ConfigVarBase W) (x : b.T) : ConfigVarBase W := { b with var := { b.var with val := x } }

end ConfigVarBase

/-- `GetDatas()`, of which only lookups by name are made here. -/
abbrev ConfigVarMap (W : Type*) := SortedMap Text (ConfigVarBase W)

section Load
variable (y : YamlCpp) {W : Type*}

def nodeText : Node → Text
  | .scalar s => s
  | node => y.emit node

def loadNode (s : ConfigVarMap W × W) (it : Text × Node) : Option (ConfigVarMap W × W) :=
  if it.1.isEmpty then some s
  else
    let key := it.1.map Char.toLower
    match s.1.find key with
    | none => some s
    | some var => (var.fromString (nodeText y it.2) s.2).map fun r => (s.1.assign key r.1,r.2)

/-- `Config::LoadFromYaml` up to what it reports, for which see `Reports.loadFromYaml`;
`none` is a crash of a listener. -/
def loadFromYaml (root : Node) (datas : ConfigVarMap W) (w : W) : Option (ConfigVarMap W × W) :=
  (listAllMember [] root).foldlM (loadNode y) (datas,w)

end Load

mutual

/-- Every node of a document in preorder, with the keys that lead to it. -/
def walk : Node → List (List Text × Node)
  | .map entries => ([],.map entries) :: walkEntries entries
  | node => [([],node)]

def walkEntries : List (Node × Node) → List (List Text × Node)
  | [] => []
  | (key,value) :: rest => (walk value).map (fun p => (key.text :: p.1,p.2)) ++ walkEntries rest

end

def path (keys : List Text) : Text := keys.foldl joined []

def ValidName (name : Text) : Prop :=
  ∀ c ∈ name, ('a' ≤ c ∧ c ≤ 'z') ∨ ('0' ≤ c ∧ c ≤ '9') ∨ c = '.' ∨ c = '_'

instance (name : Text) : Decidable (ValidName name) := List.decidableBAll _ name

/-- A node is visited if the path of each beginning of its keys is a valid name. -/
def Visited (keys : List Text) : Prop := ∀ pre ∈ keys.inits, ValidName (path pre)

instance (keys : List Text) : Decidable (Visited keys) := List.decidableBAll _ keys.inits

def visited (root : Node) : List (Text × Node) :=
  ((walk root).filter fun p => Visited p.1).map fun p => (path p.1,p.2)

theorem mem_nameChars (c : Char) :
    c ∈ nameChars ↔ ('a' ≤ c ∧ c ≤ 'z') ∨ ('0' ≤ c ∧ c ≤ '9') ∨ c = '.' ∨ c = '_' := by
  have hin : ∀ c ∈ nameChars, ('a' ≤ c ∧ c ≤ 'z') ∨ ('0' ≤ c ∧ c ≤ '9') ∨ c = '.' ∨ c = '_' :=
    List.all_iff_forall_prop.mp rfl
  -- the two ranges are exhausted by their codes
  have hlower : ∀ n, 97 ≤ n → n ≤ 122 → Char.ofNat n ∈ nameChars := by
    intro n h h'
    interval_cases n <;> decide
  have hdigit : ∀ n, 48 ≤ n → n ≤ 57 → Char.ofNat n ∈ nameChars := by
    intro n h h'
    interval_cases n <;> decide
  refine ⟨hin c,?_⟩
  rintro (⟨h,h'⟩ | ⟨h,h'⟩ | rfl | rfl)
  · have hc := hlower c.toNat h h'
    rwa [Char.ofNat_toNat] at hc
  · have hc := hdigit c.toNat h h'
    rwa [Char.ofNat_toNat] at hc
  · decide
  · decide

theorem onlyOf_nameChars (name : Text) : Text.onlyOf nameChars name = decide (ValidName name) := by
  rw [Bool.eq_iff_iff,decide_eq_true_iff,Text.onlyOf,List.all_eq_true]
  simp only [List.contains_iff_mem,mem_nameChars,ValidName]

/-- The filter and the paths below a node that is reached with the given prefix. -/
def below (perfix : Text) (ps : List (List Text × Node)) : List (Text × Node) :=
  (ps.filter fun p => ∀ pre ∈ p.1.inits, ValidName (pre.foldl joined perfix)).map
    fun p => (p.1.foldl joined perfix,p.2)

theorem below_of_invalid {perfix : Text} (h : ¬ ValidName perfix) (ps : List (List Text × Node)) :
    below perfix ps = [] := by
  have hf : (ps.filter fun p => ∀ pre ∈ p.1.inits, ValidName (pre.foldl joined perfix)) = [] := by
    refine List.filter_eq_nil_iff.mpr fun p _ hp => h ?_
    exact of_decide_eq_true hp [] ((List.mem_inits _ _).mpr List.nil_prefix)
  rw [below,hf,List.map_nil]

theorem below_map_cons {perfix : Text} (h : ValidName perfix) (key : Text) (ps : List (List Text × Node)) :
    below perfix (ps.map fun p => (key :: p.1,p.2)) = below (joined perfix key) ps := by
  have hv : ∀ keys : List Text, (∀ pre ∈ (key :: keys).inits, ValidName (pre.foldl joined perfix)) ↔
      ∀ pre ∈ keys.inits, ValidName (pre.foldl joined (joined perfix key)) := by
    intro keys
    simp [List.inits,h]
  simp only [below,List.filter_map,List.map_map,Function.comp_def,hv]
  rfl

theorem below_append (perfix : Text) (ps qs : List (List Text × Node)) :
    below perfix (ps ++ qs) = below perfix ps ++ below perfix qs := by
  simp [below]

theorem below_singleton (perfix : Text) (node : Node) :
    below perfix [([],node)] = if ValidName perfix then [(perfix,node)] else [] := by
  by_cases h : ValidName perfix <;> simp [below,h]

mutual

/-- The flattening of the source is the filtered preorder. -/
theorem listAllMember_eq (perfix : Text) : (node : Node) →
    listAllMember perfix node = below perfix (walk node)
  | .map entries => by
    rw [listAllMember,walk,onlyOf_nameChars]
    by_cases h : ValidName perfix
    · have hb := below_append perfix [([],.map entries)] (walkEntries entries)
      rw [below_singleton,if_pos h] at hb
      rw [if_pos (decide_eq_true h),listEntries_eq h entries]
      exact hb.symm
    · rw [if_neg (by simpa using h),below_of_invalid h]
  | .null | .scalar _ | .sequence _ => by
    rw [listAllMember,walk,onlyOf_nameChars,below_singleton]
    · simp
    all_goals simp

theorem listEntries_eq {perfix : Text} (h : ValidName perfix) : (entries : List (Node × Node)) →
    listEntries perfix entries = below perfix (walkEntries entries)
  | [] => rfl
  | (key,value) :: rest => by
    rw [listEntries,walkEntries,listAllMember_eq _ value,listEntries_eq h rest,below_append,
      below_map_cons h]

end

theorem listAllMember_nil (root : Node) : listAllMember [] root = visited root := listAllMember_eq [] root

section Load
variable {y : YamlCpp} {W : Type*}

theorem map_toLower {name : Text} (h : ValidName name) : name.map Char.toLower = name := by
  have hc : ∀ c ∈ nameChars, c.toLower = c := List.all_iff_forall_prop.mp rfl
  calc
    name.map Char.toLower = name.map id :=
      List.map_congr_left fun c hn => hc c ((mem_nameChars c).mpr (h c hn))
    _ = name := List.map_id name

theorem validName_of_mem_visited {root : Node} {p : Text × Node} (h : p ∈ visited root) : ValidName p.1 := by
  obtain ⟨q,hq,rfl⟩ := List.mem_map.mp h
  have hv := of_decide_eq_true (List.mem_filter.mp hq).2
  exact hv q.1 ((List.mem_inits _ _).mpr (List.prefix_refl _))

def debugVar : ConfigVarBase W where
  T := Bool
  beq := inferInstance
  cast := boolCast
  var := ⟨"system.debug".toList,[],false,.empty⟩

/-- Set in the nested spelling, and then in the dotted one to a text that is no flag. -/
def debugDocument : Node :=
  .map [(.scalar "system".toList,.map [(.scalar "debug".toList,.scalar ['1'])]),
    (.scalar "system.debug".toList,.scalar "maybe".toList)]

def debugYaml : YamlCpp where
  load s := .ok (.scalar s)
  emit
    | .scalar s => s
    | .null => ['~']
    | .sequence _ => "[]".toList
    | .map _ => "system:\n  debug: 1\nsystem.debug: maybe".toList
  asString
    | .scalar s => .ok s
    | _ => .error "bad conversion".toList
  readsAs s i := s == (toString i).toList
  badSubscript key := "operator[] call on a scalar (key: \"".toList ++ key ++ "\")".toList
  invalidNode := "invalid node".toList

end Load
end Zcs.Config
