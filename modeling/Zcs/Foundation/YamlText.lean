import Zcs.Foundation.Yaml

/-! # A text format for documents

The results about texts rely on yaml-cpp to load what it has emitted. A plain format
that does so, in which every piece is announced by a letter, shows that this can be had.
-/
namespace Zcs.YamlText

def writeChars : Text → Text
  | [] => ['.']
  | c :: s => 'c' :: c :: writeChars s

mutual

def write : Node → Text
  | .null => ['n']
  | .scalar s => 's' :: writeChars s
  | .sequence items => 'q' :: writeItems items
  | .map entries => 'm' :: writeEntries entries

def writeItems : List Node → Text
  | [] => ['.']
  | node :: rest => '-' :: (write node ++ writeItems rest)

def writeEntries : List (Node × Node) → Text
  | [] => ['.']
  | (key,value) :: rest => '-' :: (write key ++ (write value ++ writeEntries rest))

end

def readChars : Text → Option (Text × Text)
  | '.' :: s => some ([],s)
  | 'c' :: c :: s => (readChars s).map fun p => (c :: p.1,p.2)
  | _ => none

mutual

def readNode : ℕ → Text → Option (Node × Text)
  | _ + 1, 'n' :: s => some (.null,s)
  | _ + 1, 's' :: s => (readChars s).map fun p => (.scalar p.1,p.2)
  | fuel + 1, 'q' :: s => (readItems fuel s).map fun p => (.sequence p.1,p.2)
  | fuel + 1, 'm' :: s => (readEntries fuel s).map fun p => (.map p.1,p.2)
  | _, _ => none

def readItems : ℕ → Text → Option (List Node × Text)
  | _ + 1, '.' :: s => some ([],s)
  | fuel + 1, '-' :: s => do
    let node ← readNode fuel s
    let rest ← readItems fuel node.2
    return (node.1 :: rest.1,rest.2)
  | _, _ => none

def readEntries : ℕ → Text → Option (List (Node × Node) × Text)
  | _ + 1, '.' :: s => some ([],s)
  | fuel + 1, '-' :: s => do
    let key ← readNode fuel s
    let value ← readNode fuel key.2
    let rest ← readEntries fuel value.2
    return ((key.1,value.1) :: rest.1,rest.2)
  | _, _ => none

end

theorem readChars_write (s r : Text) : readChars (writeChars s ++ r) = some (s,r) := by
  induction s with
  | nil => rfl
  | cons c s ih => simp [writeChars,readChars,ih]

mutual

theorem readNode_write (node : Node) {fuel : ℕ} (h : (write node).length ≤ fuel) (r : Text) :
    readNode fuel (write node ++ r) = some (node,r) := by
  obtain ⟨fuel,rfl⟩ : ∃ k, fuel = k + 1 := by
    cases fuel with
    | zero => cases node <;> simp [write] at h
    | succ k => exact ⟨k,rfl⟩
  cases node with
  | null => rfl
  | scalar s => simp [write,readNode,readChars_write]
  | sequence items =>
    have hi : (writeItems items).length ≤ fuel := by simpa [write] using h
    simp [write,readNode,readItems_write items hi r]
  | map entries =>
    have he : (writeEntries entries).length ≤ fuel := by simpa [write] using h
    simp [write,readNode,readEntries_write entries he r]

theorem readItems_write (items : List Node) {fuel : ℕ} (h : (writeItems items).length ≤ fuel) (r : Text) :
    readItems fuel (writeItems items ++ r) = some (items,r) := by
  obtain ⟨fuel,rfl⟩ : ∃ k, fuel = k + 1 := by
    cases fuel with
    | zero => cases items <;> simp [writeItems] at h
    | succ k => exact ⟨k,rfl⟩
  cases items with
  | nil => rfl
  | cons node rest =>
    simp only [writeItems,List.length_cons,List.length_append] at h
    have hn : (write node).length ≤ fuel := by omega
    have hr : (writeItems rest).length ≤ fuel := by omega
    simp [writeItems,readItems,readNode_write node hn (writeItems rest ++ r),readItems_write rest hr r]

theorem readEntries_write (entries : List (Node × Node)) {fuel : ℕ}
    (h : (writeEntries entries).length ≤ fuel) (r : Text) :
    readEntries fuel (writeEntries entries ++ r) = some (entries,r) := by
  obtain ⟨fuel,rfl⟩ : ∃ k, fuel = k + 1 := by
    cases fuel with
    | zero => cases entries <;> simp [writeEntries] at h
    | succ k => exact ⟨k,rfl⟩
  cases entries with
  | nil => rfl
  | cons entry rest =>
    obtain ⟨key,value⟩ := entry
    simp only [writeEntries,List.length_cons,List.length_append] at h
    have hk : (write key).length ≤ fuel := by omega
    have hv : (write value).length ≤ fuel := by omega
    have hr : (writeEntries rest).length ≤ fuel := by omega
    simp [writeEntries,readEntries,readNode_write key hk (write value ++ (writeEntries rest ++ r)),
      readNode_write value hv (writeEntries rest ++ r),readEntries_write rest hr r]

end

/-- yaml-cpp with this format for the texts. -/
def yaml : YamlCpp where
  load s :=
    match readNode s.length s with
    | some (node,[]) => .ok node
    | _ => .error "bad document".toList
  emit := write
  asString
    | .scalar s => .ok s
    | _ => .error "bad conversion".toList
  readsAs s i := s == (toString i).toList
  badSubscript key := "operator[] call on a scalar (key: \"".toList ++ key ++ "\")".toList
  invalidNode := "invalid node".toList

theorem loads_yaml (node : Node) : yaml.Loads node := by
  have h := readNode_write node (Nat.le_refl _) []
  rw [List.append_nil] at h
  simp [YamlCpp.Loads,yaml,h]

end Zcs.YamlText
