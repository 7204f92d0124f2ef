import Zcs.Config.Nested

/-! # Containers of strings

Every string of a container is parsed as a document of its own when the container is
encoded, and the emitted text of that document is what the decoder takes for the
string. So exactly the strings come back that are their own parsed and emitted text.
-/
namespace Zcs
open List (Forall₂)

/-- The text is what is emitted for the node that it is loaded as. -/
def YamlCpp.Fixed (y : YamlCpp) (s : Text) : Prop := ∃ node, y.load s = .ok node ∧ y.emit node = s

namespace Config

/-- `boost::lexical_cast` between `std::string` and `std::string`. -/
def stringCast : LexicalCast Text where
  fromStr s := .ok s
  toStr s := .ok s

namespace LexicalCast
variable {y : YamlCpp}

theorem kept_of_fixed {s : Text} (h : y.Fixed s) : stringCast.Kept y ⊥ s := by
  obtain ⟨node,hl,he⟩ := h
  exact ⟨node,s,hl,congrArg Except.ok he,rfl⟩

theorem listSame_bot {T : Type} {xs ys : List T} (h : listSame ⊥ xs ys) : xs = ys := by
  have h : Forall₂ (· = ·) xs ys := h
  rwa [List.forall₂_eq_eq_eq] at h

theorem listSame_pair_bot {es es' : List (Text × Text)} (h : listSame (pairSame ⊥) es es') : es = es' := by
  have h : Forall₂ (pairSame ⊥) es es' := h
  have h : Forall₂ (· = ·) es es' := h.imp fun _ _ he => Prod.ext he.1 he.2
  rwa [List.forall₂_eq_eq_eq] at h

/-- What the decoder of a sequence container reads from the nodes of its elements. -/
theorem readItems_emit {S : Type} (add : S → Text → S) (init : S) {nodes : List Node}
    (h : y.Loads (.sequence nodes)) :
    readItems y stringCast add init (y.emit (.sequence nodes)) = .ok ((nodes.map y.emit).foldl add init) := by
  rw [readItems,h]
  refine foldlM_eq_ok ?_ init
  rw [YamlCpp.itemTexts_sequence]
  exact List.forall₂_same.mpr fun _ _ _ => rfl

theorem readEntries_emit {S : Type} (add : S → Text × Text → S) (init : S) {entries : Fields}
    (h : y.Loads (.map entries)) :
    readEntries y stringCast add init (y.emit (.map entries)) =
      .ok ((entries.map fun e => (e.1.text,y.emit e.2)).foldl add init) := by
  rw [readEntries,h]
  refine foldlM_eq_ok ?_ init
  rw [List.forall₂_map_right_iff]
  exact List.forall₂_same.mpr fun _ _ _ => rfl

/-- If the nodes that the strings are loaded as are emitted as the strings, every one of
the strings is fixed. -/
theorem fixed_of_emit {v : List Text} {nodes : List Node}
    (h : Forall₂ (fun s node => stringCast.loaded y s = .ok node) v nodes) (he : nodes.map y.emit = v) :
    ∀ s ∈ v, y.Fixed s := by
  induction h with
  | nil => simp
  | cons hload _ ih =>
    obtain ⟨hhead,htail⟩ := List.cons.inj he
    exact List.forall_mem_cons.mpr ⟨⟨_,hload,hhead⟩,ih htail⟩

theorem restored_vector_iff {v : List Text}
    (hl : ∀ node, sequenceNode y stringCast v = .ok node → y.Loads node) :
    (stringCast.vector y).Restored ⊥ v ↔ ∀ s ∈ v, y.Fixed s := by
  constructor
  · rintro ⟨s,v',hto,hfrom,rfl⟩
    obtain ⟨node,hnode,hs⟩ := bind_eq_ok_iff.mp hto
    obtain rfl := Except.ok.inj hs
    have hloads := hl node hnode
    obtain ⟨nodes,hnodes,hn⟩ := bind_eq_ok_iff.mp hnode
    obtain rfl := Except.ok.inj hn
    have hread := readItems_emit (fun vec x => vec ++ [x]) [] hloads
    rw [foldl_push,List.nil_append] at hread
    exact fixed_of_emit (forall₂_of_mapM_eq_ok hnodes) (Except.ok.inj (hread.symm.trans hfrom))
  · intro h
    obtain ⟨_,s,v',hto,hfrom,hv⟩ := kept_vector (fun s hs => kept_of_fixed (h s hs)) hl
    exact ⟨s,v',hto,hfrom,listSame_bot hv⟩

theorem nodup_keys (v : SortedSet (Text × Text) keyLt) : (v.toList.map Prod.fst).Nodup :=
  List.pairwise_map.mpr (v.sorted.imp fun h => ne_of_lt (by simpa using h))

/-- The entries that the encoder of a map makes of its values. -/
theorem mapNode_eq {es : List (Text × Text)} (hd : (es.map Prod.fst).Nodup) {node : Node}
    (h : mapNode y stringCast es = .ok node) :
    ∃ nodes, Forall₂ (fun s node => stringCast.loaded y s = .ok node) (es.map Prod.snd) nodes ∧
      node = .map (((es.map Prod.fst).zip nodes).map fun kv => (.scalar kv.1,kv.2)) := by
  obtain ⟨fields,hfields,hn⟩ := bind_eq_ok_iff.mp h
  obtain rfl := Except.ok.inj hn
  let put (fields : Fields) (e : Text × Text) (node : Node) : Fields := fields.put e.1 node
  obtain ⟨nodes,hnodes,rfl⟩ := forall₂_of_foldlM_eq_ok (g := put) hfields
  have hlen : (es.map Prod.fst).length ≤ nodes.length := by simpa using hnodes.length_eq.le
  have hput : (es.zip nodes).foldl (fun s p => put s p.1 p.2) [] =
      ((es.map Prod.fst).zip nodes).foldl (fun (fields : Fields) kv => fields.put kv.1 kv.2) [] := by
    rw [List.zip_map_left,List.foldl_map]
    rfl
  refine ⟨nodes,List.forall₂_map_left_iff.mpr hnodes,?_⟩
  rw [hput,Fields.foldl_put (by rwa [List.map_fst_zip hlen]) (by simp),List.nil_append]

theorem restored_map_iff {v : SortedSet (Text × Text) keyLt}
    (hl : ∀ node, mapNode y stringCast v.toList = .ok node → y.Loads node) :
    (stringCast.map y).Restored ⊥ v ↔ ∀ e ∈ v.toList, y.Fixed e.2 := by
  constructor
  · rintro ⟨s,v',hto,hfrom,rfl⟩
    obtain ⟨node,hnode,hs⟩ := bind_eq_ok_iff.mp hto
    obtain rfl := Except.ok.inj hs
    have hloads := hl node hnode
    obtain ⟨nodes,hnodes,rfl⟩ := mapNode_eq (nodup_keys v') hnode
    have hread := readEntries_emit SortedSet.insert (.empty : SortedSet (Text × Text) keyLt) hloads
    have hlen : (v'.toList.map Prod.fst).length = (nodes.map y.emit).length := by simpa using hnodes.length_eq
    have hentries : (((v'.toList.map Prod.fst).zip nodes).map fun kv => (Node.scalar kv.1,kv.2)).map
        (fun e => (e.1.text,y.emit e.2)) = (v'.toList.map Prod.fst).zip (nodes.map y.emit) := by
      rw [List.map_map,List.zip_map_right]
      rfl
    rw [hentries] at hread
    have hset := Except.ok.inj (hread.symm.trans hfrom)
    -- the keys are in order, so that nothing is lost or moved when the entries are inserted
    have hsorted : ((v'.toList.map Prod.fst).zip (nodes.map y.emit)).Pairwise fun a b => keyLt a b = true := by
      have hkeys : (((v'.toList.map Prod.fst).zip (nodes.map y.emit)).map Prod.fst).Pairwise fun a b => a < b := by
        rw [List.map_fst_zip hlen.le]
        exact List.pairwise_map.mpr (v'.sorted.imp fun h => by simpa using h)
      exact (List.pairwise_map.mp hkeys).imp fun h => by simpa using h
    have hlist : (v'.toList.map Prod.fst).zip (nodes.map y.emit) = v'.toList :=
      (SortedSet.toList_insertAll (s := .empty) hsorted).symm.trans (congrArg SortedSet.toList hset)
    have hemit : nodes.map y.emit = v'.toList.map Prod.snd := by
      rw [← hlist,List.map_snd_zip hlen.ge]
    intro e he
    exact fixed_of_emit hnodes hemit e.2 (List.mem_map_of_mem he)
  · intro h
    obtain ⟨_,s,v',hto,hfrom,hv⟩ := kept_map (fun e he => kept_of_fixed (h e he)) hl
    exact ⟨s,v',hto,hfrom,SortedSet.ext_toList (listSame_pair_bot hv)⟩

/-- If yaml-cpp reads back the document that the encoder has built, a container of strings
comes back exactly if each of its strings is what is emitted for its own parse. The keys
of a map are not concerned. -/
theorem strings_restored_iff (y : YamlCpp) :
    (∀ v : List Text, (∀ node, sequenceNode y stringCast v = .ok node → y.Loads node) →
      ((stringCast.vector y).Restored ⊥ v ↔ ∀ s ∈ v, y.Fixed s)) ∧
    (∀ v : List Text, (∀ node, sequenceNode y stringCast v = .ok node → y.Loads node) →
      ((stringCast.list y).Restored ⊥ v ↔ ∀ s ∈ v, y.Fixed s)) ∧
    ∀ v : SortedSet (Text × Text) keyLt, (∀ node, mapNode y stringCast v.toList = .ok node → y.Loads node) →
      ((stringCast.map y).Restored ⊥ v ↔ ∀ e ∈ v.toList, y.Fixed e.2) :=
  ⟨fun _ hl => restored_vector_iff hl,fun _ hl => restored_vector_iff hl,fun _ hl => restored_map_iff hl⟩

def plainItems : List Text := ["a".toList,"b c".toList,"a".toList]

def plainMap : SortedSet (Text × Text) keyLt :=
  (SortedSet.empty.insert ("k".toList,"a".toList)).insert ("l".toList,"b c".toList)

/-- What yaml-cpp does to a few texts and nodes. -/
def stringYaml : YamlCpp where
  load s :=
    if s = [] ∨ s = ['~'] then .ok .null
    else if s = "- ~".toList then .ok (.sequence [.null])
    else if s = "- a\n- b c\n- a".toList then .ok (.sequence (plainItems.map .scalar))
    else if s = "k: a\nl: b c".toList then .ok (.map (plainMap.toList.map fun e => (.scalar e.1,.scalar e.2)))
    else .ok (.scalar s)
  emit
    | .null => ['~']
    | .scalar s => s
    | .sequence [.null] => "- ~".toList
    | .sequence _ => "- a\n- b c\n- a".toList
    | .map _ => "k: a\nl: b c".toList
  asString
    | .scalar s => .ok s
    | _ => .error "bad conversion".toList
  readsAs s i := s == (toString i).toList
  badSubscript key := "operator[] call on a scalar (key: \"".toList ++ key ++ "\")".toList
  invalidNode := "invalid node".toList

theorem strings_restored_plain : (stringCast.vector stringYaml).Restored ⊥ plainItems ∧
    (stringCast.list stringYaml).Restored ⊥ plainItems ∧
    (stringCast.map stringYaml).Restored ⊥ plainMap := by
  have ha : stringYaml.Fixed "a".toList := ⟨.scalar "a".toList,rfl,rfl⟩
  have hb : stringYaml.Fixed "b c".toList := ⟨.scalar "b c".toList,rfl,rfl⟩
  have hitems : ∀ s ∈ plainItems, stringYaml.Fixed s := by
    intro s hs
    simp only [plainItems,List.mem_cons,List.not_mem_nil,or_false] at hs
    rcases hs with rfl | rfl | rfl
    · exact ha
    · exact hb
    · exact ha
  have hsequence : ∀ node, sequenceNode stringYaml stringCast plainItems = .ok node → stringYaml.Loads node := by
    intro node h
    obtain rfl := Except.ok.inj h
    rfl
  obtain ⟨hvector,hlist,hmap⟩ := strings_restored_iff stringYaml
  refine ⟨(hvector _ hsequence).mpr hitems,(hlist _ hsequence).mpr hitems,(hmap _ ?_).mpr ?_⟩
  · intro node h
    obtain rfl := Except.ok.inj h
    rfl
  · intro e he
    change e ∈ [("k".toList,"a".toList),("l".toList,"b c".toList)] at he
    simp only [List.mem_cons,List.not_mem_nil,or_false] at he
    rcases he with rfl | rfl
    · exact ha
    · exact hb

/-- An empty string is parsed as a null node and comes back as its text. -/
theorem empty_string_not_restored : ¬ ∀ (y : YamlCpp) (v : List Text),
    (∀ node, sequenceNode y stringCast v = .ok node → y.Loads node) → (stringCast.vector y).Restored ⊥ v := by
  intro h
  obtain ⟨s,v',hto,hfrom,hv⟩ := h stringYaml [[]] fun node h => by
    obtain rfl := Except.ok.inj h
    rfl
  have hs : "- ~".toList = s := Except.ok.inj hto
  subst hs
  have hread : (stringCast.vector stringYaml).fromStr "- ~".toList = .ok [['~']] := rfl
  obtain rfl := Except.ok.inj (hread.symm.trans hfrom)
  cases hv

end LexicalCast
end Config
end Zcs
