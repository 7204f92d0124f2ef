import Mathlib.Order.CompletePartialOrder
import Zcs.Config.LexicalCast
import Zcs.Foundation.Pointwise

/-! # Containers of containers survive the way to text and back

The law that is carried through the nesting is the one about a single node: what an
element is loaded as decodes, from its emitted text, to the same element. For a
container the node is the one its encoder has built itself, so the law for the
container follows from the law for the elements and from yaml-cpp reading back that
one node.
-/
namespace Zcs.Config
open List (Forall₂)

/-- `operator==` of `std::set` and, for pairs, of `std::map`. -/
def setSame {T : Type} (lt : T → T → Bool) (same : Setoid T) : Setoid (SortedSet T lt) where
  r s t := listSame same s.toList t.toList
  iseqv := ⟨fun _ => (listSame same).refl' _,(listSame same).symm',(listSame same).trans'⟩

def pairSame {T : Type} (same : Setoid T) : Setoid (Text × T) where
  r a b := a.1 = b.1 ∧ same a.2 b.2
  iseqv := ⟨fun a => ⟨rfl,same.refl' a.2⟩,fun h => ⟨h.1.symm,same.symm' h.2⟩,
    fun h h' => ⟨h.1.trans h'.1,same.trans' h.2 h'.2⟩⟩

/-- The order calls two elements equivalent exactly if they are the same. -/
def Consistent {T : Type} (lt : T → T → Bool) (same : Setoid T) : Prop :=
  ∀ a b, lt a b = false ∧ lt b a = false ↔ same a b

theorem Consistent.lt_congr {T : Type} {lt : T → T → Bool} [StrictWeakOrder lt] {same : Setoid T}
    (h : Consistent lt same) {a a' b b' : T} (ha : same a' a) (hb : same b' b) (hab : lt a b = true) :
    lt a' b' = true := by
  -- replace one side at a time
  have hl : ∀ {a a' b}, same a' a → lt a b = true → lt a' b = true := by
    intro a a' b ha hab
    by_contra hn
    cases hba : lt b a' with
    | true =>
      have haa : lt a a' = true := StrictWeakOrder.trans hab hba
      simp [((h a' a).mpr ha).2] at haa
    | false =>
      have hs : same a b := same.trans' (same.symm' ha) ((h a' b).mp ⟨by simpa using hn,hba⟩)
      simp [((h a b).mpr hs).1] at hab
  have hr : ∀ {a b b'}, same b' b → lt a b = true → lt a b' = true := by
    intro a b b' hb hab
    by_contra hn
    cases hba : lt b' a with
    | true =>
      have hbb : lt b' b = true := StrictWeakOrder.trans hba hab
      simp [((h b' b).mpr hb).1] at hbb
    | false =>
      have hs : same a b := same.trans' ((h a b').mp ⟨by simpa using hn,hba⟩) hb
      simp [((h a b).mpr hs).1] at hab
  exact hr hb (hl ha hab)

namespace LexicalCast
variable (y : YamlCpp) {T : Type} (cast : LexicalCast T) (same : Setoid T)

/-- `dec(emit(Load(enc(x)))) = x` -/
def Kept (x : T) : Prop :=
  ∃ node x', cast.loaded y x = .ok node ∧ cast.fromStr (y.emit node) = .ok x' ∧ same x' x

/-- `dec(enc(x)) = x` -/
def Restored (x : T) : Prop := ∃ s x', cast.toStr x = .ok s ∧ cast.fromStr s = .ok x' ∧ same x' x

variable {y cast same}

theorem kept_of_node {S : Type} {c : LexicalCast S} {sameS : Setoid S} {v v' : S} {node : Node}
    (hto : c.toStr v = .ok (y.emit node)) (hl : y.Loads node) (hfrom : c.fromStr (y.emit node) = .ok v')
    (hs : sameS v' v) : c.Kept y sameS v ∧ c.Restored sameS v := by
  have hn : c.loaded y v = .ok node := by
    rw [loaded,hto]
    exact hl
  exact ⟨⟨node,v',hn,hfrom,hs⟩,⟨y.emit node,v',hto,hfrom,hs⟩⟩

theorem kept_sequence {S : Type} {c : LexicalCast S} {sameS : Setoid S} (toList : S → List T)
    {add : S → T → S} {init v : S} (hto : c.toStr v = do return y.emit (← sequenceNode y cast (toList v)))
    (hfrom : c.fromStr = readItems y cast add init) (hk : ∀ x ∈ toList v, cast.Kept y same x)
    (hl : ∀ node, sequenceNode y cast (toList v) = .ok node → y.Loads node)
    (hs : ∀ xs, Forall₂ same xs (toList v) → sameS (xs.foldl add init) v) :
    c.Kept y sameS v ∧ c.Restored sameS v := by
  obtain ⟨ps,hps⟩ := exists_forall₂ (R := fun x (p : Node × T) => cast.loaded y x = .ok p.1 ∧
    cast.fromStr (y.emit p.1) = .ok p.2 ∧ same p.2 x) fun x hx => by
      obtain ⟨node,x',h⟩ := hk x hx
      exact ⟨(node,x'),h⟩
  have hnode : sequenceNode y cast (toList v) = .ok (.sequence (ps.map Prod.fst)) := by
    rw [sequenceNode,mapM_eq_ok (List.forall₂_map_right_iff.mpr (hps.imp fun _ _ h => h.1))]
    rfl
  have hload := hl _ hnode
  have hread : readItems y cast add init (y.emit (.sequence (ps.map Prod.fst))) =
      .ok ((ps.map Prod.snd).foldl add init) := by
    rw [readItems,hload]
    refine foldlM_eq_ok ?_ init
    rw [YamlCpp.itemTexts_sequence,List.map_map,List.forall₂_map_left_iff,List.forall₂_map_right_iff,
      List.forall₂_same]
    intro p hp s
    obtain ⟨_,_,_,hp,_⟩ := exists_of_mem_left hps.flip hp
    rw [Function.comp_apply,addItem,hp]
    rfl
  refine kept_of_node (by rw [hto,hnode]; rfl) hload (hfrom ▸ hread) (hs _ ?_)
  exact List.forall₂_map_left_iff.mpr (hps.imp fun _ _ h => h.2.2).flip

theorem kept_entries {S : Type} {c : LexicalCast S} {sameS : Setoid S} (toList : S → List (Text × T))
    {add : S → Text × T → S} {init v : S} (hto : c.toStr v = do return y.emit (← mapNode y cast (toList v)))
    (hfrom : c.fromStr = readEntries y cast add init) (hd : ((toList v).map Prod.fst).Nodup)
    (hk : ∀ e ∈ toList v, cast.Kept y same e.2)
    (hl : ∀ node, mapNode y cast (toList v) = .ok node → y.Loads node)
    (hs : ∀ es, Forall₂ (pairSame same) es (toList v) → sameS (es.foldl add init) v) :
    c.Kept y sameS v ∧ c.Restored sameS v := by
  -- a key, the node of its value, and the value that comes back
  obtain ⟨ps,hps⟩ := exists_forall₂ (R := fun (e : Text × T) (p : Text × Node × T) => p.1 = e.1 ∧
    cast.loaded y e.2 = .ok p.2.1 ∧ cast.fromStr (y.emit p.2.1) = .ok p.2.2 ∧ same p.2.2 e.2)
    fun e he => by
      obtain ⟨node,x',h⟩ := hk e he
      exact ⟨(e.1,node,x'),rfl,h⟩
  let kvs : List (Text × Node) := ps.map fun p => (p.1,p.2.1)
  have hkeys : kvs.map Prod.fst = (toList v).map Prod.fst := by
    have h : Forall₂ (· = ·) (kvs.map Prod.fst) ((toList v).map Prod.fst) := by
      simp only [kvs,List.map_map,List.forall₂_map_left_iff,List.forall₂_map_right_iff]
      exact (hps.imp fun _ _ h => h.1).flip
    rwa [List.forall₂_eq_eq_eq] at h
  have hnode : mapNode y cast (toList v) = .ok (.map (kvs.map fun kv => (.scalar kv.1,kv.2))) := by
    have hput : (toList v).foldlM (cast.putLoaded y) [] =
        .ok (kvs.foldl (fun (fields : Fields) kv => fields.put kv.1 kv.2) []) := by
      refine foldlM_eq_ok (List.forall₂_map_right_iff.mpr (hps.imp fun e p h fields => ?_)) []
      rw [putLoaded,h.2.1,h.1]
      rfl
    rw [mapNode,hput,Fields.foldl_put (hkeys ▸ hd) (by simp)]
    rfl
  have hload := hl _ hnode
  have hread : readEntries y cast add init (y.emit (.map (kvs.map fun kv => (.scalar kv.1,kv.2)))) =
      .ok ((ps.map fun p => (p.1,p.2.2)).foldl add init) := by
    rw [readEntries,hload]
    refine foldlM_eq_ok ?_ init
    rw [List.map_map,List.forall₂_map_left_iff,List.forall₂_map_right_iff,List.forall₂_same]
    intro p hp s
    obtain ⟨_,_,_,_,hp,_⟩ := exists_of_mem_left hps.flip hp
    rw [Function.comp_apply,addEntry,hp]
    rfl
  refine kept_of_node (by rw [hto,hnode]; rfl) hload (hfrom ▸ hread) (hs _ ?_)
  exact List.forall₂_map_left_iff.mpr (hps.imp fun _ _ h => ⟨h.1,h.2.2.2⟩).flip

end LexicalCast

theorem foldl_push {T : Type} (xs acc : List T) : xs.foldl (fun vec x => vec ++ [x]) acc = acc ++ xs := by
  induction xs generalizing acc with
  | nil => simp
  | cons x xs ih => rw [List.foldl_cons,ih,List.append_assoc,List.singleton_append]

theorem setSame_foldl_insert {T : Type} {lt : T → T → Bool} [StrictWeakOrder lt] {same : Setoid T}
    (hlt : ∀ a a' b b', same a' a → same b' b → lt a b = true → lt a' b' = true) {xs : List T}
    {s : SortedSet T lt} (h : Forall₂ same xs s.toList) :
    setSame lt same (xs.foldl SortedSet.insert .empty) s := by
  have hp : xs.Pairwise fun a b => lt a b = true := pairwise_of_forall₂ hlt h s.sorted
  have hx : (xs.foldl SortedSet.insert (.empty : SortedSet T lt)).toList = xs :=
    SortedSet.toList_insertAll hp
  change Forall₂ same (xs.foldl SortedSet.insert (.empty : SortedSet T lt)).toList s.toList
  rwa [hx]

theorem sameElements_foldl_insert {T : Type} {key same : Setoid T} [DecidableRel key]
    (hle : ∀ {a b}, same a b → key a b) (arr : Arrangement T) {xs : List T} {t : HashTable key}
    (h : Forall₂ same xs t.toList) :
    HashTable.sameElements key same (xs.foldl (HashTable.insert arr) .empty) t := by
  have hp : xs.Pairwise fun a b => ¬ key a b :=
    pairwise_of_forall₂ (fun a a' b b' ha hb hn hk =>
      hn (key.trans' (key.trans' (key.symm' (hle ha)) hk) (hle hb))) h t.distinct
  have hperm := HashTable.perm_foldl_insert arr (.empty : HashTable key) hp
  constructor
  · intro a ha
    obtain ⟨b,hb,hab⟩ := exists_of_mem_left h (hperm.mem_iff.mp ha)
    exact ⟨b,hb,hab⟩
  · intro b hb
    obtain ⟨a,ha,hab⟩ := exists_of_mem_left h.flip hb
    exact ⟨a,hperm.mem_iff.mpr ha,hab⟩

namespace LexicalCast
variable {y : YamlCpp} {T : Type} {cast : LexicalCast T} {same : Setoid T}

/-- `LexicalCast` of `std::vector`; that of `std::list` is the same code. -/
theorem kept_vector {v : List T} (hk : ∀ x ∈ v, cast.Kept y same x)
    (hl : ∀ node, sequenceNode y cast v = .ok node → y.Loads node) :
    (cast.vector y).Kept y (listSame same) v ∧ (cast.vector y).Restored (listSame same) v := by
  refine kept_sequence (fun v => v) rfl rfl hk hl fun xs hxs => ?_
  rwa [foldl_push,List.nil_append]

theorem kept_set {lt : T → T → Bool} [StrictWeakOrder lt] (hlt : Consistent lt same) {v : SortedSet T lt}
    (hk : ∀ x ∈ v.toList, cast.Kept y same x)
    (hl : ∀ node, sequenceNode y cast v.toList = .ok node → y.Loads node) :
    (cast.set y lt).Kept y (setSame lt same) v ∧ (cast.set y lt).Restored (setSame lt same) v :=
  kept_sequence SortedSet.toList rfl rfl hk hl fun _ hxs =>
    setSame_foldl_insert (fun _ _ _ _ => hlt.lt_congr) hxs

theorem kept_unorderedSet [DecidableRel same] (arr : Arrangement T) {v : HashTable same}
    (hk : ∀ x ∈ v.toList, cast.Kept y same x)
    (hl : ∀ node, sequenceNode y cast v.toList = .ok node → y.Loads node) :
    (cast.unorderedSet y same arr).Kept y (HashTable.sameElements same same) v ∧
      (cast.unorderedSet y same arr).Restored (HashTable.sameElements same same) v :=
  kept_sequence HashTable.toList rfl rfl hk hl fun _ hxs => sameElements_foldl_insert id arr hxs

theorem kept_map {v : SortedSet (Text × T) keyLt} (hk : ∀ e ∈ v.toList, cast.Kept y same e.2)
    (hl : ∀ node, mapNode y cast v.toList = .ok node → y.Loads node) :
    (cast.map y).Kept y (setSame keyLt (pairSame same)) v ∧
      (cast.map y).Restored (setSame keyLt (pairSame same)) v := by
  have hd : (v.toList.map Prod.fst).Nodup :=
    List.pairwise_map.mpr (v.sorted.imp fun h => ne_of_lt (by simpa using h))
  refine kept_entries SortedSet.toList rfl rfl hd hk hl fun _ hes =>
    setSame_foldl_insert (fun a a' b b' ha hb h => ?_) hes
  rw [keyLt,ha.1,hb.1]
  exact h

theorem kept_unorderedMap (arr : Arrangement (Text × T)) {v : HashTable (sameKey T)}
    (hk : ∀ e ∈ v.toList, cast.Kept y same e.2)
    (hl : ∀ node, mapNode y cast v.toList = .ok node → y.Loads node) :
    (cast.unorderedMap y arr).Kept y (HashTable.sameElements (sameKey T) (pairSame same)) v ∧
      (cast.unorderedMap y arr).Restored (HashTable.sameElements (sameKey T) (pairSame same)) v :=
  kept_entries HashTable.toList rfl rfl (List.pairwise_map.mpr v.distinct) hk hl fun _ hes =>
    sameElements_foldl_insert And.left arr hes

end LexicalCast

section Nested
open LexicalCast
variable (y : YamlCpp) {T₀ : Type} (cast₀ : LexicalCast T₀) (same₀ : Setoid T₀)

/-- Encoding a container builds a sequence, after what its elements build. -/
def SequenceBuilt {T : Type} (c : LexicalCast T) (b : T → Node → Prop) (xs : List T) (node : Node) : Prop :=
  sequenceNode y c xs = .ok node ∨ ∃ x ∈ xs, b x node

def MapBuilt {T : Type} (c : LexicalCast T) (b : T → Node → Prop) (es : List (Text × T)) (node : Node) :
    Prop :=
  mapNode y c es = .ok node ∨ ∃ e ∈ es, b e.2 node

/-- The codecs of the types that are nested over a base type, with the depth, the
equality of the type and the nodes that encoding a value builds. -/
inductive Nested : ℕ → (T : Type) → LexicalCast T → Setoid T → (T → Node → Prop) → Prop
  | base : Nested 0 T₀ cast₀ same₀ fun _ _ => False
  | vector {n T c b} {s : Setoid T} (h : Nested n T c s b) :
    Nested (n + 1) _ (c.vector y) (listSame s) (SequenceBuilt y c b)
  | list {n T c b} {s : Setoid T} (h : Nested n T c s b) :
    Nested (n + 1) _ (c.list y) (listSame s) (SequenceBuilt y c b)
  | set {n T c b} {s : Setoid T} (lt : T → T → Bool) [StrictWeakOrder lt] (hlt : Consistent lt s)
    (h : Nested n T c s b) :
    Nested (n + 1) _ (c.set y lt) (setSame lt s) fun v => SequenceBuilt y c b v.toList
  | unorderedSet {n T c b} {s : Setoid T} [DecidableRel s] (arr : Arrangement T) (h : Nested n T c s b) :
    Nested (n + 1) _ (c.unorderedSet y s arr) (HashTable.sameElements s s)
      fun v => SequenceBuilt y c b v.toList
  | map {n T c b} {s : Setoid T} (h : Nested n T c s b) :
    Nested (n + 1) _ (c.map y) (setSame keyLt (pairSame s)) fun v => MapBuilt y c b v.toList
  | unorderedMap {n T c b} {s : Setoid T} (arr : Arrangement (Text × T)) (h : Nested n T c s b) :
    Nested (n + 1) _ (c.unorderedMap y arr) (HashTable.sameElements (sameKey T) (pairSame s))
      fun v => MapBuilt y c b v.toList

variable {y cast₀ same₀}

/-- Every nesting of the six containers keeps every value, and restores it as soon
as there is a container at all. -/
theorem nested_kept (h₀ : ∀ x, cast₀.Kept y same₀ x) {n : ℕ} {T : Type} {c : LexicalCast T}
    {s : Setoid T} {b : T → Node → Prop} (h : Nested y cast₀ same₀ n T c s b) (v : T)
    (hb : ∀ node, b v node → y.Loads node) : c.Kept y s v ∧ (0 < n → c.Restored s v) := by
  induction h with
  | base => exact ⟨h₀ v,fun hn => absurd hn (Nat.lt_irrefl 0)⟩
  | vector h ih | list h ih =>
    have hv := kept_vector (fun x hx => (ih x fun node hn => hb node (.inr ⟨x,hx,hn⟩)).1)
      fun node hn => hb node (.inl hn)
    exact ⟨hv.1,fun _ => hv.2⟩
  | set lt hlt h ih =>
    have hv := kept_set hlt (fun x hx => (ih x fun node hn => hb node (.inr ⟨x,hx,hn⟩)).1)
      fun node hn => hb node (.inl hn)
    exact ⟨hv.1,fun _ => hv.2⟩
  | unorderedSet arr h ih =>
    have hv := kept_unorderedSet arr (fun x hx => (ih x fun node hn => hb node (.inr ⟨x,hx,hn⟩)).1)
      fun node hn => hb node (.inl hn)
    exact ⟨hv.1,fun _ => hv.2⟩
  | map h ih =>
    have hv := kept_map (fun e he => (ih e.2 fun node hn => hb node (.inr ⟨e,he,hn⟩)).1)
      fun node hn => hb node (.inl hn)
    exact ⟨hv.1,fun _ => hv.2⟩
  | unorderedMap arr h ih =>
    have hv := kept_unorderedMap arr (fun e he => (ih e.2 fun node hn => hb node (.inr ⟨e,he,hn⟩)).1)
      fun node hn => hb node (.inl hn)
    exact ⟨hv.1,fun _ => hv.2⟩

def flagItems : Text := "- 1\n- 0".toList
def flagEntries : Text := "a:\n  - 1\n  - 0".toList

/-- What yaml-cpp does to the texts and nodes of one value. -/
def flagYaml : YamlCpp where
  load s :=
    if s = flagItems then .ok (.sequence [.scalar ['1'],.scalar ['0']])
    else if s = flagEntries then .ok (.map [(.scalar ['a'],.sequence [.scalar ['1'],.scalar ['0']])])
    else .ok (.scalar s)
  emit
    | .null => ['~']
    | .scalar s => s
    | .sequence _ => flagItems
    | .map _ => flagEntries
  asString
    | .scalar s => .ok s
    | _ => .error "bad conversion".toList
  readsAs s i := s == (toString i).toList
  badSubscript key := "operator[] call on a scalar (key: \"".toList ++ key ++ "\")".toList
  invalidNode := "invalid node".toList

def flags : SortedSet (Text × List Bool) keyLt := SortedSet.empty.insert (['a'],[true,false])

theorem nested_kept_flags :
    ((boolCast.vector flagYaml).map flagYaml).Kept flagYaml (setSame keyLt (pairSame (listSame ⊥))) flags ∧
      (0 < 2 → ((boolCast.vector flagYaml).map flagYaml).Restored
        (setSame keyLt (pairSame (listSame ⊥))) flags) := by
  have hnode : mapNode flagYaml (boolCast.vector flagYaml) flags.toList =
    .ok (.map [(.scalar ['a'],.sequence [.scalar ['1'],.scalar ['0']])]) := rfl
  have hitem : sequenceNode flagYaml boolCast [true,false] =
    .ok (.sequence [.scalar ['1'],.scalar ['0']]) := rfl
  refine nested_kept (fun x => ?_) (.map (.vector .base)) flags ?_
  · cases x
    · exact ⟨.scalar ['0'],false,rfl,rfl,rfl⟩
    · exact ⟨.scalar ['1'],true,rfl,rfl,rfl⟩
  · rintro node (h | ⟨e,he,h | ⟨_,_,h⟩⟩)
    · obtain rfl := Except.ok.inj (hnode.symm.trans h)
      rfl
    · obtain rfl := List.mem_singleton.mp he
      obtain rfl := Except.ok.inj (hitem.symm.trans h)
      rfl
    · exact h.elim

end Nested
end Zcs.Config
