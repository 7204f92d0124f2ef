import Mathlib.Data.List.Forall2
import Zcs.Config.Reports

/-! # The case of keys

`LoadFromYaml` lower-cases the name of a node before it looks for the variable. The
flattening before it, however, passes over every node whose name has an upper-case
letter, so that only keys that are in lower case already are ever looked up.
-/
namespace Zcs.Config
open List (Forall₂)

def lower (s : Text) : Text := s.map Char.toLower

def lowerKey : Node → Node
  | .scalar s => .scalar (lower s)
  | key => key

/-- `root'` is the document `root` with the keys that lead to one node in lower case. -/
inductive Lowered (node : Node) : List Text → Node → Node → Prop
  | here : Lowered node [] node node
  | entry {keys : List Text} {value value' : Node} (h : Lowered node keys value value') (key : Node)
    (pre post : List (Node × Node)) :
    Lowered node (key.text :: keys) (.map (pre ++ (key,value) :: post))
      (.map (pre ++ (lowerKey key,value') :: post))

/-- The name of a node, whatever the case of its letters. -/
def Spells (n : Text) (keys : List Text) : Prop := lower (path keys) = n

instance (n : Text) (keys : List Text) : Decidable (Spells n keys) :=
  inferInstanceAs (Decidable (lower (path keys) = n))

def spelled (n : Text) (root : Node) : List (List Text × Node) := (walk root).filter fun p => Spells n p.1

theorem text_lowerKey (key : Node) : (lowerKey key).text = lower key.text := by
  cases key <;> rfl

theorem lower_joined (perfix key : Text) : lower (joined perfix key) = joined (lower perfix) (lower key) := by
  unfold joined lower
  cases perfix with
  | nil => rfl
  | cons c cs =>
    simp only [List.isEmpty_cons,Bool.false_eq_true,↓reduceIte,List.map_append,List.map_cons]
    rfl

theorem toLower_toLower (c : Char) : c.toLower.toLower = c.toLower := by
  -- the upper-case letters are exhausted by their codes
  have hupper : ∀ n, 65 ≤ n → n ≤ 90 → (Char.ofNat n).toLower.toLower = (Char.ofNat n).toLower := by
    intro n h h'
    interval_cases n <;> decide
  by_cases hc : c.val ≥ 'A'.val ∧ c.val ≤ 'Z'.val
  · have h := hupper c.toNat hc.1 hc.2
    rwa [Char.ofNat_toNat] at h
  · have h : c.toLower = c := dif_neg hc
    rw [h,h]

theorem lower_lower (s : Text) : lower (lower s) = lower s := by
  rw [lower,lower,List.map_map]
  exact List.map_congr_left fun c _ => toLower_toLower c

theorem path_lower (keys : List Text) : path (keys.map lower) = lower (path keys) := by
  have hfold : ∀ (keys : List Text) (perfix : Text),
      (keys.map lower).foldl joined (lower perfix) = lower (keys.foldl joined perfix) := by
    intro keys
    induction keys with
    | nil => exact fun _ => rfl
    | cons key keys ih =>
      intro perfix
      rw [List.map_cons,List.foldl_cons,List.foldl_cons,← lower_joined,ih]
  exact hfold keys []

theorem spells_congr {n : Text} {keys keys' : List Text} (h : keys'.map lower = keys.map lower) :
    Spells n keys' ↔ Spells n keys := by
  unfold Spells
  rw [← path_lower,← path_lower,h]

theorem walkEntries_append (es es' : List (Node × Node)) :
    walkEntries (es ++ es') = walkEntries es ++ walkEntries es' := by
  induction es with
  | nil => rfl
  | cons e es ih =>
    obtain ⟨key,value⟩ := e
    rw [List.cons_append,walkEntries,walkEntries,ih,List.append_assoc]

theorem lower_map_lower (keys : List Text) : (keys.map lower).map lower = keys.map lower := by
  simp [lower_lower]

/-- What lower-casing keys leaves of the preorder: the nodes in their places, under the
same names up to case. -/
theorem Lowered.walk {node root root' : Node} {keys : List Text} (h : Lowered node keys root root') :
    Forall₂ (fun p q => q.1.map lower = p.1.map lower) (walk root) (walk root') := by
  induction h with
  | here => exact List.forall₂_same.mpr fun _ _ => rfl
  | @entry keys value value' _ key pre post ih =>
    have hsame : ∀ es, Forall₂ (fun p q : List Text × Node => q.1.map lower = p.1.map lower)
        (walkEntries es) (walkEntries es) := fun es => List.forall₂_same.mpr fun _ _ => rfl
    rw [Config.walk,Config.walk,walkEntries_append,walkEntries_append,walkEntries,walkEntries]
    refine .cons rfl (List.rel_append (hsame pre) (List.rel_append ?_ (hsame post)))
    rw [List.forall₂_map_left_iff,List.forall₂_map_right_iff]
    exact ih.imp fun p q hpq => by simp [text_lowerKey,lower_lower,hpq]

/-- Both documents have the node, each under its keys. -/
theorem Lowered.mem {node root root' : Node} {keys : List Text} (h : Lowered node keys root root') :
    (keys,node) ∈ Config.walk root ∧ (keys.map lower,node) ∈ Config.walk root' := by
  induction h with
  | here =>
    have hmem : ([],node) ∈ Config.walk node := by cases node <;> simp [Config.walk]
    exact ⟨hmem,hmem⟩
  | @entry keys value value' _ key pre post ih =>
    rw [Config.walk,Config.walk,walkEntries_append,walkEntries_append,walkEntries,walkEntries]
    constructor
    · exact List.mem_cons_of_mem _ (List.mem_append_right _ (List.mem_append_left _
        (List.mem_map.mpr ⟨_,ih.1,rfl⟩)))
    · refine List.mem_cons_of_mem _ (List.mem_append_right _ (List.mem_append_left _
        (List.mem_map.mpr ⟨_,ih.2,?_⟩)))
      rw [text_lowerKey,List.map_cons]

theorem length_spelled (n : Text) {ps qs : List (List Text × Node)}
    (h : Forall₂ (fun p q => q.1.map lower = p.1.map lower) ps qs) :
    (qs.filter fun q => Spells n q.1).length = (ps.filter fun p => Spells n p.1).length := by
  have hfilter := List.rel_filter (p := fun p : List Text × Node => decide (Spells n p.1))
    (q := fun q : List Text × Node => decide (Spells n q.1)) (fun {p q} hpq => ?_) h
  · exact hfilter.length_eq.symm
  · simpa only [decide_eq_true_iff] using (spells_congr hpq).symm

theorem eq_singleton_of_mem {α : Type} {xs : List α} {x : α} (h : xs.length = 1) (hx : x ∈ xs) : xs = [x] := by
  obtain ⟨a,rfl⟩ := List.length_eq_one_iff.mp h
  rw [List.mem_singleton.mp hx]

/-- If only one node spells the name, it does so in both documents. -/
theorem Lowered.spelled {n : Text} {node root root' : Node} {keys : List Text}
    (h : Lowered node keys root root') (hn : Spells n keys) (hone : (spelled n root).length = 1) :
    Config.spelled n root = [(keys,node)] ∧ Config.spelled n root' = [(keys.map lower,node)] := by
  obtain ⟨hmem,hmem'⟩ := h.mem
  have hn' : Spells n (keys.map lower) := (spells_congr (lower_map_lower keys)).mpr hn
  have hone' := (length_spelled n h.walk).trans hone
  exact ⟨eq_singleton_of_mem hone (List.mem_filter.mpr ⟨hmem,decide_eq_true hn⟩),
    eq_singleton_of_mem hone' (List.mem_filter.mpr ⟨hmem',decide_eq_true hn'⟩)⟩

theorem prefix_joined (perfix key : Text) : perfix <+: joined perfix key := by
  unfold joined
  split_ifs with h
  · rw [List.isEmpty_iff.mp h]
    exact List.nil_prefix
  · exact List.prefix_append _ _

theorem suffix_joined (perfix key : Text) : key <:+ joined perfix key := by
  unfold joined
  split_ifs with h
  · exact List.suffix_refl _
  · exact ⟨perfix ++ ['.'],by simp⟩

theorem prefix_foldl_joined (keys : List Text) (perfix : Text) : perfix <+: keys.foldl joined perfix := by
  induction keys generalizing perfix with
  | nil => exact List.prefix_refl _
  | cons key keys ih => exact (prefix_joined perfix key).trans (ih (joined perfix key))

theorem visited_of_validName {keys : List Text} (h : ValidName (path keys)) : Visited keys := by
  intro pre hpre
  obtain ⟨post,rfl⟩ := (List.mem_inits _ _).mp hpre
  have hp : path pre <+: path (pre ++ post) := by
    rw [path,path,List.foldl_append]
    exact prefix_foldl_joined post _
  exact fun c hc => h c (hp.subset hc)

theorem lowerKey_of_validName {key : Node} (h : ValidName key.text) : lowerKey key = key := by
  cases key with
  | scalar s => exact congrArg Node.scalar (map_toLower h)
  | null | sequence | map => rfl

/-- Keys that can be listed are in lower case already. -/
theorem Lowered.eq_of_validName {node root root' : Node} {keys : List Text} (h : Lowered node keys root root')
    {perfix : Text} (hv : ValidName (keys.foldl joined perfix)) : root' = root := by
  induction h generalizing perfix with
  | here => rfl
  | @entry keys value value' _ key pre post ih =>
    have hjoined : ValidName (joined perfix key.text) :=
      fun c hc => hv c ((prefix_foldl_joined keys _).subset hc)
    have hkey : ValidName key.text := fun c hc => hjoined c ((suffix_joined perfix key.text).subset hc)
    rw [ih hv,lowerKey_of_validName hkey]

section Load
variable {y : YamlCpp} {W : Type*} {reports : Reports W}

/-- The node of a name that is spelled once is listed under the name, or not at all. -/
theorem visited_of_spelled {n : Text} (hv : ValidName n) {root node : Node} {keys : List Text}
    (h : spelled n root = [(keys,node)]) :
    ((visited root).filter fun it => it.1 = n) = if path keys = n then [(n,node)] else [] := by
  have hvisited : ((visited root).filter fun it => it.1 = n) =
      ((walk root).filter fun p => path p.1 = n).map fun p => (path p.1,p.2) := by
    rw [visited,List.filter_map,List.filter_filter]
    congr 1
    refine List.filter_congr fun p _ => ?_
    by_cases hp : path p.1 = n
    · have hvis : Visited p.1 := visited_of_validName (hp.symm ▸ hv)
      simp [hp,hvis]
    · simp [hp]
  have hspelled : ((walk root).filter fun p => path p.1 = n) = (spelled n root).filter fun p => path p.1 = n := by
    rw [spelled,List.filter_filter]
    refine List.filter_congr fun p _ => ?_
    by_cases hp : path p.1 = n
    · have hs : Spells n p.1 := by rw [Spells,hp,lower,map_toLower hv]
      simp [hp,hs]
    · simp [hp]
  rw [hvisited,hspelled,h]
  by_cases hp : path keys = n <;> simp [hp]

/-- Nodes of other names leave a variable alone, whatever the listeners of others do. -/
theorem find_of_loadNode {n : Text} {it : Text × Node} (hv : ValidName it.1) (hne : it.1 ≠ n)
    {datas datas' : ConfigVarMap W} {w w' : W} (h : reports.loadNode y (datas,w) it = some (datas',w')) :
    datas'.find n = datas.find n := by
  unfold Reports.loadNode at h
  rw [map_toLower hv] at h
  split_ifs at h with hnil
  · rw [(Prod.mk.inj (Option.some.inj h)).1]
  · cases hf : datas.find it.1 with
    | none =>
      simp only [hf] at h
      rw [(Prod.mk.inj (Option.some.inj h)).1]
    | some b =>
      simp only [hf] at h
      obtain ⟨r,_,hr⟩ := Option.map_eq_some_iff.mp h
      rw [← (Prod.mk.inj hr).1,SortedMap.find_assign,if_neg hne.symm]

theorem find_of_foldlM {n : Text} {its : List (Text × Node)} (hv : ∀ it ∈ its, ValidName it.1 ∧ it.1 ≠ n)
    {datas datas' : ConfigVarMap W} {w w' : W}
    (h : its.foldlM (reports.loadNode y) (datas,w) = some (datas',w')) : datas'.find n = datas.find n := by
  induction its generalizing datas w with
  | nil => rw [(Prod.mk.inj (Option.some.inj h)).1]
  | cons it its ih =>
    obtain ⟨hit,hits⟩ := List.forall_mem_cons.mp hv
    rw [List.foldlM_cons] at h
    obtain ⟨⟨d,u⟩,hnode,h⟩ := Option.bind_eq_some_iff.mp h
    exact (ih hits h).trans (find_of_loadNode hit.1 hit.2 hnode)

/-- A variable whose name has been passed over keeps its value. -/
theorem find_of_passed {n : Text} (hv : ValidName n) {root node : Node} {keys : List Text}
    (h : spelled n root = [(keys,node)]) (hp : path keys ≠ n) {datas datas' : ConfigVarMap W} {w w' : W}
    (hrun : reports.loadFromYaml y root datas w = some (datas',w')) : datas'.find n = datas.find n := by
  rw [Reports.loadFromYaml,listAllMember_nil] at hrun
  obtain ⟨_,_,hrun⟩ := Option.bind_eq_some_iff.mp hrun
  refine find_of_foldlM (fun it hit => ⟨validName_of_mem_visited hit,fun hn => ?_⟩) hrun
  have hnone := visited_of_spelled hv h
  rw [if_neg hp] at hnone
  exact List.filter_eq_nil_iff.mp hnone it hit (decide_eq_true hn)

/-- The one listed node of the name, and the world in which its text is handed over. -/
def HandedOver (reports : Reports W) (y : YamlCpp) (root : Node) (datas : ConfigVarMap W) (w : W) (n : Text)
    (node : Node) (wn : W) : Prop :=
  ∃ pre post d w₁, listAllMember [] root = pre ++ (n,node) :: post ∧ (∀ it ∈ pre, it.1 ≠ n) ∧
    reports.listAllMember root w = some w₁ ∧ pre.foldlM (reports.loadNode y) (datas,w₁) = some (d,wn)

/-- A name that is spelled once, by keys in lower case: its variable is given the text of
the node. -/
theorem find_of_handedOver {n : Text} (hv : ValidName n) (hn : n ≠ []) {root node : Node} {keys : List Text}
    (h : spelled n root = [(keys,node)]) (hp : path keys = n) {datas datas' : ConfigVarMap W} {w w' : W}
    {b : ConfigVarBase W} (hb : datas.find n = some b)
    (hrun : reports.loadFromYaml y root datas w = some (datas',w')) :
    ∃ wn b' wn', HandedOver reports y root datas w n node wn ∧
      reports.fromString b (nodeText y node) wn = some (b',wn') ∧ datas'.find n = some b' := by
  have hone := visited_of_spelled hv h
  rw [if_pos hp] at hone
  obtain ⟨pre,post,hsplit,hpre,_,hpost⟩ := List.filter_eq_cons_iff.mp hone
  have hvalid : ∀ it ∈ pre ++ (n,node) :: post, ValidName it.1 :=
    fun it hit => validName_of_mem_visited (hsplit ▸ hit)
  have hpre : ∀ it ∈ pre, ValidName it.1 ∧ it.1 ≠ n :=
    fun it hit => ⟨hvalid it (List.mem_append_left _ hit),fun he => hpre it hit (decide_eq_true he)⟩
  have hpost : ∀ it ∈ post, ValidName it.1 ∧ it.1 ≠ n := fun it hit =>
    ⟨hvalid it (List.mem_append_right _ (List.mem_cons_of_mem _ hit)),
      fun he => List.filter_eq_nil_iff.mp hpost it hit (decide_eq_true he)⟩
  rw [Reports.loadFromYaml,listAllMember_nil,hsplit] at hrun
  obtain ⟨w₁,hnames,hrun⟩ := Option.bind_eq_some_iff.mp hrun
  rw [List.foldlM_append] at hrun
  obtain ⟨⟨d,wn⟩,hfirst,hrun⟩ := Option.bind_eq_some_iff.mp hrun
  rw [List.foldlM_cons] at hrun
  obtain ⟨⟨d',wn'⟩,hnode,hrest⟩ := Option.bind_eq_some_iff.mp hrun
  have hd : d.find n = some b := (find_of_foldlM hpre hfirst).trans hb
  rw [Reports.loadNode,if_neg (by simpa using hn),map_toLower hv] at hnode
  simp only [hd] at hnode
  obtain ⟨⟨b',u⟩,hfrom,hassign⟩ := Option.map_eq_some_iff.mp hnode
  have hd' : d'.find n = some b' := by
    rw [← (Prod.mk.inj hassign).1,SortedMap.find_assign,if_pos rfl]
  refine ⟨wn,b',u,⟨pre,post,d,w₁,by rw [listAllMember_nil,hsplit],fun it hit => (hpre it hit).2,hnames,hfirst⟩,
    hfrom,?_⟩
  exact (find_of_foldlM hpost hrest).trans hd'

theorem withVal_eq_self_iff (b : ConfigVarBase W) (v : b.T) : b.withVal v = b ↔ v = b.var.val := by
  constructor
  · intro h
    obtain ⟨T,beq,cast,var⟩ := b
    unfold ConfigVarBase.withVal at h
    injection h with _ _ _ h
    exact congrArg ConfigVar.val h
  · rintro rfl
    rfl

/-- A text changes nothing if it cannot be decoded, if it decodes to what the variable has,
or if a listener throws. -/
def ConfigVarBase.Declines (b : ConfigVarBase W) (s : Text) (w : W) : Prop :=
  ∀ v, b.cast.fromStr s = .ok v → b.beq.beq b.var.val v = true ∨ v = b.var.val ∨
    ∃ w' what, ConfigVar.runCallbacks v b.var.val b.var.cbs.entries w = .threw w' what

theorem fromString_eq_self_iff {b b' : ConfigVarBase W} {s : Text} {w w' : W}
    (h : reports.fromString b s w = some (b',w')) : b' = b ↔ b.Declines s w := by
  obtain ⟨⟨_,var',_⟩,hvar,h⟩ := Option.bind_eq_some_iff.mp h
  obtain ⟨_,_,hr⟩ := Option.map_eq_some_iff.mp h
  obtain ⟨rfl,rfl⟩ := Prod.mk.inj hr
  unfold ConfigVarBase.Declines
  unfold ConfigVar.fromString at hvar
  cases hs : b.cast.fromStr s with
  | error _ =>
    simp only [hs,Option.some.injEq,Prod.mk.injEq] at hvar
    obtain ⟨_,rfl,_⟩ := hvar
    simp
  | ok v =>
    simp only [hs,ConfigVar.setValue] at hvar
    simp only [Except.ok.injEq,forall_eq']
    cases hb : b.beq.beq b.var.val v with
    | true =>
      simp only [hb,↓reduceIte,Option.some.injEq,Prod.mk.injEq] at hvar
      obtain ⟨_,rfl,_⟩ := hvar
      simp
    | false =>
      cases hc : ConfigVar.runCallbacks v b.var.val b.var.cbs.entries w with
      | crashed => simp [hb,hc] at hvar
      | threw u what =>
        simp only [hb,hc,Bool.false_eq_true,↓reduceIte,Option.some.injEq,Prod.mk.injEq] at hvar
        obtain ⟨_,rfl,_⟩ := hvar
        simp
      | returned u =>
        simp only [hb,hc,Bool.false_eq_true,↓reduceIte,Option.some.injEq,Prod.mk.injEq] at hvar
        obtain ⟨_,rfl,_⟩ := hvar
        exact (withVal_eq_self_iff b v).trans (by simp)

def debugDatas : ConfigVarMap ℕ := SortedMap.empty.assign "system.debug".toList debugVar

def debugAt (system debug text : Text) : Node :=
  .map [(.scalar system,.map [(.scalar debug,.scalar text)])]

theorem lowered_debugAt (system debug text : Text) :
    Lowered (.scalar text) [system,debug] (debugAt system debug text) (debugAt (lower system) (lower debug) text) :=
  .entry (.entry .here (.scalar debug) [] []) (.scalar system) [] []

theorem find_debugDatas : debugDatas.find "system.debug".toList = some debugVar := by
  rw [debugDatas,SortedMap.find_assign,if_pos rfl]

/-- The document, loaded with its reports counted. -/
abbrev loadDebug (root : Node) : Option (ConfigVarMap ℕ × ℕ) := counted.loadFromYaml debugYaml root debugDatas 0

end Load
end Zcs.Config
