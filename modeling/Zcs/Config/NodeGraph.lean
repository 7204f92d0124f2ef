import Mathlib.Data.List.Forall2
import Mathlib.Order.Interval.Finset.Nat
import Zcs.Config.LoadFromYaml
import Zcs.Foundation.Descent
import Zcs.Foundation.Pointwise

/-! # Documents with aliases

yaml-cpp makes an alias the very node that its anchor denotes, so that a document is a
finite graph of nodes. `ListAllMember` goes down this graph without remembering where it
has been. Only the names stop it: a key that is no part of a name is not followed.
-/
namespace Zcs.Config
open Relation

/-- A node with the addresses of its children. -/
inductive Cell where
  | null
  | scalar (s : Text)
  | sequence (items : List ℕ)
  | map (entries : List (ℕ × ℕ))
  deriving DecidableEq

def Cell.children : Cell → List ℕ
  | .sequence items => items
  | .map entries => entries.flatMap fun e => [e.1,e.2]
  | _ => []

/-- The nodes of a document, by address; all addresses in it are addresses of nodes. -/
structure NodeGraph where
  cells : List Cell
  root : ℕ
  rooted : root < cells.length
  closed : ∀ c ∈ cells, ∀ a ∈ c.children, a < cells.length

namespace NodeGraph
variable (g : NodeGraph)

def cell (a : ℕ) : Cell := g.cells[a]?.getD .null

/-- `Scalar()` -/
def text (a : ℕ) : Text :=
  match g.cell a with
  | .scalar s => s
  | _ => []

/-- `ListAllMember`; `none` means that more than `fuel` nested calls are made for nodes
with a valid name. -/
def listAllMember (fuel : ℕ) (perfix : Text) (a : ℕ) : Option (List (Text × ℕ)) :=
  if Text.onlyOf nameChars perfix then
    match fuel with
    | 0 => none
    | fuel + 1 =>
      match g.cell a with
      | .map entries => do
        let below ← entries.mapM fun e => listAllMember fuel (joined perfix (g.text e.1)) e.2
        return (perfix,a) :: below.flatten
      | _ => some [(perfix,a)]
  else some []

/-- The text that `LoadFromYaml` hands to a variable. `emit` is `ss << node`, which
writes a node that it meets again as an alias. -/
def nodeText (emit : ℕ → Text) (a : ℕ) : Text :=
  match g.cell a with
  | .scalar s => s
  | _ => emit a

/-- `Config::LoadFromYaml`: `none` as above, and `some none` for a crash of a listener. -/
def loadFromYaml (y : YamlCpp) (emit : ℕ → Text) {W : Type*} (fuel : ℕ) (datas : ConfigVarMap W) (w : W) :
    Option (Option (ConfigVarMap W × W)) :=
  (g.listAllMember fuel [] g.root).map fun all =>
    all.foldlM (fun s it => loadNode y s (it.1,.scalar (g.nodeText emit it.2))) (datas,w)

/-- From a mapping to the value of an entry whose key can be a part of a name. -/
def Entry (a b : ℕ) : Prop :=
  ∃ entries, g.cell a = .map entries ∧ ∃ k, (k,b) ∈ entries ∧ ValidName (g.text k)

end NodeGraph

theorem validName_append {a b : Text} : ValidName (a ++ b) ↔ ValidName a ∧ ValidName b := by
  simp only [ValidName,List.mem_append]
  exact ⟨fun h => ⟨fun c hc => h c (.inl hc),fun c hc => h c (.inr hc)⟩,
    fun h c hc => hc.elim (h.1 c) (h.2 c)⟩

theorem validName_joined {perfix : Text} (h : ValidName perfix) (key : Text) :
    ValidName (joined perfix key) ↔ ValidName key := by
  unfold joined
  split_ifs
  · rfl
  · have hdot : ValidName ['.'] := by decide
    have hsplit : perfix ++ '.' :: key = perfix ++ (['.'] ++ key) := rfl
    rw [hsplit,validName_append,validName_append]
    exact ⟨fun hj => hj.2.2,fun hk => ⟨h,hdot,hk⟩⟩

namespace NodeGraph
variable {g : NodeGraph}

theorem listAllMember_of_invalid {perfix : Text} (h : ¬ ValidName perfix) (fuel : ℕ) (a : ℕ) :
    g.listAllMember fuel perfix a = some [] := by
  rw [listAllMember.eq_def,onlyOf_nameChars,if_neg (by simpa using h)]

theorem listAllMember_zero {perfix : Text} (h : ValidName perfix) (a : ℕ) :
    g.listAllMember 0 perfix a = none := by
  rw [listAllMember.eq_def,onlyOf_nameChars,if_pos (by simpa using h)]

/-- One call ends if the calls for the entries with a valid name do. -/
theorem isSome_succ {perfix : Text} (h : ValidName perfix) (fuel : ℕ) (a : ℕ) :
    (g.listAllMember (fuel + 1) perfix a).isSome = true ↔
      ∀ entries, g.cell a = .map entries → ∀ e ∈ entries, ValidName (g.text e.1) →
        (g.listAllMember fuel (joined perfix (g.text e.1)) e.2).isSome = true := by
  rw [listAllMember.eq_def,onlyOf_nameChars,if_pos (by simpa using h)]
  cases hc : g.cell a with
  | map entries =>
    have hmap : ∀ x : Option (List (List (Text × ℕ))),
        (x >>= fun below => some ((perfix,a) :: below.flatten)).isSome = x.isSome := by
      intro x
      cases x <;> rfl
    refine (Bool.eq_iff_iff.mp (hmap _)).trans (isSome_mapM.trans ?_)
    simp only [Cell.map.injEq,forall_eq']
    refine forall₂_congr fun e _ => ?_
    by_cases hk : ValidName (g.text e.1)
    · simp [hk]
    · have hj : ¬ ValidName (joined perfix (g.text e.1)) := fun hj => hk ((validName_joined h _).mp hj)
      simp [hk,listAllMember_of_invalid hj]
  | _ => simp

/-- How far the calls go down does not depend on the name they are made under. -/
theorem isSome_congr {p q : Text} (hp : ValidName p) (hq : ValidName q) (fuel : ℕ) (a : ℕ) :
    (g.listAllMember fuel p a).isSome = true ↔ (g.listAllMember fuel q a).isSome = true := by
  induction fuel generalizing p q a with
  | zero => rw [listAllMember_zero hp,listAllMember_zero hq]
  | succ fuel ih =>
    rw [isSome_succ hp,isSome_succ hq]
    refine forall₂_congr fun entries _ => forall₂_congr fun e _ => forall_congr' fun hk => ?_
    exact ih ((validName_joined hp _).mpr hk) ((validName_joined hq _).mpr hk) e.2

theorem validName_nil : ValidName [] := by
  intro c hc
  cases hc

theorem isSome_succ_iff (fuel : ℕ) (a : ℕ) : (g.listAllMember (fuel + 1) [] a).isSome = true ↔
    ∀ b, g.Entry a b → (g.listAllMember fuel [] b).isSome = true := by
  rw [isSome_succ validName_nil]
  constructor
  · rintro h b ⟨entries,hc,k,hk,hv⟩
    exact (isSome_congr ((validName_joined validName_nil _).mpr hv) validName_nil fuel b).mp
      (h entries hc (k,b) hk hv)
  · intro h entries hc e he hv
    exact (isSome_congr ((validName_joined validName_nil _).mpr hv) validName_nil fuel e.2).mpr
      (h e.2 ⟨entries,hc,e.1,he,hv⟩)

theorem entry_lt {a b : ℕ} (h : g.Entry a b) : b < g.cells.length := by
  obtain ⟨entries,hc,k,hk,_⟩ := h
  have hcell : g.cells[a]? = some (.map entries) := by
    unfold cell at hc
    cases hg : g.cells[a]? with
    | none =>
      rw [hg] at hc
      cases hc
    | some c =>
      rw [hg,Option.getD_some] at hc
      rw [hc]
  exact g.closed _ (List.mem_of_getElem? hcell) b (List.mem_flatMap.mpr ⟨(k,b),hk,by simp⟩)

theorem finite_entries (a : ℕ) : {b | g.Entry a b}.Finite :=
  (Set.finite_lt_nat g.cells.length).subset fun _ hb => entry_lt hb

theorem finite_reached : {b | ReflTransGen g.Entry g.root b}.Finite := by
  refine (Set.finite_lt_nat g.cells.length).subset fun b hb => ?_
  rcases hb.cases_tail with rfl | ⟨c,_,hcb⟩
  · exact g.rooted
  · exact entry_lt hcb

/-- `ListAllMember`, and with it `LoadFromYaml`, ends exactly on the documents in which no
mapping that it gets to contains itself, along entries with a valid name. -/
theorem terminates_iff (g : NodeGraph) (y : YamlCpp) (emit : ℕ → Text) {W : Type*} (datas : ConfigVarMap W) (w : W) :
    ((∃ fuel, (g.listAllMember fuel [] g.root).isSome = true) ↔ NoCycle g.Entry g.root) ∧
      ((∃ fuel, (g.loadFromYaml y emit fuel datas w).isSome = true) ↔ NoCycle g.Entry g.root) := by
  have hlist : (∃ fuel, (g.listAllMember fuel [] g.root).isSome = true) ↔ NoCycle g.Entry g.root := by
    rw [← acc_iff_noCycle finite_reached]
    refine exists_enough_iff_acc (T := fun fuel a => (g.listAllMember fuel [] a).isSome = true)
      (fun a => ?_) isSome_succ_iff finite_entries g.root
    simp [listAllMember_zero validName_nil]
  refine ⟨hlist,?_⟩
  simpa only [loadFromYaml,Option.isSome_map] using hlist

/-- The document as a tree, if it is one. -/
def unfold (g : NodeGraph) : ℕ → ℕ → Option Node
  | 0, _ => none
  | fuel + 1, a =>
    match g.cell a with
    | .null => some .null
    | .scalar s => some (.scalar s)
    | .sequence items => (items.mapM (unfold g fuel)).map .sequence
    | .map entries => (entries.mapM fun e : ℕ × ℕ => do return (← unfold g fuel e.1,← unfold g fuel e.2)).map .map

theorem text_of_unfold {fuel a : ℕ} {node : Node} (h : g.unfold fuel a = some node) : g.text a = node.text := by
  cases fuel with
  | zero => cases h
  | succ fuel =>
    unfold NodeGraph.unfold at h
    unfold text
    cases hc : g.cell a with
    | null | scalar s =>
      rw [hc] at h
      obtain rfl := Option.some.inj h
      rfl
    | sequence items | map entries =>
      rw [hc] at h
      obtain ⟨_,_,rfl⟩ := Option.map_eq_some_iff.mp h
      rfl

/-- The address stands for the node of the tree. -/
def Stands (g : NodeGraph) (p : Text × ℕ) (q : Text × Node) : Prop :=
  p.1 = q.1 ∧ ∃ fuel, g.unfold fuel p.2 = some q.2

theorem listEntries_of_unfold {fuel : ℕ} (perfix : Text)
    (ih : ∀ {a node} perfix, g.unfold fuel a = some node → ∃ out, g.listAllMember fuel perfix a = some out ∧
      List.Forall₂ g.Stands out (Config.listAllMember perfix node))
    {entries : List (ℕ × ℕ)} {nodes : List (Node × Node)}
    (h : List.Forall₂ (fun e p => g.unfold fuel e.1 = some p.1 ∧ g.unfold fuel e.2 = some p.2) entries nodes) :
    ∃ below, (entries.mapM fun e => g.listAllMember fuel (joined perfix (g.text e.1)) e.2) = some below ∧
      List.Forall₂ g.Stands below.flatten (listEntries perfix nodes) := by
  induction h with
  | nil => exact ⟨[],rfl,.nil⟩
  | @cons e p entries nodes he _ ihs =>
    obtain ⟨out,hout,hstands⟩ := ih (joined perfix (g.text e.1)) he.2
    obtain ⟨below,hbelow,hrest⟩ := ihs
    refine ⟨out :: below,by rw [List.mapM_cons,hout,hbelow]; rfl,?_⟩
    obtain ⟨key,value⟩ := p
    rw [listEntries,List.flatten_cons,← text_of_unfold he.1]
    exact List.rel_append hstands hrest

/-- On a document that is a tree the list is that of the tree. -/
theorem listAllMember_of_unfold {fuel a : ℕ} {node : Node} (perfix : Text) (h : g.unfold fuel a = some node) :
    ∃ out, g.listAllMember fuel perfix a = some out ∧
      List.Forall₂ g.Stands out (Config.listAllMember perfix node) := by
  induction fuel generalizing a node perfix with
  | zero => cases h
  | succ fuel ih =>
    by_cases hv : ValidName perfix
    · have hname : Text.onlyOf nameChars perfix = true := by simpa [onlyOf_nameChars] using hv
      have hself := h
      rw [NodeGraph.unfold] at h
      rw [listAllMember.eq_def,if_pos hname]
      cases hc : g.cell a with
      | null | scalar s =>
        rw [hc] at h
        obtain rfl := Option.some.inj h
        rw [Config.listAllMember.eq_def]
        simp only [hname,↓reduceIte]
        exact ⟨_,rfl,.cons ⟨rfl,fuel + 1,hself⟩ .nil⟩
      | sequence items =>
        rw [hc] at h
        obtain ⟨nodes,hnodes,rfl⟩ := Option.map_eq_some_iff.mp h
        rw [Config.listAllMember.eq_def]
        simp only [hname,↓reduceIte]
        exact ⟨_,rfl,.cons ⟨rfl,fuel + 1,hself⟩ .nil⟩
      | map entries =>
        rw [hc] at h
        obtain ⟨nodes,hnodes,rfl⟩ := Option.map_eq_some_iff.mp h
        have hp : List.Forall₂ (fun e p => g.unfold fuel e.1 = some p.1 ∧ g.unfold fuel e.2 = some p.2)
            entries nodes := by
          refine (forall₂_of_mapM_eq_some hnodes).imp fun e p he => ?_
          obtain ⟨key,hkey,he⟩ := Option.bind_eq_some_iff.mp he
          obtain ⟨value,hvalue,he⟩ := Option.bind_eq_some_iff.mp he
          obtain rfl := Option.some.inj he
          exact ⟨hkey,hvalue⟩
        obtain ⟨below,hbelow,hstands⟩ := listEntries_of_unfold perfix (fun p hu => ih p hu) hp
        rw [Config.listAllMember.eq_def]
        simp only [hname,↓reduceIte,hbelow]
        exact ⟨_,rfl,.cons ⟨rfl,fuel + 1,hself⟩ hstands⟩
    · refine ⟨[],listAllMember_of_invalid hv (fuel + 1) a,?_⟩
      rw [listAllMember_eq,below_of_invalid hv]
      exact .nil

/-- On a document that is a tree, `LoadFromYaml` does what it does with the tree. -/
theorem loadFromYaml_of_unfold {fuel : ℕ} {node : Node} (h : g.unfold fuel g.root = some node) {y : YamlCpp}
    {emit : ℕ → Text} (he : ∀ fuel a node, g.unfold fuel a = some node → emit a = y.emit node) {W : Type*}
    (datas : ConfigVarMap W) (w : W) :
    g.loadFromYaml y emit fuel datas w = some (Config.loadFromYaml y node datas w) := by
  obtain ⟨out,hout,hstands⟩ := listAllMember_of_unfold [] h
  rw [loadFromYaml,hout,Option.map_some,Config.loadFromYaml]
  congr 1
  refine foldlM_congr (hstands.imp fun p q hpq s => ?_) (datas,w)
  obtain ⟨hname,n,hnode⟩ := hpq
  have htext : g.nodeText emit p.2 = Config.nodeText y q.2 := by
    unfold nodeText
    cases n with
    | zero => cases hnode
    | succ n =>
      have hemit := he (n + 1) p.2 q.2 hnode
      unfold NodeGraph.unfold at hnode
      cases hc : g.cell p.2 with
      | null | scalar s =>
        rw [hc] at hnode
        rw [← Option.some.inj hnode] at hemit ⊢
        first | rfl | exact hemit
      | sequence items | map entries =>
        rw [hc] at hnode
        obtain ⟨_,_,hq⟩ := Option.map_eq_some_iff.mp hnode
        rw [← hq] at hemit ⊢
        exact hemit
  obtain ⟨name,a⟩ := p
  obtain ⟨name',node'⟩ := q
  obtain rfl : name = name' := hname
  simp only [loadNode,htext]
  rfl

/-- `a: &x {self: *x}` -/
def selfReferring : NodeGraph where
  cells := [.map [(1,2)],.scalar ['a'],.map [(3,2)],.scalar "self".toList]
  root := 0
  rooted := by decide
  closed := by decide

theorem selfReferring_not_terminates : ¬ ∀ g : NodeGraph, ∃ fuel, (g.listAllMember fuel [] g.root).isSome = true := by
  intro h
  have hacc := (exists_enough_iff_acc (T := fun fuel a => (selfReferring.listAllMember fuel [] a).isSome = true)
    (fun a => by simp [listAllMember_zero validName_nil]) isSome_succ_iff finite_entries _).mp (h selfReferring)
  have hloop : selfReferring.Entry 2 2 := ⟨_,rfl,3,by decide,by decide⟩
  have hdown : selfReferring.Entry 0 2 := ⟨_,rfl,1,by decide,by decide⟩
  exact noCycle_of_acc hacc 2 (.single hdown) (.single hloop)

end NodeGraph
end Zcs.Config
