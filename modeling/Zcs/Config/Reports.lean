import Mathlib.Data.List.Induction
import Zcs.Config.LoadFromYaml
import Zcs.Foundation.Run

/-! # Loading a document, with what is reported

What is wrong with a document is written to the log, and the log is a part of the world. A
report that no appender takes dereferences a null pointer, and nothing of the document that
comes behind it is seen.
-/
namespace Zcs.Config

/-- The `ZCS_ERROR` of `ConfigVar::FromString` and that of `ListAllMember`; `none` is the
null dereference. -/
structure Reports (W : Type*) where
  exception (name val : Text) (w : W) : Option W
  invalidName (perfix : Text) (node : Node) (w : W) : Option W

mutual

/-- What `ListAllMember` reports, in the order in which it comes upon it. -/
def invalidNames (perfix : Text) : Node → List (Text × Node)
  | .map entries => if Text.onlyOf nameChars perfix then invalidEntries perfix entries else [(perfix,.map entries)]
  | node => if Text.onlyOf nameChars perfix then [] else [(perfix,node)]

def invalidEntries (perfix : Text) : List (Node × Node) → List (Text × Node)
  | [] => []
  | (key,value) :: rest => invalidNames (joined perfix key.text) value ++ invalidEntries perfix rest

end

namespace Reports
variable {W : Type*}

/-- Lines that nobody looks at. -/
def silent : Reports W := ⟨fun _ _ w => some w,fun _ _ w => some w⟩

variable (reports : Reports W) (y : YamlCpp)

/-- The catch clause of `FromString`, which is reached unless `true` is returned. -/
def caught (ok : Bool) (name val : Text) (w : W) : Option W := if ok then some w else reports.exception name val w

/-- `FromString` with the report of its catch clause. -/
def fromString (b : ConfigVarBase W) (val : Text) (w : W) : Option (ConfigVarBase W × W) :=
  letI := b.beq
  (b.var.fromString b.cast val w).bind fun r =>
    (reports.caught r.1 r.2.1.name val r.2.2).map fun w => ({ b with var := r.2.1 },w)

def loadNode (s : ConfigVarMap W × W) (it : Text × Node) : Option (ConfigVarMap W × W) :=
  if it.1.isEmpty then some s
  else
    let key := it.1.map Char.toLower
    match s.1.find key with
    | none => some s
    | some var => (reports.fromString var (nodeText y it.2) s.2).map fun r => (s.1.assign key r.1,r.2)

/-- `ListAllMember` as far as the world goes. -/
def listAllMember (root : Node) (w : W) : Option W :=
  (invalidNames [] root).foldlM (fun w it => reports.invalidName it.1 it.2 w) w

/-- `Config::LoadFromYaml`. The document is listed to its end before the first variable is set. -/
def loadFromYaml (root : Node) (datas : ConfigVarMap W) (w : W) : Option (ConfigVarMap W × W) :=
  (reports.listAllMember root w).bind fun w =>
    (Config.listAllMember [] root).foldlM (reports.loadNode y) (datas,w)

/-- A failed conversion can be reported, and listeners that are called come back. -/
def Takes (b : ConfigVarBase W) (s : Text) (w : W) : Prop :=
  match b.cast.fromStr s with
  | .error _ => (reports.exception b.var.name s w).isSome = true
  | .ok v => b.beq.beq b.var.val v = true ∨ ConfigVar.runCallbacks v b.var.val b.var.cbs.entries w ≠ .crashed

/-- Whenever an error is reported it can be written: each invalid name behind those reported
before it, and each failed conversion behind the nodes before it. -/
structure Written (root : Node) (datas : ConfigVarMap W) (w : W) : Prop where
  names : ∀ pre it post w', invalidNames [] root = pre ++ it :: post →
    pre.foldlM (fun w it => reports.invalidName it.1 it.2 w) w = some w' →
    (reports.invalidName it.1 it.2 w').isSome = true
  nodes : ∀ w₁, reports.listAllMember root w = some w₁ → ∀ pre it post d w', visited root = pre ++ it :: post →
    pre.foldlM (reports.loadNode y) (datas,w₁) = some (d,w') → it.1 ≠ [] →
    ∀ b, d.find it.1 = some b → reports.Takes b (nodeText y it.2) w'

end Reports

section Load
variable {y : YamlCpp} {W : Type*} {reports : Reports W}

/-- Listeners do not throw, whatever they are told. -/
def ConfigVarBase.Calm (b : ConfigVarBase W) : Prop :=
  ∀ e ∈ b.var.cbs.entries, ∀ v old w w' what, e.2 v old w ≠ .threw w' what

/-- What a text does to a variable whose listeners do not throw. -/
def ConfigVarBase.accept (b : ConfigVarBase W) (s : Text) : ConfigVarBase W :=
  letI := b.beq
  match b.cast.fromStr s with
  | .ok v => if b.var.val == v then b else b.withVal v
  | .error _ => b

theorem ConfigVarBase.Calm.accept {b : ConfigVarBase W} (h : b.Calm) (s : Text) : (b.accept s).Calm := by
  unfold ConfigVarBase.accept
  cases b.cast.fromStr s with
  | error _ => exact h
  | ok v =>
    dsimp only
    split
    · exact h
    · exact h

theorem ConfigVarBase.Calm.foldl_accept {b : ConfigVarBase W} (h : b.Calm) (ss : List Text) :
    (ss.foldl .accept b).Calm := by
  induction ss generalizing b with
  | nil => exact h
  | cons s ss ih => exact ih (h.accept s)

theorem runCallbacks_of_calm {T : Type} {cbs : List (ℕ × Listener T W)}
    (h : ∀ e ∈ cbs, ∀ v old w w' what, e.2 v old w ≠ .threw w' what) (v old : T) (w w' : W) (what : Text) :
    ConfigVar.runCallbacks v old cbs w ≠ .threw w' what := by
  induction cbs generalizing w with
  | nil => simp [ConfigVar.runCallbacks]
  | cons e cbs ih =>
    obtain ⟨he,hcbs⟩ := List.forall_mem_cons.mp h
    rw [ConfigVar.runCallbacks]
    cases hout : e.2 v old w with
    | returned u => exact ih hcbs u
    | threw u what' => exact absurd hout (he v old w u what')
    | crashed => simp

section Base
variable {b : ConfigVarBase W} {s : Text} {w : W}

theorem fromString_error {what : Text} (h : b.cast.fromStr s = .error what) :
    reports.fromString b s w = (reports.exception b.var.name s w).map fun w => (b,w) := by
  let := b.beq
  have hvar : @ConfigVar.fromString b.T W b.beq b.cast b.var s w = some (false,b.var,w) := by
    rw [ConfigVar.fromString,h]
  rw [Reports.fromString,hvar]
  rfl

theorem fromString_same {v : b.T} (h : b.cast.fromStr s = .ok v) (hv : b.beq.beq b.var.val v = true) :
    reports.fromString b s w = some (b,w) := by
  let := b.beq
  have hvar : @ConfigVar.fromString b.T W b.beq b.cast b.var s w = some (true,b.var,w) := by
    rw [ConfigVar.fromString,h]
    simp only [@ConfigVar.setValue_of_beq b.T W b.beq b.var v hv w]
  rw [Reports.fromString,hvar]
  rfl

theorem fromString_changed {v : b.T} (h : b.cast.fromStr s = .ok v) (hv : b.beq.beq b.var.val v = false)
    {out : Outcome W} (hout : ConfigVar.runCallbacks v b.var.val b.var.cbs.entries w = out) :
    reports.fromString b s w =
      match out with
      | .returned w => some (b.withVal v,w)
      | .threw w _ => (reports.exception b.var.name s w).map fun w => (b,w)
      | .crashed => none := by
  have hvar : @ConfigVar.fromString b.T W b.beq b.cast b.var s w =
      match out with
      | .returned w => some (true,{ b.var with val := v },w)
      | .threw w _ => some (false,b.var,w)
      | .crashed => none := by
    have hb : (@BEq.beq b.T b.beq b.var.val v) = false := hv
    simp only [ConfigVar.fromString,h,ConfigVar.setValue,hb,Bool.false_eq_true,if_false,hout]
    cases out <;> rfl
  rw [Reports.fromString,hvar]
  cases out <;> rfl

variable (reports) in
/-- What `FromString` comes to, by what the codec and the listeners do. -/
theorem fromString_of_calm (h : b.Calm) (s : Text) (w : W) :
    ((reports.fromString b s w).isSome = true ↔ reports.Takes b s w) ∧
      ∀ b' w', reports.fromString b s w = some (b',w') → b' = b.accept s := by
  unfold Reports.Takes ConfigVarBase.accept
  cases hs : b.cast.fromStr s with
  | error what =>
    rw [fromString_error hs,Option.isSome_map]
    refine ⟨Iff.rfl,fun b' w' h => ?_⟩
    obtain ⟨u,_,hu⟩ := Option.map_eq_some_iff.mp h
    exact (Prod.mk.inj hu).1.symm
  | ok v =>
    dsimp only
    cases hb : b.beq.beq b.var.val v with
    | true =>
      rw [fromString_same hs hb]
      exact ⟨iff_of_true rfl (.inl rfl),fun b' w' h => (Prod.mk.inj (Option.some.inj h)).1.symm⟩
    | false =>
      cases hr : ConfigVar.runCallbacks v b.var.val b.var.cbs.entries w with
      | returned u =>
        rw [fromString_changed hs hb hr]
        exact ⟨iff_of_true rfl (.inr (by simp)),fun b' w' h => (Prod.mk.inj (Option.some.inj h)).1.symm⟩
      | threw u what => exact absurd hr (runCallbacks_of_calm h v b.var.val w u what)
      | crashed =>
        rw [fromString_changed hs hb hr]
        exact ⟨iff_of_false (by simp) (by simp),fun b' w' h => by cases h⟩

end Base

/-- The texts of the nodes of a name. -/
def textsFor (y : YamlCpp) (n : Text) (its : List (Text × Node)) : List Text :=
  its.filterMap fun it => if it.1 = n ∧ n ≠ [] then some (nodeText y it.2) else none

theorem textsFor_cons (n : Text) (it : Text × Node) (its : List (Text × Node)) :
    textsFor y n (it :: its) = textsFor y n [it] ++ textsFor y n its := by
  rw [textsFor,← List.singleton_append,List.filterMap_append]
  rfl

theorem textsFor_other {n : Text} {it : Text × Node} (h : n ≠ it.1 ∨ it.1 = []) : textsFor y n [it] = [] := by
  simp only [textsFor,List.filterMap_cons,List.filterMap_nil]
  rw [if_neg]
  rintro ⟨rfl,hn⟩
  tauto

section Datas
variable {datas : ConfigVarMap W} {w : W}

/-- What one listed node comes to. -/
theorem loadNode_of_calm (hq : ∀ n b, datas.find n = some b → b.Calm) {it : Text × Node} (hv : ValidName it.1) :
    ((reports.loadNode y (datas,w) it).isSome = true ↔
      (it.1 ≠ [] → ∀ b, datas.find it.1 = some b → reports.Takes b (nodeText y it.2) w)) ∧
    ∀ d w', reports.loadNode y (datas,w) it = some (d,w') →
      ∀ n, d.find n = (datas.find n).map fun b => (textsFor y n [it]).foldl .accept b := by
  unfold Reports.loadNode
  by_cases hnil : it.1 = []
  · rw [if_pos (by simpa using hnil)]
    refine ⟨iff_of_true rfl fun h => absurd hnil h,fun d w' h n => ?_⟩
    obtain ⟨rfl,rfl⟩ := Prod.mk.inj (Option.some.inj h)
    simp [textsFor_other (.inr hnil)]
  · rw [if_neg (by simpa using hnil),map_toLower hv]
    cases hf : datas.find it.1 with
    | none =>
      simp only [hf]
      refine ⟨iff_of_true rfl fun _ b hb => (by cases hb),fun d w' h n => ?_⟩
      obtain ⟨rfl,rfl⟩ := Prod.mk.inj (Option.some.inj h)
      by_cases hn : n = it.1
      · simp [hn,hf]
      · simp [textsFor_other (.inl hn)]
    | some b =>
      obtain ⟨hiff,hval⟩ := fromString_of_calm reports (hq it.1 b hf) (nodeText y it.2) w
      simp only [hf,Option.isSome_map,hiff,Option.some.injEq,forall_eq']
      refine ⟨⟨fun h _ => h,fun h => h hnil⟩,fun d w' h n => ?_⟩
      obtain ⟨⟨b',u⟩,hb',hd⟩ := Option.map_eq_some_iff.mp h
      obtain ⟨rfl,rfl⟩ := Prod.mk.inj hd
      obtain rfl := hval b' u hb'
      rw [SortedMap.find_assign]
      by_cases hn : n = it.1
      · simp [hn,hf,textsFor,hnil]
      · simp [hn,textsFor_other (.inl hn)]

theorem foldlM_loadNode {its : List (Text × Node)} (hv : ∀ it ∈ its, ValidName it.1)
    (hq : ∀ n b, datas.find n = some b → b.Calm) {d : ConfigVarMap W} {w' : W}
    (h : its.foldlM (reports.loadNode y) (datas,w) = some (d,w')) :
    ∀ n, d.find n = (datas.find n).map fun b => (textsFor y n its).foldl .accept b := by
  induction its generalizing datas w with
  | nil =>
    obtain ⟨rfl,rfl⟩ := Prod.mk.inj (Option.some.inj h)
    simp [textsFor]
  | cons it its ih =>
    obtain ⟨hit,hits⟩ := List.forall_mem_cons.mp hv
    rw [List.foldlM_cons] at h
    obtain ⟨⟨d₁,w₁⟩,h₁,h⟩ := Option.bind_eq_some_iff.mp h
    have hd₁ := (loadNode_of_calm hq hit).2 d₁ w₁ h₁
    have hq₁ : ∀ n b, d₁.find n = some b → b.Calm := by
      intro n b hb
      rw [hd₁] at hb
      obtain ⟨b₀,hb₀,rfl⟩ := Option.map_eq_some_iff.mp hb
      exact (hq n b₀ hb₀).foldl_accept _
    intro n
    rw [ih hits hq₁ h,hd₁,Option.map_map,textsFor_cons n it its]
    congr 1
    funext b
    exact List.foldl_append.symm

variable (y reports w) in
theorem isSome_foldlM_loadNode_iff {its : List (Text × Node)} (hv : ∀ it ∈ its, ValidName it.1)
    (hq : ∀ n b, datas.find n = some b → b.Calm) :
    (its.foldlM (reports.loadNode y) (datas,w)).isSome = true ↔
      ∀ pre it post d w', its = pre ++ it :: post → pre.foldlM (reports.loadNode y) (datas,w) = some (d,w') →
        it.1 ≠ [] → ∀ b, d.find it.1 = some b → reports.Takes b (nodeText y it.2) w' := by
  have hcalm : ∀ {pre it post d w'}, its = pre ++ it :: post →
      pre.foldlM (reports.loadNode y) (datas,w) = some (d,w') → ValidName it.1 ∧
        ∀ n b, d.find n = some b → b.Calm := by
    rintro pre it post d w' rfl hpre
    refine ⟨hv it (List.mem_append_right _ List.mem_cons_self),fun n b hb => ?_⟩
    rw [foldlM_loadNode (fun p hp => hv p (List.mem_append_left _ hp)) hq hpre] at hb
    obtain ⟨b₀,hb₀,rfl⟩ := Option.map_eq_some_iff.mp hb
    exact (hq n b₀ hb₀).foldl_accept _
  rw [isSome_foldlM_iff]
  constructor
  · intro h pre it post d w' hsplit hpre
    obtain ⟨hit,hd⟩ := hcalm hsplit hpre
    exact (loadNode_of_calm hd hit).1.mp (h pre it post (d,w') hsplit hpre)
  · rintro h pre it post ⟨d,w'⟩ hsplit hpre
    obtain ⟨hit,hd⟩ := hcalm hsplit hpre
    exact (loadNode_of_calm hd hit).1.mpr (h pre it post d w' hsplit hpre)

/-- A load comes to its end if and only if what it reports can be written. -/
theorem isSome_loadFromYaml_iff {root : Node} (hq : ∀ n b, datas.find n = some b → b.Calm) :
    (reports.loadFromYaml y root datas w).isSome = true ↔ reports.Written y root datas w := by
  have hnames : (reports.listAllMember root w).isSome = true ↔ ∀ pre it post w',
      invalidNames [] root = pre ++ it :: post →
      pre.foldlM (fun w it => reports.invalidName it.1 it.2 w) w = some w' →
      (reports.invalidName it.1 it.2 w').isSome = true := isSome_foldlM_iff
  have hvalid : ∀ it ∈ visited root, ValidName it.1 := fun _ => validName_of_mem_visited
  rw [Reports.loadFromYaml,listAllMember_nil]
  constructor
  · intro h
    obtain ⟨r,hr⟩ := Option.isSome_iff_exists.mp h
    obtain ⟨w₁,hw₁,hr⟩ := Option.bind_eq_some_iff.mp hr
    refine ⟨hnames.mp (by rw [hw₁]; rfl),fun w₂ hw₂ =>
      (isSome_foldlM_loadNode_iff y reports w₂ hvalid hq).mp ?_⟩
    obtain rfl := Option.some.inj (hw₁.symm.trans hw₂)
    rw [hr]
    rfl
  · rintro ⟨hn,hv⟩
    obtain ⟨w₁,hw₁⟩ := Option.isSome_iff_exists.mp (hnames.mpr hn)
    rw [hw₁]
    exact (isSome_foldlM_loadNode_iff y reports w₁ hvalid hq).mpr (hv w₁ hw₁)

end Datas

theorem foldl_accept (b : ConfigVarBase W) (ss : List Text) :
    ∃ x, ss.foldl .accept b = b.withVal x ∧
      match (ss.filterMap fun s => (b.cast.fromStr s).toOption).getLast? with
      | none => x = b.var.val
      | some v => x = v ∨ b.beq.beq x v = true := by
  induction ss using List.reverseRecOn with
  | nil => exact ⟨b.var.val,rfl,rfl⟩
  | append_singleton ss s ih =>
    obtain ⟨x,hx,hlast⟩ := ih
    rw [List.foldl_append,hx,List.filterMap_append]
    cases hs : b.cast.fromStr s with
    | error e =>
      refine ⟨x,?_,?_⟩
      · change ConfigVarBase.accept (b.withVal x) s = _
        simp [ConfigVarBase.accept,ConfigVarBase.withVal,hs]
      · simpa [hs,Except.toOption] using hlast
    | ok v =>
      have hv : ConfigVarBase.accept (b.withVal x) s = if b.beq.beq x v then b.withVal x else b.withVal v := by
        simp [ConfigVarBase.accept,ConfigVarBase.withVal,hs]
        rfl
      cases hb : b.beq.beq x v with
      | true => exact ⟨x,by simpa [hb] using hv,by simp [hs,Except.toOption,hb]⟩
      | false => exact ⟨v,by simpa [hb] using hv,by simp [hs,Except.toOption]⟩

/-- A load comes to its end if and only if whenever an error is reported it can be written.
Behind it a variable has the decoded value of the last visited node that has its name as
path and a text that its codec accepts, or else the value that it had. Where `==` is not
equality the value may be one that compares equal. -/
theorem loadFromYaml_last (reports : Reports W) (y : YamlCpp) (root : Node) (datas : ConfigVarMap W) (w : W)
    (hq : ∀ n b, datas.find n = some b → b.Calm) :
    ((reports.loadFromYaml y root datas w).isSome = true ↔ reports.Written y root datas w) ∧
    ∀ datas' w', reports.loadFromYaml y root datas w = some (datas',w') → datas'.find [] = datas.find [] ∧
      (∀ n, datas.find n = none → datas'.find n = none) ∧
      ∀ n b, n ≠ [] → datas.find n = some b → ∃ x, datas'.find n = some (b.withVal x) ∧
        match ((visited root).filterMap fun p =>
          if p.1 = n then (b.cast.fromStr (nodeText y p.2)).toOption else none).getLast? with
        | none => x = b.var.val
        | some v => x = v ∨ b.beq.beq x v = true := by
  refine ⟨isSome_loadFromYaml_iff hq,fun d w' h => ?_⟩
  rw [Reports.loadFromYaml,listAllMember_nil] at h
  obtain ⟨w₁,_,h⟩ := Option.bind_eq_some_iff.mp h
  have hd := foldlM_loadNode (fun it => validName_of_mem_visited) hq h
  refine ⟨?_,fun n hn => by rw [hd,hn]; rfl,fun n b hn hb => ?_⟩
  · have ht : textsFor y [] (visited root) = [] := by simp [textsFor]
    rw [hd,ht]
    cases datas.find [] <;> rfl
  · obtain ⟨x,hx,hlast⟩ := foldl_accept b (textsFor y n (visited root))
    refine ⟨x,by rw [hd,hb,Option.map_some,hx],?_⟩
    have ht : ((textsFor y n (visited root)).filterMap fun s => (b.cast.fromStr s).toOption) =
        (visited root).filterMap fun p =>
          if p.1 = n then (b.cast.fromStr (nodeText y p.2)).toOption else none := by
      rw [textsFor,List.filterMap_filterMap]
      congr 1
      funext p
      by_cases hp : p.1 = n <;> simp [hp,hn]
    rw [ht] at hlast
    exact hlast

/-- Without its lines it is the load that the other modules speak of. -/
theorem loadFromYaml_silent (root : Node) (datas : ConfigVarMap W) (w : W) :
    Reports.silent.loadFromYaml y root datas w = loadFromYaml y root datas w := by
  have hfrom : ∀ (b : ConfigVarBase W) s w, Reports.silent.fromString b s w = b.fromString s w := by
    intro b s w
    let := b.beq
    rw [Reports.fromString,ConfigVarBase.fromString]
    cases b.var.fromString b.cast s w with
    | none => rfl
    | some r =>
      obtain ⟨ok,var,w⟩ := r
      cases ok <;> rfl
  have hnode : Reports.silent.loadNode y = loadNode (W := W) y := by
    funext s it
    unfold Reports.loadNode loadNode
    by_cases hit : it.1.isEmpty = true
    · rw [if_pos hit,if_pos hit]
    · rw [if_neg hit,if_neg hit]
      cases hv : s.1.find (it.1.map Char.toLower) with
      | none => simp only [hv]
      | some var => simp only [hv,hfrom]
  have hnames : Reports.silent.listAllMember root w = some w := by
    rw [Reports.listAllMember]
    induction invalidNames [] root with
    | nil => rfl
    | cons it its ih => exact ih
  rw [Reports.loadFromYaml,hnames,hnode]
  rfl

/-- The log as the number of its lines. -/
def counted : Reports ℕ := ⟨fun _ _ n => some (n + 1),fun _ _ n => some (n + 1)⟩

/-- The document of before behind a name that is not valid. -/
def reportedDocument : Node :=
  .map [(.scalar "Level".toList,.null),
    (.scalar "system".toList,.map [(.scalar "debug".toList,.scalar ['1'])]),
    (.scalar "system.debug".toList,.scalar "maybe".toList)]

/-- Two lines, and the flag is set. -/
theorem loadFromYaml_debug : ∃ datas', counted.loadFromYaml debugYaml reportedDocument
    (SortedMap.empty.assign "system.debug".toList debugVar) 0 = some (datas',2) ∧
      datas'.find "system.debug".toList = some (debugVar.withVal true) := by
  have hq : ∀ n (b : ConfigVarBase ℕ), (SortedMap.empty.assign "system.debug".toList debugVar).find n = some b →
      b.Calm := by
    intro n b hb
    rw [SortedMap.find_assign] at hb
    split_ifs at hb
    · obtain rfl := Option.some.inj hb
      intro e he
      cases he
    · cases hb
  have hrun : (counted.loadFromYaml debugYaml reportedDocument
      (SortedMap.empty.assign "system.debug".toList debugVar) 0).map Prod.snd = some 2 := by decide
  obtain ⟨⟨d,_⟩,hrun,rfl⟩ := Option.map_eq_some_iff.mp hrun
  obtain ⟨_,_,hd⟩ := (loadFromYaml_last counted debugYaml reportedDocument _ 0 hq).2 d 2 hrun
  obtain ⟨x,hx,hlast⟩ := hd "system.debug".toList debugVar (by decide) (by rw [SortedMap.find_assign,if_pos rfl])
  refine ⟨d,hrun,?_⟩
  have htrue : ∀ x : Bool, x = true ∨ (x == true) = true → x = true := by decide
  obtain rfl : x = true := htrue x hlast
  exact hx

end Load
end Zcs.Config
