import Mathlib.Data.List.Basic

/-! # Finite runs of a step function

A system is a partial step function over labels; `none` means that the label
cannot be taken in the state. A run may be restricted to steps whose state and
label satisfy a condition. The rules below are used for every system of this
development.
-/
namespace Zcs

/-- Runs whose every step satisfies `ok` before it is taken. -/
inductive Runs {S A : Type*} (next : S → A → Option S) (ok : S → A → Prop) : S → List A → S → Prop
  | refl (s : S) : Runs next ok s [] s
  | step {s t u : S} {a : A} {as : List A} (ha : ok s a) (hs : next s a = some t)
      (hr : Runs next ok t as u) : Runs next ok s (a :: as) u

namespace Runs
variable {S A : Type*} {next : S → A → Option S} {ok : S → A → Prop}

theorem invariant {P : S → Prop} (hp : ∀ {s t a}, P s → ok s a → next s a = some t → P t)
    {s t : S} {as : List A} (h : Runs next ok s as t) (hs : P s) : P t := by
  induction h with
  | refl => exact hs
  | step ha hn _ ih => exact ih (hp hs ha hn)

theorem trans {s t u : S} {as bs : List A} (h : Runs next ok s as t) (h' : Runs next ok t bs u) :
    Runs next ok s (as ++ bs) u := by
  induction h with
  | refl => exact h'
  | step ha hn _ ih => exact .step ha hn (ih h')

theorem imp {ok' : S → A → Prop} (hok : ∀ s a, ok s a → ok' s a) {s t : S} {as : List A}
    (h : Runs next ok s as t) : Runs next ok' s as t := by
  induction h with
  | refl => exact .refl _
  | step ha hs _ ih => exact .step (hok _ _ ha) hs ih

theorem single {s t : S} {a : A} (ha : ok s a) (hs : next s a = some t) : Runs next ok s [a] t :=
  .step ha hs (.refl t)

/-- A condition on the labels alone may be read off the run's labels. -/
theorem and_labels_iff {p : A → Prop} {s t : S} {as : List A} :
    Runs next (fun s a => ok s a ∧ p a) s as t ↔ Runs next ok s as t ∧ ∀ a ∈ as, p a := by
  constructor
  · intro h
    refine ⟨h.imp fun _ _ => And.left,?_⟩
    induction h with
    | refl => simp
    | step ha _ _ ih => exact List.forall_mem_cons.mpr ⟨ha.2,ih⟩
  · rintro ⟨h,hp⟩
    induction h with
    | refl => exact .refl _
    | step ha hs _ ih =>
      obtain ⟨hpa,hpas⟩ := List.forall_mem_cons.mp hp
      exact .step ⟨ha,hpa⟩ hs (ih hpas)

def exec (next : S → A → Option S) (ok : S → A → Prop) [∀ s a, Decidable (ok s a)] :
    S → List A → Option S
  | s, [] => some s
  | s, a :: as => if ok s a then (next s a).bind (fun t => exec next ok t as) else none

theorem of_exec_eq [∀ s a, Decidable (ok s a)] {s t : S} {as : List A}
    (h : exec next ok s as = some t) : Runs next ok s as t := by
  induction as generalizing s with
  | nil =>
    obtain rfl : s = t := by simpa [exec] using h
    exact .refl s
  | cons a as ih =>
    unfold exec at h
    split_ifs at h with ha
    obtain ⟨u,hu,ht⟩ := Option.bind_eq_some_iff.mp h
    exact .step ha hu (ih ht)

theorem of_exec (next : S → A → Option S) (ok : S → A → Prop) [∀ s a, Decidable (ok s a)] (s : S)
    (as : List A) (h : (exec next ok s as).isSome = true) :
    Runs next ok s as ((exec next ok s as).get h) :=
  of_exec_eq (Option.some_get h).symm

theorem exec_eq [∀ s a, Decidable (ok s a)] {s t : S} {as : List A} (h : Runs next ok s as t) :
    exec next ok s as = some t := by
  induction h with
  | refl => rfl
  | step ha hs _ ih => rw [exec,if_pos ha,hs,Option.bind_some,ih]

/-- If good steps keep `I`, which implies `P`, and from there no other step leads to `P`,
then `P` holds throughout a run exactly when all steps of the run are good. -/
theorem held_iff {I P : S → Prop} {good : S → A → Prop}
    (hI : ∀ {s t a}, I s → ok s a → good s a → next s a = some t → I t) (hP : ∀ {s}, I s → P s)
    (hbad : ∀ {s t a}, I s → ok s a → next s a = some t → P t → good s a)
    {s t : S} {as : List A} (h : Runs next ok s as t) (hs : I s) :
    (∀ pre u, pre <+: as → Runs next ok s pre u → P u) ↔
      Runs next (fun s a => ok s a ∧ good s a) s as t := by
  induction h with
  | refl s =>
    refine ⟨fun _ => .refl s,fun _ pre u hp hu => ?_⟩
    obtain rfl := List.prefix_nil.mp hp
    cases hu
    exact hP hs
  | @step s u t a as ha hn _ ih =>
    constructor
    · intro hall
      have hg : good s a := hbad hs ha hn (hall [a] u (by simp) (.single ha hn))
      refine .step ⟨ha,hg⟩ hn ((ih (hI hs ha hg hn)).mp fun pre v hp hv => ?_)
      exact hall (a :: pre) v (by simpa using hp) (.step ha hn hv)
    · intro hgood pre v hp hv
      cases hgood with
      | step hag hn' hr =>
        obtain rfl := Option.some.inj (hn.symm.trans hn')
        cases hv with
        | refl => exact hP hs
        | step hb hm hv =>
          obtain ⟨rfl,hbs⟩ := List.cons_prefix_cons.mp hp
          obtain rfl := Option.some.inj (hn.symm.trans hm)
          exact (ih (hI hs ha hag.2 hn)).mpr hr _ _ hbs hv

/-- If a step keeps `P` exactly when it is `good`, then `P` holds throughout a run
exactly when all steps of the run are good. -/
theorem throughout_iff {J P : S → Prop} {good : S → A → Prop}
    (hJ : ∀ {s t a}, J s → ok s a → next s a = some t → J t)
    (hP : ∀ {s t a}, J s → P s → ok s a → next s a = some t → (P t ↔ good s a))
    {s t : S} {as : List A} (h : Runs next ok s as t) (hj : J s) (hs : P s) :
    (∀ pre u, pre <+: as → Runs next ok s pre u → P u) ↔
      Runs next (fun s a => ok s a ∧ good s a) s as t :=
  h.held_iff (I := fun s => J s ∧ P s)
    (fun hs ha hg hn => ⟨hJ hs.1 ha hn,(hP hs.1 hs.2 ha hn).mpr hg⟩) And.right
    (fun hs ha hn => (hP hs.1 hs.2 ha hn).mp) ⟨hj,hs⟩

/-- A simulation: what the model accepts, the system can do. -/
theorem simulate {M : Type*} {model : M → A → Option M} {accept : M → A → Prop} {R : S → M → Prop}
    (hR : ∀ {s c a d}, R s c → accept c a → model c a = some d →
      ok s a ∧ ∃ t, next s a = some t ∧ R t d)
    {c d : M} {as : List A} (h : Runs model accept c as d) {s : S} (hs : R s c) :
    ∃ t, Runs next ok s as t ∧ R t d := by
  induction h generalizing s with
  | refl => exact ⟨s,.refl s,hs⟩
  | step ha hm _ ih =>
    obtain ⟨hok,t,ht,hR'⟩ := hR hs ha hm
    obtain ⟨u,hu,hRu⟩ := ih hR'
    exact ⟨u,.step hok ht hu,hRu⟩

/-- A simulation by runs: a step may take the model several steps, or none, with the same
observations. -/
theorem simulate_runs {M B O : Type*} {model : M → B → Option M} {okM : M → B → Prop} {R : S → M → Prop}
    {obs : A → Option O} {obsM : B → Option O}
    (hR : ∀ {s c a t}, R s c → ok s a → next s a = some t →
      ∃ bs d, Runs model okM c bs d ∧ R t d ∧ bs.filterMap obsM = (obs a).toList)
    {s t : S} {as : List A} (h : Runs next ok s as t) {c : M} (hs : R s c) :
    ∃ bs d, Runs model okM c bs d ∧ R t d ∧ bs.filterMap obsM = as.filterMap obs := by
  induction h generalizing c with
  | refl => exact ⟨[],c,.refl c,hs,rfl⟩
  | @step s u t a as ha hn _ ih =>
    obtain ⟨bs,d,hbs,hd,hobs⟩ := hR hs ha hn
    obtain ⟨cs,e,hcs,he,hobs'⟩ := ih hd
    refine ⟨bs ++ cs,e,hbs.trans hcs,he,?_⟩
    rw [List.filterMap_append,hobs,hobs',List.filterMap_cons]
    cases obs a <;> rfl

end Runs

/-- A loop whose bodies have different keys, and each of which updates what is
observed under its own key only, updates every key of the list once. -/
theorem foldl_keyed {S α κ β : Type*} [DecidableEq κ] (inv : S → Prop) (obs : S → κ → β)
    (f : S → α → S) (key : α → κ) (upd : α → β → β)
    (hf : ∀ {s}, inv s → ∀ a, inv (f s a) ∧
      ∀ k, obs (f s a) k = if k = key a then upd a (obs s k) else obs s k)
    {as : List α} (hk : as.Pairwise fun a b => key a ≠ key b) {s : S} (hs : inv s) :
    inv (as.foldl f s) ∧ (∀ a ∈ as, obs (as.foldl f s) (key a) = upd a (obs s (key a))) ∧
      ∀ k, (∀ a ∈ as, key a ≠ k) → obs (as.foldl f s) k = obs s k := by
  induction as generalizing s with
  | nil => exact ⟨hs,by simp,fun _ _ => rfl⟩
  | cons a as ih =>
    obtain ⟨ha,has⟩ := List.pairwise_cons.mp hk
    obtain ⟨hinv,hobs⟩ := hf hs a
    obtain ⟨hinv',hin,hout⟩ := ih has hinv
    refine ⟨hinv',fun b hb => ?_,fun k hn => ?_⟩
    · rcases List.mem_cons.mp hb with rfl | hb
      · rw [List.foldl_cons,hout _ fun c hc => (ha c hc).symm,hobs,if_pos rfl]
      · rw [List.foldl_cons,hin b hb,hobs,if_neg fun h => ha b hb h.symm]
    · rw [List.foldl_cons,hout k fun c hc => hn c (List.mem_cons_of_mem a hc),hobs,
        if_neg fun h => hn a List.mem_cons_self h.symm]

section Rel
variable {S T S' T' A β : Type*} {R : S → T → Prop} {R' : S' → T' → Prop}

theorem eq_none_of_rel {y : Option T} (h : Option.Rel R none y) : y = none := by
  cases h with
  | none => rfl

theorem exists_of_rel {s : S} {y : Option T} (h : Option.Rel R (some s) y) : ∃ t, y = some t ∧ R s t := by
  cases h with
  | some hst => exact ⟨_,rfl,hst⟩

/-- Two programs that stop together or go on in related states. -/
theorem rel_bind {x : Option S} {y : Option T} (h : Option.Rel R x y) {f : S → Option S'} {g : T → Option T'}
    (hfg : ∀ {s t}, R s t → Option.Rel R' (f s) (g t)) : Option.Rel R' (x.bind f) (y.bind g) := by
  cases h with
  | some hst => exact hfg hst
  | none => exact .none

theorem rel_map {x : Option S} {y : Option T} (h : Option.Rel R x y) {f : S → S'} {g : T → T'}
    (hfg : ∀ {s t}, R s t → R' (f s) (g t)) : Option.Rel R' (x.map f) (y.map g) := by
  cases h with
  | some hst => exact .some (hfg hst)
  | none => exact .none

theorem rel_map_left {x : Option S} {y : Option T} (h : Option.Rel R x y) {f : S → S'} {R' : S' → T → Prop}
    (hf : ∀ {s t}, R s t → R' (f s) t) : Option.Rel R' (x.map f) y := by
  cases h with
  | some hst => exact .some (hf hst)
  | none => exact .none

theorem map_eq_of_rel {x : Option S} {y : Option T} (h : Option.Rel R x y) {f : S → β} {g : T → β}
    (hfg : ∀ {s t}, R s t → f s = g t) : x.map f = y.map g := by
  cases h with
  | some hst => exact congrArg some (hfg hst)
  | none => rfl

/-- Two loops whose bodies stay together stay together from beginning to end. -/
theorem rel_foldlM {f : S → A → Option S} {g : T → A → Option T} {as : List A}
    (h : ∀ a ∈ as, ∀ {s t}, R s t → Option.Rel R (f s a) (g t a)) {s : S} {t : T} (hst : R s t) :
    Option.Rel R (as.foldlM f s) (as.foldlM g t) := by
  induction as generalizing s t with
  | nil => exact .some hst
  | cons a as ih =>
    rw [List.foldlM_cons,List.foldlM_cons]
    exact rel_bind (h a List.mem_cons_self hst) (ih fun b hb => h b (List.mem_cons_of_mem a hb))

end Rel

/-- What the body of a loop appends, all of the loop appends. -/
theorem foldlM_appends {T A β : Type*} {g : T → A → Option T} {p : T → List β} {q : A → List β}
    (h : ∀ t a u, g t a = some u → p u = p t ++ q a) {as : List A} {t u : T} (hu : as.foldlM g t = some u) :
    p u = p t ++ as.flatMap q := by
  induction as generalizing t with
  | nil =>
    obtain rfl : t = u := Option.some.inj hu
    exact (List.append_nil _).symm
  | cons a as ih =>
    rw [List.foldlM_cons] at hu
    obtain ⟨v,hv,hu⟩ := Option.bind_eq_some_iff.mp hu
    rw [ih hu,h t a v hv,List.flatMap_cons,List.append_assoc]

/-- A loop comes to its end if no body that it reaches stops. -/
theorem isSome_foldlM_iff {T A : Type*} {g : T → A → Option T} {as : List A} {t : T} :
    (as.foldlM g t).isSome = true ↔
      ∀ pre a post u, as = pre ++ a :: post → pre.foldlM g t = some u → (g u a).isSome = true := by
  induction as generalizing t with
  | nil =>
    refine iff_of_true rfl fun pre a post u h _ => ?_
    cases (List.append_eq_nil_iff.mp h.symm).2
  | cons b as ih =>
    rw [List.foldlM_cons]
    constructor
    · intro h pre a post u has hu
      obtain ⟨v,hv⟩ : ∃ v, g t b = some v := by
        cases hb : g t b with
        | none => rw [hb] at h; cases h
        | some v => exact ⟨v,rfl⟩
      rw [hv] at h
      cases pre with
      | nil =>
        obtain ⟨rfl,rfl⟩ := List.cons.inj has
        obtain rfl := Option.some.inj hu
        rw [hv]
        rfl
      | cons c pre =>
        obtain ⟨rfl,rfl⟩ := List.cons.inj has
        rw [List.foldlM_cons,hv] at hu
        exact ih.mp h pre a post u rfl hu
    · intro h
      obtain ⟨v,hv⟩ := Option.isSome_iff_exists.mp (h [] b as t rfl rfl)
      rw [hv]
      refine ih.mpr fun pre a post u has hu => h (b :: pre) a post u (congrArg (b :: ·) has) ?_
      rw [List.foldlM_cons,hv]
      exact hu

end Zcs
