import Mathlib.Data.List.Forall2
import Mathlib.Data.Setoid.Basic

/-! # Lists related element by element

Loops over a list that may throw, and what carries over from a list to another one
whose elements are the same in some sense.
-/
namespace Zcs
open List (Forall₂)

variable {α β σ ε : Type}

theorem exists_forall₂ {R : α → β → Prop} {xs : List α} (h : ∀ x ∈ xs, ∃ b, R x b) :
    ∃ bs, Forall₂ R xs bs := by
  induction xs with
  | nil => exact ⟨[],.nil⟩
  | cons x xs ih =>
    obtain ⟨b,hb⟩ := h x List.mem_cons_self
    obtain ⟨bs,hbs⟩ := ih fun x' hx' => h x' (List.mem_cons_of_mem x hx')
    exact ⟨b :: bs,.cons hb hbs⟩

theorem exists_of_mem_left {R : α → β → Prop} {xs : List α} {bs : List β} (h : Forall₂ R xs bs) {x : α}
    (hx : x ∈ xs) : ∃ b ∈ bs, R x b := by
  induction h with
  | nil => cases hx
  | @cons x' b _ _ hb _ ih =>
    rcases List.mem_cons.mp hx with rfl | hx
    · exact ⟨b,List.mem_cons_self,hb⟩
    · obtain ⟨c,hc,hr⟩ := ih hx
      exact ⟨c,List.mem_cons_of_mem b hc,hr⟩

theorem filterMap_of_forall₂ {f : α → Option β} {xs : List α} {bs : List β}
    (h : Forall₂ (fun x b => f x = some b) xs bs) : xs.filterMap f = bs := by
  induction h with
  | nil => rfl
  | cons hb _ ih => rw [List.filterMap_cons_some hb,ih]

theorem map_eq_of_forall₂ {γ : Type} {f : α → γ} {g : β → γ} {xs : List α} {bs : List β}
    (h : Forall₂ (fun x b => g b = f x) xs bs) : bs.map g = xs.map f := by
  induction h with
  | nil => rfl
  | cons hb _ ih => rw [List.map_cons,List.map_cons,hb,ih]

/-- If `p` holds on the left throughout, the two sides agree if `q` holds on the right. -/
theorem forall₂_iff_right {p : α → Prop} {q : β → Prop} {as : List α} {bs : List β} (hl : as.length = bs.length)
    (hp : ∀ a ∈ as, p a) : Forall₂ (fun a b => p a ↔ q b) as bs ↔ ∀ b ∈ bs, q b := by
  induction as generalizing bs with
  | nil =>
    obtain rfl := List.length_eq_zero_iff.mp hl.symm
    simp
  | cons a as ih =>
    cases bs with
    | nil => cases hl
    | cons b bs =>
      obtain ⟨ha,has⟩ := List.forall_mem_cons.mp hp
      rw [List.forall₂_cons,List.forall_mem_cons,ih (Nat.succ.inj hl) has,iff_true_left ha]

theorem map_eq_self_iff {f : α → α} {xs : List α} : xs.map f = xs ↔ ∀ x ∈ xs, f x = x := by
  have h : xs.map f = xs.map id ↔ ∀ x ∈ xs, f x = id x := List.map_inj_left
  simpa using h

theorem bind_eq_ok_iff {x : Except ε α} {f : α → Except ε β} {b : β} :
    (x >>= f) = .ok b ↔ ∃ a, x = .ok a ∧ f a = .ok b := by
  cases x <;> simp [bind,Except.bind]

theorem bind_ne_error {x : Except ε α} {f : α → Except ε β} {e : ε} (hx : x ≠ .error e)
    (hf : ∀ a, x = .ok a → f a ≠ .error e) : (x >>= f) ≠ .error e := by
  cases x with
  | error e' => exact fun h => hx (congrArg Except.error (Except.error.inj h))
  | ok a => exact hf a rfl

theorem foldlM_eq_ok {step : σ → α → Except ε σ} {g : σ → β → σ} {as : List α} {bs : List β}
    (h : Forall₂ (fun a b => ∀ s, step s a = .ok (g s b)) as bs) (s : σ) :
    as.foldlM step s = .ok (bs.foldl g s) := by
  induction h generalizing s with
  | nil => rfl
  | cons hab _ ih =>
    rw [List.foldlM_cons,hab]
    exact ih _

/-- A loop that appends what it keeps of each element. -/
theorem foldlM_keep_cases {f : α → Except ε (Option β)} {as : List α} {acc bs : List β}
    (h : as.foldlM (fun acc a => do return acc ++ (← f a).toList) acc = .ok bs) :
    ∃ os, Forall₂ (fun a o => f a = .ok o) as os ∧ bs = acc ++ os.filterMap id := by
  induction as generalizing acc with
  | nil => exact ⟨[],.nil,by simpa using (Except.ok.inj h).symm⟩
  | cons a as ih =>
    rw [List.foldlM_cons] at h
    obtain ⟨acc',ha,h⟩ := bind_eq_ok_iff.mp h
    obtain ⟨o,ho,ha⟩ := bind_eq_ok_iff.mp ha
    obtain rfl := Except.ok.inj ha
    obtain ⟨os,hos,rfl⟩ := ih h
    exact ⟨o :: os,.cons ho hos,by cases o <;> simp⟩

/-- The loop compared with `filterMap` by a function that keeps the same elements. -/
theorem foldlM_keep_eq_ok_iff {f : α → Except ε (Option β)} {g : α → Option β} {as : List α}
    (hg : ∀ a ∈ as, ∀ o, f a = .ok o → o.isSome = (g a).isSome) (acc : List β) :
    as.foldlM (fun acc a => do return acc ++ (← f a).toList) acc = .ok (acc ++ as.filterMap g) ↔
      ∀ a ∈ as, f a = .ok (g a) := by
  induction as generalizing acc with
  | nil => simp [pure,Except.pure]
  | cons a as ih =>
    have ih := ih fun b hb => hg b (List.mem_cons_of_mem a hb)
    have hcons : (a :: as).filterMap g = (g a).toList ++ as.filterMap g := by cases h : g a <;> simp [h]
    rw [List.foldlM_cons,List.forall_mem_cons]
    cases hf : f a with
    | error e => simp [bind,Except.bind]
    | ok o =>
      change as.foldlM _ (acc ++ o.toList) = _ ↔ _
      rw [hcons,← List.append_assoc]
      by_cases ho : o = g a
      · subst ho
        exact (ih (acc ++ (g a).toList)).trans (and_iff_right rfl).symm
      · refine ⟨fun h => ?_,fun h => absurd (Except.ok.inj h.1) ho⟩
        obtain ⟨os,_,hrest⟩ := foldlM_keep_cases h
        have hsome := hg a List.mem_cons_self o hf
        -- either both keep nothing, or what each keeps comes next in the same list
        exfalso
        cases o with
        | none => exact ho (Option.isNone_iff_eq_none.mp (Option.isSome_eq_false_iff.mp hsome.symm)).symm
        | some b =>
          obtain ⟨c,hc⟩ := Option.isSome_iff_exists.mp hsome.symm
          simp only [hc,Option.toList_some,List.append_assoc,List.singleton_append,
            List.append_cancel_left_eq,List.cons.injEq] at hrest
          exact ho (by rw [hc,hrest.1])

theorem mapM_eq_ok {f : α → Except ε β} {as : List α} {bs : List β}
    (h : Forall₂ (fun a b => f a = .ok b) as bs) : as.mapM f = .ok bs := by
  induction h with
  | nil => rfl
  | cons hab _ ih =>
    rw [List.mapM_cons,hab,ih]
    rfl

theorem forall₂_of_mapM_eq_ok {f : α → Except ε β} {as : List α} {bs : List β} (h : as.mapM f = .ok bs) :
    Forall₂ (fun a b => f a = .ok b) as bs := by
  induction as generalizing bs with
  | nil =>
    obtain rfl := Except.ok.inj h
    exact .nil
  | cons a as ih =>
    rw [List.mapM_cons] at h
    obtain ⟨b,hb,h⟩ := bind_eq_ok_iff.mp h
    obtain ⟨bs',hbs,h⟩ := bind_eq_ok_iff.mp h
    obtain rfl := Except.ok.inj h
    exact .cons hb (ih hbs)

theorem isSome_mapM {f : α → Option β} {xs : List α} :
    (xs.mapM f).isSome = true ↔ ∀ x ∈ xs, (f x).isSome = true := by
  induction xs with
  | nil => simp
  | cons x xs ih =>
    rw [List.mapM_cons,List.forall_mem_cons,← ih]
    cases f x <;> cases xs.mapM f <;> simp

theorem forall₂_of_mapM_eq_some {f : α → Option β} {xs : List α} {bs : List β} (h : xs.mapM f = some bs) :
    Forall₂ (fun x b => f x = some b) xs bs := by
  induction xs generalizing bs with
  | nil =>
    obtain rfl := Option.some.inj h
    exact .nil
  | cons x xs ih =>
    rw [List.mapM_cons] at h
    obtain ⟨b,hb,h⟩ := Option.bind_eq_some_iff.mp h
    obtain ⟨bs',hbs,h⟩ := Option.bind_eq_some_iff.mp h
    obtain rfl := Option.some.inj h
    exact .cons hb (ih hbs)

/-- Two loops that do the same to every state, step by step. -/
theorem foldlM_congr {S : Type*} {f : S → α → Option S} {g : S → β → Option S} {as : List α} {bs : List β}
    (h : Forall₂ (fun a b => ∀ s, f s a = g s b) as bs) (s : S) : as.foldlM f s = bs.foldlM g s := by
  induction h generalizing s with
  | nil => rfl
  | cons hab _ ih =>
    rw [List.foldlM_cons,List.foldlM_cons,hab]
    congr 1
    funext t
    exact ih t

/-- A loop that ends well has done so in every step. -/
theorem forall₂_of_foldlM_eq_ok {f : α → Except ε β} {g : σ → α → β → σ} {as : List α} {s t : σ}
    (h : as.foldlM (fun s a => do return g s a (← f a)) s = .ok t) :
    ∃ bs, Forall₂ (fun a b => f a = .ok b) as bs ∧ t = (as.zip bs).foldl (fun s p => g s p.1 p.2) s := by
  induction as generalizing s with
  | nil =>
    obtain rfl := Except.ok.inj h
    exact ⟨[],.nil,rfl⟩
  | cons a as ih =>
    rw [List.foldlM_cons] at h
    obtain ⟨u,hu,h⟩ := bind_eq_ok_iff.mp h
    obtain ⟨b,hb,hu⟩ := bind_eq_ok_iff.mp hu
    obtain rfl := Except.ok.inj hu
    obtain ⟨bs,hbs,rfl⟩ := ih h
    exact ⟨b :: bs,.cons hb hbs,rfl⟩

/-- What holds between any two elements holds again once each is replaced by one
that is the same. -/
theorem pairwise_of_forall₂ {S R : α → α → Prop}
    (hR : ∀ a a' b b', S a' a → S b' b → R a b → R a' b') {xs' xs : List α} (h : Forall₂ S xs' xs)
    (hp : xs.Pairwise R) : xs'.Pairwise R := by
  induction h with
  | nil => exact .nil
  | cons ha hs ih =>
    obtain ⟨hx,hxs⟩ := List.pairwise_cons.mp hp
    refine List.pairwise_cons.mpr ⟨fun b' hb' => ?_,ih hxs⟩
    obtain ⟨b,hb,hbb⟩ := exists_of_mem_left hs hb'
    exact hR _ _ _ _ ha hbb (hx b hb)

theorem forall₂_trans {S : α → α → Prop} (hS : ∀ a b c, S a b → S b c → S a c) {xs ys zs : List α}
    (h : Forall₂ S xs ys) (h' : Forall₂ S ys zs) : Forall₂ S xs zs := by
  induction h generalizing zs with
  | nil => exact h'
  | cons hab _ ih =>
    cases h' with
    | cons hbc hs => exact .cons (hS _ _ _ hab hbc) (ih hs)

def listSame (same : Setoid α) : Setoid (List α) where
  r := Forall₂ same
  iseqv := ⟨fun _ => List.forall₂_same.mpr fun x _ => same.refl' x,
    fun h => (h.imp fun _ _ => same.symm').flip,forall₂_trans (S := same) fun _ _ _ => same.trans'⟩

end Zcs
