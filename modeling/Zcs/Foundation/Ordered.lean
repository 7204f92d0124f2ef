import Mathlib.Data.List.Pairwise
import Mathlib.Order.Lattice

/-! # Ordered sets and maps

`std::set` and `std::map` as lists in iteration order. The order is the one of the
container, two elements of which neither is less than the other are the same
element for it, and the list is strictly increasing by its type.
-/
namespace Zcs

/-- What `std::set` asks of its comparison. -/
class StrictWeakOrder {α : Type*} (lt : α → α → Bool) : Prop where
  irrefl : ∀ a, lt a a = false
  trans : ∀ {a b c}, lt a b = true → lt b c = true → lt a c = true

theorem StrictWeakOrder.asymm {α : Type*} {lt : α → α → Bool} [StrictWeakOrder lt] {a b : α}
    (h : lt a b = true) : lt b a = false := by
  by_contra hba
  have haa : lt a a = true := trans h (by simpa using hba)
  simp [irrefl] at haa

structure SortedSet (α : Type*) (lt : α → α → Bool) where
  toList : List α
  sorted : toList.Pairwise (fun a b => lt a b = true)
  deriving DecidableEq

namespace SortedSet
variable {α : Type*} {lt : α → α → Bool}

instance : Membership α (SortedSet α lt) := ⟨fun s a => a ∈ s.toList⟩

theorem ext_toList {s t : SortedSet α lt} (h : s.toList = t.toList) : s = t := by
  cases s
  cases t
  simpa using h

theorem lt_or_lt {s : SortedSet α lt} {a b : α} (ha : a ∈ s) (hb : b ∈ s) (hab : a ≠ b) :
    lt a b = true ∨ lt b a = true := by
  let R := fun a b => lt a b = true ∨ lt b a = true
  have hsymm : Std.Symm R := ⟨fun _ _ h => h.symm⟩
  have hp : s.toList.Pairwise R := s.sorted.imp .inl
  exact hp.forall ha hb hab

def empty : SortedSet α lt := ⟨[],.nil⟩

@[simp] theorem toList_empty : (empty : SortedSet α lt).toList = [] := rfl

def find (s : SortedSet α lt) (x : α) : Option α :=
  s.toList.find? (fun y => !lt x y && !lt y x)

theorem find_spec {s : SortedSet α lt} {x y : α} (h : s.find x = some y) :
    y ∈ s ∧ lt x y = false ∧ lt y x = false := by
  have hy := List.find?_some h
  exact ⟨List.mem_of_find?_eq_some h,by simpa using hy⟩

theorem find_eq_none {s : SortedSet α lt} {x : α} (h : s.find x = none) {y : α} (hy : y ∈ s) :
    lt x y = true ∨ lt y x = true := by
  have hn := List.find?_eq_none.mp h y hy
  by_contra hc
  simp_all

/-- `std::set::insert` keeps an element that is already there. -/
def insertList (lt : α → α → Bool) (x : α) : List α → List α
  | [] => [x]
  | y :: ys =>
    if lt x y then x :: y :: ys
    else if lt y x then y :: insertList lt x ys
    else y :: ys

theorem mem_insertList {x a : α} {l : List α} (h : a ∈ insertList lt x l) : a = x ∨ a ∈ l := by
  induction l with
  | nil => simpa [insertList] using h
  | cons y ys ih =>
    unfold insertList at h
    split_ifs at h
    · simpa using h
    · rcases List.mem_cons.mp h with rfl | h
      · simp
      · rcases ih h with rfl | h
        · simp
        · simp [h]
    · exact .inr h

variable [StrictWeakOrder lt]

theorem pairwise_insertList {x : α} {l : List α} (h : l.Pairwise (fun a b => lt a b = true)) :
    (insertList lt x l).Pairwise (fun a b => lt a b = true) := by
  induction l with
  | nil => simp [insertList]
  | cons y ys ih =>
    obtain ⟨hy,hys⟩ := List.pairwise_cons.mp h
    unfold insertList
    split_ifs with hxy hyx
    · refine List.pairwise_cons.mpr ⟨?_,h⟩
      intro a ha
      rcases List.mem_cons.mp ha with rfl | ha
      · exact hxy
      · exact StrictWeakOrder.trans hxy (hy a ha)
    · refine List.pairwise_cons.mpr ⟨?_,ih hys⟩
      intro a ha
      rcases mem_insertList ha with rfl | ha
      · exact hyx
      · exact hy a ha
    · exact h

def insert (s : SortedSet α lt) (x : α) : SortedSet α lt :=
  ⟨insertList lt x s.toList,pairwise_insertList s.sorted⟩

def insertAll (s : SortedSet α lt) (xs : List α) : SortedSet α lt := xs.foldl insert s

theorem insertList_of_forall_lt {x : α} {l : List α} (h : ∀ y ∈ l, lt y x = true) :
    insertList lt x l = l ++ [x] := by
  induction l with
  | nil => rfl
  | cons y ys ih =>
    have hyx := h y List.mem_cons_self
    have hxy : lt x y = false := StrictWeakOrder.asymm hyx
    simp only [insertList,hxy,hyx,Bool.false_eq_true,↓reduceIte,List.cons_append]
    rw [ih fun z hz => h z (List.mem_cons_of_mem y hz)]

theorem toList_insertAll {s : SortedSet α lt} {xs : List α}
    (h : (s.toList ++ xs).Pairwise (fun a b => lt a b = true)) :
    (insertAll s xs).toList = s.toList ++ xs := by
  induction xs generalizing s with
  | nil => simp [insertAll]
  | cons x xs ih =>
    have hx : (s.insert x).toList = s.toList ++ [x] :=
      insertList_of_forall_lt fun y hy => (List.pairwise_append.mp h).2.2 y hy x List.mem_cons_self
    have hi := ih (s := s.insert x) (by simpa [hx] using h)
    simpa [insertAll,hx] using hi

end SortedSet

structure SortedMap (κ α : Type*) [LinearOrder κ] where
  entries : List (κ × α)
  sorted : entries.Pairwise (fun a b => a.1 < b.1)

namespace SortedMap
variable {κ α : Type*} [LinearOrder κ]

def empty : SortedMap κ α := ⟨[],.nil⟩

def find (m : SortedMap κ α) (k : κ) : Option α :=
  (m.entries.find? (fun e => decide (e.1 = k))).map Prod.snd

/-- `m[k] = a`. -/
def assignList (k : κ) (a : α) : List (κ × α) → List (κ × α)
  | [] => [(k,a)]
  | e :: es =>
    if k < e.1 then (k,a) :: e :: es
    else if k = e.1 then (k,a) :: es
    else e :: assignList k a es

theorem key_of_mem_assignList {k : κ} {a : α} {l : List (κ × α)} {e : κ × α}
    (h : e ∈ assignList k a l) : e = (k,a) ∨ e ∈ l := by
  induction l with
  | nil => simpa [assignList] using h
  | cons d es ih =>
    unfold assignList at h
    split_ifs at h
    · simpa using h
    · rcases List.mem_cons.mp h with h | h
      · exact .inl h
      · exact .inr (List.mem_cons_of_mem d h)
    · rcases List.mem_cons.mp h with rfl | h
      · simp
      · rcases ih h with h | h
        · exact .inl h
        · exact .inr (List.mem_cons_of_mem d h)

theorem pairwise_assignList {k : κ} {a : α} {l : List (κ × α)}
    (h : l.Pairwise (fun a b => a.1 < b.1)) : (assignList k a l).Pairwise (fun a b => a.1 < b.1) := by
  induction l with
  | nil => simp [assignList]
  | cons e es ih =>
    obtain ⟨he,hes⟩ := List.pairwise_cons.mp h
    unfold assignList
    split_ifs with hlt heq
    · refine List.pairwise_cons.mpr ⟨?_,h⟩
      intro d hd
      rcases List.mem_cons.mp hd with rfl | hd
      · exact hlt
      · exact lt_trans hlt (he d hd)
    · exact List.pairwise_cons.mpr ⟨fun d hd => heq ▸ he d hd,hes⟩
    · refine List.pairwise_cons.mpr ⟨?_,ih hes⟩
      intro d hd
      rcases key_of_mem_assignList hd with rfl | hd
      · exact lt_of_le_of_ne (not_lt.mp hlt) (Ne.symm heq)
      · exact he d hd

def assign (m : SortedMap κ α) (k : κ) (a : α) : SortedMap κ α :=
  ⟨assignList k a m.entries,pairwise_assignList m.sorted⟩

@[simp] theorem find_empty (k : κ) : (empty : SortedMap κ α).find k = none := rfl

theorem find_assign (m : SortedMap κ α) (k : κ) (a : α) (j : κ) :
    (m.assign k a).find j = if j = k then some a else m.find j := by
  obtain ⟨l,_⟩ := m
  simp only [assign,find]
  induction l with
  | nil =>
    by_cases hj : j = k
    · simp [assignList,hj]
    · simp [assignList,hj,Ne.symm hj]
  | cons e es ih =>
    have ih := ih (List.Pairwise.of_cons ‹_›)
    unfold assignList
    by_cases hlt : k < e.1
    · by_cases hj : j = k
      · simp [hlt,hj]
      · simp [hlt,hj,Ne.symm hj,List.find?_cons]
    · rw [if_neg hlt]
      by_cases heq : k = e.1
      · rw [if_pos heq]
        by_cases hj : j = k
        · simp [hj]
        · have hje : e.1 ≠ j := fun h => hj (h.symm.trans heq.symm)
          simp [hj,Ne.symm hj,hje]
      · rw [if_neg heq]
        by_cases hje : e.1 = j
        · have hjk : j ≠ k := fun h => heq (h.symm.trans hje.symm)
          simp [hje,hjk]
        · simp only [hje,List.find?_cons,decide_false]
          exact ih

def erase (m : SortedMap κ α) (k : κ) : SortedMap κ α :=
  ⟨m.entries.filter (fun e => decide (e.1 ≠ k)),m.sorted.filter _⟩

theorem mem_keys_erase {m : SortedMap κ α} {k j : κ} :
    j ∈ (m.erase k).entries.map Prod.fst ↔ j ∈ m.entries.map Prod.fst ∧ j ≠ k := by
  simp only [erase,List.mem_map,List.mem_filter,decide_eq_true_eq]
  constructor
  · rintro ⟨e,⟨he,hk⟩,rfl⟩
    exact ⟨⟨e,he,rfl⟩,hk⟩
  · rintro ⟨⟨e,he,rfl⟩,hk⟩
    exact ⟨e,⟨he,hk⟩,rfl⟩

def mapValues {β : Type*} (m : SortedMap κ α) (f : κ → α → β) : SortedMap κ β :=
  ⟨m.entries.map fun e => (e.1,f e.1 e.2),List.pairwise_map.mpr m.sorted⟩

def filterMap {β : Type*} (m : SortedMap κ α) (f : α → Option β) : SortedMap κ β where
  entries := m.entries.filterMap fun e => (f e.2).map fun b => (e.1,b)
  sorted := m.sorted.filterMap _ fun d e hde b hb c hc => by
    obtain ⟨_,_,rfl⟩ := Option.map_eq_some_iff.mp hb
    obtain ⟨_,_,rfl⟩ := Option.map_eq_some_iff.mp hc
    exact hde

theorem find_filterMap {β : Type*} (m : SortedMap κ α) (f : α → Option β) (k : κ) :
    (m.filterMap f).find k = (m.find k).bind f := by
  obtain ⟨l,hl⟩ := m
  simp only [filterMap,find]
  induction l with
  | nil => rfl
  | cons e es ih =>
    obtain ⟨he,hes⟩ := List.pairwise_cons.mp hl
    have ih := ih hes
    by_cases hk : e.1 = k
    · -- no later entry has this key
      have hnone : es.find? (fun d => decide (d.1 = k)) = none := by
        refine List.find?_eq_none.mpr fun d hd => ?_
        simpa [← hk] using (ne_of_lt (he d hd)).symm
      rw [hnone] at ih
      cases hf : f e.2 with
      | none => simpa [hf,hk] using ih
      | some b => simp [hf,hk]
    · cases hf : f e.2 <;> simpa [hf,hk] using ih

theorem find_of_mem {m : SortedMap κ α} {e : κ × α} (he : e ∈ m.entries) : m.find e.1 = some e.2 := by
  obtain ⟨l,hl⟩ := m
  simp only [find]
  induction l with
  | nil => cases he
  | cons d es ih =>
    obtain ⟨hd,hes⟩ := List.pairwise_cons.mp hl
    rcases List.mem_cons.mp he with rfl | he
    · simp
    · have hne : d.1 ≠ e.1 := ne_of_lt (hd e he)
      simpa [hne] using ih hes he

theorem mem_of_find {m : SortedMap κ α} {k : κ} {a : α} (h : m.find k = some a) : (k,a) ∈ m.entries := by
  obtain ⟨e,he,rfl⟩ := Option.map_eq_some_iff.mp h
  obtain rfl : e.1 = k := by simpa using List.find?_some he
  exact List.mem_of_find?_eq_some he

theorem find_eq_none_iff {m : SortedMap κ α} {k : κ} : m.find k = none ↔ ∀ e ∈ m.entries, e.1 ≠ k := by
  simp [find]

/-- A new entry that a filter does not let through. -/
theorem filter_assign {m : SortedMap κ α} {k : κ} {a : α} {p : κ × α → Bool} (hk : m.find k = none)
    (hp : p (k,a) = false) : (m.assign k a).entries.filter p = m.entries.filter p := by
  have hne := find_eq_none_iff.mp hk
  obtain ⟨l,_⟩ := m
  simp only [assign] at hne ⊢
  induction l with
  | nil => simp [assignList,hp]
  | cons e es ih =>
    obtain ⟨he,hes⟩ := List.forall_mem_cons.mp hne
    have ih := ih (List.Pairwise.of_cons ‹_›) (find_eq_none_iff.mpr hes) hes
    unfold assignList
    rw [if_neg (Ne.symm he)]
    split_ifs
    · rw [List.filter_cons_of_neg (by simp [hp])]
    · rw [List.filter_cons,List.filter_cons,ih]

theorem isSome_find_iff {m : SortedMap κ α} {k : κ} :
    (m.find k).isSome = true ↔ k ∈ m.entries.map Prod.fst := by
  simp [find]

end SortedMap
end Zcs
