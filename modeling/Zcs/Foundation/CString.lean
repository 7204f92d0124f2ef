import Mathlib.Data.List.TakeDrop
import Mathlib.Data.List.TakeWhile
import Zcs.Foundation.Text

/-! # C strings in a memory with bounds

A memory is the list of its bytes, and a pointer is an index. A C string is read byte by
byte up to its terminator; the result is `none` if that leads out of the memory, and the
same holds for every other access.
-/
namespace Zcs

def nul : Char := Char.ofNat 0

/-- The characters up to the terminator. -/
def untilNul : List Char → Option Text
  | [] => none
  | c :: cs => if c = nul then some [] else (untilNul cs).map (c :: ·)

/-- What `c_str()` points to, for those who read it as a C string. -/
def cStr (s : Text) : Text := s.takeWhile (· ≠ nul)

theorem untilNul_cStr (s : Text) (rest : List Char) : untilNul (s ++ nul :: rest) = some (cStr s) := by
  induction s with
  | nil => simp [untilNul,cStr]
  | cons c s ih => by_cases hc : c = nul <;> simp [untilNul,ih,cStr,hc]

theorem not_mem_cStr (s : Text) : nul ∉ cStr s := fun h => by simpa using List.mem_takeWhile_imp h

/-- With a terminator behind it there is one behind the string. -/
theorem cStr_cut (s : Text) : ∃ y, s ++ [nul] = cStr s ++ nul :: y := by
  have hcut := List.takeWhile_append_dropWhile (p := fun c => decide (c ≠ nul)) (l := s)
  cases hd : s.dropWhile fun c => decide (c ≠ nul) with
  | nil =>
    rw [hd,List.append_nil] at hcut
    exact ⟨[],by rw [cStr,hcut]⟩
  | cons x y =>
    have hx : x = nul := by
      have hhead := List.head?_dropWhile_not (fun c => decide (c ≠ nul)) s
      rw [hd] at hhead
      simpa using hhead
    refine ⟨y ++ [nul],?_⟩
    rw [hd,hx] at hcut
    conv_lhs => rw [← hcut]
    simp [cStr]

theorem cStr_eq {s : Text} (hs : nul ∉ s) : cStr s = s :=
  List.takeWhile_eq_self_iff.mpr fun _ hc => decide_eq_true fun h => hs (h ▸ hc)

theorem untilNul_append {s : Text} (hs : nul ∉ s) (rest : List Char) : untilNul (s ++ nul :: rest) = some s := by
  rw [untilNul_cStr,cStr_eq hs]

theorem length_of_untilNul {cs : List Char} {s : Text} (h : untilNul cs = some s) : s.length < cs.length := by
  induction cs generalizing s with
  | nil => cases h
  | cons c cs ih =>
    unfold untilNul at h
    split_ifs at h
    · obtain rfl := Option.some.inj h
      exact Nat.succ_pos _
    · obtain ⟨r,hr,rfl⟩ := Option.map_eq_some_iff.mp h
      exact Nat.succ_lt_succ (ih hr)

/-- A list cut at the first element that is not of a kind. -/
theorem takeWhile_dropWhile_append {α : Type*} {p : α → Bool} {a b : List α} (ha : ∀ x ∈ a, p x = true)
    (hb : ∀ x ∈ b.head?, p x = false) : (a ++ b).takeWhile p = a ∧ (a ++ b).dropWhile p = b := by
  rw [List.takeWhile_append_of_pos ha,List.dropWhile_append_of_pos ha]
  cases b with
  | nil => simp
  | cons x b =>
    have hx : ¬ p x = true := by simp [hb x rfl]
    simp [List.takeWhile_cons_of_neg hx,List.dropWhile_cons_of_neg hx]

theorem exists_cut {α : Type*} (P : α → Prop) (l : List α) : ∃ a b, l = a ++ b ∧ (∀ x ∈ a, P x) ∧
    ∀ x ∈ b.head?, ¬ P x := by
  induction l with
  | nil => exact ⟨[],[],rfl,by simp,by simp⟩
  | cons x l ih =>
    by_cases hx : P x
    · obtain ⟨a,b,rfl,ha,hb⟩ := ih
      exact ⟨x :: a,b,rfl,List.forall_mem_cons.mpr ⟨hx,ha⟩,hb⟩
    · exact ⟨[],x :: l,rfl,by simp,by simpa using hx⟩

theorem cut_unique {α : Type*} {P : α → Prop} {a b a' b' : List α} (h : a ++ b = a' ++ b')
    (ha : ∀ x ∈ a, P x) (hb : ∀ x ∈ b.head?, ¬ P x) (ha' : ∀ x ∈ a', P x) (hb' : ∀ x ∈ b'.head?, ¬ P x) :
    a = a' ∧ b = b' := by
  classical
  have hcut : ∀ {c d : List α}, (∀ x ∈ c, P x) → (∀ x ∈ d.head?, ¬ P x) →
      (c ++ d).takeWhile (fun x => decide (P x)) = c ∧ (c ++ d).dropWhile (fun x => decide (P x)) = d :=
    fun hc hd => takeWhile_dropWhile_append (fun x hx => decide_eq_true (hc x hx))
      (fun x hx => decide_eq_false (hd x hx))
  obtain ⟨ht,hd⟩ := hcut ha hb
  obtain ⟨ht',hd'⟩ := hcut ha' hb'
  rw [h] at ht hd
  exact ⟨ht.symm.trans ht',hd.symm.trans hd'⟩

abbrev Memory := List Char

namespace Memory
variable (m : Memory) (p : ℕ)

def load : Option Char := m[p]?

def store (c : Char) : Option Memory := if p < m.length then some (m.set p c) else none

/-- Copies bytes to `p` and behind it. -/
def copy (cs : List Char) : Option Memory :=
  if p + cs.length ≤ m.length then some (m.take p ++ cs ++ m.drop (p + cs.length)) else none

/-- The string at `p`, as `std::string(p)` and a format `%s` read it. -/
def cstring : Option Text := untilNul (m.drop p)

/-- `strpbrk`, the first character that is one of those to accept. -/
def strpbrk (accept : Text) : Option (Option ℕ) := do
  let s ← m.cstring p
  match s.dropWhile (!accept.contains ·) with
  | [] => return none
  | _ :: _ => return some (p + (s.takeWhile (!accept.contains ·)).length)

/-- `strspn` -/
def strspn (accept : Text) : Option ℕ := do
  return ((← m.cstring p).takeWhile (accept.contains ·)).length

/-- `strchr` for a character other than the terminator. -/
def strchr (c : Char) : Option (Option ℕ) := m.strpbrk p [c]

/-- `strcasecmp(p, t) == 0` -/
def strcasecmp (t : Text) : Option Bool := do
  return (← m.cstring p).map Char.toLower = t.map Char.toLower

/-- `strncasecmp(p, t, n) == 0` -/
def strncasecmp (t : Text) (n : ℕ) : Option Bool := do
  return ((← m.cstring p).take n).map Char.toLower = (t.take n).map Char.toLower

variable {m p}

theorem cstring_eq {q s r : List Char} (hm : m = q ++ s ++ nul :: r) (hp : p = q.length)
    (hs : nul ∉ s) : m.cstring p = some s := by
  subst hm hp
  rw [cstring,List.append_assoc,List.drop_left,untilNul_append hs]

theorem store_eq {q r : List Char} {a : Char} (hm : m = q ++ a :: r) (hp : p = q.length) (c : Char) :
    m.store p c = some (q ++ c :: r) := by
  subst hm hp
  simp [store]

theorem load_eq {q r : List Char} {a : Char} (hm : m = q ++ a :: r) (hp : p = q.length) :
    m.load p = some a := by
  subst hm hp
  simp [load]

theorem copy_eq {q o r cs : List Char} (hm : m = q ++ o ++ r) (hp : p = q.length)
    (hl : cs.length = o.length) : m.copy p cs = some (q ++ cs ++ r) := by
  subst hm hp
  simp [copy,hl]

section Search
variable {q s a b r : List Char} {accept : Text} {c : Char}

theorem strpbrk_none (hm : m = q ++ s ++ nul :: r) (hp : p = q.length) (hs : nul ∉ s)
    (ha : ∀ x ∈ s, x ∉ accept) : m.strpbrk p accept = some none := by
  obtain ⟨_,hd⟩ := takeWhile_dropWhile_append (p := (!accept.contains ·)) (a := s) (b := [])
    (fun x hx => by simpa using ha x hx) (fun x hx => by cases hx)
  rw [List.append_nil] at hd
  simp only [strpbrk,cstring_eq hm hp hs,Option.bind_eq_bind,Option.bind_some,hd]
  rfl

theorem strpbrk_some (hm : m = q ++ (a ++ c :: b) ++ nul :: r) (hp : p = q.length)
    (hs : nul ∉ a ++ c :: b) (ha : ∀ x ∈ a, x ∉ accept) (hc : c ∈ accept) :
    m.strpbrk p accept = some (some (p + a.length)) := by
  obtain ⟨ht,hd⟩ := takeWhile_dropWhile_append (p := (!accept.contains ·)) (a := a) (b := c :: b)
    (fun x hx => by simpa using ha x hx) (fun x hx => by
      obtain rfl := Option.some.inj hx
      simpa using hc)
  simp only [strpbrk,cstring_eq hm hp hs,Option.bind_eq_bind,Option.bind_some,hd,ht]
  rfl

theorem strspn_eq (hm : m = q ++ (a ++ b) ++ nul :: r) (hp : p = q.length) (hs : nul ∉ a ++ b)
    (ha : ∀ x ∈ a, x ∈ accept) (hb : ∀ x ∈ b.head?, x ∉ accept) : m.strspn p accept = some a.length := by
  obtain ⟨ht,_⟩ := takeWhile_dropWhile_append (p := (accept.contains ·)) (a := a) (b := b)
    (fun x hx => by simpa using ha x hx) (fun x hx => by simpa using hb x hx)
  simp only [strspn,cstring_eq hm hp hs,Option.bind_eq_bind,Option.bind_some,ht]
  rfl

end Search
end Memory
end Zcs
