import Mathlib.Data.Bool.AllAny
import Zcs.Http.Parser

/-! # Request lines

The grammar is stated for a text. The parser splits the text where the grammar does,
because each of its searches goes to the first character of a kind.
-/
namespace Zcs.Http

def AnyCase (t s : Text) : Prop := s.map Char.toLower = t.map Char.toLower

instance (t s : Text) : Decidable (AnyCase t s) :=
  inferInstanceAs (Decidable (s.map Char.toLower = t.map Char.toLower))

def Blank (s : Text) : Prop := s ≠ [] ∧ ∀ c ∈ s, c ∈ separators

/-- A path, or an absolute address with a path. -/
def IsTarget (u : Text) : Prop :=
  (∃ rest, u = '/' :: rest) ∨ ∃ scheme rest, u = scheme ++ rest ∧ AnyCase "http://".toList scheme ∧ '/' ∈ rest

/-- The parts of a request line. -/
structure RequestLine where
  method : Text
  blanks : Text
  target : Text
  blanks' : Text
  version : Text
  isGet : AnyCase "GET".toList method
  isBlank : Blank blanks
  solid : ∀ c ∈ target, c ∉ separators
  isTarget : IsTarget target
  isBlank' : Blank blanks'
  isVersion : AnyCase "HTTP/1.1".toList version

def RequestLine.text (r : RequestLine) : Text := r.method ++ r.blanks ++ r.target ++ r.blanks' ++ r.version

def IsRequestLine (line : Text) : Prop := ∃ r : RequestLine, r.text = line

/-- A text that agrees with one without separators has none. -/
theorem AnyCase.solid {t s : Text} (h : AnyCase t s) (ht : ∀ c ∈ t.map Char.toLower, c ∉ separators) :
    ∀ c ∈ s, c ∉ separators := by
  intro c hc hsep
  have hlower : ∀ c ∈ separators, c.toLower = c := List.all_iff_forall_prop.mp (by decide)
  exact ht c (h ▸ List.mem_map.mpr ⟨c,hc,hlower c hsep⟩) hsep

theorem AnyCase.length_eq {t s : Text} (h : AnyCase t s) : s.length = t.length := by
  simpa using congrArg List.length h

/-- Seven characters are compared, whatever comes behind them. -/
theorem isTarget_iff (u : Text) : IsTarget u ↔
    (∃ rest, u = '/' :: rest) ∨ AnyCase "http://".toList (u.take 7) ∧ '/' ∈ u.drop 7 := by
  refine or_congr_right ⟨?_,fun h => ⟨_,_,(List.take_append_drop 7 u).symm,h⟩⟩
  rintro ⟨scheme,rest,rfl,hs,hr⟩
  have hl : scheme.length = 7 := hs.length_eq
  rw [List.take_left' hl,List.drop_left' hl]
  exact ⟨hs,hr⟩

theorem not_path_of_scheme {u : Text} (h : AnyCase "http://".toList (u.take 7)) : ¬ ∃ rest, u = '/' :: rest := by
  rintro ⟨rest,rfl⟩
  have hc := (List.cons.inj h).1
  exact absurd hc (by decide)

/-- The part of `parse_requestline` from the comparison of the version on. -/
def afterVersion (m : Memory) (url : ℕ) (checkStatus : CheckStatus) : Option (HttpCode × CheckStatus × Memory) := do
  let _ ← m.cstring url
  let url ← if ← m.strncasecmp url "http://".toList 7 then m.strchr (url + 7) '/' else some (some url)
  match url with
  | none => return (.badRequest,checkStatus,m)
  | some url =>
    if (← m.load url) = '/' then
      let _ ← m.cstring url
      return (.noRequest,.header,m)
    else return (.badRequest,checkStatus,m)

/-- The part from the comparison of the method on. -/
def afterMethod (m : Memory) (url : ℕ) (checkStatus : CheckStatus) : Option (HttpCode × CheckStatus × Memory) := do
  let url := url + (← m.strspn url separators)
  let _ ← m.cstring url
  match ← m.strpbrk url separators with
  | none => return (.badRequest,checkStatus,m)
  | some version =>
    let m ← m.store version nul
    let version := version + 1
    let version := version + (← m.strspn version separators)
    if ← m.strcasecmp version "HTTP/1.1".toList then afterVersion m url checkStatus
    else return (.badRequest,checkStatus,m)

theorem parseRequestline_eq (m : Memory) (temp : ℕ) (checkStatus : CheckStatus) :
    parseRequestline m temp checkStatus = do
      match ← m.strpbrk temp separators with
      | none => return (.badRequest,checkStatus,m)
      | some url =>
        let _ ← m.cstring url
        let m ← m.store url nul
        let _ ← m.cstring (url + 1)
        if ← m.strcasecmp temp "GET".toList then afterMethod m (url + 1) checkStatus
        else return (.badRequest,checkStatus,m) := rfl

/-- The two answers, and the memory that is left. -/
def Answers (accepted : Prop) (checkStatus : CheckStatus) (m : Memory)
    (r : Option (HttpCode × CheckStatus × Memory)) : Prop :=
  (accepted → r = some (.noRequest,.header,m)) ∧ (¬ accepted → r = some (.badRequest,checkStatus,m))

theorem Answers.yes {accepted : Prop} {checkStatus : CheckStatus} {m : Memory} (h : accepted) :
    Answers accepted checkStatus m (some (.noRequest,.header,m)) :=
  ⟨fun _ => rfl,fun hn => absurd h hn⟩

theorem Answers.no {accepted : Prop} {checkStatus : CheckStatus} {m : Memory} (h : ¬ accepted) :
    Answers accepted checkStatus m (some (.badRequest,checkStatus,m)) :=
  ⟨fun hy => absurd hy h,fun _ => rfl⟩

theorem Answers.congr {p q : Prop} {checkStatus : CheckStatus} {m : Memory}
    {r : Option (HttpCode × CheckStatus × Memory)} (h : Answers p checkStatus m r) (hpq : q ↔ p) :
    Answers q checkStatus m r :=
  ⟨fun hq => h.1 (hpq.mp hq),fun hq => h.2 (mt hpq.mpr hq)⟩

section Stages
variable {q r : List Char} (checkStatus : CheckStatus)

/-- Behind the scheme the first slash is searched for. -/
theorem afterVersion_scheme {u : Text} (hu : nul ∉ u) {m : Memory} (hm : m = q ++ u ++ nul :: r) {url : ℕ}
    (hp : url = q.length) (hscheme : AnyCase "http://".toList (u.take 7)) :
    Answers ('/' ∈ u.drop 7) checkStatus m (afterVersion m url checkStatus) := by
  have hs := m.cstring_eq hm hp hu
  have hcmp : m.strncasecmp url "http://".toList 7 = some true := by
    simp only [Memory.strncasecmp,hs,Option.bind_eq_bind,Option.bind_some]
    exact congrArg some (decide_eq_true hscheme)
  have hl : (u.take 7).length = 7 := hscheme.length_eq
  have hm7 : m = (q ++ u.take 7) ++ u.drop 7 ++ nul :: r := by
    rw [List.append_assoc q,List.take_append_drop,hm]
  have hp7 : url + 7 = (q ++ u.take 7).length := by rw [List.length_append,hl,hp]
  have hn7 : nul ∉ u.drop 7 := fun h => hu (List.mem_of_mem_drop h)
  by_cases hslash : '/' ∈ u.drop 7
  · obtain ⟨a,b,hab,ha⟩ := List.eq_append_cons_of_mem hslash
    rw [hab] at hm7 hn7
    have hchr : m.strchr (url + 7) '/' = some (some (url + 7 + a.length)) :=
      Memory.strpbrk_some hm7 hp7 hn7 (fun x hx => by
        rw [List.mem_singleton]
        rintro rfl
        exact ha hx) (List.mem_singleton.mpr rfl)
    have hma : m = (q ++ u.take 7 ++ a) ++ ('/' :: b) ++ nul :: r := by rw [hm7]; simp
    have hpa : url + 7 + a.length = (q ++ u.take 7 ++ a).length := by
      rw [List.length_append,hp7]
    have hload := m.load_eq (hma.trans (List.append_assoc _ _ _)) hpa
    have hread := m.cstring_eq hma hpa fun h => hn7 (List.mem_append_right a h)
    have hres : afterVersion m url checkStatus = some (.noRequest,.header,m) := by
      simp only [afterVersion,hs,hcmp,hchr,hload,hread,Option.bind_eq_bind,Option.bind_some,↓reduceIte]
      rfl
    rw [hres]
    exact .yes hslash
  · have hchr : m.strchr (url + 7) '/' = some none := Memory.strpbrk_none hm7 hp7 hn7 fun x hx => by
      rw [List.mem_singleton]
      rintro rfl
      exact hslash hx
    have hres : afterVersion m url checkStatus = some (.badRequest,checkStatus,m) := by
      simp only [afterVersion,hs,hcmp,hchr,Option.bind_eq_bind,Option.bind_some,↓reduceIte]
      rfl
    rw [hres]
    exact .no hslash

/-- Without the scheme the target has to be a path. -/
theorem afterVersion_path {u : Text} (hu : nul ∉ u) {m : Memory} (hm : m = q ++ u ++ nul :: r) {url : ℕ}
    (hp : url = q.length) (hscheme : ¬ AnyCase "http://".toList (u.take 7)) :
    Answers (∃ rest, u = '/' :: rest) checkStatus m (afterVersion m url checkStatus) := by
  have hs := m.cstring_eq hm hp hu
  have hcmp : m.strncasecmp url "http://".toList 7 = some false := by
    simp only [Memory.strncasecmp,hs,Option.bind_eq_bind,Option.bind_some]
    exact congrArg some (decide_eq_false hscheme)
  cases u with
  | nil =>
    have hload := m.load_eq (a := nul) (by simpa using hm) hp
    have hres : afterVersion m url checkStatus = some (.badRequest,checkStatus,m) := by
      simp only [afterVersion,hs,hcmp,hload,Option.bind_eq_bind,Option.bind_some]
      rfl
    rw [hres]
    exact .no (by simp)
  | cons c u =>
    have hload := m.load_eq (a := c) (by simpa using hm) hp
    by_cases hc : c = '/'
    · have hres : afterVersion m url checkStatus = some (.noRequest,.header,m) := by
        simp only [afterVersion,hs,hcmp,hload,hc,Option.bind_eq_bind,Option.bind_some,↓reduceIte]
        rfl
      rw [hres]
      exact .yes ⟨u,by rw [hc]⟩
    · have hres : afterVersion m url checkStatus = some (.badRequest,checkStatus,m) := by
        simp only [afterVersion,hs,hcmp,hload,hc,Option.bind_eq_bind,Option.bind_some,↓reduceIte]
        rfl
      rw [hres]
      exact .no (by simp [hc])

theorem afterVersion_answers {u : Text} (hu : nul ∉ u) {m : Memory} (hm : m = q ++ u ++ nul :: r) {url : ℕ}
    (hp : url = q.length) : Answers (IsTarget u) checkStatus m (afterVersion m url checkStatus) := by
  by_cases hscheme : AnyCase "http://".toList (u.take 7)
  · refine (afterVersion_scheme checkStatus hu hm hp hscheme).congr ?_
    rw [isTarget_iff]
    exact ⟨fun h => (h.resolve_left (not_path_of_scheme hscheme)).2,fun h => .inr ⟨hscheme,h⟩⟩
  · refine (afterVersion_path checkStatus hu hm hp hscheme).congr ?_
    rw [isTarget_iff]
    exact ⟨fun h => h.resolve_right fun h => hscheme h.1,.inl⟩

/-- What has to come behind the method and the first blank. -/
def Tail (b : Text) : Prop :=
  ∃ s u s' v, b = s ++ (u ++ (s' ++ v)) ∧ (∀ c ∈ s, c ∈ separators) ∧ (∀ c ∈ u, c ∉ separators) ∧ IsTarget u ∧
    Blank s' ∧ AnyCase "HTTP/1.1".toList v

theorem not_sep_head_of_target {u rest : Text} (h : IsTarget u) (hu : ∀ c ∈ u, c ∉ separators) :
    ∀ x ∈ (u ++ rest).head?, x ∉ separators := by
  cases u with
  | nil =>
    rcases h with ⟨_,h⟩ | ⟨scheme,_,h,_,hr⟩
    · cases h
    · rw [(List.append_eq_nil_iff.mp h.symm).2] at hr
      cases hr
  | cons c u =>
    intro x hx
    obtain rfl := Option.some.inj hx
    exact hu _ List.mem_cons_self

theorem not_sep_of_version {v : Text} (h : AnyCase "HTTP/1.1".toList v) : ∀ c ∈ v, c ∉ separators :=
  h.solid (List.all_iff_forall_prop.mp (by decide))

/-- Cut as the parser cuts it, a text has the parts that it must have, or it has none. -/
theorem tail_iff {s u s' v : Text} {d : Char} (hs : ∀ c ∈ s, c ∈ separators) (hu : ∀ c ∈ u, c ∉ separators)
    (hne : ∀ x ∈ (u ++ d :: (s' ++ v)).head?, x ∉ separators) (hd : d ∈ separators)
    (hs' : ∀ c ∈ s', c ∈ separators) (hv : ∀ x ∈ v.head?, x ∉ separators) :
    Tail (s ++ (u ++ d :: (s' ++ v))) ↔ IsTarget u ∧ AnyCase "HTTP/1.1".toList v := by
  constructor
  · rintro ⟨s₁,u₁,s₁',v₁,he,hs₁,hu₁,ht,⟨hb,hs₁'⟩,hv₁⟩
    obtain ⟨_,he⟩ := cut_unique he hs hne hs₁ (not_sep_head_of_target ht hu₁)
    obtain ⟨d₁,s₂,rfl⟩ := List.exists_cons_of_ne_nil hb
    obtain ⟨hd₁,hs₂⟩ := List.forall_mem_cons.mp hs₁'
    obtain ⟨rfl,hrest⟩ := cut_unique he hu (by simpa using hd) hu₁ (by simpa using hd₁)
    obtain ⟨_,hversion⟩ := List.cons.inj hrest
    obtain ⟨_,rfl⟩ := cut_unique hversion hs' hv hs₂ fun x hx => not_sep_of_version hv₁ x (List.mem_of_mem_head? hx)
    exact ⟨ht,hv₁⟩
  · rintro ⟨ht,hv⟩
    refine ⟨s,u,d :: s',v,rfl,hs,hu,ht,⟨by simp,?_⟩,hv⟩
    rintro c hc
    rcases List.mem_cons.mp hc with rfl | hc
    · exact hd
    · exact hs' c hc

theorem not_tail {s u : Text} (hs : ∀ c ∈ s, c ∈ separators) (hu : ∀ c ∈ u, c ∉ separators) : ¬ Tail (s ++ u) := by
  rintro ⟨s₁,u₁,s₁',v₁,he,hs₁,hu₁,ht,⟨hb,hs₁'⟩,_⟩
  have hfirst : ∀ x ∈ u.head?, x ∉ separators := fun x hx => hu x (List.mem_of_mem_head? hx)
  obtain ⟨_,rfl⟩ := cut_unique he hs hfirst hs₁ (not_sep_head_of_target ht hu₁)
  obtain ⟨d,_,rfl⟩ := List.exists_cons_of_ne_nil hb
  exact hu d (by simp) (hs₁' d List.mem_cons_self)

theorem afterMethod_of_none {s u : Text} (hs : ∀ c ∈ s, c ∈ separators) (hu : ∀ c ∈ u, c ∉ separators)
    (hn : nul ∉ s ++ u) : afterMethod (q ++ (s ++ u) ++ nul :: r) q.length checkStatus =
      some (.badRequest,checkStatus,q ++ (s ++ u) ++ nul :: r) := by
  let m : Memory := q ++ (s ++ u) ++ nul :: r
  have hm : m = q ++ s ++ u ++ nul :: r := by simp only [m,List.append_assoc]
  have hnu : nul ∉ u := fun h => hn (List.mem_append_right s h)
  have hspn : m.strspn q.length separators = some s.length :=
    m.strspn_eq rfl rfl hn hs fun x hx => hu x (List.mem_of_mem_head? hx)
  have hread : m.cstring (q.length + s.length) = some u := m.cstring_eq hm List.length_append.symm hnu
  have hbrk : m.strpbrk (q.length + s.length) separators = some none :=
    Memory.strpbrk_none hm List.length_append.symm hnu hu
  change afterMethod m q.length checkStatus = _
  simp only [afterMethod,hspn,hread,hbrk,Option.bind_eq_bind,Option.bind_some]
  rfl

theorem afterMethod_of_some {s u s' v : Text} {d : Char} (hs : ∀ c ∈ s, c ∈ separators)
    (hu : ∀ c ∈ u, c ∉ separators) (hne : ∀ x ∈ (u ++ d :: (s' ++ v)).head?, x ∉ separators) (hd : d ∈ separators)
    (hs' : ∀ c ∈ s', c ∈ separators) (hv : ∀ x ∈ v.head?, x ∉ separators) (hn : nul ∉ s ++ (u ++ d :: (s' ++ v))) :
    afterMethod (q ++ (s ++ (u ++ d :: (s' ++ v))) ++ nul :: r) q.length checkStatus =
      if decide (AnyCase "HTTP/1.1".toList v) then
        afterVersion (q ++ (s ++ (u ++ nul :: (s' ++ v))) ++ nul :: r) (q.length + s.length) checkStatus
      else some (.badRequest,checkStatus,q ++ (s ++ (u ++ nul :: (s' ++ v))) ++ nul :: r) := by
  let m : Memory := q ++ (s ++ (u ++ d :: (s' ++ v))) ++ nul :: r
  let m' : Memory := q ++ (s ++ (u ++ nul :: (s' ++ v))) ++ nul :: r
  have hm : m = q ++ s ++ (u ++ d :: (s' ++ v)) ++ nul :: r := by simp only [m,List.append_assoc]
  have hm' : m' = q ++ s ++ u ++ [nul] ++ (s' ++ v) ++ nul :: r := by
    simp only [m',List.append_assoc,List.cons_append,List.nil_append]
  have hnu : nul ∉ u ++ d :: (s' ++ v) := fun h => hn (List.mem_append_right s h)
  have hnv : nul ∉ s' ++ v := fun h => hnu (List.mem_append_right u (List.mem_cons_of_mem d h))
  have hspn : m.strspn q.length separators = some s.length := m.strspn_eq rfl rfl hn hs hne
  have hread : m.cstring (q.length + s.length) = some (u ++ d :: (s' ++ v)) :=
    m.cstring_eq hm List.length_append.symm hnu
  have hbrk : m.strpbrk (q.length + s.length) separators = some (some (q.length + s.length + u.length)) := by
    rw [Memory.strpbrk_some hm List.length_append.symm hnu hu hd]
  have hstore : m.store (q.length + s.length + u.length) nul = some m' := by
    rw [m.store_eq (q := q ++ s ++ u) (r := s' ++ v ++ nul :: r) (a := d)
      (by simp only [m,List.append_assoc,List.cons_append]) (by simp only [List.length_append])]
    simp only [m',List.append_assoc,List.cons_append]
  have hspn' : m'.strspn (q.length + s.length + u.length + 1) separators = some s'.length :=
    m'.strspn_eq hm' (by simp only [List.length_append,List.length_singleton]) hnv hs' hv
  have hversion : m'.cstring (q.length + s.length + u.length + 1 + s'.length) = some v :=
    m'.cstring_eq (q := q ++ s ++ u ++ [nul] ++ s') (r := r) (by rw [hm',List.append_assoc _ s'])
      (by simp only [List.length_append,List.length_singleton]) fun h => hnv (List.mem_append_right s' h)
  change afterMethod m q.length checkStatus = _
  simp only [afterMethod,hspn,hread,hbrk,hstore,hspn',Memory.strcasecmp,hversion,Option.bind_eq_bind,
    Option.bind_some]
  rfl

theorem parseRequestline_of_some {a b : Text} {c : Char} (ha : ∀ x ∈ a, x ∉ separators) (hc : c ∈ separators)
    (hn : nul ∉ a ++ c :: b) : parseRequestline (q ++ (a ++ c :: b) ++ nul :: r) q.length checkStatus =
      if decide (AnyCase "GET".toList a) then
        afterMethod (q ++ (a ++ nul :: b) ++ nul :: r) (q.length + a.length + 1) checkStatus
      else some (.badRequest,checkStatus,q ++ (a ++ nul :: b) ++ nul :: r) := by
  let m : Memory := q ++ (a ++ c :: b) ++ nul :: r
  let m' : Memory := q ++ (a ++ nul :: b) ++ nul :: r
  have hm' : m' = q ++ a ++ [nul] ++ b ++ nul :: r := by
    simp only [m',List.append_assoc,List.cons_append,List.nil_append]
  have hbrk : m.strpbrk q.length separators = some (some (q.length + a.length)) :=
    Memory.strpbrk_some rfl rfl hn ha hc
  have hread : m.cstring (q.length + a.length) = some (c :: b) :=
    m.cstring_eq (q := q ++ a) (r := r) (by simp only [m,List.append_assoc]) List.length_append.symm
      fun h => hn (List.mem_append_right a h)
  have hstore : m.store (q.length + a.length) nul = some m' := by
    rw [m.store_eq (q := q ++ a) (r := b ++ nul :: r) (a := c)
      (by simp only [m,List.append_assoc,List.cons_append]) List.length_append.symm]
    simp only [m',List.append_assoc,List.cons_append]
  have hread' : m'.cstring (q.length + a.length + 1) = some b :=
    m'.cstring_eq hm' (by simp only [List.length_append,List.length_singleton])
      fun h => hn (List.mem_append_right a (List.mem_cons_of_mem c h))
  have hmethod : m'.cstring q.length = some a :=
    m'.cstring_eq (r := b ++ nul :: r) (by simp only [m',List.append_assoc,List.cons_append]) rfl
      fun h => hn (List.mem_append_left _ h)
  change parseRequestline m q.length checkStatus = _
  simp only [parseRequestline_eq,hbrk,hread,hstore,hread',Memory.strcasecmp,hmethod,Option.bind_eq_bind,
    Option.bind_some]
  rfl

end Stages

theorem afterMethod_answers {b : Text} (hb : nul ∉ b) : ∃ b' : Text, b'.length = b.length ∧
    ∀ (pre suf : List Char) (checkStatus : CheckStatus),
      Answers (Tail b) checkStatus (pre ++ b' ++ nul :: suf)
        (afterMethod (pre ++ b ++ nul :: suf) pre.length checkStatus) := by
  obtain ⟨s,c,rfl,hs,hc⟩ := exists_cut (· ∈ separators) b
  obtain ⟨u,q,rfl,hu,hq⟩ := exists_cut (· ∉ separators) c
  cases q with
  | nil =>
    rw [List.append_nil] at hb ⊢
    refine ⟨s ++ u,rfl,fun pre suf checkStatus => ?_⟩
    rw [afterMethod_of_none checkStatus hs hu hb]
    exact .no (not_tail hs hu)
  | cons d q =>
    obtain ⟨s',v,rfl,hs',hv⟩ := exists_cut (· ∈ separators) q
    have hd : d ∈ separators := not_not.mp (hq d rfl)
    have hnu : nul ∉ u := fun h => hb (List.mem_append_right s (List.mem_append_left _ h))
    have htail := tail_iff hs hu hc hd hs' hv
    refine ⟨s ++ (u ++ nul :: (s' ++ v)),by simp,fun pre suf checkStatus => ?_⟩
    rw [afterMethod_of_some checkStatus hs hu hc hd hs' hv hb]
    by_cases hok : AnyCase "HTTP/1.1".toList v
    · rw [if_pos (decide_eq_true hok)]
      have htarget := afterVersion_answers checkStatus hnu (m := pre ++ (s ++ (u ++ nul :: (s' ++ v))) ++ nul :: suf)
        (q := pre ++ s) (r := s' ++ v ++ nul :: suf) (by simp) List.length_append.symm
      exact htarget.congr (htail.trans (and_iff_left hok))
    · rw [if_neg (mt of_decide_eq_true hok)]
      exact .no fun h => hok (htail.mp h).2

theorem isRequestLine_iff {a b : Text} {c : Char} (ha : ∀ x ∈ a, x ∉ separators) (hc : c ∈ separators) :
    IsRequestLine (a ++ c :: b) ↔ AnyCase "GET".toList a ∧ Tail b := by
  constructor
  · rintro ⟨r,hr⟩
    obtain ⟨hne,hblank⟩ := r.isBlank
    obtain ⟨c₁,s,hs⟩ := List.exists_cons_of_ne_nil hne
    rw [hs] at hblank
    obtain ⟨hc₁,hs'⟩ := List.forall_mem_cons.mp hblank
    have htext : r.method ++ c₁ :: (s ++ (r.target ++ (r.blanks' ++ r.version))) = a ++ c :: b := by
      rw [← hr,RequestLine.text,hs]
      simp
    have hsolid := r.isGet.solid (List.all_iff_forall_prop.mp (by decide))
    obtain ⟨hmethod,hrest⟩ := cut_unique htext hsolid (by simpa using hc₁) ha (by simpa using hc)
    obtain ⟨_,rfl⟩ := List.cons.inj hrest
    exact ⟨hmethod ▸ r.isGet,s,r.target,r.blanks',r.version,rfl,hs',r.solid,r.isTarget,r.isBlank',r.isVersion⟩
  · rintro ⟨hget,s,u,s',v,rfl,hs,hu,ht,hb,hv⟩
    refine ⟨⟨a,c :: s,u,s',v,hget,⟨by simp,List.forall_mem_cons.mpr ⟨hc,hs⟩⟩,hu,ht,hb,hv⟩,?_⟩
    simp [RequestLine.text]

theorem not_isRequestLine {line : Text} (h : ∀ x ∈ line, x ∉ separators) : ¬ IsRequestLine line := by
  rintro ⟨r,rfl⟩
  obtain ⟨hne,hblank⟩ := r.isBlank
  obtain ⟨c,s,hs⟩ := List.exists_cons_of_ne_nil hne
  exact h c (by simp [RequestLine.text,hs]) (hblank c (by simp [hs]))

theorem parseRequestline_answers {line : Text} (h : nul ∉ line) : ∃ line' : Text, line'.length = line.length ∧
    ∀ (pre suf : List Char) (checkStatus : CheckStatus),
      Answers (IsRequestLine line) checkStatus (pre ++ line' ++ nul :: suf)
        (parseRequestline (pre ++ line ++ nul :: suf) pre.length checkStatus) := by
  obtain ⟨a,q,rfl,ha,hq⟩ := exists_cut (· ∉ separators) line
  cases q with
  | nil =>
    refine ⟨a ++ [],rfl,fun pre suf checkStatus => ?_⟩
    have hbrk : Memory.strpbrk (pre ++ (a ++ []) ++ nul :: suf) pre.length separators = some none :=
      Memory.strpbrk_none (s := a) (r := suf) (by simp) rfl (by simpa using h) ha
    rw [parseRequestline_eq,hbrk]
    exact .no (not_isRequestLine (by simpa using ha))
  | cons c b =>
    have hc : c ∈ separators := not_not.mp (hq c rfl)
    have hb : nul ∉ b := fun hn => h (List.mem_append_right a (List.mem_cons_of_mem c hn))
    obtain ⟨b',hl,hanswers⟩ := afterMethod_answers hb
    have hline := isRequestLine_iff (b := b) ha hc
    by_cases hget : AnyCase "GET".toList a
    · refine ⟨a ++ nul :: b',by simp [hl],fun pre suf checkStatus => ?_⟩
      have htail := hanswers (pre ++ a ++ [nul]) suf checkStatus
      simp only [List.length_append,List.length_singleton,List.append_assoc,List.singleton_append] at htail
      rw [parseRequestline_of_some checkStatus ha hc h,if_pos (decide_eq_true hget)]
      simp only [List.append_assoc,List.cons_append]
      exact htail.congr (hline.trans (and_iff_right hget))
    · refine ⟨a ++ nul :: b,by simp,fun pre suf checkStatus => ?_⟩
      rw [parseRequestline_of_some checkStatus ha hc h,if_neg (mt of_decide_eq_true hget)]
      exact .no fun hr => hget (hline.mp hr).1

/-- On a line with its terminator, wherever it stands in memory, the answer is NO_REQUEST
exactly if it is a request line, and the status changes with it. Nothing in front of the
line or behind its terminator is read or written. -/
theorem parseRequestline_iff {line : Text} (h : nul ∉ line) : ∃ line' : Text, line'.length = line.length ∧
    ∀ (pre suf : List Char) (checkStatus : CheckStatus), ∃ code status,
      parseRequestline (pre ++ line ++ nul :: suf) pre.length checkStatus =
        some (code,status,pre ++ line' ++ nul :: suf) ∧
      (code = .noRequest ↔ IsRequestLine line) ∧ (code = .badRequest ↔ ¬ IsRequestLine line) ∧
      status = if code = .noRequest then .header else checkStatus := by
  obtain ⟨line',hl,hanswers⟩ := parseRequestline_answers h
  refine ⟨line',hl,fun pre suf checkStatus => ?_⟩
  by_cases hr : IsRequestLine line
  · exact ⟨_,_,(hanswers pre suf checkStatus).1 hr,by simp [hr],by simp [hr],rfl⟩
  · exact ⟨_,_,(hanswers pre suf checkStatus).2 hr,by simp [hr],by simp [hr],rfl⟩

def rootLine : RequestLine where
  method := "get".toList
  blanks := " \t".toList
  target := "HTTP://a/".toList
  blanks' := " ".toList
  version := "HTTP/1.1".toList
  isGet := by decide
  isBlank := ⟨by decide,List.all_iff_forall_prop.mp (by decide)⟩
  solid := List.all_iff_forall_prop.mp (by decide)
  isTarget := (isTarget_iff _).mpr (.inr (by decide))
  isBlank' := ⟨by decide,List.all_iff_forall_prop.mp (by decide)⟩
  isVersion := by decide

theorem parseRequestline_rootLine : ∃ line' : Text, line'.length = rootLine.text.length ∧
    ∀ (pre suf : List Char) (checkStatus : CheckStatus),
      parseRequestline (pre ++ rootLine.text ++ nul :: suf) pre.length checkStatus =
        some (.noRequest,.header,pre ++ line' ++ nul :: suf) := by
  obtain ⟨line',hl,h⟩ := parseRequestline_iff (by decide : nul ∉ rootLine.text)
  refine ⟨line',hl,fun pre suf checkStatus => ?_⟩
  obtain ⟨code,status,heq,hcode,_,hstatus⟩ := h pre suf checkStatus
  have hno : code = .noRequest := hcode.mpr ⟨rootLine,rfl⟩
  rw [heq,hstatus,if_pos hno,hno]

end Zcs.Http
