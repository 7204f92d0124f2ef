import Mathlib.Data.List.GetD
import Zcs.Http.RequestLine

/-! # A request that comes in pieces

A call of `parse_content` that answers NO_REQUEST stops in front of the bytes that it has
no decision on, and what it has rewritten lies behind it. A later call therefore goes on
as a single call on all the bytes would have done.
-/
namespace Zcs.Http

abbrev Plain (l : List Char) : Prop := ∀ x ∈ l, x ≠ cr ∧ x ≠ lf

/-- What is carried from one call to the next, except for the buffer. -/
structure Place where
  checkedIndex : ℕ
  checkStatus : CheckStatus
  startLine : ℕ
  deriving DecidableEq

def Request.place (s : Request) : Place := ⟨s.checkedIndex,s.checkStatus,s.startLine⟩

/-- The buffer holds the bytes that have come in, and something else behind them. -/
def holding (front rest : List Char) (p : Place) : Request :=
  ⟨front ++ rest,p.checkedIndex,p.checkStatus,front.length,p.startLine⟩

structure Ready (front : List Char) (p : Place) : Prop where
  startLine : p.startLine ≤ p.checkedIndex
  checkedIndex : p.checkedIndex ≤ front.length
  behindCr : (front.take p.checkedIndex).getLast? ≠ some cr

/-- Nothing is left, or a carriage return that may belong to the end of a line. -/
def Waiting (front : List Char) (p : Place) : Prop :=
  front.drop p.checkedIndex = [] ∨ front.drop p.checkedIndex = [cr]

/-- What cannot go on as a line. -/
def Spoilt (tail : List Char) : Prop := ∃ c more, tail = c :: more ∧
  (c = lf ∨ c = cr ∧ ∃ d more', more = d :: more' ∧ d ≠ lf)

theorem cstring_of_mem {m : Memory} (h : nul ∈ m) : ∃ s, m.cstring 0 = some s := by
  obtain ⟨s,r,hsr,hs⟩ := List.eq_append_cons_of_mem h
  exact ⟨s,m.cstring_eq (q := []) (by simpa using hsr) rfl hs⟩

theorem Ready.append {front : List Char} {p : Place} (h : Ready front p) (more : List Char) :
    Ready (front ++ more) p := by
  refine ⟨h.startLine,?_,?_⟩
  · rw [List.length_append]
    exact Nat.le_add_right_of_le h.checkedIndex
  · rw [List.take_append_of_le_length h.checkedIndex]
    exact h.behindCr

section Line
variable {head body tail more rest : List Char} {checkStatus : CheckStatus} {startLine : ℕ}

/-- `parse_line` passes over the bytes that do not end a line. -/
theorem parseLineLoop_skip (hb : ∀ x ∈ body, x ≠ cr ∧ x ≠ lf) (n : ℕ) {s : Request} {q r : List Char}
    (hm : s.buffer = q ++ body ++ r) (hc : s.checkedIndex = q.length) :
    parseLineLoop (n + body.length) s = parseLineLoop n { s with checkedIndex := s.checkedIndex + body.length } := by
  induction body generalizing s q with
  | nil => rfl
  | cons x body ih =>
    obtain ⟨⟨hcr,hlf⟩,hb⟩ := List.forall_mem_cons.mp hb
    have hload : s.buffer.load s.checkedIndex = some x :=
      s.buffer.load_eq (r := body ++ r) (by simpa using hm) hc
    have hnext := ih hb (s := { s with checkedIndex := s.checkedIndex + 1 }) (q := q ++ [x])
      (by simpa using hm) (by simp [hc])
    rw [List.length_cons,← Nat.add_assoc,parseLineLoop]
    simp only [hload,Option.bind_eq_bind,Option.bind_some,if_neg hcr,if_neg hlf]
    rw [hnext]
    simp only [Nat.add_assoc,Nat.add_comm 1]

theorem parseLine_eq (head tail : List Char) (checkStatus : CheckStatus) (startLine : ℕ) (hn : nul ∈ rest)
    (hb : ∀ x ∈ body, x ≠ cr ∧ x ≠ lf) :
    parseLine (holding (head ++ body ++ tail) rest ⟨head.length,checkStatus,startLine⟩) =
      parseLineLoop tail.length
        (holding (head ++ body ++ tail) rest ⟨(head ++ body).length,checkStatus,startLine⟩) := by
  obtain ⟨s,hs⟩ := cstring_of_mem (m := head ++ body ++ tail ++ rest) (List.mem_append_right _ hn)
  have hleft : (head ++ body ++ tail).length - head.length = tail.length + body.length := by
    simp only [List.length_append]
    omega
  rw [parseLine]
  simp only [holding,hs,Option.bind_eq_bind,Option.bind_some,hleft]
  refine (parseLineLoop_skip hb tail.length (q := head) (r := tail ++ rest) (by simp) rfl).trans ?_
  simp only [List.length_append]

theorem parseLineLoop_open (ht : tail = [] ∨ tail = [cr]) :
    parseLineLoop tail.length (holding (head ++ tail) rest ⟨head.length,checkStatus,startLine⟩) =
      some (.lineOpen,holding (head ++ tail) rest ⟨head.length,checkStatus,startLine⟩) := by
  rcases ht with rfl | rfl
  · rfl
  · have hload : Memory.load (head ++ [cr] ++ rest) head.length = some cr :=
      Memory.load_eq (r := rest) (by simp) rfl
    rw [List.length_singleton,parseLineLoop]
    simp only [holding,hload,Option.bind_eq_bind,Option.bind_some,↓reduceIte,List.length_append,List.length_singleton]
    rfl

theorem parseLineLoop_ok :
    parseLineLoop (cr :: lf :: more).length
      (holding (head ++ cr :: lf :: more) rest ⟨head.length,checkStatus,startLine⟩) =
      some (.lineOk,holding (head ++ nul :: nul :: more) rest ⟨head.length + 2,checkStatus,startLine⟩) := by
  have hload : Memory.load (head ++ cr :: lf :: more ++ rest) head.length = some cr :=
    Memory.load_eq (r := lf :: more ++ rest) (by simp) rfl
  have hnext : Memory.load (head ++ cr :: lf :: more ++ rest) (head.length + 1) = some lf :=
    Memory.load_eq (q := head ++ [cr]) (r := more ++ rest) (by simp) (by simp)
  have hstore : Memory.store (head ++ cr :: lf :: more ++ rest) head.length nul =
      some (head ++ nul :: lf :: more ++ rest) := by
    rw [Memory.store_eq (q := head) (a := cr) (r := lf :: more ++ rest) (by simp) rfl]
    simp
  have hstore' : Memory.store (head ++ nul :: lf :: more ++ rest) (head.length + 1) nul =
      some (head ++ nul :: nul :: more ++ rest) := by
    rw [Memory.store_eq (q := head ++ [nul]) (a := lf) (r := more ++ rest) (by simp) (by simp)]
    simp
  have hnotLast : head.length + 1 ≠ (head ++ cr :: lf :: more).length := by simp
  rw [List.length_cons,parseLineLoop]
  simp only [holding,hload,hnext,hstore,hstore',Option.bind_eq_bind,Option.bind_some,↓reduceIte,if_neg hnotLast]
  simp

theorem parseLineLoop_bad (ht : Spoilt tail) (hbehind : head.getLast? ≠ some cr) :
    parseLineLoop tail.length (holding (head ++ tail) rest ⟨head.length,checkStatus,startLine⟩) =
      some (.lineBad,holding (head ++ tail) rest ⟨head.length,checkStatus,startLine⟩) := by
  obtain ⟨c,more,rfl,hc⟩ := ht
  have hload : Memory.load (head ++ c :: more ++ rest) head.length = some c :=
    Memory.load_eq (r := more ++ rest) (by simp) rfl
  rw [List.length_cons,parseLineLoop]
  rcases hc with rfl | ⟨rfl,d,more,rfl,hd⟩
  · have hnot : behindCr (holding (head ++ lf :: more) rest ⟨head.length,checkStatus,startLine⟩) = some false := by
      by_cases hl : 1 < head.length
      · have hi : head.length - 1 < head.length := by omega
        have hget : Memory.load (head ++ lf :: more ++ rest) (head.length - 1) = some head[head.length - 1] := by
          rw [Memory.load,List.append_assoc,List.getElem?_append_left hi,List.getElem?_eq_getElem hi]
        have hne : head[head.length - 1] ≠ cr := by
          rwa [List.getLast?_eq_getElem?,List.getElem?_eq_getElem hi,ne_eq,Option.some.injEq] at hbehind
        refine (if_pos hl).trans ?_
        simp only [holding]
        rw [hget,Option.map_some,beq_eq_false_iff_ne.mpr hne]
      · exact if_neg hl
    have hlf : lf ≠ cr := by decide
    simp only [holding] at hnot ⊢
    simp only [hload,hnot,Option.bind_eq_bind,Option.bind_some,if_neg hlf,↓reduceIte]
    rfl
  · have hnext : Memory.load (head ++ cr :: d :: more ++ rest) (head.length + 1) = some d :=
      Memory.load_eq (q := head ++ [cr]) (r := more ++ rest) (by simp) (by simp)
    have hnotLast : head.length + 1 ≠ (head ++ cr :: d :: more).length := by simp
    simp only [holding,hload,hnext,Option.bind_eq_bind,Option.bind_some,↓reduceIte,if_neg hnotLast,if_neg hd]
    rfl

end Line

/-- One round of the loop of `parse_content`: it waits for more bytes, it ends the parse,
or it has taken the request line. Bytes that come later make no difference to it. -/
inductive Round (front : List Char) (p : Place) : Prop
  | waits (p' : Place) (hr : Ready front p') (hw : Waiting front p')
      (hnow : ∀ rest n, nul ∈ rest →
        parseContentLoop (n + 1) (holding front rest p) = some (.noRequest,holding front rest p'))
      (hlater : ∀ more rest n, nul ∈ rest →
        parseContentLoop n (holding (front ++ more) rest p) = parseContentLoop n (holding (front ++ more) rest p'))
      (hle : p.checkedIndex ≤ p'.checkedIndex)
  | stops (code : HttpCode) (front' : List Char) (p' : Place) (hc : code ≠ .noRequest)
      (hl : front'.length = front.length)
      (h : ∀ more rest n, nul ∈ rest → parseContentLoop (n + 1) (holding (front ++ more) rest p) =
        some (code,holding (front' ++ more) rest p'))
  | goesOn (front' : List Char) (p' : Place) (hl : front'.length = front.length) (hr : Ready front' p')
      (hlt : p.checkedIndex < p'.checkedIndex)
      (h : ∀ more rest n, nul ∈ rest → parseContentLoop (n + 1) (holding (front ++ more) rest p) =
        parseContentLoop n (holding (front' ++ more) rest p'))

section Round
variable {head body tail : List Char} {checkStatus : CheckStatus} {startLine : ℕ}

theorem round_waits (hs : startLine ≤ head.length) (hg : (head ++ body).getLast? ≠ some cr)
    (hb : ∀ x ∈ body, x ≠ cr ∧ x ≠ lf) (ht : tail = [] ∨ tail = [cr]) :
    Round (head ++ body ++ tail) ⟨head.length,checkStatus,startLine⟩ := by
  have hle : head.length ≤ (head ++ body).length := by simp
  refine .waits ⟨(head ++ body).length,checkStatus,startLine⟩ ⟨Nat.le_trans hs hle,?_,?_⟩ ?_ (fun rest n hn => ?_)
    (fun more rest n hn => ?_) hle
  · simp only [List.length_append]
    omega
  · simpa only [List.take_left'] using hg
  · simpa only [Waiting,List.drop_left'] using ht
  · rw [parseContentLoop,parseLine_eq _ _ _ _ hn hb,parseLineLoop_open ht]
    rfl
  · cases n with
    | zero => rfl
    | succ n =>
      have hsame : parseLine (holding (head ++ body ++ tail ++ more) rest ⟨head.length,checkStatus,startLine⟩) =
          parseLine (holding (head ++ body ++ tail ++ more) rest ⟨(head ++ body).length,checkStatus,startLine⟩) := by
        have h₁ := parseLine_eq head (tail ++ more) checkStatus startLine hn hb
        have h₂ := parseLine_eq (head ++ body) (tail ++ more) checkStatus startLine hn (List.forall_mem_nil _)
        simp only [List.append_nil,← List.append_assoc] at h₁ h₂
        exact h₁.trans h₂.symm
      rw [parseContentLoop,parseContentLoop,hsame]

theorem Spoilt.append (h : Spoilt tail) (more : List Char) : Spoilt (tail ++ more) := by
  obtain ⟨c,rest,rfl,hc⟩ := h
  refine ⟨c,rest ++ more,rfl,hc.imp_right fun ⟨hcr,d,rest',hr,hd⟩ => ⟨hcr,d,rest' ++ more,?_,hd⟩⟩
  rw [hr]
  rfl

theorem round_spoilt (hg : (head ++ body).getLast? ≠ some cr) (hb : ∀ x ∈ body, x ≠ cr ∧ x ≠ lf)
    (ht : Spoilt tail) : Round (head ++ body ++ tail) ⟨head.length,checkStatus,startLine⟩ := by
  refine .stops .badRequest (head ++ body ++ tail) ⟨(head ++ body).length,checkStatus,startLine⟩ (by simp) rfl
    fun more rest n hn => ?_
  rw [List.append_assoc _ tail,parseContentLoop,parseLine_eq _ _ _ _ hn hb,parseLineLoop_bad (ht.append more) hg]
  rfl

theorem parseLine_ok {more rest : List Char} (hn : nul ∈ rest) (hb : ∀ x ∈ body, x ≠ cr ∧ x ≠ lf) :
    parseLine (holding (head ++ body ++ cr :: lf :: more) rest ⟨head.length,checkStatus,startLine⟩) =
      some (.lineOk,
        holding (head ++ body ++ nul :: nul :: more) rest ⟨(head ++ body).length + 2,checkStatus,startLine⟩) := by
  rw [parseLine_eq _ _ _ _ hn hb,parseLineLoop_ok]

theorem round_header {more : List Char} (hb : ∀ x ∈ body, x ≠ cr ∧ x ≠ lf) :
    Round (head ++ body ++ cr :: lf :: more) ⟨head.length,.header,startLine⟩ := by
  refine .stops .getRequest (head ++ body ++ nul :: nul :: more)
    ⟨(head ++ body).length + 2,.header,(head ++ body).length + 2⟩ (by simp) (by simp) fun later rest n hn => ?_
  rw [List.append_assoc _ (cr :: _),List.cons_append,List.cons_append,parseContentLoop,parseLine_ok hn hb,
    List.append_assoc _ (nul :: _),List.cons_append,List.cons_append]
  rfl

/-- The string at the start of a line ends with the line, if not before. -/
theorem exists_string (l : List Char) : ∃ w y, nul ∉ w ∧ l ++ [nul] = w ++ nul :: y := by
  have hmem : nul ∈ l ++ [nul] := List.mem_append_right l List.mem_cons_self
  obtain ⟨w,y,h,hw⟩ := List.eq_append_cons_of_mem hmem
  exact ⟨w,y,hw,h⟩

/-- What lies in front of the line, and the line up to the first of the terminators. -/
theorem exists_requestline (body : List Char) (hs : startLine ≤ head.length) : ∃ q w y : List Char,
    q.length = startLine ∧ nul ∉ w ∧ head ++ body ++ [nul] = q ++ w ++ nul :: y := by
  obtain ⟨w,y,hw,hline⟩ := exists_string ((head ++ body).drop startLine)
  refine ⟨(head ++ body).take startLine,w,y,?_,hw,?_⟩
  · rw [List.length_take,Nat.min_eq_left]
    simp only [List.length_append]
    omega
  · rw [List.append_assoc (List.take _ _),← hline,← List.append_assoc,List.take_append_drop]

section Requestline
variable {q w w' y more : List Char} (hcut : head ++ body ++ [nul] = q ++ w ++ nul :: y) (hl : w'.length = w.length)
include hcut hl

theorem length_rewritten : (q ++ w' ++ nul :: y).length = (head ++ body).length + 1 := by
  have h := congrArg List.length hcut
  simp only [List.length_append,List.length_cons,List.length_nil] at h ⊢
  omega

/-- The round that takes the request line, which is rewritten in its place. -/
theorem parseContentLoop_requestline (hq : q.length = startLine) (hb : ∀ x ∈ body, x ≠ cr ∧ x ≠ lf)
    {later rest : List Char} (hn : nul ∈ rest) (n : ℕ) {code : HttpCode} {status : CheckStatus}
    (hparse : ∀ suf, parseRequestline (q ++ w ++ nul :: suf) q.length .requestline =
      some (code,status,q ++ w' ++ nul :: suf)) :
    parseContentLoop (n + 1)
        (holding (head ++ body ++ cr :: lf :: more ++ later) rest ⟨head.length,.requestline,startLine⟩) =
      if code = .badRequest then some (.badRequest,holding (q ++ w' ++ nul :: y ++ nul :: more ++ later) rest
        ⟨(head ++ body).length + 2,status,(head ++ body).length + 2⟩)
      else parseContentLoop n (holding (q ++ w' ++ nul :: y ++ nul :: more ++ later) rest
        ⟨(head ++ body).length + 2,status,(head ++ body).length + 2⟩) := by
  have hlen := length_rewritten hcut hl
  have hbuffer : head ++ body ++ nul :: nul :: (more ++ later) ++ rest =
      q ++ w ++ nul :: (y ++ nul :: more ++ later ++ rest) := by
    have h := congrArg (· ++ nul :: (more ++ later ++ rest)) hcut
    simpa using h
  have hsize : (q ++ w' ++ nul :: y ++ nul :: more ++ later).length =
      (head ++ body ++ nul :: nul :: (more ++ later)).length := by
    simp only [List.length_append,List.length_cons] at hlen ⊢
    omega
  have hrewritten : ∀ status, holding (q ++ w' ++ nul :: y ++ nul :: more ++ later) rest
      ⟨(head ++ body).length + 2,status,(head ++ body).length + 2⟩ =
        ⟨q ++ w' ++ nul :: (y ++ nul :: more ++ later ++ rest),(head ++ body).length + 2,status,
          (head ++ body ++ nul :: nul :: (more ++ later)).length,(head ++ body).length + 2⟩ := by
    intro status
    rw [holding,hsize]
    simp only [List.append_assoc,List.cons_append]
  rw [List.append_assoc _ (cr :: _),List.cons_append,List.cons_append,parseContentLoop,parseLine_ok hn hb,hrewritten]
  simp only [holding,Option.bind_eq_bind,Option.bind_some,hbuffer,← hq,hparse]
  rfl

theorem ready_requestline : Ready (q ++ w' ++ nul :: y ++ nul :: more)
    ⟨(head ++ body).length + 2,.header,(head ++ body).length + 2⟩ := by
  have hlen := length_rewritten hcut hl
  refine ⟨Nat.le_refl _,?_,?_⟩
  · simp only [List.length_append,List.length_cons] at hlen ⊢
    omega
  · have htake : (q ++ w' ++ nul :: y ++ nul :: more).take ((head ++ body).length + 2) =
        q ++ w' ++ nul :: y ++ [nul] := by
      have hsplit : q ++ w' ++ nul :: y ++ nul :: more = q ++ w' ++ nul :: y ++ [nul] ++ more := by simp
      rw [hsplit]
      exact List.take_left' (by rw [List.length_append,hlen,List.length_singleton])
    rw [htake,List.getLast?_concat]
    decide

end Requestline

theorem round_requestline {more : List Char} (hs : startLine ≤ head.length) (hb : ∀ x ∈ body, x ≠ cr ∧ x ≠ lf) :
    Round (head ++ body ++ cr :: lf :: more) ⟨head.length,.requestline,startLine⟩ := by
  obtain ⟨q,w,y,hq,hw,hcut⟩ := exists_requestline body hs
  obtain ⟨w',hl,hanswers⟩ := parseRequestline_answers hw
  have hsize : (q ++ w' ++ nul :: y ++ nul :: more).length = (head ++ body ++ cr :: lf :: more).length := by
    have hlen := length_rewritten hcut hl
    simp only [List.length_append,List.length_cons] at hlen ⊢
    omega
  by_cases hr : IsRequestLine w
  · refine .goesOn _ _ hsize (ready_requestline hcut hl) ?_ fun later rest n hn => ?_
    · simp only [List.length_append]
      omega
    · rw [parseContentLoop_requestline hcut hl hq hb hn n fun suf => (hanswers q suf _).1 hr]
      rfl
  · refine .stops .badRequest _ ⟨(head ++ body).length + 2,.requestline,(head ++ body).length + 2⟩ (by simp) hsize
      fun later rest n hn => ?_
    rw [parseContentLoop_requestline hcut hl hq hb hn n fun suf => (hanswers q suf _).2 hr]
    rfl

end Round

theorem round {front : List Char} {p : Place} (h : Ready front p) : Round front p := by
  obtain ⟨c,checkStatus,startLine⟩ := p
  let head := front.take c
  have hc : head.length = c := by
    rw [List.length_take,Nat.min_eq_left h.checkedIndex]
  obtain ⟨body,tail,hcut,hb,ht⟩ := exists_cut (fun x => x ≠ cr ∧ x ≠ lf) (front.drop c)
  have hfront : front = head ++ body ++ tail := by
    rw [List.append_assoc,← hcut,List.take_append_drop]
  have hg : (head ++ body).getLast? ≠ some cr := by
    rw [List.getLast?_append]
    cases hlast : body.getLast? with
    | none => simpa using h.behindCr
    | some x =>
      have hx := (hb x (List.mem_of_getLast? hlast)).1
      simpa using hx
  have hs : startLine ≤ head.length := hc ▸ h.startLine
  rw [hfront,← hc]
  cases tail with
  | nil => exact round_waits hs hg hb (.inl rfl)
  | cons x tail =>
    have hx : x = cr ∨ x = lf := by
      by_contra hx
      exact ht x rfl (not_or.mp hx)
    rcases hx with rfl | rfl
    · cases tail with
      | nil => exact round_waits hs hg hb (.inr rfl)
      | cons d tail =>
        by_cases hd : d = lf
        · subst hd
          cases checkStatus with
          | requestline => exact round_requestline hs hb
          | header => exact round_header hb
        · exact round_spoilt hg hb ⟨cr,d :: tail,rfl,.inr ⟨rfl,d,tail,rfl,hd⟩⟩
    · exact round_spoilt hg hb ⟨lf,tail,rfl,.inl rfl⟩

/-- The loop ends so, with any fuel for a round on each of the bytes that are left. -/
def Ends (s : Request) (out : HttpCode × Request) : Prop :=
  ∀ n, s.readIndex < s.checkedIndex + n → parseContentLoop n s = some out

theorem parseContent_eq {front rest : List Char} {p : Place} {out : HttpCode × Request} (hn : nul ∈ rest)
    (h : Ends (holding front rest p) out) : parseContent (holding front rest p) = some out := by
  obtain ⟨s,hs⟩ := cstring_of_mem (m := front ++ rest) (List.mem_append_right _ hn)
  have hend := h ((holding front rest p).readIndex - (holding front rest p).checkedIndex + 1) (by omega)
  rw [parseContent]
  simp only [holding,hs,Option.bind_eq_bind,Option.bind_some] at hend ⊢
  exact hend

/-- How a call ends, and what a call on more bytes does instead: the same, or what a call
from the place that has been reached does on them. -/
structure Ending (front : List Char) (p : Place) (code : HttpCode) (front' : List Char) (p' : Place) : Prop where
  length_eq : front'.length = front.length
  ends : ∀ rest, nul ∈ rest → Ends (holding front rest p) (code,holding front' rest p')
  waiting : code = .noRequest → Ready front' p' ∧ Waiting front' p'
  same : code ≠ .noRequest → ∀ more rest, nul ∈ rest →
    Ends (holding (front ++ more) rest p) (code,holding (front' ++ more) rest p')
  later : code = .noRequest → ∀ more rest out, nul ∈ rest →
    Ends (holding (front' ++ more) rest p') out → Ends (holding (front ++ more) rest p) out

theorem exists_ending {front : List Char} {p : Place} (h : Ready front p) :
    ∃ code front' p', Ending front p code front' p' := by
  suffices hall : ∀ n front p, Ready front p → front.length < p.checkedIndex + n →
      ∃ code front' p', Ending front p code front' p' from
    hall (front.length + 1) front p h (by omega)
  intro n
  induction n with
  | zero =>
    intro front p h hlt
    exact absurd h.checkedIndex (by omega)
  | succ n ih =>
    intro front p h hlt
    -- with more bytes as well, there is fuel for one round at least
    have hpos : ∀ (more : List Char) {k : ℕ}, (front ++ more).length < p.checkedIndex + k → ∃ j, k = j + 1 := by
      intro more k hk
      have hle := h.checkedIndex
      rw [List.length_append] at hk
      exact ⟨k - 1,by omega⟩
    cases round h with
    | waits p' hr hw hnow hlater hle =>
      refine ⟨.noRequest,front,p',rfl,fun rest hn k hk => ?_,fun _ => ⟨hr,hw⟩,fun hc => absurd rfl hc,
        fun _ more rest out hn hends k hk => ?_⟩
      · obtain ⟨j,rfl⟩ := hpos [] (by simpa [holding] using hk)
        exact hnow rest j hn
      · rw [hlater more rest k hn]
        exact hends k (Nat.lt_of_lt_of_le hk (Nat.add_le_add_right hle k))
    | stops code front' p' hc hl hstop =>
      have hends : ∀ more rest, nul ∈ rest →
          Ends (holding (front ++ more) rest p) (code,holding (front' ++ more) rest p') := by
        intro more rest hn k hk
        obtain ⟨j,rfl⟩ := hpos more hk
        exact hstop more rest j hn
      refine ⟨code,front',p',hl,fun rest hn => ?_,fun he => absurd he hc,fun _ => hends,fun he => absurd he hc⟩
      simpa using hends [] rest hn
    | goesOn front' p' hl hr hlt' hgo =>
      obtain ⟨code,front'',p'',hE⟩ := ih front' p' hr (by omega)
      have hback : ∀ (more : List Char) {rest : List Char} {out : HttpCode × Request}, nul ∈ rest →
          Ends (holding (front' ++ more) rest p') out → Ends (holding (front ++ more) rest p) out := by
        intro more rest out hn hends k hk
        obtain ⟨j,rfl⟩ := hpos more hk
        rw [hgo more rest j hn]
        refine hends j ?_
        simp only [holding,List.length_append,hl] at hk ⊢
        omega
      refine ⟨code,front'',p'',hE.length_eq.trans hl,fun rest hn => ?_,hE.waiting,
        fun hc more rest hn => hback more hn (hE.same hc more rest hn),
        fun hc more rest out hn hends => hback more hn (hE.later hc more rest out hn hends)⟩
      have hends := hback [] hn (by simpa using hE.ends rest hn)
      simpa using hends

theorem ends_of_waiting {front rest : List Char} {p : Place} (h : Waiting front p)
    (hp : p.checkedIndex ≤ front.length) (hn : nul ∈ rest) :
    Ends (holding front rest p) (.noRequest,holding front rest p) := by
  intro n hlt
  obtain ⟨c,checkStatus,startLine⟩ := p
  have hc : (front.take c).length = c := by
    rw [List.length_take,Nat.min_eq_left hp]
  obtain ⟨n,rfl⟩ : ∃ m, n = m + 1 := ⟨n - 1,by simp only [holding] at hlt hp; omega⟩
  have hline := parseLine_eq (front.take c) (front.drop c) checkStatus startLine hn (List.forall_mem_nil _)
  rw [List.append_nil,parseLineLoop_open h,List.take_append_drop,hc] at hline
  rw [parseContentLoop,hline]
  rfl

theorem receive_eq (front : List Char) {chunk : List Char} {k : ℕ} (hk : chunk.length ≤ k) (p : Place) :
    receive (holding front (List.replicate k nul) p) chunk =
      some (holding (front ++ chunk) (List.replicate (k - chunk.length) nul) p) := by
  have hcopy : Memory.copy (front ++ List.replicate k nul) front.length chunk =
      some (front ++ chunk ++ List.replicate (k - chunk.length) nul) := by
    refine Memory.copy_eq (o := List.replicate chunk.length nul) ?_ rfl (by simp)
    rw [List.append_assoc,← List.replicate_add,Nat.add_sub_cancel' hk]
  simp only [receive,holding,hcopy,Option.map_some,List.length_append]

/-- From a place that waits, a call after each chunk answers as one call on all of them. -/
theorem parseChunks_eq (chunks : List (List Char)) {front : List Char} {p : Place} {k : ℕ} (hr : Ready front p)
    (hw : Waiting front p) (hk : chunks.flatten.length < k) : ∃ code t t',
      parseChunks (holding front (List.replicate k nul) p) chunks = some (code,t) ∧
      (receive (holding front (List.replicate k nul) p) chunks.flatten).bind parseContent = some (code,t') ∧
      t.place = t'.place := by
  induction chunks generalizing front p k with
  | nil =>
    have hn : nul ∈ List.replicate k nul := List.mem_replicate.mpr ⟨Nat.ne_of_gt hk,rfl⟩
    refine ⟨.noRequest,_,_,rfl,?_,rfl⟩
    rw [List.flatten_nil,receive_eq front (Nat.zero_le k) p,Option.bind_some,List.append_nil,List.length_nil,
      Nat.sub_zero]
    exact parseContent_eq hn (ends_of_waiting hw hr.checkedIndex hn)
  | cons chunk chunks ih =>
    rw [List.flatten_cons,List.length_append] at hk
    obtain ⟨code,front',p',hE⟩ := exists_ending (hr.append chunk)
    have hn : nul ∈ List.replicate (k - chunk.length) nul := List.mem_replicate.mpr ⟨by omega,rfl⟩
    have hn' : nul ∈ List.replicate (k - (chunk ++ chunks.flatten).length) nul :=
      List.mem_replicate.mpr ⟨by rw [List.length_append]; omega,rfl⟩
    have hwhole : receive (holding front (List.replicate k nul) p) (chunk :: chunks).flatten =
        some (holding (front ++ chunk ++ chunks.flatten)
          (List.replicate (k - (chunk ++ chunks.flatten).length) nul) p) := by
      rw [List.flatten_cons,receive_eq front (by rw [List.length_append]; omega) p,List.append_assoc]
    have hfirst : parseContent (holding (front ++ chunk) (List.replicate (k - chunk.length) nul) p) =
        some (code,holding front' (List.replicate (k - chunk.length) nul) p') := parseContent_eq hn (hE.ends _ hn)
    rw [hwhole,Option.bind_some,parseChunks,receive_eq front (by omega) p]
    simp only [Option.bind_eq_bind,Option.bind_some,hfirst]
    by_cases hc : code = .noRequest
    · obtain ⟨hr',hw'⟩ := hE.waiting hc
      obtain ⟨code₂,t,t',hchunks,hrest,hplace⟩ := ih hr' hw' (k := k - chunk.length) (by omega)
      obtain ⟨code₃,front₃,p₃,hE'⟩ := exists_ending (hr'.append chunks.flatten)
      have hends := hE'.ends _ hn'
      have hone := parseContent_eq hn' (hE.later hc _ _ _ hn' hends)
      -- the rest of the buffer is the same either way
      have hzeros : k - chunk.length - chunks.flatten.length = k - (chunk ++ chunks.flatten).length := by
        rw [List.length_append]
        omega
      rw [receive_eq front' (by omega) p',Option.bind_some,hzeros,parseContent_eq hn' hends] at hrest
      rw [if_pos hc]
      exact ⟨code₂,t,t',hchunks,hone.trans hrest,hplace⟩
    · rw [if_neg hc]
      exact ⟨code,_,_,rfl,parseContent_eq hn' (hE.same hc _ _ hn'),rfl⟩

/-- However a request is cut into chunks, the answer and the place that is reached are
those of a single call on the whole. -/
theorem parseChunks_whole (size : ℕ) (chunks : List (List Char)) (h : chunks.flatten.length < size) :
    ∃ code t t', parseChunks (start size) chunks = some (code,t) ∧
      (receive (start size) chunks.flatten).bind parseContent = some (code,t') ∧ t.place = t'.place := by
  have hready : Ready [] ⟨0,.requestline,0⟩ := ⟨Nat.le_refl _,Nat.le_refl _,by simp⟩
  exact parseChunks_eq chunks hready (.inl rfl) h

/-- The end of the request line is cut in two. -/
def cutRequest : List (List Char) :=
  ["GET / HTTP/1.1".toList ++ [cr],lf :: "Host: a".toList ++ [cr,lf]]

theorem parseChunks_cutRequest : ∃ t t', parseChunks (start 64) cutRequest = some (.getRequest,t) ∧
    (receive (start 64) cutRequest.flatten).bind parseContent = some (.getRequest,t') ∧ t.place = t'.place := by
  obtain ⟨code,t,t',hchunks,hwhole,hplace⟩ := parseChunks_whole 64 cutRequest (by decide)
  have hcode : (parseChunks (start 64) cutRequest).map Prod.fst = some .getRequest := by decide
  rw [hchunks] at hcode
  obtain rfl := Option.some.inj hcode
  exact ⟨t,t',hchunks,hwhole,hplace⟩

end Zcs.Http
