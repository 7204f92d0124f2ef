import Zcs.Foundation.Run
import Zcs.Http.Chunks

/-! # What `parse_line` consumes

A caller appends what it receives and calls `parse_content` as often as it likes. The
session follows it step by step, down to the iterations of the scan of `parse_line`, and
keeps the bytes that have come in and the pieces that were taken as lines.
-/
namespace Zcs.Http

/-- One iteration of the loop of `parse_line`, or its end. There is no status when the
loop goes on. -/
def iteration (s : Request) : Option (Option LineStatus × Request) :=
  if s.checkedIndex < s.readIndex then do
    let temp ← s.buffer.load s.checkedIndex
    if temp = cr then
      if s.checkedIndex + 1 = s.readIndex then return (some .lineOpen,s)
      else if (← s.buffer.load (s.checkedIndex + 1)) = lf then
        let buffer ← s.buffer.store s.checkedIndex nul
        let buffer ← buffer.store (s.checkedIndex + 1) nul
        return (some .lineOk,{ s with buffer := buffer, checkedIndex := s.checkedIndex + 2 })
      else return (some .lineBad,s)
    else if temp = lf then
      if ← behindCr s then
        let buffer ← s.buffer.store (s.checkedIndex - 1) nul
        let buffer ← buffer.store s.checkedIndex nul
        return (some .lineOk,{ s with buffer := buffer, checkedIndex := s.checkedIndex + 1 })
      else return (some .lineBad,s)
    else return (none,{ s with checkedIndex := s.checkedIndex + 1 })
  else some (some .lineOpen,s)

/-- What `parse_content` does when `parse_line` has returned. There is no answer when its
loop goes on. -/
def afterLine (lineStatus : LineStatus) (s : Request) : Option (Option HttpCode × Request) :=
  match lineStatus with
  | .lineOk =>
    let temp := s.startLine
    let s := { s with startLine := s.checkedIndex }
    match s.checkStatus with
    | .requestline => do
      let (code,checkStatus,buffer) ← parseRequestline s.buffer temp s.checkStatus
      return (if code = .badRequest then some .badRequest else none,
        { s with checkStatus := checkStatus, buffer := buffer })
    | .header =>
      let code := parseHeaders s.buffer temp
      some (if code = .badRequest ∨ code = .getRequest then some code else none,s)
  | .lineOpen => some (some .noRequest,s)
  | .lineBad => some (some .badRequest,s)

/-- Between two calls, with the answer of the last one, or in `parse_line`, in front of
its log or at its loop. -/
inductive Mode where
  | outside (answer : Option HttpCode)
  | logging
  | scanning
  deriving DecidableEq

/-- Where `parse_content` is behind a line. -/
def Mode.after : Option HttpCode → Mode
  | none => .logging
  | some code => .outside (some code)

/-- `received` and `consumed` are history: all bytes that have come in, and for each
LINE_OK those from `start_line` to the new `checked_index`. -/
structure Session where
  mode : Mode
  request : Request
  received : List Char
  consumed : List (List Char)
  deriving DecidableEq

inductive Move where
  | receive (chunk : List Char)
  | call
  | run

namespace Session

/-- All three indices are 0; what the buffer holds does not matter. -/
def start (buffer : Memory) (checkStatus : CheckStatus) : Session :=
  ⟨.outside none,⟨buffer,0,checkStatus,0,0⟩,[],[]⟩

/-- The iterations of the scan, and what `parse_content` does behind the last. -/
def scan (s : Session) : Option Session := do
  match ← iteration s.request with
  | (none,q) => return { s with request := q }
  | (some lineStatus,q) =>
    let consumed := if lineStatus = .lineOk then
      s.consumed ++ [(s.received.take q.checkedIndex).drop s.request.startLine] else s.consumed
    let (answer,q) ← afterLine lineStatus q
    return { s with mode := .after answer, request := q, consumed := consumed }

def next (s : Session) : Move → Option Session
  | .receive chunk => match s.mode with
    | .outside _ => (receive s.request chunk).map fun q => { s with request := q, received := s.received ++ chunk }
    | .logging | .scanning => none
  | .call => match s.mode with
    | .outside _ => (s.request.buffer.cstring 0).map fun _ => { s with mode := .logging }
    | .logging | .scanning => none
  | .run => match s.mode with
    | .outside _ => none
    | .logging => (s.request.buffer.cstring 0).map fun _ => { s with mode := .scanning }
    | .scanning => s.scan

end Session

section Refines

theorem parseLineLoop_eq (s : Request) :
    parseLineLoop (s.readIndex - s.checkedIndex) s = (iteration s).bind fun out =>
      match out with
      | (none,t) => parseLineLoop (t.readIndex - t.checkedIndex) t
      | (some lineStatus,t) => some (lineStatus,t) := by
  by_cases hlt : s.checkedIndex < s.readIndex
  · obtain ⟨n,hn⟩ := Nat.exists_eq_add_of_lt hlt
    have hleft : s.readIndex - s.checkedIndex = n + 1 := by omega
    have hleft' : s.readIndex - (s.checkedIndex + 1) = n := by omega
    rw [hleft,parseLineLoop,iteration,if_pos hlt]
    cases s.buffer.load s.checkedIndex with
    | none => rfl
    | some temp =>
      simp only [Option.bind_eq_bind,Option.bind_some]
      split_ifs
      · rfl
      · cases s.buffer.load (s.checkedIndex + 1) with
        | none => rfl
        | some c =>
          simp only [Option.bind_some]
          split_ifs
          · cases s.buffer.store s.checkedIndex nul with
            | none => rfl
            | some m =>
              simp only [Option.bind_some]
              cases m.store (s.checkedIndex + 1) nul <;> rfl
          · rfl
      · cases behindCr s with
        | none => rfl
        | some b =>
          simp only [Option.bind_some]
          split_ifs
          · cases s.buffer.store (s.checkedIndex - 1) nul with
            | none => rfl
            | some m =>
              simp only [Option.bind_some]
              cases m.store s.checkedIndex nul <;> rfl
          · rfl
      · simp only [Option.bind_some,pure,hleft']
  · rw [iteration,if_neg hlt,Nat.sub_eq_zero_of_le (Nat.not_lt.mp hlt)]
    rfl

theorem parseContentLoop_eq (fuel : ℕ) (s : Request) :
    parseContentLoop (fuel + 1) s = (parseLine s).bind fun (lineStatus,t) =>
      (afterLine lineStatus t).bind fun
        | (none,u) => parseContentLoop fuel u
        | (some code,u) => some (code,u) := by
  rw [parseContentLoop]
  cases parseLine s with
  | none => rfl
  | some out =>
    obtain ⟨lineStatus,t⟩ := out
    cases lineStatus with
    | lineOpen | lineBad => rfl
    | lineOk =>
      cases hc : t.checkStatus with
      | header => simp [afterLine,hc,parseHeaders]
      | requestline =>
        simp only [afterLine,hc,Option.bind_eq_bind,Option.bind_some]
        cases parseRequestline t.buffer t.startLine .requestline with
        | none => rfl
        | some out =>
          simp only [Option.bind_some]
          split_ifs <;> rfl

/-- An iteration that goes on has moved over one byte. -/
theorem iteration_none {s t : Request} (h : iteration s = some (none,t)) :
    s.checkedIndex < s.readIndex ∧ t = { s with checkedIndex := s.checkedIndex + 1 } := by
  unfold iteration at h
  by_cases hlt : s.checkedIndex < s.readIndex
  swap
  · rw [if_neg hlt] at h
    cases h
  refine ⟨hlt,?_⟩
  rw [if_pos hlt] at h
  obtain ⟨temp,_,h⟩ := Option.bind_eq_some_iff.mp h
  -- every branch but the last ends the loop
  by_cases hcr : temp = cr
  · rw [if_pos hcr] at h
    by_cases hlast : s.checkedIndex + 1 = s.readIndex
    · rw [if_pos hlast] at h
      cases h
    · rw [if_neg hlast] at h
      obtain ⟨c,_,h⟩ := Option.bind_eq_some_iff.mp h
      split_ifs at h
      · obtain ⟨_,_,h⟩ := Option.bind_eq_some_iff.mp h
        obtain ⟨_,_,h⟩ := Option.bind_eq_some_iff.mp h
        cases h
      · cases h
  rw [if_neg hcr] at h
  by_cases hlf : temp = lf
  · rw [if_pos hlf] at h
    obtain ⟨b,_,h⟩ := Option.bind_eq_some_iff.mp h
    split_ifs at h
    · obtain ⟨_,_,h⟩ := Option.bind_eq_some_iff.mp h
      obtain ⟨_,_,h⟩ := Option.bind_eq_some_iff.mp h
      cases h
    · cases h
  · rw [if_neg hlf] at h
    cases h
    rfl

namespace Session

def Steps (s : Session) (t : Session) : Prop :=
  ∃ moves, (∀ a ∈ moves, a = .run) ∧ Runs next (fun _ _ => True) s moves t

theorem Steps.refl (s : Session) : Steps s s := ⟨[],List.forall_mem_nil _,.refl s⟩

theorem Steps.trans {s t u : Session} (h : Steps s t) (h' : Steps t u) : Steps s u := by
  obtain ⟨moves,hall,hrun⟩ := h
  obtain ⟨moves',hall',hrun'⟩ := h'
  exact ⟨moves ++ moves',List.forall_mem_append.mpr ⟨hall,hall'⟩,hrun.trans hrun'⟩

theorem Steps.single {s t : Session} (h : s.next .run = some t) : Steps s t :=
  ⟨[.run],List.forall_mem_singleton.mpr rfl,.single trivial h⟩

theorem steps_parseLineLoop {lineStatus : LineStatus} {q : Request} (n : ℕ) {s : Session} (hs : s.mode = .scanning)
    (hn : s.request.readIndex - s.request.checkedIndex = n)
    (h : parseLineLoop n s.request = some (lineStatus,q)) :
    ∃ u, Steps s u ∧ u.mode = .scanning ∧ u.received = s.received ∧
      iteration u.request = some (some lineStatus,q) := by
  induction n generalizing s with
  | zero =>
    refine ⟨s,.refl s,hs,rfl,?_⟩
    rw [iteration,if_neg (by omega)]
    obtain ⟨rfl,rfl⟩ := Prod.mk.inj (Option.some.inj h)
    rfl
  | succ n ih =>
    rw [← hn,parseLineLoop_eq] at h
    obtain ⟨⟨status,t⟩,hit,h⟩ := Option.bind_eq_some_iff.mp h
    cases status with
    | some status =>
      obtain ⟨rfl,rfl⟩ := Prod.mk.inj (Option.some.inj h)
      exact ⟨s,.refl s,hs,rfl,hit⟩
    | none =>
      obtain ⟨_,ht⟩ := iteration_none hit
      have hstep : s.next .run = some { s with request := t } := by simp [next,hs,scan,hit]
      have hleft : t.readIndex - t.checkedIndex = n := by
        simp only [ht]
        omega
      obtain ⟨u,hu,hrest⟩ := ih (s := { s with request := t }) hs hleft (hleft ▸ h)
      exact ⟨u,.trans (.single hstep) hu,hrest⟩

theorem steps_parseContentLoop {code : HttpCode} {q : Request} (fuel : ℕ) {s : Session} (hs : s.mode = .logging)
    (h : parseContentLoop fuel s.request = some (code,q)) :
    ∃ t, Steps s t ∧ t.mode = .outside (some code) ∧ t.request = q ∧ t.received = s.received := by
  induction fuel generalizing s with
  | zero => cases h
  | succ fuel ih =>
    rw [parseContentLoop_eq] at h
    obtain ⟨⟨lineStatus,t⟩,hline,h⟩ := Option.bind_eq_some_iff.mp h
    obtain ⟨logged,hlog,hline⟩ := Option.bind_eq_some_iff.mp hline
    have hstart : s.next .run = some { s with mode := .scanning } := by simp [next,hs,hlog]
    obtain ⟨u,hu,humode,hureceived,hit⟩ := steps_parseLineLoop _ (s := { s with mode := .scanning }) rfl rfl hline
    obtain ⟨⟨answer,q'⟩,hafter,h⟩ := Option.bind_eq_some_iff.mp h
    let v : Session := { u with
      mode := .after answer
      request := q'
      consumed := if lineStatus = .lineOk then
        u.consumed ++ [(u.received.take t.checkedIndex).drop u.request.startLine] else u.consumed }
    have hscan : u.next .run = some v := by
      simp only [next,humode,scan,hit,Option.bind_eq_bind,Option.bind_some,hafter]
      rfl
    have hv : Steps s v := .trans (.single hstart) (.trans hu (.single hscan))
    cases answer with
    | some code' =>
      obtain ⟨rfl,rfl⟩ := Prod.mk.inj (Option.some.inj h)
      exact ⟨v,hv,rfl,rfl,hureceived⟩
    | none =>
      obtain ⟨w,hw,hmode,hrequest,hreceived⟩ := ih (s := v) rfl h
      exact ⟨w,hv.trans hw,hmode,hrequest,hreceived.trans hureceived⟩

/-- A call of `parse_content` is a run of the session with the same answer. -/
theorem steps_parseContent {s : Session} {last : Option HttpCode} (hs : s.mode = .outside last) {code : HttpCode}
    {q : Request} (h : parseContent s.request = some (code,q)) :
    ∃ u t, s.next .call = some u ∧ Steps u t ∧ t.mode = .outside (some code) ∧ t.request = q ∧
      t.received = s.received := by
  obtain ⟨logged,hlog,h⟩ := Option.bind_eq_some_iff.mp h
  have hcall : s.next .call = some { s with mode := .logging } := by simp [next,hs,hlog]
  obtain ⟨t,ht⟩ := steps_parseContentLoop _ (s := { s with mode := .logging }) rfl h
  exact ⟨_,t,hcall,ht⟩

end Session
end Refines

section Bounds
variable {front : Memory} {i : ℕ}

theorem load_append (hi : i < front.length) (rest : List Char) : Memory.load (front ++ rest) i = some front[i] := by
  rw [Memory.load,List.getElem?_append_left hi,List.getElem?_eq_getElem hi]

theorem store_append (front : Memory) (hi : i < front.length) (rest : List Char) (c : Char) :
    Memory.store (front ++ rest) i c = some (front.set i c ++ rest) := by
  have hlt : i < (front ++ rest).length := by
    rw [List.length_append]
    omega
  rw [Memory.store,if_pos hlt,List.set_append_left i c hi]

/-- An iteration finds and leaves what lies in front of `read_index`, whatever comes behind. -/
theorem iteration_append (s : Request) (hs : s.readIndex = front.length) :
    ∃ (lineStatus : Option LineStatus) (t : Request), t.buffer.length = front.length ∧
      ∀ rest, iteration { s with buffer := front ++ rest } =
        some (lineStatus,{ t with buffer := t.buffer ++ rest }) := by
  obtain ⟨b,c,checkStatus,n,startLine⟩ := s
  obtain rfl : n = front.length := hs
  by_cases hc : c < front.length
  swap
  · refine ⟨some .lineOpen,⟨front,c,checkStatus,front.length,startLine⟩,rfl,fun rest => ?_⟩
    simp only [iteration,if_neg hc]
  have hload := load_append hc
  by_cases hcr : front[c] = cr
  · by_cases hlast : c + 1 = front.length
    · refine ⟨some .lineOpen,⟨front,c,checkStatus,front.length,startLine⟩,rfl,fun rest => ?_⟩
      simp only [iteration,if_pos hc,hload,Option.bind_eq_bind,Option.bind_some,if_pos hcr,if_pos hlast]
      rfl
    have hc' : c + 1 < front.length := by omega
    by_cases hlf : front[c + 1] = lf
    · refine ⟨some .lineOk,⟨(front.set c nul).set (c + 1) nul,c + 2,checkStatus,front.length,startLine⟩,by simp,
        fun rest => ?_⟩
      simp only [iteration,if_pos hc,hload,load_append hc',Option.bind_eq_bind,Option.bind_some,if_pos hcr,
        if_neg hlast,if_pos hlf,store_append front hc,store_append (front.set c nul) (by simpa using hc')]
      rfl
    · refine ⟨some .lineBad,⟨front,c,checkStatus,front.length,startLine⟩,rfl,fun rest => ?_⟩
      simp only [iteration,if_pos hc,hload,load_append hc',Option.bind_eq_bind,Option.bind_some,if_pos hcr,
        if_neg hlast,if_neg hlf]
      rfl
  by_cases hlf : front[c] = lf
  · have hc' : c - 1 < front.length := by omega
    by_cases hbehind : 1 < c ∧ front[c - 1] = cr
    · refine ⟨some .lineOk,⟨(front.set (c - 1) nul).set c nul,c + 1,checkStatus,front.length,startLine⟩,by simp,
        fun rest => ?_⟩
      simp only [iteration,behindCr,if_pos hc,hload,load_append hc',Option.bind_eq_bind,Option.bind_some,if_neg hcr,
        if_pos hlf,if_pos hbehind.1,hbehind.2,Option.map_some,beq_self_eq_true,↓reduceIte,store_append front hc',
        store_append (front.set (c - 1) nul) (i := c) (by simpa using hc)]
      rfl
    · have hnot : ∀ rest, behindCr ⟨front ++ rest,c,checkStatus,front.length,startLine⟩ = some false := by
        intro rest
        by_cases hlt : 1 < c
        · have hne : front[c - 1] ≠ cr := fun h => hbehind ⟨hlt,h⟩
          simp only [behindCr,if_pos hlt,load_append hc',Option.map_some,beq_eq_false_iff_ne.mpr hne]
        · exact if_neg hlt
      refine ⟨some .lineBad,⟨front,c,checkStatus,front.length,startLine⟩,rfl,fun rest => ?_⟩
      simp only [iteration,if_pos hc,hload,Option.bind_eq_bind,Option.bind_some,if_neg hcr,if_pos hlf,hnot]
      rfl
  · refine ⟨none,⟨front,c + 1,checkStatus,front.length,startLine⟩,rfl,fun rest => ?_⟩
    simp only [iteration,if_pos hc,hload,Option.bind_eq_bind,Option.bind_some,if_neg hcr,if_neg hlf]
    rfl

/-- The scan is what it is for any other bytes behind `read_index`, none at all included,
and leaves those bytes as they are. -/
def ScansWithin (s : Request) : Prop :=
  ∃ lineStatus t, iteration s = some (lineStatus,t) ∧ ∀ rest,
    iteration { s with buffer := s.buffer.take s.readIndex ++ rest } =
      some (lineStatus,{ t with buffer := t.buffer.take s.readIndex ++ rest })

theorem scansWithin {s : Request} (h : s.readIndex ≤ s.buffer.length) : ScansWithin s := by
  have hl : s.readIndex = (s.buffer.take s.readIndex).length := by rw [List.length_take,Nat.min_eq_left h]
  obtain ⟨lineStatus,t,ht,hall⟩ := iteration_append s hl
  have hself := hall (s.buffer.drop s.readIndex)
  rw [List.take_append_drop] at hself
  refine ⟨lineStatus,_,hself,fun rest => ?_⟩
  simp only
  rw [List.take_left' (ht.trans hl.symm)]
  exact hall rest

end Bounds

/-- The lines taken so far tile what has come in up to `start_line`, and the scan has
passed no end of a line behind it. -/
structure Tiled (s : Session) : Prop where
  startLine_le : s.request.startLine ≤ s.request.checkedIndex
  checkedIndex_le : s.request.checkedIndex ≤ s.request.readIndex
  length_received : s.received.length = s.request.readIndex
  scanned : Plain ((s.received.take s.request.checkedIndex).drop s.request.startLine)
  lines : ∀ line ∈ s.consumed, ∃ segment, Plain segment ∧ line = segment ++ [cr,lf]
  tiles : s.consumed.flatten = s.received.take s.request.startLine

/-- A LINE_OK takes a segment with its end, from behind the end of another line on. -/
def TakesLine (s : Session) : Prop :=
  ∀ q, iteration s.request = some (some .lineOk,q) → ∃ front segment rest,
    s.received = front ++ segment ++ cr :: lf :: rest ∧ front.length = s.request.startLine ∧
    (∀ x ∈ front.getLast?, x = lf) ∧ Plain segment ∧ q.checkedIndex = (front ++ segment).length + 2

/-- The buffer still holds the bytes from `start_line` on, and a terminator before. -/
structure Intact (s : Session) : Prop extends Tiled s where
  room : s.request.readIndex ≤ s.request.buffer.length
  ahead : ∀ i, s.request.startLine ≤ i → i < s.request.readIndex → s.request.buffer[i]? = s.received[i]?
  behind : 0 < s.request.startLine → s.request.buffer[s.request.startLine - 1]? = some nul

namespace Intact
variable {s : Session}

theorem start (buffer : Memory) (checkStatus : CheckStatus) : Intact (.start buffer checkStatus) where
  startLine_le := Nat.le_refl _
  checkedIndex_le := Nat.le_refl _
  length_received := rfl
  scanned := List.forall_mem_nil _
  lines := List.forall_mem_nil _
  tiles := rfl
  room := Nat.zero_le _
  ahead _ _ hi := absurd hi (Nat.not_lt_zero _)
  behind h := absurd h (Nat.lt_irrefl _)

theorem receive (h : Intact s) {chunk : List Char} {q : Request} (hq : Http.receive s.request chunk = some q) :
    Intact { s with request := q, received := s.received ++ chunk } := by
  obtain ⟨buffer,hcopy,rfl⟩ := Option.map_eq_some_iff.mp hq
  unfold Memory.copy at hcopy
  split_ifs at hcopy with hroom
  obtain rfl := Option.some.inj hcopy
  have hlen : (s.request.buffer.take s.request.readIndex).length = s.request.readIndex := by
    rw [List.length_take,Nat.min_eq_left h.room]
  have htake : ∀ {n}, n ≤ s.request.readIndex → (s.received ++ chunk).take n = s.received.take n := fun hn =>
    List.take_append_of_le_length (h.length_received ▸ hn)
  refine ⟨⟨h.startLine_le,Nat.le_add_right_of_le h.checkedIndex_le,?_,?_,h.lines,?_⟩,?_,fun i hi hlt => ?_,
    fun hpos => ?_⟩
  · rw [List.length_append,h.length_received]
  · simp only [htake h.checkedIndex_le]
    exact h.scanned
  · simp only [htake (Nat.le_trans h.startLine_le h.checkedIndex_le)]
    exact h.tiles
  · simp only [List.length_append,hlen]
    omega
  · simp only at hi hlt ⊢
    rw [List.append_assoc]
    rcases Nat.lt_or_ge i s.request.readIndex with hin | hout
    · rw [List.getElem?_append_left (hlen.symm ▸ hin),List.getElem?_take_of_lt hin,h.ahead i hi hin,
        List.getElem?_append_left (h.length_received.symm ▸ hin)]
    · have hbuffer : (s.request.buffer.take s.request.readIndex).length ≤ i := hlen.symm ▸ hout
      have hreceived : s.received.length ≤ i := h.length_received.symm ▸ hout
      rw [List.getElem?_append_right hbuffer,List.getElem?_append_right hreceived,hlen,h.length_received,
        List.getElem?_append_left (by omega)]
  · have hin : s.request.startLine - 1 < s.request.readIndex := by
      have hle := h.startLine_le
      have hle' := h.checkedIndex_le
      simp only at hpos
      omega
    simp only
    rw [List.append_assoc,List.getElem?_append_left (hlen.symm ▸ hin),List.getElem?_take_of_lt hin]
    exact h.behind hpos

/-- The byte in front of `checked_index` is no carriage return. -/
theorem behindCr_eq (h : Intact s) (hc : s.request.checkedIndex < s.request.readIndex) :
    behindCr s.request = some false := by
  by_cases hlt : 1 < s.request.checkedIndex
  swap
  · exact if_neg hlt
  obtain ⟨x,hx,hne⟩ : ∃ x, s.request.buffer.load (s.request.checkedIndex - 1) = some x ∧ x ≠ cr := by
    rcases Nat.lt_or_ge s.request.startLine s.request.checkedIndex with hin | hout
    · have hlast : s.request.checkedIndex - 1 < s.received.length := by
        rw [h.length_received]
        omega
      refine ⟨s.received[s.request.checkedIndex - 1],?_,?_⟩
      · rw [Memory.load,h.ahead _ (by omega) (by omega),List.getElem?_eq_getElem hlast]
      · refine (h.scanned _ (List.mem_of_getElem? (i := s.request.checkedIndex - 1 - s.request.startLine) ?_)).1
        rw [List.getElem?_drop,Nat.add_sub_cancel' (by omega),List.getElem?_take_of_lt (by omega),
          List.getElem?_eq_getElem hlast]
    · have heq : s.request.checkedIndex = s.request.startLine := Nat.le_antisymm hout h.startLine_le
      exact ⟨nul,heq ▸ h.behind (by omega),by decide⟩
  rw [behindCr,if_pos hlt,hx,Option.map_some,beq_eq_false_iff_ne.mpr hne]

/-- Everything an iteration can do: it ends the scan without a line, it passes over a
byte, or it takes the two bytes at the end of a line. -/
theorem iteration_cases (h : Intact s) :
    (∃ lineStatus, lineStatus ≠ .lineOk ∧ iteration s.request = some (some lineStatus,s.request)) ∨
    (∃ x, s.received[s.request.checkedIndex]? = some x ∧ x ≠ cr ∧ x ≠ lf ∧
      iteration s.request = some (none,{ s.request with checkedIndex := s.request.checkedIndex + 1 })) ∨
    (s.received[s.request.checkedIndex]? = some cr ∧ s.received[s.request.checkedIndex + 1]? = some lf ∧
      iteration s.request = some (some .lineOk,{ s.request with
        buffer := (s.request.buffer.set s.request.checkedIndex nul).set (s.request.checkedIndex + 1) nul
        checkedIndex := s.request.checkedIndex + 2 })) := by
  have hroom := h.room
  by_cases hc : s.request.checkedIndex < s.request.readIndex
  swap
  · exact .inl ⟨.lineOpen,by simp,if_neg hc⟩
  have hbuffer : s.request.checkedIndex < s.request.buffer.length := by omega
  have hload : ∀ i, s.request.checkedIndex ≤ i → i < s.request.readIndex →
      ∃ x, s.request.buffer.load i = some x ∧ s.received[i]? = some x := by
    intro i hi hlt
    have hin : i < s.received.length := by rwa [h.length_received]
    exact ⟨s.received[i],(h.ahead i (Nat.le_trans h.startLine_le hi) hlt).trans (List.getElem?_eq_getElem hin),
      List.getElem?_eq_getElem hin⟩
  obtain ⟨x,hx,hreceived⟩ := hload _ (Nat.le_refl _) hc
  by_cases hcr : x = cr
  · subst hcr
    by_cases hlast : s.request.checkedIndex + 1 = s.request.readIndex
    · refine .inl ⟨.lineOpen,by simp,?_⟩
      simp only [iteration,if_pos hc,hx,Option.bind_eq_bind,Option.bind_some,↓reduceIte,if_pos hlast]
      rfl
    obtain ⟨y,hy,hreceived'⟩ := hload (s.request.checkedIndex + 1) (Nat.le_add_right ..) (by omega)
    by_cases hlf : y = lf
    · subst hlf
      have hbuffer' : s.request.checkedIndex + 1 < (s.request.buffer.set s.request.checkedIndex nul).length := by
        rw [List.length_set]
        omega
      refine .inr (.inr ⟨hreceived,hreceived',?_⟩)
      simp only [iteration,if_pos hc,hx,hy,Option.bind_eq_bind,Option.bind_some,↓reduceIte,if_neg hlast,
        Memory.store,if_pos hbuffer,if_pos hbuffer']
      rfl
    · refine .inl ⟨.lineBad,by simp,?_⟩
      simp only [iteration,if_pos hc,hx,hy,Option.bind_eq_bind,Option.bind_some,↓reduceIte,if_neg hlast,if_neg hlf]
      rfl
  by_cases hlf : x = lf
  · -- a line feed of its own: nothing in front of it is a carriage return
    refine .inl ⟨.lineBad,by simp,?_⟩
    simp only [iteration,if_pos hc,hx,Option.bind_eq_bind,Option.bind_some,if_neg hcr,if_pos hlf,h.behindCr_eq hc]
    rfl
  · refine .inr (.inl ⟨x,hreceived,hcr,hlf,?_⟩)
    simp only [iteration,if_pos hc,hx,Option.bind_eq_bind,Option.bind_some,if_neg hcr,if_neg hlf]
    rfl

/-- The piece that ends with the two bytes at `checked_index`. -/
theorem piece_eq (h : Intact s) (hcr : s.received[s.request.checkedIndex]? = some cr)
    (hlf : s.received[s.request.checkedIndex + 1]? = some lf) :
    (s.received.take (s.request.checkedIndex + 2)).drop s.request.startLine =
      (s.received.take s.request.checkedIndex).drop s.request.startLine ++ [cr,lf] := by
  have hlt := (List.getElem?_eq_some_iff.mp hlf).1
  have hlen : (s.received.take s.request.checkedIndex).length = s.request.checkedIndex := by
    rw [List.length_take]
    omega
  rw [List.take_add_one,List.take_add_one,hcr,hlf,List.append_assoc,List.drop_append_of_le_length]
  · rfl
  · rw [hlen]
    exact h.startLine_le

theorem take_eq (h : Intact s) (hcr : s.received[s.request.checkedIndex]? = some cr)
    (hlf : s.received[s.request.checkedIndex + 1]? = some lf) :
    s.received.take (s.request.checkedIndex + 2) = s.received.take s.request.startLine ++
      ((s.received.take s.request.checkedIndex).drop s.request.startLine ++ [cr,lf]) := by
  have hle : s.request.startLine ≤ s.request.checkedIndex + 2 := Nat.le_add_right_of_le h.startLine_le
  have hsplit := List.take_append_drop s.request.startLine (s.received.take (s.request.checkedIndex + 2))
  rw [List.take_take,Nat.min_eq_left hle,h.piece_eq hcr hlf] at hsplit
  exact hsplit.symm

theorem getLast?_consumed (h : Intact s) : ∀ x ∈ (s.received.take s.request.startLine).getLast?, x = lf := by
  rw [← h.tiles]
  intro x hx
  rcases List.eq_nil_or_concat s.consumed with hnil | ⟨lines,line,hlines⟩
  · rw [hnil] at hx
    cases hx
  · obtain ⟨segment,_,rfl⟩ := h.lines line (by simp [hlines])
    simp only [hlines,List.concat_eq_append,List.flatten_append,List.flatten_cons,List.flatten_nil,List.append_nil,
      ← List.append_assoc] at hx
    simpa using hx.symm

theorem takesLine (h : Intact s) : TakesLine s := by
  intro q hq
  rcases h.iteration_cases with ⟨lineStatus,hne,hit⟩ | ⟨_,_,_,_,hit⟩ | ⟨hcr,hlf,hit⟩
  · rw [hq] at hit
    exact absurd (Option.some.inj (Prod.mk.inj (Option.some.inj hit)).1).symm hne
  · rw [hq] at hit
    cases hit
  · obtain rfl := (Prod.mk.inj (Option.some.inj (hq.symm.trans hit))).2
    have hle := h.startLine_le
    have hlt := (List.getElem?_eq_some_iff.mp hlf).1
    refine ⟨s.received.take s.request.startLine,(s.received.take s.request.checkedIndex).drop s.request.startLine,
      s.received.drop (s.request.checkedIndex + 2),?_,?_,h.getLast?_consumed,h.scanned,?_⟩
    · calc
        s.received = s.received.take (s.request.checkedIndex + 2) ++ s.received.drop (s.request.checkedIndex + 2) :=
          (List.take_append_drop ..).symm
        _ = s.received.take s.request.startLine ++
            ((s.received.take s.request.checkedIndex).drop s.request.startLine ++ [cr,lf]) ++
              s.received.drop (s.request.checkedIndex + 2) := by rw [h.take_eq hcr hlf]
        _ = _ := by simp only [List.append_assoc,List.cons_append,List.nil_append]
    · rw [List.length_take]
      omega
    · simp only [List.length_append,List.length_drop,List.length_take]
      omega

end Intact

/-- `parse_requestline` stays in front of a terminator that lies behind the start of the line. -/
theorem parseRequestline_frame {m m' : Memory} {temp j : ℕ} {checkStatus checkStatus' : CheckStatus}
    {code : HttpCode} (ht : temp ≤ j) (hj : m[j]? = some nul)
    (h : parseRequestline m temp checkStatus = some (code,checkStatus',m')) :
    m'.length = m.length ∧ ∀ i, j ≤ i → m'[i]? = m[i]? := by
  have hlt := (List.getElem?_eq_some_iff.mp hj).1
  have htemp : (m.take temp).length = temp := by
    rw [List.length_take]
    omega
  have hmem : nul ∈ m.drop temp := by
    refine List.mem_of_getElem? (i := j - temp) ?_
    rwa [List.getElem?_drop,Nat.add_sub_cancel' ht]
  obtain ⟨w,y,hdrop,hw⟩ := List.eq_append_cons_of_mem hmem
  have hm : m = m.take temp ++ w ++ nul :: y := by rw [List.append_assoc,← hdrop,List.take_append_drop]
  obtain ⟨w',hl,hanswers⟩ := parseRequestline_answers hw
  have hm' : m' = m.take temp ++ w' ++ nul :: y := by
    have ha := hanswers (m.take temp) y checkStatus
    rw [← hm,htemp,h] at ha
    by_cases hr : IsRequestLine w
    · exact (Prod.mk.inj (Prod.mk.inj (Option.some.inj (ha.1 hr))).2).2
    · exact (Prod.mk.inj (Prod.mk.inj (Option.some.inj (ha.2 hr))).2).2
  have hfront : (m.take temp ++ w').length = (m.take temp ++ w).length := by simp only [List.length_append,hl]
  -- the terminator at `j` is the first one or lies behind it
  have hle : (m.take temp ++ w).length ≤ j := by
    by_contra hin
    rw [hm,List.getElem?_append_left (by omega),List.getElem?_append_right (by omega)] at hj
    exact hw (List.mem_of_getElem? hj)
  constructor
  · rw [hm',hm]
    simp only [List.length_append,List.length_cons,List.length_take,hl]
    omega
  · intro i hi
    have hlen : (m.take temp ++ w).length ≤ i := Nat.le_trans hle hi
    rw [hm',List.getElem?_append_right (hfront ▸ hlen),hfront]
    conv_rhs => rw [hm,List.getElem?_append_right hlen]

/-- Behind a line, `parse_content` has rewritten at most the line. -/
theorem afterLine_ok {q u : Request} {answer : Option HttpCode} (hs : q.startLine < q.checkedIndex)
    (hq : q.buffer[q.checkedIndex - 1]? = some nul) (h : afterLine .lineOk q = some (answer,u)) :
    u.startLine = q.checkedIndex ∧ u.checkedIndex = q.checkedIndex ∧ u.readIndex = q.readIndex ∧
      u.buffer.length = q.buffer.length ∧ ∀ i, q.checkedIndex - 1 ≤ i → u.buffer[i]? = q.buffer[i]? := by
  unfold afterLine at h
  cases hc : q.checkStatus with
  | header =>
    simp only [hc] at h
    obtain ⟨_,rfl⟩ := Prod.mk.inj (Option.some.inj h)
    exact ⟨rfl,rfl,rfl,rfl,fun _ _ => rfl⟩
  | requestline =>
    simp only [hc] at h
    obtain ⟨⟨code,checkStatus,buffer⟩,hparse,h⟩ := Option.bind_eq_some_iff.mp h
    obtain ⟨_,rfl⟩ := Prod.mk.inj (Option.some.inj h)
    obtain ⟨hlen,hframe⟩ := parseRequestline_frame (Nat.le_sub_one_of_lt hs) hq hparse
    exact ⟨rfl,rfl,rfl,hlen,hframe⟩

namespace Intact
variable {s t : Session}

theorem mode (h : Intact s) (mode : Mode) : Intact { s with mode := mode } :=
  ⟨⟨h.startLine_le,h.checkedIndex_le,h.length_received,h.scanned,h.lines,h.tiles⟩,h.room,h.ahead,h.behind⟩

theorem passed (h : Intact s) {x : Char} (hx : s.received[s.request.checkedIndex]? = some x) (hcr : x ≠ cr)
    (hlf : x ≠ lf) :
    Intact { s with request := { s.request with checkedIndex := s.request.checkedIndex + 1 } } := by
  have hlt := (List.getElem?_eq_some_iff.mp hx).1
  have hlen : (s.received.take s.request.checkedIndex).length = s.request.checkedIndex := by
    rw [List.length_take]
    omega
  refine ⟨⟨Nat.le_add_right_of_le h.startLine_le,h.length_received ▸ hlt,h.length_received,?_,h.lines,h.tiles⟩,
    h.room,h.ahead,h.behind⟩
  simp only
  rw [List.take_add_one,hx,List.drop_append_of_le_length (hlen.symm ▸ h.startLine_le)]
  exact List.forall_mem_append.mpr ⟨h.scanned,List.forall_mem_singleton.mpr ⟨hcr,hlf⟩⟩

theorem taken (h : Intact s) (hcr : s.received[s.request.checkedIndex]? = some cr)
    (hlf : s.received[s.request.checkedIndex + 1]? = some lf) {answer : Option HttpCode} {u : Request}
    (hu : afterLine .lineOk { s.request with
      buffer := (s.request.buffer.set s.request.checkedIndex nul).set (s.request.checkedIndex + 1) nul
      checkedIndex := s.request.checkedIndex + 2 } = some (answer,u)) (mode : Mode) :
    Intact { s with
      mode := mode
      request := u
      consumed := s.consumed ++
        [(s.received.take (s.request.checkedIndex + 2)).drop s.request.startLine] } := by
  have hlt := (List.getElem?_eq_some_iff.mp hlf).1
  rw [h.length_received] at hlt
  have hroom := h.room
  have hle := h.startLine_le
  have hnul : ((s.request.buffer.set s.request.checkedIndex nul).set (s.request.checkedIndex + 1) nul)[
      s.request.checkedIndex + 1]? = some nul := by
    rw [List.getElem?_set_self]
    rw [List.length_set]
    omega
  obtain ⟨hstart,hchecked,hread,hlen,hframe⟩ := afterLine_ok (by simp only; omega) hnul hu
  simp only [List.length_set] at hstart hchecked hread hlen hframe
  refine ⟨⟨?_,?_,?_,?_,?_,?_⟩,?_,fun i hi hin => ?_,fun _ => ?_⟩
  · simp only [hstart,hchecked,Nat.le_refl]
  · simp only [hchecked,hread]
    omega
  · rw [hread]
    exact h.length_received
  · simp only [hstart,hchecked]
    rw [List.drop_eq_nil_of_le (List.length_take_le ..)]
    exact List.forall_mem_nil _
  · refine List.forall_mem_append.mpr ⟨h.lines,List.forall_mem_singleton.mpr ⟨_,h.scanned,?_⟩⟩
    exact h.piece_eq hcr hlf
  · simp only [hstart,List.flatten_append,List.flatten_cons,List.flatten_nil,List.append_nil,h.tiles]
    rw [h.piece_eq hcr hlf,h.take_eq hcr hlf]
  · simp only [hread,hlen]
    exact hroom
  · simp only [hstart,hread] at hi hin
    rw [hframe i (by omega),List.getElem?_set_ne (by omega),List.getElem?_set_ne (by omega)]
    exact h.ahead i (by omega) hin
  · simp only [hstart]
    rw [hframe _ (Nat.le_refl _)]
    exact hnul

theorem scan (h : Intact s) (ht : s.scan = some t) : Intact t := by
  rcases h.iteration_cases with ⟨lineStatus,hne,hit⟩ | ⟨x,hx,hcr,hlf,hit⟩ | ⟨hcr,hlf,hit⟩
  · simp only [Session.scan,hit,Option.bind_eq_bind,Option.bind_some,if_neg hne] at ht
    obtain ⟨⟨answer,u⟩,hu,ht⟩ := Option.bind_eq_some_iff.mp ht
    obtain rfl := Option.some.inj ht
    have hu' : u = s.request := by
      cases lineStatus with
      | lineOk => exact absurd rfl hne
      | lineOpen | lineBad => exact (Prod.mk.inj (Option.some.inj hu)).2.symm
    rw [hu']
    exact h.mode _
  · simp only [Session.scan,hit,Option.bind_eq_bind,Option.bind_some] at ht
    obtain rfl := Option.some.inj ht
    exact h.passed hx hcr hlf
  · simp only [Session.scan,hit,Option.bind_eq_bind,Option.bind_some,↓reduceIte] at ht
    obtain ⟨⟨answer,u⟩,hu,ht⟩ := Option.bind_eq_some_iff.mp ht
    obtain rfl := Option.some.inj ht
    exact h.taken hcr hlf hu _

theorem next (h : Intact s) {a : Move} (ht : s.next a = some t) : Intact t := by
  cases a with
  | receive chunk =>
    cases hm : s.mode with
    | logging | scanning => simp [Session.next,hm] at ht
    | outside answer =>
      simp only [Session.next,hm] at ht
      obtain ⟨q,hq,rfl⟩ := Option.map_eq_some_iff.mp ht
      exact hm ▸ h.receive hq
  | call =>
    cases hm : s.mode with
    | logging | scanning => simp [Session.next,hm] at ht
    | outside answer =>
      simp only [Session.next,hm] at ht
      obtain ⟨_,_,rfl⟩ := Option.map_eq_some_iff.mp ht
      exact h.mode _
  | run =>
    cases hm : s.mode with
    | outside answer => simp [Session.next,hm] at ht
    | logging =>
      simp only [Session.next,hm] at ht
      obtain ⟨_,_,rfl⟩ := Option.map_eq_some_iff.mp ht
      exact h.mode _
    | scanning =>
      simp only [Session.next,hm] at ht
      exact h.scan ht

end Intact

/-- In every state of every session, whatever its buffer held at first. -/
theorem tiled_of_run {ok : Session → Move → Prop} {buffer : Memory} {checkStatus : CheckStatus}
    {moves : List Move} {s : Session} (h : Runs Session.next ok (.start buffer checkStatus) moves s) :
    Tiled s ∧ ScansWithin s.request ∧ TakesLine s := by
  have hs : Intact s := h.invariant (fun hs _ hn => hs.next hn) (.start buffer checkStatus)
  exact ⟨hs.toTiled,scansWithin hs.room,hs.takesLine⟩

/-- A line whose end comes in two chunks. -/
def cutLine : List Move :=
  [.receive ['a',cr],.call,.run,.run,.run,.receive [lf],.call,.run,.run]

theorem tiled_cutLine : ∃ s, Runs Session.next (fun _ _ => True)
    (.start (List.replicate 8 nul) .requestline) cutLine s ∧ s.mode = .outside (some .badRequest) ∧
      s.consumed = [['a',cr,lf]] ∧ Tiled s ∧ ScansWithin s.request ∧ TakesLine s := by
  have hrun := Runs.of_exec Session.next (fun _ _ => True) (.start (List.replicate 8 nul) .requestline) cutLine
    (by decide)
  exact ⟨_,hrun,by decide,by decide,tiled_of_run hrun⟩

end Zcs.Http
