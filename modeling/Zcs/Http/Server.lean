import Zcs.Http.Language
import Zcs.Http.Lines
import Zcs.Http.ReadLoop

/-! # The server

The server waits for events and handles one after the other with a single buffer. What a
connection is answered depends on its own bytes only, and the parser stays inside of the
buffer unless the first piece fills it without a terminator.
-/
namespace Zcs.Http

/-- The indices are in order and inside of the buffer, and a string can end in it. -/
structure Sound (s : Request) : Prop where
  startLine : s.startLine ≤ s.checkedIndex
  checkedIndex : s.checkedIndex ≤ s.readIndex
  readIndex : s.readIndex ≤ s.buffer.length
  terminated : nul ∈ s.buffer

/-- What the parser leaves: the bytes that were terminators are terminators. -/
structure Zeroed (s t : Request) : Prop where
  readIndex : t.readIndex = s.readIndex
  length : t.buffer.length = s.buffer.length
  zeros : ∀ {i : ℕ}, s.buffer[i]? = some nul → t.buffer[i]? = some nul

theorem Zeroed.refl (s : Request) : Zeroed s s := ⟨rfl,rfl,id⟩

theorem Zeroed.trans {s t u : Request} (h : Zeroed s t) (h' : Zeroed t u) : Zeroed s u :=
  ⟨h'.readIndex.trans h.readIndex,h'.length.trans h.length,fun hi => h'.zeros (h.zeros hi)⟩

theorem Zeroed.terminated {s t : Request} (h : Zeroed s t) (hs : nul ∈ s.buffer) : nul ∈ t.buffer := by
  obtain ⟨i,hi⟩ := List.mem_iff_getElem?.mp hs
  exact List.mem_of_getElem? (h.zeros hi)

section Safety

theorem load_eq_some {m : Memory} {i : ℕ} (hi : i < m.length) : m.load i = some m[i] := by
  rw [Memory.load,List.getElem?_eq_getElem hi]

theorem zeroed_stores {s : Request} {i j : ℕ} (hj : j < s.buffer.length) (c : ℕ) :
    let t : Request := { s with buffer := (s.buffer.set i nul).set j nul, checkedIndex := c }
    Zeroed s t ∧ t.buffer[j]? = some nul := by
  have hzeros : ∀ {m : Memory} {i k : ℕ}, m[k]? = some nul → (m.set i nul)[k]? = some nul := by
    intro m i k hk
    obtain ⟨hlt,_⟩ := List.getElem?_eq_some_iff.mp hk
    rw [List.getElem?_set]
    split_ifs with hik
    · rfl
    · exact absurd (hik ▸ hlt) (by assumption)
    · exact hk
  refine ⟨⟨rfl,by simp,fun hk => hzeros (hzeros hk)⟩,?_⟩
  simp [hj]

/-- The scan of `parse_line` reads and writes in front of `read_index`. -/
theorem parseLineLoop_sound (n : ℕ) {s : Request} (hs : Sound s) (hn : s.readIndex - s.checkedIndex = n) :
    ∃ status t, parseLineLoop n s = some (status,t) ∧ Sound t ∧ Zeroed s t ∧ t.startLine = s.startLine ∧
      s.checkedIndex ≤ t.checkedIndex ∧ (status = .lineOk → s.checkedIndex < t.checkedIndex ∧
        ∃ i, s.startLine ≤ i ∧ t.buffer[i]? = some nul) := by
  induction n generalizing s with
  | zero => exact ⟨.lineOpen,s,rfl,hs,.refl s,rfl,Nat.le_refl _,fun h => by cases h⟩
  | succ n ih =>
    have hlt : s.checkedIndex < s.readIndex := by omega
    have hc : s.checkedIndex < s.buffer.length := Nat.lt_of_lt_of_le hlt hs.readIndex
    have hstays (status : LineStatus) (hne : status ≠ .lineOk) (h : parseLineLoop (n + 1) s = some (status,s)) :
        ∃ status t, parseLineLoop (n + 1) s = some (status,t) ∧ Sound t ∧ Zeroed s t ∧ t.startLine = s.startLine ∧
          s.checkedIndex ≤ t.checkedIndex ∧ (status = .lineOk → s.checkedIndex < t.checkedIndex ∧
            ∃ i, s.startLine ≤ i ∧ t.buffer[i]? = some nul) :=
      ⟨status,s,h,hs,.refl s,rfl,Nat.le_refl _,fun h => absurd h hne⟩
    have hload := load_eq_some hc
    have hstart := hs.startLine
    by_cases hcr : s.buffer[s.checkedIndex] = cr
    · by_cases hlast : s.checkedIndex + 1 = s.readIndex
      · refine hstays .lineOpen (by decide) ?_
        rw [parseLineLoop]
        simp only [hload,Option.bind_eq_bind,Option.bind_some,if_pos hcr,if_pos hlast]
        rfl
      have hc' : s.checkedIndex + 1 < s.buffer.length := by
        have := hs.readIndex
        omega
      by_cases hlf : s.buffer[s.checkedIndex + 1] = lf
      · obtain ⟨hz,hzero⟩ := zeroed_stores (i := s.checkedIndex) hc' (s.checkedIndex + 2)
        refine ⟨.lineOk,_,?_,⟨by simp only; omega,by simp only; omega,hz.length ▸ hs.readIndex,
          hz.terminated hs.terminated⟩,hz,rfl,Nat.le_add_right ..,fun _ => ⟨by simp only; omega,_,by omega,hzero⟩⟩
        rw [parseLineLoop]
        simp only [hload,load_eq_some hc',Option.bind_eq_bind,Option.bind_some,if_pos hcr,if_neg hlast,if_pos hlf,
          Memory.store,if_pos hc,List.length_set,if_pos hc']
        rfl
      · refine hstays .lineBad (by decide) ?_
        rw [parseLineLoop]
        simp only [hload,load_eq_some hc',Option.bind_eq_bind,Option.bind_some,if_pos hcr,if_neg hlast,if_neg hlf]
        rfl
    by_cases hlf : s.buffer[s.checkedIndex] = lf
    · have hc' : s.checkedIndex - 1 < s.buffer.length := by omega
      by_cases hbehind : behindCr s = some true
      · obtain ⟨hz,hzero⟩ := zeroed_stores (i := s.checkedIndex - 1) hc (s.checkedIndex + 1)
        refine ⟨.lineOk,_,?_,⟨by simp only; omega,by simp only; omega,hz.length ▸ hs.readIndex,
          hz.terminated hs.terminated⟩,hz,rfl,Nat.le_add_right ..,fun _ => ⟨Nat.lt_succ_self _,_,hstart,hzero⟩⟩
        rw [parseLineLoop]
        simp only [hload,hbehind,Option.bind_eq_bind,Option.bind_some,if_neg hcr,if_pos hlf,↓reduceIte,Memory.store,
          if_pos hc',List.length_set,if_pos hc]
        rfl
      · have hfalse : behindCr s = some false := by
          unfold behindCr at hbehind ⊢
          split_ifs at hbehind ⊢ with h1
          · rw [load_eq_some hc'] at hbehind ⊢
            simpa using hbehind
          · rfl
        refine hstays .lineBad (by decide) ?_
        rw [parseLineLoop]
        simp only [hload,hfalse,Option.bind_eq_bind,Option.bind_some,if_neg hcr,if_pos hlf]
        rfl
    · obtain ⟨status,t,ht,hsound,hz,hsl,hle,hok⟩ := ih (s := { s with checkedIndex := s.checkedIndex + 1 })
        ⟨by simp only; omega,hlt,hs.readIndex,hs.terminated⟩ (by simp only; omega)
      refine ⟨status,t,?_,hsound,⟨hz.readIndex,hz.length,hz.zeros⟩,hsl,by simp only at hle; omega,fun h => ?_⟩
      · rw [parseLineLoop]
        simp only [hload,Option.bind_eq_bind,Option.bind_some,if_neg hcr,if_neg hlf]
        exact ht
      · obtain ⟨hlt',hzero⟩ := hok h
        exact ⟨by simp only at hlt'; omega,hzero⟩

/-- `parse_requestline` stays in front of the first terminator. -/
theorem parseRequestline_sound {m : Memory} {temp i : ℕ} (hi : temp ≤ i) (hn : m[i]? = some nul)
    (checkStatus : CheckStatus) : ∃ code status m', parseRequestline m temp checkStatus = some (code,status,m') ∧
      m'.length = m.length ∧ ∀ {j : ℕ}, m[j]? = some nul → m'[j]? = some nul := by
  obtain ⟨hlt,_⟩ := List.getElem?_eq_some_iff.mp hn
  have hmem : nul ∈ m.drop temp := by
    refine List.mem_of_getElem? (i := i - temp) ?_
    rw [List.getElem?_drop,Nat.add_sub_cancel' hi,hn]
  obtain ⟨line,suf,hcut,hline⟩ := List.eq_append_cons_of_mem hmem
  have hm : m = m.take temp ++ line ++ nul :: suf := by
    rw [List.append_assoc,← hcut,List.take_append_drop]
  have htemp : (m.take temp).length = temp := by
    rw [List.length_take]
    omega
  obtain ⟨line',hl,hanswers⟩ := parseRequestline_answers hline
  have hanswer := hanswers (m.take temp) suf checkStatus
  rw [← hm,htemp] at hanswer
  obtain ⟨code,status,hparse⟩ : ∃ code status, parseRequestline m temp checkStatus =
      some (code,status,m.take temp ++ line' ++ nul :: suf) := by
    by_cases hr : IsRequestLine line
    · exact ⟨_,_,hanswer.1 hr⟩
    · exact ⟨_,_,hanswer.2 hr⟩
  refine ⟨code,status,_,hparse,?_,fun {j} hj => ?_⟩
  · conv_rhs => rw [hm]
    simp only [List.length_append,hl]
  · rw [hm] at hj
    rcases Nat.lt_or_ge j (m.take temp ++ line).length with hin | hout
    · rw [List.getElem?_append_left hin] at hj
      rw [List.getElem?_append_left (by rwa [List.length_append,hl,← List.length_append])]
      rcases Nat.lt_or_ge j (m.take temp).length with hpre | hmid
      · rw [List.getElem?_append_left hpre] at hj ⊢
        exact hj
      · rw [List.getElem?_append_right hmid] at hj
        exact absurd (List.mem_of_getElem? hj) hline
    · have hlen : (m.take temp ++ line').length = (m.take temp ++ line).length := by
        simp only [List.length_append,hl]
      rw [List.getElem?_append_right hout] at hj
      rw [List.getElem?_append_right (hlen ▸ hout),hlen]
      exact hj

theorem parseContentLoop_sound (fuel : ℕ) {s : Request} (hs : Sound s) (hf : s.readIndex < s.checkedIndex + fuel) :
    ∃ code t, parseContentLoop fuel s = some (code,t) ∧ Sound t ∧ Zeroed s t := by
  induction fuel generalizing s with
  | zero =>
    have := hs.checkedIndex
    omega
  | succ fuel ih =>
    obtain ⟨text,htext⟩ := cstring_of_mem hs.terminated
    obtain ⟨status,t,ht,hsound,hz,hsl,_,hok⟩ := parseLineLoop_sound _ hs rfl
    have hline : parseLine s = some (status,t) := by
      rw [parseLine,htext]
      exact ht
    rw [parseContentLoop_eq,hline]
    cases status with
    | lineOpen | lineBad => exact ⟨_,t,rfl,hsound,hz⟩
    | lineOk =>
      obtain ⟨hlt,i,hi,hzero⟩ := hok rfl
      have hnext : Sound { t with startLine := t.checkedIndex } :=
        ⟨Nat.le_refl _,hsound.checkedIndex,hsound.readIndex,hsound.terminated⟩
      have hz' : Zeroed s { t with startLine := t.checkedIndex } := ⟨hz.readIndex,hz.length,hz.zeros⟩
      simp only [Option.bind_some,afterLine]
      cases hc : t.checkStatus with
      | header =>
        simp only [parseHeaders,or_true,if_true,Option.bind_some]
        exact ⟨_,_,rfl,hc ▸ hnext,hc ▸ hz'⟩
      | requestline =>
        obtain ⟨code,status,m,hparse,hlen,hzeros⟩ := parseRequestline_sound (hsl ▸ hi) hzero .requestline
        simp only [hparse,Option.bind_eq_bind,Option.bind_some]
        let u : Request := ⟨m,t.checkedIndex,status,t.readIndex,t.checkedIndex⟩
        have hu : Zeroed s u := hz.trans ⟨rfl,hlen,hzeros⟩
        have hus : Sound u := ⟨Nat.le_refl _,hsound.checkedIndex,hlen ▸ hsound.readIndex,hu.terminated hs.terminated⟩
        by_cases hbad : code = .badRequest
        · simp only [hbad,if_true,pure,Option.bind_some]
          exact ⟨_,u,rfl,hus,hu⟩
        · simp only [if_neg hbad,pure,Option.bind_some]
          obtain ⟨code',v,hv,hvs,hvz⟩ := ih hus (by simp only [u,hz.readIndex]; omega)
          exact ⟨code',v,hv,hvs,hu.trans hvz⟩

theorem parseContent_sound {s : Request} (hs : Sound s) :
    ∃ code t, parseContent s = some (code,t) ∧ Sound t ∧ Zeroed s t := by
  obtain ⟨text,htext⟩ := cstring_of_mem hs.terminated
  obtain ⟨code,t,ht,hsound,hz⟩ := parseContentLoop_sound (s.readIndex - s.checkedIndex + 1) hs (by omega)
  refine ⟨code,t,?_,hsound,hz⟩
  rw [parseContent,htext]
  exact ht

end Safety

/-- The loop over `recv` with the request that it leaves. -/
def receiveLoop (s : Request) : List (List Char) → Option (Option Response × Request)
  | [] => some (none,s)
  | piece :: pieces =>
    if piece.isEmpty then some (none,s)
    else do
      let s ← recv s piece
      let (code,s) ← parseContent s
      match respond code with
      | none => receiveLoop s pieces
      | some response => return (some response,s)

theorem map_receiveLoop (s : Request) (pieces : List (List Char)) :
    (receiveLoop s pieces).map Prod.fst = readLoop s pieces := by
  induction pieces generalizing s with
  | nil => rfl
  | cons piece pieces ih =>
    rw [receiveLoop,readLoop]
    split_ifs
    · rfl
    cases recv s piece with
    | none => rfl
    | some t =>
      simp only [Option.bind_eq_bind,Option.bind_some]
      cases parseContent t with
      | none => rfl
      | some out =>
        obtain ⟨code,u⟩ := out
        simp only [Option.bind_some]
        cases respond code with
        | none => exact ih u
        | some response => rfl

/-- The first piece is as long as the buffer, and no string ends in it. -/
def Overfull (pieces : List (List Char)) : Prop :=
  ∃ piece rest, pieces = piece :: rest ∧ piece.length = 1024 ∧ nul ∉ piece

section Loop
variable {s : Request} {piece : List Char} {pieces : List (List Char)}

theorem recv_sound (hs : Sound s) (hl : s.buffer.length = 1024) (hroom : s.readIndex + piece.length ≤ 1024)
    (hnul : piece.length < 1024 ∧ s.buffer[1023]? = some nul ∨ nul ∈ piece) :
    ∃ t, recv s piece = some t ∧ Sound t ∧ t.buffer.length = 1024 ∧ t.readIndex = s.readIndex + piece.length ∧
      (piece.length < 1024 → t.buffer[1023]? = s.buffer[1023]?) := by
  have hcopy : s.buffer.copy 0 piece = some (piece ++ s.buffer.drop piece.length) := by
    rw [Memory.copy,if_pos (by omega)]
    simp
  have hlen : (piece ++ s.buffer.drop piece.length).length = 1024 := by
    simp only [List.length_append,List.length_drop]
    omega
  have hbehind : piece.length < 1024 → (piece ++ s.buffer.drop piece.length)[1023]? = s.buffer[1023]? := by
    intro hlt
    rw [List.getElem?_append_right (by omega),List.getElem?_drop,Nat.add_sub_cancel' (by omega)]
  have hchecked := hs.checkedIndex
  refine ⟨{ s with buffer := piece ++ s.buffer.drop piece.length, readIndex := s.readIndex + piece.length },?_,
    ⟨hs.startLine,by simp only; omega,by simp only [hlen]; omega,?_⟩,hlen,rfl,hbehind⟩
  · rw [recv,hcopy]
    rfl
  · rcases hnul with ⟨hlt,hzero⟩ | hmem
    · exact List.mem_of_getElem? ((hbehind hlt).trans hzero)
    · exact List.mem_append_left _ hmem

/-- As long as no piece reaches the end of the buffer, its last byte is a terminator. -/
theorem receiveLoop_sound (hs : Sound s) (hl : s.buffer.length = 1024) (hzero : s.buffer[1023]? = some nul)
    (hroom : s.readIndex + pieces.flatten.length ≤ 1024) (hshort : ∀ piece ∈ pieces, piece.length < 1024) :
    ∃ r t, receiveLoop s pieces = some (r,t) ∧ t.buffer.length = 1024 := by
  induction pieces generalizing s with
  | nil => exact ⟨none,s,rfl,hl⟩
  | cons piece pieces ih =>
    obtain ⟨hlt,hshort⟩ := List.forall_mem_cons.mp hshort
    rw [List.flatten_cons,List.length_append] at hroom
    rw [receiveLoop]
    split_ifs
    · exact ⟨none,s,rfl,hl⟩
    obtain ⟨t,ht,htsound,htl,htread,htzero⟩ := @recv_sound s piece hs hl (by omega) (.inl ⟨hlt,hzero⟩)
    obtain ⟨code,u,hu,husound,hz⟩ := parseContent_sound htsound
    simp only [ht,hu,Option.bind_eq_bind,Option.bind_some]
    cases respond code with
    | none =>
      exact ih husound (hz.length.trans htl) (hz.zeros ((htzero hlt).trans hzero))
        (by rw [hz.readIndex,htread]; omega) hshort
    | some response => exact ⟨some response,u,rfl,hz.length.trans htl⟩

theorem untilNul_eq_none {cs : List Char} (h : nul ∉ cs) : untilNul cs = none := by
  induction cs with
  | nil => rfl
  | cons c cs ih =>
    obtain ⟨hc,hcs⟩ := not_or.mp (mt List.mem_cons.mpr h)
    rw [untilNul,if_neg (Ne.symm hc),ih hcs]
    rfl

theorem sound_start : Sound (start 1024) :=
  ⟨Nat.le_refl _,Nat.le_refl _,Nat.zero_le _,List.mem_replicate.mpr ⟨by decide,rfl⟩⟩

theorem length_start : (start 1024).buffer.length = 1024 := List.length_replicate

theorem last_start : (start 1024).buffer[1023]? = some nul := List.getElem?_replicate_of_lt (by decide)

theorem receiveLoop_overfull (h : Overfull pieces) : receiveLoop (start 1024) pieces = none := by
  obtain ⟨piece,rest,rfl,hl,hn⟩ := h
  have hcopy : (start 1024).buffer.copy 0 piece = some piece := by
    rw [Memory.copy,length_start,Nat.zero_add,hl,if_pos (Nat.le_refl _),List.take_zero,List.nil_append,
      List.drop_of_length_le (Nat.le_of_eq length_start),List.append_nil]
  have hstring : Memory.cstring piece 0 = none := untilNul_eq_none hn
  have hne : piece.isEmpty = false := by
    cases piece with
    | nil => cases hl
    | cons => rfl
  rw [receiveLoop,hne]
  simp only [Bool.false_eq_true,if_false,recv,hcopy,Option.map_some,Option.bind_eq_bind,Option.bind_some]
  rw [parseContent]
  simp only [hstring]
  rfl

/-- What `recv` brings, it brings within the bound that it is given. -/
theorem receiveLoop_cases (hroom : pieces.flatten.length ≤ 1024) :
    Overfull pieces ∧ receiveLoop (start 1024) pieces = none ∨
      ¬ Overfull pieces ∧ ∃ r t, receiveLoop (start 1024) pieces = some (r,t) ∧ t.buffer.length = 1024 := by
  by_cases ho : Overfull pieces
  · exact .inl ⟨ho,receiveLoop_overfull ho⟩
  refine .inr ⟨ho,?_⟩
  have hread : (start 1024).readIndex = 0 := rfl
  cases pieces with
  | nil => exact ⟨none,_,rfl,length_start⟩
  | cons piece pieces =>
    rw [List.flatten_cons,List.length_append] at hroom
    by_cases hfull : piece.length = 1024
    · -- nothing else fits, and there is a terminator in the piece
      have hn : nul ∈ piece := by
        by_contra hn
        exact ho ⟨piece,pieces,rfl,hfull,hn⟩
      have hne : piece.isEmpty = false := by
        cases piece with
        | nil => cases hfull
        | cons => rfl
      obtain ⟨t,ht,htsound,htl,_,_⟩ := @recv_sound _ piece sound_start length_start (by omega) (.inr hn)
      obtain ⟨code,u,hu,_,hz⟩ := parseContent_sound htsound
      rw [receiveLoop,hne]
      simp only [Bool.false_eq_true,if_false,ht,hu,Option.bind_eq_bind,Option.bind_some]
      cases respond code with
      | some response => exact ⟨_,u,rfl,hz.length.trans htl⟩
      | none =>
        cases pieces with
        | nil => exact ⟨none,u,rfl,hz.length.trans htl⟩
        | cons next pieces =>
          obtain rfl : next = [] := by
            rw [List.flatten_cons,List.length_append] at hroom
            exact List.length_eq_zero_iff.mp (by omega)
          exact ⟨none,u,rfl,hz.length.trans htl⟩
    · by_cases hempty : piece = []
      · subst hempty
        exact ⟨none,_,rfl,length_start⟩
      · have hpos := List.length_pos_iff.mpr hempty
        refine receiveLoop_sound sound_start length_start last_start ?_ fun q hq => ?_
        · rw [hread,List.flatten_cons,List.length_append]
          omega
        rcases List.mem_cons.mp hq with rfl | hq
        · omega
        · have hle := (List.sublist_flatten_of_mem hq).length_le
          omega

end Loop

/-- `memset(m, '\0', n)` -/
def memset (m : Memory) (n : ℕ) : Option Memory :=
  if n ≤ m.length then some (List.replicate n nul ++ m.drop n) else none

theorem memset_whole {m : Memory} (h : m.length = 1024) : memset m 1024 = some (start 1024).buffer := by
  rw [memset,if_pos (Nat.le_of_eq h.symm),List.drop_of_length_le (Nat.le_of_eq h),List.append_nil]
  rfl

def rtResponses : Response → Text
  | .success => ("HTTP/1.1 200 OK\r\nContent-Type: text/html\r\n\r\n<!DOCTYPE html>\n<html lang=\"en\">\n<head>\n" ++
      "    <meta charset=\"UTF-8\" />\n    <title>Document</title>\n</head>\n<body>\n" ++
      "    <p>this is http response</p>\n</body>\n</html>").toList
  | .error => "Something wrong\n".toList

/-- The number of bytes that is sent is the size of a pointer. -/
def sent (response : Response) : Text := (rtResponses response).take 8

/-- An entry of `events`: what `accept` returns, or what the calls of `recv` bring until
the loop ends or the client closes. -/
inductive EpollEvent where
  | listener (connfd : Option ℕ)
  | readable (sockfd : ℕ) (received : List (List Char))
  | other (sockfd : ℕ)

/-- `buf`, the connections that are watched, and what was sent to those that are closed. -/
structure Server where
  buf : Memory
  connections : List ℕ
  answered : List (ℕ × Text)

namespace Server

/-- What the buffer holds before the first event does not matter. -/
def start (buf : Memory) : Server := ⟨buf,[],[]⟩

/-- The body of the loop over `events`. -/
def handle (s : Server) : EpollEvent → Option Server
  | .listener none => some s
  | .listener (some connfd) => some { s with connections := connfd :: s.connections }
  | .readable sockfd received => do
    let buf ← memset s.buf 1024
    let (response,q) ← receiveLoop ⟨buf,0,.requestline,0,0⟩ received
    return ⟨q.buffer,s.connections.erase sockfd,s.answered ++ [(sockfd,(response.map sent).getD [])]⟩
  | .other _ => some s

/-- What the kernel reports: new descriptors, watched ones, and no more bytes than asked for. -/
def Possible (s : Server) : EpollEvent → Prop
  | .listener none => True
  | .listener (some connfd) => connfd ∉ s.connections
  | .readable sockfd received => sockfd ∈ s.connections ∧ received.flatten.length ≤ 1024
  | .other sockfd => sockfd ∈ s.connections

def accepted : EpollEvent → Option ℕ
  | .listener connfd => connfd
  | .readable _ _ | .other _ => none

/-- The answer to a connection is that of a read loop of its own. -/
def reply : EpollEvent → Option (ℕ × Text)
  | .readable sockfd received => (readLoop (Http.start 1024) received).map fun r => (sockfd,(r.map sent).getD [])
  | .listener _ | .other _ => none

section Step
variable {s t : Server} {e : EpollEvent}

theorem handle_readable (hl : s.buf.length = 1024) (sockfd : ℕ) (received : List (List Char)) :
    s.handle (.readable sockfd received) = (receiveLoop (Http.start 1024) received).map fun out =>
      ⟨out.2.buffer,s.connections.erase sockfd,s.answered ++ [(sockfd,(out.1.map sent).getD [])]⟩ := by
  rw [handle,memset_whole hl]
  change (receiveLoop (Http.start 1024) received).bind _ = _
  cases receiveLoop (Http.start 1024) received <;> rfl

theorem handle_eq_none_iff (hl : s.buf.length = 1024) (hp : s.Possible e) :
    s.handle e = none ↔ ∃ sockfd received, e = .readable sockfd received ∧ Overfull received := by
  match e with
  | .listener none | .listener (some _) | .other _ => simp [handle]
  | .readable sockfd received =>
    rw [handle_readable hl,Option.map_eq_none_iff]
    rcases receiveLoop_cases hp.2 with ⟨ho,hnone⟩ | ⟨ho,r,t,hsome,_⟩
    · simp [hnone,ho]
    · simp [hsome,ho]

/-- Everything an event can do. -/
theorem handle_spec (hl : s.buf.length = 1024) (hp : s.Possible e) (h : s.handle e = some t) :
    t.buf.length = 1024 ∧ t.answered = s.answered ++ (reply e).toList ∧ (s.connections.Nodup → t.connections.Nodup) ∧
      ∀ fd, (accepted e).toList.count fd + s.connections.count fd =
        ((reply e).map Prod.fst).toList.count fd + t.connections.count fd := by
  match e with
  | .listener none | .other _ =>
    obtain rfl := Option.some.inj h
    exact ⟨hl,(List.append_nil _).symm,id,fun _ => rfl⟩
  | .listener (some connfd) =>
    obtain rfl := Option.some.inj h
    refine ⟨hl,(List.append_nil _).symm,fun hn => List.nodup_cons.mpr ⟨hp,hn⟩,fun fd => ?_⟩
    simp only [accepted,reply,Option.toList_some,Option.toList_none,Option.map_none,List.count_nil,List.count_cons]
    omega
  | .readable sockfd received =>
    rw [handle_readable hl] at h
    rcases receiveLoop_cases hp.2 with ⟨_,hnone⟩ | ⟨_,r,q,hsome,hq⟩
    · simp [hnone] at h
    · rw [hsome] at h
      obtain rfl := Option.some.inj h
      have hreply : reply (.readable sockfd received) = some (sockfd,(r.map sent).getD []) := by
        rw [reply,← map_receiveLoop,hsome]
        rfl
      refine ⟨hq,by rw [hreply]; rfl,fun hn => hn.erase sockfd,fun fd => ?_⟩
      rw [hreply]
      simp only [accepted,Option.toList_none,Option.map_some,Option.toList_some,List.count_nil,List.count_erase,
        List.count_singleton]
      have hone := List.count_pos_iff.mpr hp.1
      by_cases hfd : sockfd = fd
      · subst hfd
        simp
        omega
      · simp [hfd]

end Step

theorem run_spec {s t : Server} {events : List EpollEvent} (hl : s.buf.length = 1024)
    (h : Runs handle Possible s events t) :
    t.buf.length = 1024 ∧ t.answered = s.answered ++ events.filterMap reply ∧
      (s.connections.Nodup → t.connections.Nodup) ∧
      ∀ fd, (events.filterMap accepted).count fd + s.connections.count fd =
        ((events.filterMap reply).map Prod.fst).count fd + t.connections.count fd := by
  induction h with
  | refl s => exact ⟨hl,(List.append_nil _).symm,id,fun _ => rfl⟩
  | @step s u t e events hp hn _ ih =>
    obtain ⟨hul,hanswered,hnodup,hcount⟩ := handle_spec hl hp hn
    obtain ⟨htl,hanswered',hnodup',hcount'⟩ := ih hul
    have hcons {β : Type} (f : EpollEvent → Option β) :
        (e :: events).filterMap f = (f e).toList ++ events.filterMap f := by
      rw [List.filterMap_cons]
      cases f e <;> rfl
    refine ⟨htl,?_,fun hn => hnodup' (hnodup hn),fun fd => ?_⟩
    · rw [hanswered',hanswered,hcons,List.append_assoc]
    · have hmap : (reply e).toList.map Prod.fst = ((reply e).map Prod.fst).toList := by cases reply e <;> rfl
      rw [hcons,hcons,List.map_append,List.count_append,List.count_append,hmap]
      have h1 := hcount fd
      have h2 := hcount' fd
      omega

/-- Every connection is answered and closed once, if bytes come in, with the answer of a
read loop on nothing but these. The server fails on a first piece that fills the buffer
without a terminator, and on nothing else. -/
theorem served {buf : Memory} (hb : buf.length = 1024) {events : List EpollEvent} {s : Server}
    (h : Runs handle Possible (start buf) events s) :
    s.answered = events.filterMap reply ∧ s.connections.Nodup ∧
      (∀ fd, (events.filterMap accepted).count fd = (s.answered.map Prod.fst).count fd + s.connections.count fd) ∧
      ∀ e, s.Possible e →
        (s.handle e = none ↔ ∃ sockfd received, e = .readable sockfd received ∧ Overfull received) := by
  obtain ⟨hl,hanswered,hnodup,hcount⟩ := run_spec (s := start buf) hb h
  have hanswered : s.answered = events.filterMap reply := hanswered
  refine ⟨hanswered,hnodup List.nodup_nil,fun fd => ?_,fun e hp => handle_eq_none_iff hl hp⟩
  rw [hanswered]
  simpa [start] using hcount fd

/-- The bytes that have come in on a connection. -/
def input : EpollEvent → Option (ℕ × List Char)
  | .readable sockfd received => some (sockfd,received.flatten)
  | .listener _ | .other _ => none

theorem readLoop_one {bytes : List Char} (hne : bytes ≠ []) (hl : bytes.length < 1024) : ∃ r,
    readLoop (Http.start 1024) [bytes] = some r ∧ (r = some .success ↔ IsRequest bytes) ∧
      (r = some .error ↔ Malformed bytes) ∧ (r = none ↔ Unfinished bytes) := by
  have hn : nul ∈ List.replicate (1024 - bytes.length) nul := nul_mem_zeros (by omega)
  obtain ⟨code,t,hparse,hthree,hget,hno,hbad⟩ := @parseContent_verdict bytes _ hn
  have hempty : bytes.isEmpty = false := by simpa using hne
  have hloop : readLoop (Http.start 1024) [bytes] = some (respond code) := by
    rw [readLoop,hempty,start_eq,recv_eq [] (Nat.le_of_lt hl),overwritten_nil]
    simp only [Bool.false_eq_true,if_false,Option.bind_eq_bind,Option.bind_some,first,hparse]
    cases respond code <;> rfl
  refine ⟨respond code,hloop,?_⟩
  rw [← hget,← hno,← hbad]
  rcases hthree with rfl | rfl | rfl <;> simp [respond]

theorem sent_success : sent .success = "HTTP/1.1".toList := by decide +kernel

theorem sent_error : sent .error = "Somethin".toList := by decide +kernel

theorem sent_verdict (r : Option Response) : ((r.map sent).getD [] = "HTTP/1.1".toList ↔ r = some .success) ∧
    ((r.map sent).getD [] = "Somethin".toList ↔ r = some .error) ∧ ((r.map sent).getD [] = [] ↔ r = none) := by
  rcases r with _ | (_ | _)
  · decide
  · simp only [Option.map_some,Option.getD_some,sent_success]
    decide
  · simp only [Option.map_some,Option.getD_some,sent_error]
    decide

/-- What a connection with these bytes is to be sent. -/
structure Answered (bytes : List Char) (text : Text) : Prop where
  success : text = "HTTP/1.1".toList ↔ IsRequest bytes
  error : text = "Somethin".toList ↔ Malformed bytes
  nothing : text = [] ↔ Unfinished bytes

theorem answered_replies {events : List EpollEvent}
    (hone : ∀ sockfd received, .readable sockfd received ∈ events →
      ∃ bytes, received = [bytes] ∧ bytes ≠ [] ∧ bytes.length < 1024) :
    List.Forall₂ (fun i a => i.1 = a.1 ∧ Answered i.2 a.2) (events.filterMap input) (events.filterMap reply) := by
  induction events with
  | nil => exact .nil
  | cons e events ih =>
    have htail := ih fun sockfd received he => hone sockfd received (List.mem_cons_of_mem e he)
    match e with
    | .listener _ | .other _ => exact htail
    | .readable sockfd received =>
      obtain ⟨bytes,rfl,hne,hlt⟩ := hone sockfd received List.mem_cons_self
      obtain ⟨r,hr,hget,hbad,hno⟩ := readLoop_one hne hlt
      obtain ⟨hsuccess,herror,hnothing⟩ := sent_verdict r
      have hreply : reply (.readable sockfd [bytes]) = some (sockfd,(r.map sent).getD []) := by
        rw [reply,hr]
        rfl
      rw [List.filterMap_cons,List.filterMap_cons,hreply]
      refine .cons ⟨rfl,?_⟩ htail
      rw [List.flatten_singleton]
      exact ⟨hsuccess.trans hget,herror.trans hbad,hnothing.trans hno⟩

/-- If every connection sends its bytes in one piece, it is sent the beginning of the page
exactly if a request begins them. -/
theorem verdicts {buf : Memory} (hb : buf.length = 1024) {events : List EpollEvent} {s : Server}
    (h : Runs handle Possible (start buf) events s)
    (hone : ∀ sockfd received, .readable sockfd received ∈ events →
      ∃ bytes, received = [bytes] ∧ bytes ≠ [] ∧ bytes.length < 1024) :
    List.Forall₂ (fun i a => i.1 = a.1 ∧ Answered i.2 a.2) (events.filterMap input) s.answered ∧
      ∀ e, s.Possible e → (∀ sockfd received, e = .readable sockfd received → ∃ bytes, received = [bytes] ∧
        bytes.length < 1024) → (s.handle e).isSome = true := by
  obtain ⟨hl,hanswered,_⟩ := run_spec (s := start buf) hb h
  have hanswered : s.answered = events.filterMap reply := hanswered
  refine ⟨hanswered ▸ answered_replies hone,fun e hp he => ?_⟩
  rw [Option.isSome_iff_ne_none,ne_eq,handle_eq_none_iff hl hp]
  rintro ⟨sockfd,received,rfl,piece,rest,hpieces,hfull,_⟩
  obtain ⟨bytes,rfl,hlt⟩ := he sockfd received rfl
  obtain ⟨rfl,_⟩ := List.cons.inj hpieces
  omega

instance (s : Server) (e : EpollEvent) : Decidable (s.Possible e) :=
  match e with
  | .listener none => inferInstanceAs (Decidable True)
  | .listener (some connfd) => inferInstanceAs (Decidable (connfd ∉ s.connections))
  | .readable sockfd received => inferInstanceAs (Decidable (sockfd ∈ s.connections ∧ received.flatten.length ≤ 1024))
  | .other sockfd => inferInstanceAs (Decidable (sockfd ∈ s.connections))

/-- Two connections; the one that was made first closes before its request is complete. -/
def twoConnections : List EpollEvent :=
  [.listener (some 6),.listener (some 7),
    .readable 7 ["GET / HTTP/1.1".toList ++ [cr,lf,cr,lf]],.readable 6 ["GET".toList]]

theorem twoConnections_run : (Runs.exec handle Possible (start (List.replicate 1024 'x')) twoConnections).isSome =
    true := by decide +kernel

theorem twoConnections_served : ∃ s, Runs handle Possible (start (List.replicate 1024 'x')) twoConnections s ∧
    s.connections.Nodup ∧ s.answered = twoConnections.filterMap reply := by
  have h := Runs.of_exec _ _ _ _ twoConnections_run
  obtain ⟨hanswered,hnodup,_⟩ := served List.length_replicate h
  exact ⟨_,h,hnodup,hanswered⟩

theorem twoConnections_verdicts : ∃ s, Runs handle Possible (start (List.replicate 1024 'x')) twoConnections s ∧
    List.Forall₂ (fun i a => i.1 = a.1 ∧ Answered i.2 a.2) (twoConnections.filterMap input) s.answered := by
  have h := Runs.of_exec _ _ _ _ twoConnections_run
  refine ⟨_,h,(verdicts List.length_replicate h fun sockfd received he => ?_).1⟩
  simp only [twoConnections,List.mem_cons,reduceCtorEq,EpollEvent.readable.injEq,List.not_mem_nil,or_false,
    false_or] at he
  rcases he with ⟨_,rfl⟩ | ⟨_,rfl⟩ <;> exact ⟨_,rfl,by simp,by decide⟩

end Server

end Zcs.Http
