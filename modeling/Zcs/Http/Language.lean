import Zcs.Http.Chunks

/-! # What the parser accepts

A request is a request line and one more line, whatever stands in it and behind it. Once it
has its terminator a line is read as a C string, up to its first NUL. The three answers of
the parser are told apart by the bytes alone, however they come in.
-/
namespace Zcs.Http

/-- The bytes begin with a line and its end. -/
def Starts (l line more : List Char) : Prop := Plain line ∧ l = line ++ cr :: lf :: more

/-- A line that may still be going on. -/
def Open (l : List Char) : Prop := ∃ body tail, Plain body ∧ (tail = [] ∨ tail = [cr]) ∧ l = body ++ tail

/-- A line that cannot end as it should. -/
def Broken (l : List Char) : Prop := ∃ body tail, Plain body ∧ Spoilt tail ∧ l = body ++ tail

def IsRequest (bytes : List Char) : Prop :=
  ∃ line more header rest, Starts bytes line more ∧ IsRequestLine (cStr line) ∧ Starts more header rest

/-- Bytes on which nothing is decided. -/
def Unfinished (bytes : List Char) : Prop :=
  Open bytes ∨ ∃ line more, Starts bytes line more ∧ IsRequestLine (cStr line) ∧ Open more

/-- Bytes that no request begins with. -/
def Malformed (bytes : List Char) : Prop :=
  Broken bytes ∨ ∃ line more, Starts bytes line more ∧ (¬ IsRequestLine (cStr line) ∨ Broken more)

theorem exists_line (l : List Char) : Open l ∨ Broken l ∨ ∃ line more, Starts l line more := by
  obtain ⟨body,tail,rfl,hb,ht⟩ := exists_cut (fun x => x ≠ cr ∧ x ≠ lf) l
  cases tail with
  | nil => exact .inl ⟨body,[],hb,.inl rfl,rfl⟩
  | cons x tail =>
    have hx : x = cr ∨ x = lf := by
      by_contra hx
      exact ht x rfl (not_or.mp hx)
    rcases hx with rfl | rfl
    · cases tail with
      | nil => exact .inl ⟨body,[cr],hb,.inr rfl,rfl⟩
      | cons d tail =>
        by_cases hd : d = lf
        · subst hd
          exact .inr (.inr ⟨body,tail,hb,rfl⟩)
        · exact .inr (.inl ⟨body,_,hb,⟨cr,d :: tail,rfl,.inr ⟨rfl,d,tail,rfl,hd⟩⟩,rfl⟩)
    · exact .inr (.inl ⟨body,_,hb,⟨lf,tail,rfl,.inl rfl⟩,rfl⟩)

/-- There is no fourth case. -/
theorem exists_verdict (bytes : List Char) : IsRequest bytes ∨ Unfinished bytes ∨ Malformed bytes := by
  rcases exists_line bytes with ho | hb | ⟨line,more,hs⟩
  · exact .inr (.inl (.inl ho))
  · exact .inr (.inr (.inl hb))
  · by_cases hr : IsRequestLine (cStr line)
    · rcases exists_line more with ho | hb | ⟨header,rest,hh⟩
      · exact .inr (.inl (.inr ⟨line,more,hs,hr,ho⟩))
      · exact .inr (.inr (.inr ⟨line,more,hs,.inr hb⟩))
      · exact .inl ⟨line,more,header,rest,hs,hr,hh⟩
    · exact .inr (.inr (.inr ⟨line,more,hs,.inl hr⟩))

section Loop
variable {head l line more rest : List Char} {checkStatus : CheckStatus} {startLine : ℕ} (hn : nul ∈ rest) (n : ℕ)
include hn

theorem loop_open (hl : Open l) : ∃ t, parseContentLoop (n + 1)
    (holding (head ++ l) rest ⟨head.length,checkStatus,startLine⟩) = some (.noRequest,t) := by
  obtain ⟨body,tail,hb,ht,rfl⟩ := hl
  rw [← List.append_assoc,parseContentLoop,parseLine_eq head tail checkStatus startLine hn hb,parseLineLoop_open ht]
  exact ⟨_,rfl⟩

theorem loop_broken (hl : Broken l) (hg : head.getLast? ≠ some cr) : ∃ t, parseContentLoop (n + 1)
    (holding (head ++ l) rest ⟨head.length,checkStatus,startLine⟩) = some (.badRequest,t) := by
  obtain ⟨body,tail,hb,ht,rfl⟩ := hl
  have hg : (head ++ body).getLast? ≠ some cr := by
    rw [List.getLast?_append]
    cases hlast : body.getLast? with
    | none => simpa using hg
    | some x => simpa using (hb x (List.mem_of_getLast? hlast)).1
  rw [← List.append_assoc,parseContentLoop,parseLine_eq head tail checkStatus startLine hn hb,parseLineLoop_bad ht hg]
  exact ⟨_,rfl⟩

/-- Any line behind the request line is the end of the parse. -/
theorem loop_header (hl : Starts l line more) : ∃ t, parseContentLoop (n + 1)
    (holding (head ++ l) rest ⟨head.length,.header,startLine⟩) = some (.getRequest,t) := by
  obtain ⟨hb,rfl⟩ := hl
  rw [← List.append_assoc,parseContentLoop,parseLine_ok hn hb]
  exact ⟨_,rfl⟩

/-- The request line, if it is one, is rewritten in its place. -/
theorem loop_line (hl : Starts l line more) :
    (IsRequestLine (cStr line) → ∃ head : List Char, head.length = line.length + 2 ∧ head.getLast? ≠ some cr ∧
      parseContentLoop (n + 1) (holding l rest ⟨0,.requestline,0⟩) =
        parseContentLoop n (holding (head ++ more) rest ⟨head.length,.header,head.length⟩)) ∧
    (¬ IsRequestLine (cStr line) → ∃ t,
      parseContentLoop (n + 1) (holding l rest ⟨0,.requestline,0⟩) = some (.badRequest,t)) := by
  obtain ⟨hb,rfl⟩ := hl
  obtain ⟨y,hcut⟩ := cStr_cut line
  obtain ⟨w',hlen,hanswers⟩ := parseRequestline_answers (not_mem_cStr line)
  have hcut : [] ++ line ++ [nul] = [] ++ cStr line ++ nul :: y := by simpa using hcut
  have hlength := length_rewritten hcut hlen
  have hround {code : HttpCode} {status : CheckStatus} := @parseContentLoop_requestline [] line 0 [] _ _ _ more
    hcut hlen rfl hb [] _ hn n code status
  simp only [List.nil_append,List.append_nil,List.length_nil] at hround hlength hanswers
  refine ⟨fun hr => ⟨w' ++ nul :: y ++ [nul],?_,?_,?_⟩,fun hr => ?_⟩
  · rw [List.length_append,hlength,List.length_singleton]
  · rw [List.getLast?_concat]
    decide
  · have hplace : (w' ++ nul :: y ++ [nul]).length = line.length + 2 := by
      rw [List.length_append,hlength,List.length_singleton]
    rw [hround fun suf => (hanswers [] suf _).1 hr,hplace]
    simp
  · rw [hround fun suf => (hanswers [] suf _).2 hr]
    exact ⟨_,rfl⟩

end Loop

section Verdict
variable {bytes rest : List Char} (hn : nul ∈ rest)
include hn

theorem parseContent_loop (checkStatus : CheckStatus) : parseContent (holding bytes rest ⟨0,checkStatus,0⟩) =
    parseContentLoop (bytes.length + 1) (holding bytes rest ⟨0,checkStatus,0⟩) := by
  obtain ⟨s,hs⟩ := cstring_of_mem (m := bytes ++ rest) (List.mem_append_right _ hn)
  rw [parseContent]
  simp only [holding,hs,Option.bind_eq_bind,Option.bind_some,Nat.sub_zero]

/-- What is decided on behind a request line is decided by the next line. -/
theorem parseContent_behind {line more : List Char} (hl : Starts bytes line more) (hr : IsRequestLine (cStr line))
    {code : HttpCode} (h : ∀ (head : List Char) (startLine n : ℕ), head.getLast? ≠ some cr → ∃ t,
      parseContentLoop (n + 1) (holding (head ++ more) rest ⟨head.length,.header,startLine⟩) = some (code,t)) :
    ∃ t, parseContent (holding bytes rest ⟨0,.requestline,0⟩) = some (code,t) := by
  obtain ⟨head,_,hlast,hloop⟩ := (loop_line hn bytes.length hl).1 hr
  obtain ⟨n,hfuel⟩ : ∃ n, bytes.length = n + 1 := by
    rw [hl.2]
    exact ⟨_,by rw [List.length_append,List.length_cons]; rfl⟩
  obtain ⟨t,ht⟩ := h head head.length n hlast
  rw [parseContent_loop hn,hloop,hfuel]
  exact ⟨t,ht⟩

theorem parseContent_isRequest (h : IsRequest bytes) :
    ∃ t, parseContent (holding bytes rest ⟨0,.requestline,0⟩) = some (.getRequest,t) := by
  obtain ⟨line,more,header,_,hl,hr,hh⟩ := h
  exact parseContent_behind hn hl hr fun head startLine n _ => loop_header hn n hh

theorem parseContent_unfinished (h : Unfinished bytes) :
    ∃ t, parseContent (holding bytes rest ⟨0,.requestline,0⟩) = some (.noRequest,t) := by
  rcases h with ho | ⟨line,more,hl,hr,ho⟩
  · rw [parseContent_loop hn]
    exact @loop_open [] bytes _ _ 0 hn bytes.length ho
  · exact parseContent_behind hn hl hr fun head startLine n _ => loop_open hn n ho

theorem parseContent_malformed (h : Malformed bytes) :
    ∃ t, parseContent (holding bytes rest ⟨0,.requestline,0⟩) = some (.badRequest,t) := by
  rcases h with hb | ⟨line,more,hl,hcase⟩
  · rw [parseContent_loop hn]
    exact @loop_broken [] bytes _ _ 0 hn bytes.length hb (by simp)
  · by_cases hr : IsRequestLine (cStr line)
    · have hb : Broken more := hcase.resolve_left (not_not_intro hr)
      exact parseContent_behind hn hl hr fun head startLine n hlast => loop_broken hn n hb hlast
    · rw [parseContent_loop hn]
      exact (loop_line hn bytes.length hl).2 hr

/-- One call on all the bytes tells the three cases apart, so that they exclude each other. -/
theorem parseContent_verdict : ∃ code t, parseContent (holding bytes rest ⟨0,.requestline,0⟩) = some (code,t) ∧
    (code = .getRequest ∨ code = .noRequest ∨ code = .badRequest) ∧ (code = .getRequest ↔ IsRequest bytes) ∧
    (code = .noRequest ↔ Unfinished bytes) ∧ (code = .badRequest ↔ Malformed bytes) := by
  have hcases := exists_verdict bytes
  obtain ⟨code,t,ht⟩ : ∃ code t, parseContent (holding bytes rest ⟨0,.requestline,0⟩) = some (code,t) := by
    rcases hcases with h | h | h
    · exact ⟨_,parseContent_isRequest hn h⟩
    · exact ⟨_,parseContent_unfinished hn h⟩
    · exact ⟨_,parseContent_malformed hn h⟩
  have hcode {code' : HttpCode} (h : ∃ t, parseContent (holding bytes rest ⟨0,.requestline,0⟩) = some (code',t)) :
      code = code' := by
    obtain ⟨t',ht'⟩ := h
    rw [ht'] at ht
    exact (congrArg Prod.fst (Option.some.inj ht)).symm
  have hget (h : IsRequest bytes) := hcode (parseContent_isRequest hn h)
  have hno (h : Unfinished bytes) := hcode (parseContent_unfinished hn h)
  have hbad (h : Malformed bytes) := hcode (parseContent_malformed hn h)
  have hthree := hcases.imp hget (Or.imp hno hbad)
  refine ⟨code,t,ht,hthree,⟨fun hc => ?_,hget⟩,⟨fun hc => ?_,hno⟩,⟨fun hc => ?_,hbad⟩⟩
  · rcases hcases with h | h | h
    · exact h
    · cases hc.symm.trans (hno h)
    · cases hc.symm.trans (hbad h)
  · rcases hcases with h | h | h
    · cases hc.symm.trans (hget h)
    · exact h
    · cases hc.symm.trans (hbad h)
  · rcases hcases with h | h | h
    · cases hc.symm.trans (hget h)
    · cases hc.symm.trans (hno h)
    · exact h

end Verdict

/-- However the bytes come in, the last answer is GET_REQUEST exactly if a request begins
them, and it is one of three. -/
theorem parseChunks_language (size : ℕ) (chunks : List (List Char)) (h : chunks.flatten.length < size) :
    ∃ code t, parseChunks (start size) chunks = some (code,t) ∧
      (code = .getRequest ∨ code = .noRequest ∨ code = .badRequest) ∧
      (code = .getRequest ↔ IsRequest chunks.flatten) ∧ (code = .noRequest ↔ Unfinished chunks.flatten) ∧
      (code = .badRequest ↔ Malformed chunks.flatten) := by
  have hready : Ready [] ⟨0,.requestline,0⟩ := ⟨Nat.le_refl _,Nat.le_refl _,by simp⟩
  have hn : nul ∈ List.replicate (size - chunks.flatten.length) nul := List.mem_replicate.mpr ⟨by omega,rfl⟩
  obtain ⟨code,t,t',hchunks,hwhole,_⟩ := parseChunks_eq chunks hready (.inl rfl) h
  obtain ⟨code',t'',hparse,hverdict⟩ := @parseContent_verdict chunks.flatten _ hn
  rw [receive_eq [] (Nat.le_of_lt h) _,Option.bind_some,List.nil_append,hparse] at hwhole
  obtain rfl : code' = code := congrArg Prod.fst (Option.some.inj hwhole)
  exact ⟨code',t,hchunks,hverdict⟩

/-- A line feed on its own ends every parse. -/
theorem parseChunks_bareFeed : ∃ code t,
    parseChunks (start 64) ["GET / HTTP/1.1".toList,[lf]] = some (code,t) ∧ code = .badRequest := by
  obtain ⟨code,t,hchunks,_,_,_,hbad⟩ := parseChunks_language 64 ["GET / HTTP/1.1".toList,[lf]] (by decide)
  refine ⟨code,t,hchunks,hbad.mpr (.inl ⟨"GET / HTTP/1.1".toList,[lf],?_,⟨lf,[],rfl,.inl rfl⟩,rfl⟩)⟩
  exact List.all_iff_forall_prop.mp (by decide)

end Zcs.Http
