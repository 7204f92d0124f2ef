import Zcs.Http.Chunks

/-! # The read loop of the server

The loop counts the bytes of all pieces in `read_index`, but it hands `recv` the start of
its buffer for every piece. From the second piece on, what the parser finds behind
`checked_index` is not what has been sent there.
-/
namespace Zcs.Http

/-- What the loop sends back. -/
inductive Response where
  | success
  | error
  deriving DecidableEq

def respond : HttpCode → Option Response
  | .noRequest => none
  | .getRequest => some .success
  | .badRequest | .forbiddenRequest | .internalError | .closedConnection => some .error

/-- `recv(sockfd, buf, 1024 - read_index, 0)` and `read_index += data_read`. -/
def recv (s : Request) (piece : List Char) : Option Request :=
  (s.buffer.copy 0 piece).map fun buffer =>
    { s with buffer := buffer, readIndex := s.readIndex + piece.length }

/-- The loop with what the calls of `recv` bring until the client closes, and the response
that it sends if there is one. A call that brings nothing ends it. -/
def readLoop (s : Request) : List (List Char) → Option (Option Response)
  | [] => some none
  | piece :: pieces =>
    if piece.isEmpty then some none
    else do
      let s ← recv s piece
      let (code,s) ← parseContent s
      match respond code with
      | none => readLoop s pieces
      | some response => return some response

/-- What `parse_content` makes of a request that has come at once. -/
def atOnce (request : List Char) : Option (Option Response) :=
  ((receive (start 1024) request).bind parseContent).map fun out => respond out.1

def first : Place := ⟨0,.requestline,0⟩

/-- The bytes in front of `read_index` when a piece has been put at the start. -/
def overwritten (front piece : List Char) : List Char :=
  piece ++ (front ++ List.replicate piece.length nul).drop piece.length

theorem length_overwritten (front piece : List Char) :
    (overwritten front piece).length = front.length + piece.length := by
  simp only [overwritten,List.length_append,List.length_drop,List.length_replicate]
  omega

@[simp] theorem overwritten_nil (piece : List Char) : overwritten [] piece = piece := by
  simp [overwritten]

theorem recv_eq (front : List Char) {piece : List Char} {k : ℕ} (hk : piece.length ≤ k) (p : Place) :
    recv (holding front (List.replicate k nul) p) piece =
      some (holding (overwritten front piece) (List.replicate (k - piece.length) nul) p) := by
  have hzeros : List.replicate k nul =
      List.replicate piece.length nul ++ List.replicate (k - piece.length) nul := by
    rw [← List.replicate_add,Nat.add_sub_cancel' hk]
  have hroom : piece.length ≤ (front ++ List.replicate k nul).length := by
    rw [List.length_append,List.length_replicate]
    omega
  have hdrop : (front ++ List.replicate k nul).drop piece.length =
      (front ++ List.replicate piece.length nul).drop piece.length ++
        List.replicate (k - piece.length) nul := by
    rw [hzeros,← List.append_assoc,List.drop_append_of_le_length]
    simp
  simp only [recv,holding,Memory.copy,Nat.zero_add,if_pos hroom,Option.map_some,List.take_zero,
    List.nil_append,hdrop,length_overwritten]
  simp only [overwritten,List.append_assoc]

theorem start_eq : start 1024 = holding [] (List.replicate 1024 nul) first := rfl

theorem nul_mem_zeros {k : ℕ} (hk : 0 < k) : nul ∈ List.replicate k nul :=
  List.mem_replicate.mpr ⟨Nat.ne_of_gt hk,rfl⟩

section Decide
variable {head body tail more rest : List Char} {checkStatus : CheckStatus} {startLine : ℕ}

theorem parseContent_of_loop {front : List Char} {p : Place} {out : HttpCode × Request} (hn : nul ∈ rest)
    (hp : p.checkedIndex ≤ front.length)
    (h : ∀ n, parseContentLoop (n + 1) (holding front rest p) = some out) :
    parseContent (holding front rest p) = some out := by
  refine parseContent_eq hn fun n hlt => ?_
  obtain ⟨n,rfl⟩ : ∃ m, n = m + 1 := ⟨n - 1,by simp only [holding] at hlt; omega⟩
  exact h n

theorem length_le_front : head.length ≤ (head ++ body ++ tail).length := by
  rw [List.append_assoc,List.length_append]
  exact Nat.le_add_right ..

variable (head body) (hn : nul ∈ rest) (hb : Plain body)
include hn hb

theorem parseContent_open (checkStatus : CheckStatus) (startLine : ℕ) (ht : tail = [] ∨ tail = [cr]) :
    parseContent (holding (head ++ body ++ tail) rest ⟨head.length,checkStatus,startLine⟩) =
      some (.noRequest,holding (head ++ body ++ tail) rest ⟨(head ++ body).length,checkStatus,startLine⟩) := by
  refine parseContent_of_loop hn length_le_front fun n => ?_
  rw [parseContentLoop,parseLine_eq head tail checkStatus startLine hn hb,parseLineLoop_open ht]
  rfl

theorem parseContent_spoilt (hg : (head ++ body).getLast? ≠ some cr) (ht : Spoilt tail) :
    parseContent (holding (head ++ body ++ tail) rest ⟨head.length,checkStatus,startLine⟩) =
      some (.badRequest,holding (head ++ body ++ tail) rest ⟨(head ++ body).length,checkStatus,startLine⟩) := by
  refine parseContent_of_loop hn length_le_front fun n => ?_
  rw [parseContentLoop,parseLine_eq head tail checkStatus startLine hn hb,parseLineLoop_bad ht hg]
  rfl

/-- A first line that is no request line. -/
theorem parseContent_line {w y : List Char} (hw : nul ∉ w) (hcut : head ++ body ++ [nul] = w ++ nul :: y)
    (hr : ¬ IsRequestLine w) :
    ∃ s, parseContent (holding (head ++ body ++ cr :: lf :: more) rest ⟨head.length,.requestline,0⟩) =
      some (.badRequest,s) := by
  obtain ⟨w',hl,hanswers⟩ := parseRequestline_answers hw
  have hline : ∀ n, parseContentLoop (n + 1)
      (holding (head ++ body ++ cr :: lf :: more ++ []) rest ⟨head.length,.requestline,0⟩) = _ := fun n =>
    parseContentLoop_requestline (q := []) (by simpa using hcut) hl rfl hb hn n
      fun suf => (hanswers [] suf _).2 hr
  simp only [List.append_nil,↓reduceIte] at hline
  exact ⟨_,parseContent_of_loop hn length_le_front hline⟩

end Decide

theorem parseContent_lf {more rest : List Char} (hn : nul ∈ rest) :
    ∃ s, parseContent (holding (lf :: more) rest first) = some (.badRequest,s) :=
  ⟨_,parseContent_spoilt [] [] hn (List.forall_mem_nil _) (by simp) ⟨lf,more,rfl,.inl rfl⟩⟩

theorem not_isRequestLine_nil : ¬ IsRequestLine [] := by
  rintro ⟨r,hr⟩
  have hm : r.method = [] := by
    simp only [RequestLine.text,List.append_eq_nil_iff] at hr
    exact hr.1.1.1.1
  have hl := r.isGet.length_eq
  rw [hm] at hl
  cases hl

/-- An empty line is no request line, and anything else behind a carriage return is no line. -/
theorem parseContent_cr (d : Char) {more rest : List Char} (hn : nul ∈ rest) :
    ∃ s, parseContent (holding (cr :: d :: more) rest first) = some (.badRequest,s) := by
  by_cases hd : d = lf
  · subst hd
    exact parseContent_line [] [] (w := []) hn (List.forall_mem_nil _) (by simp) rfl not_isRequestLine_nil
  · have hs : Spoilt (cr :: d :: more) := ⟨cr,d :: more,rfl,.inr ⟨rfl,d,more,rfl,hd⟩⟩
    exact ⟨_,parseContent_spoilt [] [] hn (List.forall_mem_nil _) (by simp) hs⟩

/-- Plain bytes are passed over, whatever stands in front of them. -/
theorem parseContent_rest (front : List Char) {rest : List Char} {n : ℕ} (hn : nul ∈ rest) (hl : n ≤ front.length)
    (hb : Plain (front.drop n)) :
    parseContent (holding front rest ⟨n,.requestline,0⟩) =
      some (.noRequest,holding front rest ⟨front.length,.requestline,0⟩) := by
  have h := parseContent_open (front.take n) (front.drop n) hn hb .requestline 0 (.inl rfl)
  rw [List.append_nil,List.take_append_drop,List.length_take,Nat.min_eq_left hl] at h
  exact h

theorem atOnce_eq {request : List Char} (hl : request.length < 1024) :
    atOnce request = (parseContent (holding request (List.replicate (1024 - request.length) nul) first)).map
      fun out => respond out.1 := by
  rw [atOnce,start_eq,receive_eq [] (Nat.le_of_lt hl) first]
  rfl

theorem respond_eq_none_iff (code : HttpCode) : respond code = none ↔ code = .noRequest := by
  cases code <;> simp [respond]

section Loop
variable {front piece : List Char} {p : Place} {k : ℕ} {t : Request} (hne : piece ≠ []) (hk : piece.length ≤ k)
include hne hk

theorem readLoop_goesOn (pieces : List (List Char))
    (h : parseContent (holding (overwritten front piece) (List.replicate (k - piece.length) nul) p) =
      some (.noRequest,t)) :
    readLoop (holding front (List.replicate k nul) p) (piece :: pieces) = readLoop t pieces := by
  rw [readLoop,if_neg (by simpa using hne),recv_eq front hk p]
  simp only [Option.bind_eq_bind,Option.bind_some,h,respond]

theorem readLoop_stops (pieces : List (List Char)) {code : HttpCode} {response : Response}
    (h : parseContent (holding (overwritten front piece) (List.replicate (k - piece.length) nul) p) =
      some (code,t)) (hr : respond code = some response) :
    readLoop (holding front (List.replicate k nul) p) (piece :: pieces) = some (some response) := by
  rw [readLoop,if_neg (by simpa using hne),recv_eq front hk p]
  simp only [Option.bind_eq_bind,Option.bind_some,h,hr]
  rfl

end Loop

/-- A first piece that is the whole request, or that is decided on, is where it should be. -/
theorem readLoop_of_first {piece : List Char} {pieces : List (List Char)} (hne : piece ≠ [])
    (hl : (piece :: pieces).flatten.length < 1024) (h : pieces = [] ∨ atOnce piece ≠ some none) :
    readLoop (start 1024) (piece :: pieces) = atOnce (piece :: pieces).flatten := by
  have hready : Ready [] first := ⟨Nat.le_refl _,Nat.le_refl _,by simp⟩
  obtain ⟨code,front',p',hE⟩ := exists_ending (hready.append piece)
  have hlen : piece.length + pieces.flatten.length < 1024 := by simpa using hl
  have hn : nul ∈ List.replicate (1024 - piece.length) nul := nul_mem_zeros (by omega)
  have hfirst := parseContent_eq hn (hE.ends _ hn)
  have honce : atOnce piece = some (respond code) := by
    rw [atOnce_eq (by omega)]
    exact congrArg _ hfirst
  have hover : overwritten [] piece = [] ++ piece := overwritten_nil piece
  rw [start_eq]
  by_cases hc : code = .noRequest
  · subst hc
    obtain rfl : pieces = [] := h.resolve_right fun hno => hno honce
    rw [readLoop_goesOn hne (by omega) [] (hover ▸ hfirst),List.flatten_cons,List.flatten_nil,List.append_nil,honce]
    rfl
  · obtain ⟨response,hr⟩ := Option.ne_none_iff_exists'.mp (mt (respond_eq_none_iff code).mp hc)
    have hn' : nul ∈ List.replicate (1024 - (piece :: pieces).flatten.length) nul := nul_mem_zeros (by omega)
    have hwhole := parseContent_eq hn' (hE.same hc pieces.flatten _ hn')
    rw [readLoop_stops hne (by omega) pieces (hover ▸ hfirst) hr,atOnce_eq hl,← hr]
    exact (congrArg (Option.map fun out => respond out.1) hwhole).symm

section Delivered

theorem overwritten_byte (c : Char) {piece : List Char} (hne : piece ≠ []) :
    overwritten [c] piece = piece ++ [nul] := by
  obtain ⟨d,t,rfl⟩ := List.exists_cons_of_ne_nil hne
  simp [overwritten,List.replicate_succ']

theorem atOnce_plain {request : List Char} (hl : request.length < 1024) (hb : Plain request) :
    atOnce request = some none := by
  rw [atOnce_eq hl]
  exact congrArg _ (parseContent_rest request (nul_mem_zeros (by omega)) (Nat.zero_le _) hb)

theorem plain_overwritten {front piece : List Char} (hf : Plain front) (hp : Plain piece) :
    Plain (overwritten front piece) := by
  have hz : Plain (List.replicate piece.length nul) := fun x hx => by
    obtain rfl := List.eq_of_mem_replicate hx
    decide
  exact List.forall_mem_append.mpr ⟨hp,fun x hx =>
    List.forall_mem_append.mpr ⟨hf,hz⟩ x (List.mem_of_mem_drop hx)⟩

theorem readLoop_plain {pieces : List (List Char)} (hne : ∀ piece ∈ pieces, piece ≠ []) (hb : Plain pieces.flatten)
    (front : List Char) {k : ℕ} (hf : Plain front) (hk : pieces.flatten.length < k) :
    readLoop (holding front (List.replicate k nul) ⟨front.length,.requestline,0⟩) pieces = some none := by
  induction pieces generalizing front k with
  | nil => rfl
  | cons piece pieces ih =>
    obtain ⟨hne,hnes⟩ := List.forall_mem_cons.mp hne
    rw [List.flatten_cons] at hb
    obtain ⟨hp,hps⟩ := List.forall_mem_append.mp hb
    rw [List.flatten_cons,List.length_append] at hk
    have hover := plain_overwritten hf hp
    have hlen := length_overwritten front piece
    have hparse := parseContent_rest (overwritten front piece) (nul_mem_zeros (k := k - piece.length) (by omega))
      (n := front.length) (by omega) fun x hx => hover x (List.mem_of_mem_drop hx)
    rw [readLoop_goesOn hne (by omega) pieces hparse]
    exact ih hnes hps _ hover (by omega)

/-- One byte at a time: each of them is put over the first. -/
theorem readLoop_bytes (c : Char) (m : ℕ) (bytes : List Char) {k : ℕ} (hk : bytes.length < k) :
    readLoop (holding (c :: List.replicate m nul) (List.replicate k nul) ⟨m + 1,.requestline,0⟩)
      (bytes.map fun b => [b]) = some none := by
  induction bytes generalizing c m k with
  | nil => rfl
  | cons b bytes ih =>
    rw [List.length_cons] at hk
    have hover : overwritten (c :: List.replicate m nul) [b] = b :: List.replicate (m + 1) nul := by
      simp [overwritten,List.replicate_succ']
    have hlast : Plain ((b :: List.replicate (m + 1) nul).drop (m + 1)) := by
      rw [List.drop_succ_cons,List.drop_replicate,Nat.add_sub_cancel_left]
      exact List.forall_mem_singleton.mpr (by decide)
    have hparse := parseContent_rest _ (n := m + 1) (nul_mem_zeros (k := k - 1) (by omega)) (by simp) hlast
    have hroom : [b].length ≤ k := by
      rw [List.length_singleton]
      omega
    rw [← hover] at hparse
    rw [List.map_cons,readLoop_goesOn (by simp) hroom _ hparse,hover]
    simpa using ih b (m + 1) (k := k - 1) (by omega)

theorem atOnce_bad {request : List Char} (hl : request.length < 1024)
    (h : ∀ k, 0 < k → ∃ s, parseContent (holding request (List.replicate k nul) first) = some (.badRequest,s)) :
    atOnce request = some (some .error) := by
  obtain ⟨s,hs⟩ := h (1024 - request.length) (by omega)
  rw [atOnce_eq hl,hs]
  rfl

section FirstByte
variable {c : Char} {n : ℕ} (hc : ∀ rest, nul ∈ rest → parseContent (holding [c] rest first) =
  some (.noRequest,holding [c] rest ⟨n,.requestline,0⟩))
include hc

/-- A first byte on which nothing has been decided. -/
theorem readLoop_firstByte (pieces : List (List Char)) :
    readLoop (start 1024) ([c] :: pieces) =
      readLoop (holding [c] (List.replicate 1023 nul) ⟨n,.requestline,0⟩) pieces := by
  have hfirst : parseContent (holding (overwritten [] [c]) (List.replicate (1024 - 1) nul) first) = _ :=
    hc _ (nul_mem_zeros (by decide))
  rw [start_eq,readLoop_goesOn (by simp) (by simp) _ hfirst]

theorem readLoop_second {piece : List Char} {pieces : List (List Char)} (hne : piece ≠ [])
    (hl : piece.length < 1023)
    (h : ∀ k, 0 < k → ∃ s, parseContent (holding (piece ++ [nul]) (List.replicate k nul) ⟨n,.requestline,0⟩) =
      some (.badRequest,s)) :
    readLoop (start 1024) ([c] :: piece :: pieces) = some (some .error) := by
  obtain ⟨s,hs⟩ := h (1023 - piece.length) (by omega)
  rw [← overwritten_byte c hne] at hs
  rw [readLoop_firstByte hc]
  exact readLoop_stops hne (Nat.le_of_lt hl) pieces hs rfl

end FirstByte

theorem parseContent_plainByte {c : Char} (hcr : c ≠ cr) (hlf : c ≠ lf) (rest : List Char) (hn : nul ∈ rest) :
    parseContent (holding [c] rest first) = some (.noRequest,holding [c] rest ⟨1,.requestline,0⟩) :=
  parseContent_rest [c] hn (Nat.zero_le _) (List.forall_mem_singleton.mpr ⟨hcr,hlf⟩)

theorem parseContent_crByte (rest : List Char) (hn : nul ∈ rest) :
    parseContent (holding [cr] rest first) = some (.noRequest,holding [cr] rest first) :=
  parseContent_open [] [] hn (List.forall_mem_nil _) .requestline 0 (.inr rfl)

end Delivered

/-- The requests that come out right however they are delivered: at most one byte, no end
of a line, or a first line that is spoilt from the start. The last is one byte and a
carriage return. -/
def Harmless (request : List Char) : Prop :=
  request.length ≤ 1 ∨ Plain request ∨ request.head? = some lf ∨
    (∃ d more, request = cr :: d :: more ∧ (d = cr ∨ d = lf)) ∨ ∃ x, request = [x,cr]

theorem eq_nil_of_flatten {pieces : List (List Char)} (hne : ∀ piece ∈ pieces, piece ≠ [])
    (h : pieces.flatten = []) : pieces = [] := by
  cases pieces with
  | nil => rfl
  | cons piece pieces =>
    have hmem : piece ∈ piece :: pieces := List.mem_cons_self
    exact absurd (List.flatten_eq_nil_iff.mp h piece hmem) (hne piece hmem)

theorem readLoop_crByte {d : Char} (hd : d = cr ∨ d = lf) {t : List Char} {pieces : List (List Char)}
    (hl : (d :: t).length < 1023) :
    readLoop (start 1024) ([cr] :: (d :: t) :: pieces) = some (some .error) := by
  refine readLoop_second parseContent_crByte (by simp) hl fun k hk => ?_
  rcases hd with rfl | rfl
  · obtain ⟨e,r,he⟩ := List.exists_cons_of_ne_nil (List.append_ne_nil_of_right_ne_nil t (List.cons_ne_nil nul []))
    rw [List.cons_append,he]
    exact parseContent_cr e (nul_mem_zeros hk)
  · exact parseContent_lf (nul_mem_zeros hk)

/-- The carriage return is put in front of `checked_index`, where nobody looks. -/
theorem readLoop_pair (x : Char) : readLoop (start 1024) [[x],[cr]] = atOnce [x,cr] := by
  by_cases hlf : x = lf
  · subst hlf
    refine readLoop_of_first (by simp) (by simp) (.inr ?_)
    rw [atOnce_bad (by simp) fun k hk => parseContent_lf (nul_mem_zeros hk)]
    simp
  by_cases hcr : x = cr
  · subst hcr
    rw [readLoop_crByte (.inl rfl) (by simp),atOnce_bad (by simp) fun k hk => parseContent_cr cr (nul_mem_zeros hk)]
  have htwo := parseContent_rest ([cr] ++ [nul]) (n := 1) (nul_mem_zeros (k := 1022) (by decide))
    (by simp) (List.forall_mem_singleton.mpr (by decide))
  have hwhole := parseContent_open [] [x] (nul_mem_zeros (k := 1022) (by decide))
    (List.forall_mem_singleton.mpr ⟨hcr,hlf⟩) .requestline 0 (.inr rfl)
  rw [← overwritten_byte x (by simp)] at htwo
  rw [readLoop_firstByte (parseContent_plainByte hcr hlf),readLoop_goesOn (by simp) (by simp) _ htwo,
    atOnce_eq (by simp)]
  exact (congrArg (Option.map fun out => respond out.1) hwhole).symm

theorem readLoop_of_harmless {request : List Char} (h : Harmless request) (hl : request.length < 1024)
    {pieces : List (List Char)} (hp : pieces.flatten = request) (hne : ∀ piece ∈ pieces, piece ≠ []) :
    readLoop (start 1024) pieces = atOnce request := by
  have hplain : Plain request → readLoop (start 1024) pieces = atOnce request := by
    intro hb
    rw [atOnce_plain hl hb]
    exact readLoop_plain hne (hp ▸ hb) [] (List.forall_mem_nil _) (hp ▸ hl)
  cases pieces with
  | nil =>
    subst hp
    exact hplain (List.forall_mem_nil _)
  | cons piece pieces =>
    obtain ⟨hpiece,hpieces⟩ := List.forall_mem_cons.mp hne
    obtain ⟨c,t,rfl⟩ := List.exists_cons_of_ne_nil hpiece
    have hfirst : pieces = [] ∨ atOnce (c :: t) ≠ some none → _ := readLoop_of_first hpiece (hp ▸ hl)
    rw [hp] at hfirst
    rw [List.flatten_cons,List.cons_append] at hp
    have hlt : (c :: t).length < 1024 := by
      rw [← hp] at hl
      simp only [List.length_cons,List.length_append] at hl ⊢
      omega
    have herror : atOnce (c :: t) = some (some .error) →
        readLoop (start 1024) ((c :: t) :: pieces) = atOnce request :=
      fun he => hfirst (.inr (by rw [he]; simp))
    rcases h with hle | hb | hhead | ⟨d,more,rfl,hd⟩ | ⟨x,rfl⟩
    · refine hfirst (.inl (eq_nil_of_flatten hpieces (List.length_eq_zero_iff.mp ?_)))
      rw [← hp] at hle
      simp only [List.length_cons,List.length_append] at hle
      omega
    · exact hplain hb
    · rw [← hp,List.head?_cons,Option.some.injEq] at hhead
      subst hhead
      exact herror (atOnce_bad hlt fun k hk => parseContent_lf (nul_mem_zeros hk))
    · obtain ⟨rfl,htail⟩ := List.cons.inj hp
      cases t with
      | cons e t =>
        exact herror (atOnce_bad hlt fun k hk => parseContent_cr e (nul_mem_zeros hk))
      | nil =>
        -- the byte that tells comes with the second piece, and is put over the first
        cases pieces with
        | nil => cases htail
        | cons piece pieces =>
          obtain ⟨e,t,rfl⟩ := List.exists_cons_of_ne_nil (hpieces piece List.mem_cons_self)
          obtain ⟨rfl,ht⟩ : e = d ∧ t ++ pieces.flatten = more := List.cons.inj htail
          have hlen : (e :: t).length < 1023 := by
            rw [← ht] at hl
            simp only [List.length_cons,List.length_append] at hl ⊢
            omega
          rw [readLoop_crByte hd hlen,atOnce_bad hl fun k hk => parseContent_cr e (nul_mem_zeros hk)]
    · obtain ⟨rfl,htail⟩ := List.cons.inj hp
      rcases List.append_eq_singleton_iff.mp htail with ⟨rfl,hcr⟩ | ⟨rfl,hnil⟩
      · obtain rfl : pieces = [[cr]] := by
          cases pieces with
          | nil => cases hcr
          | cons piece pieces =>
            obtain ⟨hsecond,hrest⟩ := List.forall_mem_cons.mp hpieces
            rcases List.append_eq_singleton_iff.mp hcr with ⟨h,_⟩ | ⟨rfl,h⟩
            · exact absurd h hsecond
            · rw [eq_nil_of_flatten hrest h]
        exact readLoop_pair c
      · exact hfirst (.inl (eq_nil_of_flatten hpieces hnil))

/-- The second letter of the method is not the first. -/
theorem not_isRequestLine_tail {x : Char} {w : Text} (h : IsRequestLine (x :: w)) : w ≠ [] ∧ ¬ IsRequestLine w := by
  have hmethod : ∀ {l : Text}, IsRequestLine l →
      ∃ g e rest, l = g :: e :: rest ∧ g.toLower = 'g' ∧ e.toLower = 'e' := by
    rintro l ⟨r,rfl⟩
    have hget := r.isGet
    obtain ⟨g,e,t,hm⟩ := List.length_eq_three.mp hget.length_eq
    rw [hm] at hget
    obtain ⟨hg,he,_⟩ : g.toLower = 'g' ∧ e.toLower = 'e' ∧ t.toLower = 't' := by simpa [AnyCase] using hget
    refine ⟨g,e,t :: (r.blanks ++ r.target ++ r.blanks' ++ r.version),?_,hg,he⟩
    simp [RequestLine.text,hm]
  obtain ⟨_,e,rest,hw,_,he⟩ := hmethod h
  obtain ⟨rfl,rfl⟩ := List.cons.inj hw
  refine ⟨List.cons_ne_nil e rest,fun hr => ?_⟩
  obtain ⟨g,_,_,hg,hlower,_⟩ := hmethod hr
  obtain ⟨rfl,_⟩ := List.cons.inj hg
  rw [he] at hlower
  exact absurd hlower (by decide)

/-- The second piece of a request that is cut behind its first byte, if that is no end of a
line but the piece has one. -/
theorem readLoop_cut {x : Char} (hcr : x ≠ cr) (hlf : x ≠ lf) {b : Char} {body tail : List Char}
    (hb : Plain (b :: body)) (hl : (b :: body ++ tail).length < 1023)
    (ht : Spoilt (tail ++ [nul]) ∨
      ∃ more w y, tail = cr :: lf :: more ∧ nul ∉ w ∧ b :: body ++ [nul] = w ++ nul :: y ∧ ¬ IsRequestLine w) :
    readLoop (start 1024) [[x],b :: body ++ tail] = some (some .error) := by
  refine readLoop_second (parseContent_plainByte hcr hlf) (by simp) hl fun k hk => ?_
  have hn := nul_mem_zeros hk
  obtain ⟨hb₀,hbody⟩ := List.forall_mem_cons.mp hb
  rw [List.append_assoc]
  rcases ht with ht | ⟨more,w,y,rfl,hw,hcut,hr⟩
  · have hlast : ([b] ++ body).getLast? ≠ some cr := fun h => (hb cr (List.mem_of_getLast? h)).1 rfl
    exact ⟨_,parseContent_spoilt [b] body hn hbody hlast ht⟩
  · exact parseContent_line [b] body hn hbody hw hcut hr

/-- One byte at a time, nothing is ever decided, unless the first two bytes decide. -/
theorem readLoop_plainByte {x : Char} (hcr : x ≠ cr) (hlf : x ≠ lf) {t : List Char} (hl : t.length < 1023) :
    readLoop (start 1024) ((x :: t).map fun b => [b]) = some none := by
  rw [List.map_cons,readLoop_firstByte (parseContent_plainByte hcr hlf)]
  exact readLoop_bytes x 0 t hl

theorem readLoop_crPlain {y : Char} (hcr : y ≠ cr) (hlf : y ≠ lf) {t : List Char} (hl : t.length < 1022) :
    readLoop (start 1024) ((cr :: y :: t).map fun b => [b]) = some none := by
  have hsecond := parseContent_rest ([y] ++ [nul]) (n := 0) (nul_mem_zeros (k := 1022) (by decide))
    (Nat.zero_le _) (List.forall_mem_cons.mpr ⟨⟨hcr,hlf⟩,List.forall_mem_singleton.mpr (by decide)⟩)
  rw [← overwritten_byte cr (List.cons_ne_nil y [])] at hsecond
  rw [List.map_cons,List.map_cons,readLoop_firstByte parseContent_crByte,
    readLoop_goesOn (by simp) (by simp) _ hsecond,overwritten_byte cr (List.cons_ne_nil y [])]
  exact readLoop_bytes y 1 t hl

/-- Of a request on which nothing is decided, the cut behind the first byte makes an error,
if its lines have an end that is not the whole of what follows that byte. -/
theorem readLoop_cut_of_atOnce {x : Char} (hcr : x ≠ cr) (hlf : x ≠ lf) {t : List Char}
    (hl : (x :: t).length < 1024) (hnone : atOnce (x :: t) = some none) :
    Plain t ∨ t = [cr] ∨ t ≠ [] ∧ readLoop (start 1024) [[x],t] = some (some .error) := by
  have hbad : ¬ ∀ k, 0 < k → ∃ s, parseContent (holding (x :: t) (List.replicate k nul) first) =
      some (.badRequest,s) := by
    intro hbad
    rw [atOnce_bad hl hbad] at hnone
    cases hnone
  obtain ⟨body,tail,rfl,hb,ht⟩ := exists_cut (fun c => c ≠ cr ∧ c ≠ lf) t
  have hx : Plain (x :: body) := List.forall_mem_cons.mpr ⟨⟨hcr,hlf⟩,hb⟩
  have hlast : ([] ++ x :: body).getLast? ≠ some cr := fun hg => (hx cr (List.mem_of_getLast? hg)).1 rfl
  have hspoilt : ¬ Spoilt tail := fun hs => hbad fun k hk =>
    ⟨_,parseContent_spoilt [] (x :: body) (nul_mem_zeros hk) hx hlast hs⟩
  have hlen : (body ++ tail).length < 1023 := Nat.lt_of_succ_lt_succ hl
  cases tail with
  | nil => exact .inl ((List.append_nil body).symm ▸ hb)
  | cons z more =>
    obtain rfl : z = cr := by
      by_contra hz
      refine hspoilt ⟨z,more,rfl,.inl ?_⟩
      by_contra hz'
      exact ht z rfl ⟨hz,hz'⟩
    cases more with
    | nil =>
      cases body with
      | nil => exact .inr (.inl rfl)
      | cons b body =>
        have hs : Spoilt ([cr] ++ [nul]) := ⟨cr,[nul],rfl,.inr ⟨rfl,nul,[],rfl,by decide⟩⟩
        exact .inr (.inr ⟨by simp,readLoop_cut hcr hlf hb hlen (.inl hs)⟩)
    | cons d more =>
      obtain rfl : d = lf := by
        by_contra hd
        exact hspoilt ⟨cr,d :: more,rfl,.inr ⟨rfl,d,more,rfl,hd⟩⟩
      -- the first line is a request line, or it would have been an error
      obtain ⟨w,r,hw,hstring⟩ := exists_string (x :: body)
      have hr : IsRequestLine w := by
        by_contra hr
        exact hbad fun k hk => parseContent_line [] (x :: body) (nul_mem_zeros hk) hx hw hstring hr
      cases w with
      | nil => exact absurd hr not_isRequestLine_nil
      | cons c w =>
        obtain ⟨rfl,hrest⟩ := List.cons.inj hstring
        obtain ⟨hne,hnot⟩ := not_isRequestLine_tail hr
        cases body with
        | nil =>
          obtain ⟨e,w,rfl⟩ := List.exists_cons_of_ne_nil hne
          simp at hrest
        | cons b body =>
          have hw' : nul ∉ w := fun hm => hw (List.mem_cons_of_mem _ hm)
          exact .inr (.inr ⟨by simp,readLoop_cut hcr hlf hb hlen (.inr ⟨more,w,r,rfl,hw',hrest,hnot⟩)⟩)

theorem harmless_of_agrees {request : List Char} (hl : request.length < 1024)
    (h : ∀ pieces, pieces.flatten = request → (∀ piece ∈ pieces, piece ≠ []) →
      readLoop (start 1024) pieces = atOnce request) : Harmless request := by
  by_contra hnot
  simp only [Harmless,not_or] at hnot
  obtain ⟨hlen,hplain,hhead,hcrs,hpair⟩ := hnot
  obtain ⟨x,y,t,rfl⟩ : ∃ x y t, request = x :: y :: t := by
    match request, hlen with
    | x :: y :: t, _ => exact ⟨x,y,t,rfl⟩
    | [_], hlen | [], hlen => simp at hlen
  have hlf : x ≠ lf := by simpa using hhead
  have hbytes := h ((x :: y :: t).map fun b => [b]) (by simp [← List.flatMap_def]) (by simp)
  by_cases hcr : x = cr
  · subst hcr
    obtain ⟨hy,hy'⟩ := not_or.mp fun hy => hcrs ⟨y,t,rfl,hy⟩
    rw [readLoop_crPlain hy hy' (Nat.lt_of_succ_lt_succ (Nat.lt_of_succ_lt_succ hl)),
      atOnce_bad hl fun k hk => parseContent_cr y (nul_mem_zeros hk)] at hbytes
    cases hbytes
  · rw [readLoop_plainByte hcr hlf (Nat.lt_of_succ_lt_succ hl)] at hbytes
    rcases readLoop_cut_of_atOnce hcr hlf hl hbytes.symm with hb | ht | ⟨hne,herror⟩
    · exact hplain (List.forall_mem_cons.mpr ⟨⟨hcr,hlf⟩,hb⟩)
    · exact hpair ⟨x,by rw [ht]⟩
    · rw [h [[x],y :: t] (by simp) (by simp),← hbytes] at herror
      cases herror

/-- A request comes out as `parse_content` takes it at once, however it is delivered,
exactly if it is one of a few that are decided on, or not, by their first bytes. For every
other request a delivery goes right when the first piece is the whole or decides. -/
theorem readLoop_eq_atOnce_iff {request : List Char} (hl : request.length < 1024) :
    ((∀ pieces, pieces.flatten = request → (∀ piece ∈ pieces, piece ≠ []) →
      readLoop (start 1024) pieces = atOnce request) ↔ Harmless request) ∧
    ∀ piece pieces, piece ≠ [] → (piece :: pieces).flatten = request → pieces = [] ∨ atOnce piece ≠ some none →
      readLoop (start 1024) (piece :: pieces) = atOnce request := by
  refine ⟨⟨harmless_of_agrees hl,fun h pieces hp hne => readLoop_of_harmless h hl hp hne⟩,?_⟩
  rintro piece pieces hne rfl h
  exact readLoop_of_first hne hl h

def cutInVersion : List (List Char) :=
  ["GET / HTT".toList,"P/1.1".toList ++ [cr,lf] ++ "Host: a".toList ++ [cr,lf]]

theorem readLoop_eq_atOnce_rest :
    (∀ pieces, pieces.flatten = "GET".toList → (∀ piece ∈ pieces, piece ≠ []) →
      readLoop (start 1024) pieces = atOnce "GET".toList) ∧
    readLoop (start 1024) [cutInVersion.flatten,"rest".toList] = atOnce (cutInVersion.flatten ++ "rest".toList) :=
  ⟨(readLoop_eq_atOnce_iff (by decide)).1.mpr (.inr (.inl (List.all_iff_forall_prop.mp (by decide)))),
    (readLoop_eq_atOnce_iff (by decide)).2 _ _ (by decide) rfl (.inr (by decide +kernel))⟩

/-- The second piece is put over the first, and what the parser reads is no request line. -/
theorem cutInVersion_not_atOnce : ¬ ∀ (request : List Char) (pieces : List (List Char)), request.length < 1024 →
    pieces.flatten = request → (∀ piece ∈ pieces, piece ≠ []) → readLoop (start 1024) pieces = atOnce request := by
  intro h
  have hcut := h cutInVersion.flatten cutInVersion (by decide) rfl (by simp [cutInVersion])
  have hloop : readLoop (start 1024) cutInVersion = some (some .error) := by decide +kernel
  have hwhole : atOnce cutInVersion.flatten = some (some .success) := by decide +kernel
  rw [hloop,hwhole] at hcut
  cases hcut

end Zcs.Http
