import Zcs.Foundation.CString

/-! # The request parser

The parser works inside the receive buffer: it ends lines and words by writing
terminators, and it goes on in a later call where it had to stop for want of bytes. An
access outside the buffer makes the result `none`. The indices are `int`s: buffers are
shorter than 2^31 bytes.
-/
namespace Zcs.Http

inductive CheckStatus where
  | requestline
  | header
  deriving DecidableEq

inductive LineStatus where
  | lineOk
  | lineBad
  | lineOpen
  deriving DecidableEq

inductive HttpCode where
  | noRequest
  | getRequest
  | badRequest
  | forbiddenRequest
  | internalError
  | closedConnection
  deriving DecidableEq

/-- The buffer, and what the caller carries from one call of `parse_content` to the next. -/
structure Request where
  buffer : Memory
  checkedIndex : ℕ
  checkStatus : CheckStatus
  readIndex : ℕ
  startLine : ℕ
  deriving DecidableEq

def cr : Char := Char.ofNat 13
def lf : Char := Char.ofNat 10

/-- `checked_index > 1 && buffer[checked_index - 1] == '\r'` -/
def behindCr (s : Request) : Option Bool :=
  if 1 < s.checkedIndex then (s.buffer.load (s.checkedIndex - 1)).map (· == cr) else some false

/-- The loop of `parse_line`, with the number of bytes that are left. -/
def parseLineLoop : ℕ → Request → Option (LineStatus × Request)
  | 0, s => some (.lineOpen,s)
  | n + 1, s => do
    let temp ← s.buffer.load s.checkedIndex
    if temp = cr then
      if s.checkedIndex + 1 = s.readIndex then return (.lineOpen,s)
      else if (← s.buffer.load (s.checkedIndex + 1)) = lf then
        let buffer ← s.buffer.store s.checkedIndex nul
        let buffer ← buffer.store (s.checkedIndex + 1) nul
        return (.lineOk,{ s with buffer := buffer, checkedIndex := s.checkedIndex + 2 })
      else return (.lineBad,s)
    else if temp = lf then
      if ← behindCr s then
        let buffer ← s.buffer.store (s.checkedIndex - 1) nul
        let buffer ← buffer.store s.checkedIndex nul
        return (.lineOk,{ s with buffer := buffer, checkedIndex := s.checkedIndex + 1 })
      else return (.lineBad,s)
    else parseLineLoop n { s with checkedIndex := s.checkedIndex + 1 }

/-- `parse_line`, which logs the buffer first. -/
def parseLine (s : Request) : Option (LineStatus × Request) := do
  let _ ← s.buffer.cstring 0
  parseLineLoop (s.readIndex - s.checkedIndex) s

def separators : Text := " \t".toList

/-- `parse_requestline`. A pointer that is logged is read like a string, and a null one
is not. -/
def parseRequestline (m : Memory) (temp : ℕ) (checkStatus : CheckStatus) :
    Option (HttpCode × CheckStatus × Memory) := do
  match ← m.strpbrk temp separators with
  | none => return (.badRequest,checkStatus,m)
  | some url =>
    let _ ← m.cstring url
    let m ← m.store url nul
    let url := url + 1
    let _ ← m.cstring url
    let method := temp
    if ← m.strcasecmp method "GET".toList then
      let url := url + (← m.strspn url separators)
      let _ ← m.cstring url
      match ← m.strpbrk url separators with
      | none => return (.badRequest,checkStatus,m)
      | some version =>
        let m ← m.store version nul
        let version := version + 1
        let version := version + (← m.strspn version separators)
        if ← m.strcasecmp version "HTTP/1.1".toList then
          let _ ← m.cstring url
          let url ← if ← m.strncasecmp url "http://".toList 7 then m.strchr (url + 7) '/' else some (some url)
          match url with
          | none => return (.badRequest,checkStatus,m)
          | some url =>
            if (← m.load url) = '/' then
              let _ ← m.cstring url
              return (.noRequest,.header,m)
            else return (.badRequest,checkStatus,m)
        else return (.badRequest,checkStatus,m)
    else return (.badRequest,checkStatus,m)

def parseHeaders (_ : Memory) (_ : ℕ) : HttpCode := .getRequest

/-- The loop of `parse_content`; `none` also if `fuel` rounds were not enough. -/
def parseContentLoop : ℕ → Request → Option (HttpCode × Request)
  | 0, _ => none
  | fuel + 1, s => do
    let (lineStatus,s) ← parseLine s
    match lineStatus with
    | .lineOk =>
      let temp := s.startLine
      let s := { s with startLine := s.checkedIndex }
      match s.checkStatus with
      | .requestline =>
        let (code,checkStatus,buffer) ← parseRequestline s.buffer temp s.checkStatus
        let s := { s with checkStatus := checkStatus, buffer := buffer }
        if code = .badRequest then return (.badRequest,s)
        else parseContentLoop fuel s
      | .header =>
        let code := parseHeaders s.buffer temp
        if code = .badRequest then return (.badRequest,s)
        else if code = .getRequest then return (.getRequest,s)
        else parseContentLoop fuel s
    | .lineOpen => return (.noRequest,s)
    | .lineBad => return (.badRequest,s)

/-- `parse_content`. Every round takes a line, so that the bytes that are left are fuel
enough (`parseContent_eq`). -/
def parseContent (s : Request) : Option (HttpCode × Request) := do
  let _ ← s.buffer.cstring 0
  parseContentLoop (s.readIndex - s.checkedIndex + 1) s

/-- The bytes that have come in are put at `buffer + read_index`. -/
def receive (s : Request) (chunk : List Char) : Option Request :=
  (s.buffer.copy s.readIndex chunk).map fun buffer =>
    { s with buffer := buffer, readIndex := s.readIndex + chunk.length }

/-- A call of `parse_content` after each chunk, until one answers something else than
NO_REQUEST. -/
def parseChunks (s : Request) : List (List Char) → Option (HttpCode × Request)
  | [] => some (.noRequest,s)
  | chunk :: chunks => do
    let s ← receive s chunk
    let (code,s) ← parseContent s
    if code = .noRequest then parseChunks s chunks else return (code,s)

/-- A zero-filled buffer in front of the first byte. -/
def start (size : ℕ) : Request := ⟨List.replicate size nul,0,.requestline,0,0⟩

end Zcs.Http
