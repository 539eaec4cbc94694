import AxlSdk.Net.Http.Core

/-!
# The response headers (`src/net/axl-http-response.c`)

`send_response` puts the header block together in a buffer of 2048 bytes on its stack, with
one `axl_snprintf` for each line. What is left of the buffer is computed on `size_t`, from
the lengths that the lines would have had.

- `headerBlock`: the text that is meant to be in the buffer.
- `WellSent`: no byte outside the buffer is touched, and what is submitted is the header
  block and the body.
- `wellSent_iff`: that is so for the blocks of fewer than 2048 bytes, and for no other.
-/

namespace AxlSdk

namespace Http

namespace Response

open List

/-! ## The data -/

/-- What `send_response` reads of an `AxlHttpResponse`. The custom headers stand in the order
of `axl_hash_table_foreach`; `streamer` is the `streamer_total_size` of a streamed response. -/
structure HttpResponse where
  statusCode : Nat
  contentType : Option (List UInt8)
  headers : List (List UInt8 × List UInt8)
  body : List UInt8
  streamer : Option Nat

/-- What it reads of the connection and of its server. -/
structure HttpConn where
  keepAlive : Bool
  authScheme : Option (List UInt8)
  authRealm : Option (List UInt8)

/-- `(size_t)-1` -/
def sizeMax : Nat := 18446744073709551615

/-- `status_reason_phrase` -/
def statusReasonPhrase : Nat → List UInt8
  | 101 => ascii "Switching Protocols"
  | 200 => ascii "OK"
  | 201 => ascii "Created"
  | 204 => ascii "No Content"
  | 206 => ascii "Partial Content"
  | 301 => ascii "Moved Permanently"
  | 302 => ascii "Found"
  | 304 => ascii "Not Modified"
  | 307 => ascii "Temporary Redirect"
  | 400 => ascii "Bad Request"
  | 401 => ascii "Unauthorized"
  | 402 => ascii "Payment Required"
  | 403 => ascii "Forbidden"
  | 404 => ascii "Not Found"
  | 405 => ascii "Method Not Allowed"
  | 409 => ascii "Conflict"
  | 413 => ascii "Payload Too Large"
  | 500 => ascii "Internal Server Error"
  | 503 => ascii "Service Unavailable"
  | _ => ascii "Unknown"

/-- `status_allows_body` -/
def statusAllowsBody (statusCode : Nat) : Bool :=
  !(statusCode / 100 == 1 || statusCode == 204 || statusCode == 304)

/-- `response_has_content_length` -/
def responseHasContentLength (resp : HttpResponse) : Bool :=
  resp.headers.any fun h => equalsIgnoreCase h.1 (ascii "Content-Length")

/-! ## The lines -/

def crlf : List UInt8 := [0x0d, 0x0a]

/-- The text of `http_build_status_line`. -/
def statusLine (resp : HttpResponse) : List UInt8 :=
  ascii "HTTP/1.1 " ++ decimal resp.statusCode ++ ascii " " ++
    statusReasonPhrase resp.statusCode ++ crlf

def contentTypeLine (resp : HttpResponse) : List (List UInt8) :=
  match resp.contentType with
  | some type => [ascii "Content-Type: " ++ type ++ crlf]
  | none => []

/-- The line that delimits the body. -/
def lengthLine (resp : HttpResponse) : List (List UInt8) :=
  match resp.streamer with
  | some total =>
    if total ≠ sizeMax then [ascii "Content-Length: " ++ decimal total ++ crlf]
    else [ascii "Transfer-Encoding: chunked" ++ crlf]
  | none =>
    if resp.body.length > 0 then [ascii "Content-Length: " ++ decimal resp.body.length ++ crlf]
    else if statusAllowsBody resp.statusCode && !responseHasContentLength resp then
      [ascii "Content-Length: 0" ++ crlf]
    else []

def connectionLine (conn : HttpConn) (resp : HttpResponse) : List UInt8 :=
  if resp.statusCode = 101 then ascii "Connection: Upgrade" ++ crlf
  else ascii "Connection: " ++ ascii (if conn.keepAlive then "keep-alive" else "close") ++ crlf

/-- The challenge of a 401. -/
def challengeLine (conn : HttpConn) (resp : HttpResponse) : List (List UInt8) :=
  if resp.statusCode = 401 then
    match conn.authScheme, conn.authRealm with
    | some scheme, some realm =>
      [ascii "WWW-Authenticate: " ++ scheme ++ ascii " realm=\"" ++ realm ++ ascii "\"" ++ crlf]
    | some scheme, none => [ascii "WWW-Authenticate: " ++ scheme ++ crlf]
    | none, _ => []
  else []

/-- The lines in front of the custom headers. -/
def fixedLines (conn : HttpConn) (resp : HttpResponse) : List (List UInt8) :=
  statusLine resp :: (contentTypeLine resp ++ lengthLine resp ++
    connectionLine conn resp :: challengeLine conn resp)

/-- A custom header, as `emit_header` formats it. -/
def headerLine (h : List UInt8 × List UInt8) : List UInt8 := h.1 ++ ascii ": " ++ h.2 ++ crlf

/-! ## The buffer -/

/-- `sizeof(header)` -/
def headerSize : Nat := 2048

/-- The buffer `header` with `header_len`; `inBounds` says that no byte outside of it was
touched so far. -/
structure HeaderBuf where
  bytes : List UInt8
  len : Nat
  inBounds : Bool

/-- `size_t` holds the numbers below. -/
def sizeMod : Nat := 18446744073709551616

/-- `sizeof(header) - header_len` on `size_t`. -/
def remaining (len : Nat) : Nat := (headerSize + sizeMod - len) % sizeMod

/-- The `(int)` that `axl_vsnprintf` makes of its count, as it is added to a `size_t`. -/
def asInt (n : Nat) : Nat :=
  if n % 4294967296 < 2147483648 then n % 4294967296
  else n % 4294967296 + sizeMod - 4294967296

/-- `header_len += axl_snprintf(header + header_len, sizeof(header) - header_len, ...)` with
the formatted text: all but the last of the bytes that are left get what fits, and a NUL
stands behind it. -/
def append (b : HeaderBuf) (text : List UInt8) : HeaderBuf :=
  if remaining b.len = 0 then b
  else
    let written := text.take (remaining b.len - 1) ++ [0]
    { bytes := b.bytes.take b.len ++ written ++ b.bytes.drop (b.len + written.length)
      len := (b.len + asInt text.length) % sizeMod
      inBounds := b.inBounds && decide (b.len + written.length ≤ headerSize) }

/-- `emit_header` -/
def emitHeader (b : HeaderBuf) (h : List UInt8 × List UInt8) : HeaderBuf :=
  if b.len < headerSize then append b (headerLine h) else b

/-- The buffer when the header block is built; `stack` is what was in it before. -/
def buildHeader (stack : List UInt8) (conn : HttpConn) (resp : HttpResponse) : HeaderBuf :=
  append (resp.headers.foldl emitHeader ((fixedLines conn resp).foldl append ⟨stack, 0, true⟩)) crlf

/-! ## The send -/

/-- How the calls of `send_response` end: the two allocations, and the submission. -/
structure Answers where
  chunkBuf : Bool
  txBuf : Bool
  submit : Bool

/-- What `send_response` leaves behind. -/
inductive Ending where
  /-- The send was accepted; for a streamed response, with `stream_remaining` or chunks. -/
  | inFlight (txBuf : List UInt8) (stream : Option (Option Nat))
  /-- The send was refused and the connection reset. -/
  | refused (txBuf : List UInt8)
  /-- An allocation failed and the connection was reset. -/
  | reset
  deriving DecidableEq, Repr

/-- The bytes that are handed to the transport. -/
def Ending.submitted : Ending → Option (List UInt8)
  | .inFlight txBuf _ => some txBuf
  | .refused txBuf => some txBuf
  | .reset => none

/-- A run of `send_response`: its ending, and whether it kept to the buffer. -/
structure Sent where
  ending : Ending
  inBounds : Bool

/-- The copy of the header block and of the `rest` into a new buffer, and its submission. -/
def submitCopy (b : HeaderBuf) (rest : List UInt8) (stream : Option (Option Nat))
    (answers : Answers) : Sent :=
  if answers.txBuf then
    let txBuf := b.bytes.take b.len ++ rest
    { ending := if answers.submit then .inFlight txBuf stream else .refused txBuf
      inBounds := b.inBounds && decide (b.len ≤ headerSize) }
  else ⟨.reset, b.inBounds⟩

/-- `send_response` -/
def sendResponse (stack : List UInt8) (conn : HttpConn) (resp : HttpResponse)
    (answers : Answers) : Sent :=
  let b := buildHeader stack conn resp
  match resp.streamer with
  | some total =>
    if answers.chunkBuf then
      submitCopy b [] (some (if total ≠ sizeMax then some total else none)) answers
    else ⟨.reset, b.inBounds⟩
  | none => submitCopy b resp.body none answers

/-! ## What is meant -/

/-- The status line, every header and the blank line. -/
def headerBlock (conn : HttpConn) (resp : HttpResponse) : List UInt8 :=
  (fixedLines conn resp).flatten ++ (resp.headers.map headerLine).flatten ++ crlf

/-- What goes out with the header block. A streamed body follows in sends of its own. -/
def sentBody (resp : HttpResponse) : List UInt8 :=
  match resp.streamer with
  | some _ => []
  | none => resp.body

/-- Whatever was on the stack and however the calls end, `send_response` keeps to its buffer,
and what it submits is complete. -/
def WellSent (conn : HttpConn) (resp : HttpResponse) : Prop :=
  ∀ stack answers, stack.length = headerSize →
    (sendResponse stack conn resp answers).inBounds = true ∧
    ∀ txBuf, (sendResponse stack conn resp answers).ending.submitted = some txBuf →
      txBuf = headerBlock conn resp ++ sentBody resp

/-! ## Blocks that fit -/

/-- The buffer holds `text`, with room for a NUL behind it. -/
structure Holds (b : HeaderBuf) (text : List UInt8) : Prop where
  size : b.bytes.length = headerSize
  inBounds : b.inBounds = true
  len : b.len = text.length
  fits : text.length < headerSize
  content : b.bytes.take text.length = text

theorem remaining_eq {len : Nat} (h : len < headerSize) : remaining len = headerSize - len := by
  have h' : len < 2048 := h
  show (2048 + 18446744073709551616 - len) % 18446744073709551616 = 2048 - len
  omega

theorem asInt_eq {n : Nat} (h : n ≤ headerSize) : asInt n = n := by
  have h' : n ≤ 2048 := h
  unfold asInt
  rw [Nat.mod_eq_of_lt (by omega), if_pos (by omega)]

variable {b : HeaderBuf} {text : List UInt8}

/-- One more line, as far as it fits. -/
theorem append_eq {line : List UInt8} (h : Holds b text)
    (hfit : text.length + line.length ≤ headerSize) :
    append b line =
      ⟨text ++ (line.take (headerSize - text.length - 1) ++ [0]) ++
        b.bytes.drop (text.length + (line.take (headerSize - text.length - 1) ++ [0]).length),
        text.length + line.length, true⟩ := by
  have hlt := h.fits
  have hsmall : headerSize < sizeMod := by decide
  have hrem : remaining text.length = headerSize - text.length := remaining_eq hlt
  have hroom : text.length + (line.take (headerSize - text.length - 1) ++ [0]).length
      ≤ headerSize := by
    rw [length_append, length_take, length_singleton]
    omega
  unfold append
  rw [h.len, hrem, if_neg (by omega)]
  simp only [h.content, h.inBounds, Bool.true_and]
  rw [asInt_eq (by omega), Nat.mod_eq_of_lt (by omega), decide_eq_true hroom]

theorem Holds.append {line : List UInt8} (h : Holds b text)
    (hfit : text.length + line.length < headerSize) : Holds (append b line) (text ++ line) := by
  have hall : line.take (headerSize - text.length - 1) = line :=
    take_of_length_le (by omega)
  have hsize := h.size
  rw [append_eq h (Nat.le_of_lt hfit), hall]
  refine ⟨?_, rfl, (length_append).symm, by rwa [length_append], ?_⟩
  · show (text ++ (line ++ [0]) ++ b.bytes.drop _).length = headerSize
    simp only [length_append, length_drop, length_singleton]
    omega
  · show (text ++ (line ++ [0]) ++ b.bytes.drop _).take (text ++ line).length = text ++ line
    rw [← append_assoc, append_assoc (text ++ line), take_left]

theorem Holds.lines {lines : List (List UInt8)} (h : Holds b text)
    (hfit : text.length + lines.flatten.length < headerSize) :
    Holds (lines.foldl Response.append b) (text ++ lines.flatten) := by
  induction lines generalizing b text with
  | nil => simpa using h
  | cons line lines ih =>
    rw [flatten_cons, length_append] at hfit
    rw [foldl_cons, flatten_cons, ← append_assoc]
    exact ih (h.append (by omega)) (by rw [length_append]; omega)

theorem Holds.headers {hs : List (List UInt8 × List UInt8)} (h : Holds b text)
    (hfit : text.length + (hs.map headerLine).flatten.length < headerSize) :
    Holds (hs.foldl emitHeader b) (text ++ (hs.map headerLine).flatten) := by
  induction hs generalizing b text with
  | nil => simpa using h
  | cons hd hs ih =>
    rw [map_cons, flatten_cons, length_append] at hfit
    rw [foldl_cons, map_cons, flatten_cons, ← append_assoc]
    have hemit : emitHeader b hd = Response.append b (headerLine hd) :=
      if_pos (by rw [h.len]; exact h.fits)
    rw [hemit]
    exact ih (h.append (by omega)) (by rw [length_append]; omega)

/-- The lines in front of the blank one. -/
def linesText (conn : HttpConn) (resp : HttpResponse) : List UInt8 :=
  (fixedLines conn resp).flatten ++ (resp.headers.map headerLine).flatten

variable {conn : HttpConn} {resp : HttpResponse}

/-- The buffer in front of the last `axl_snprintf`. -/
theorem holds_lines {stack : List UInt8} (hstack : stack.length = headerSize)
    (hfit : (linesText conn resp).length < headerSize) :
    Holds (resp.headers.foldl emitHeader ((fixedLines conn resp).foldl append ⟨stack, 0, true⟩))
      (linesText conn resp) := by
  have hempty : Holds ⟨stack, 0, true⟩ [] :=
    ⟨hstack, rfl, rfl, by decide, rfl⟩
  rw [linesText, length_append] at hfit
  have hroom : ([] : List UInt8).length + (fixedLines conn resp).flatten.length < headerSize := by
    rw [length_nil, Nat.zero_add]
    omega
  have hfixed := hempty.lines hroom
  rw [nil_append] at hfixed
  exact hfixed.headers hfit

theorem headerBlock_eq (conn : HttpConn) (resp : HttpResponse) :
    headerBlock conn resp = linesText conn resp ++ crlf := rfl

theorem submitCopy_submitted (b : HeaderBuf) (rest : List UInt8) (stream : Option (Option Nat))
    (answers : Answers) : (submitCopy b rest stream answers).ending.submitted =
      if answers.txBuf then some (b.bytes.take b.len ++ rest) else none := by
  unfold submitCopy
  cases answers.txBuf with
  | false => rfl
  | true => cases answers.submit <;> rfl

theorem submitCopy_inBounds (b : HeaderBuf) (rest : List UInt8) (stream : Option (Option Nat))
    (answers : Answers) : (submitCopy b rest stream answers).inBounds =
      (b.inBounds && (!answers.txBuf || decide (b.len ≤ headerSize))) := by
  unfold submitCopy
  cases answers.txBuf with
  | false => exact (Bool.and_true _).symm
  | true => rfl

/-- **A block that fits is sent whole.** -/
theorem wellSent_of_lt (hfit : (headerBlock conn resp).length < headerSize) :
    WellSent conn resp := by
  intro stack answers hstack
  rw [headerBlock_eq, length_append] at hfit
  have hbuf : Holds (buildHeader stack conn resp) (headerBlock conn resp) :=
    (holds_lines hstack (by omega)).append hfit
  have hin := hbuf.inBounds
  have hlen : (buildHeader stack conn resp).len ≤ headerSize := by
    rw [hbuf.len]
    exact Nat.le_of_lt hbuf.fits
  have hcopy : ∀ rest stream, (submitCopy (buildHeader stack conn resp) rest stream answers).inBounds
      = true ∧ ∀ txBuf, (submitCopy (buildHeader stack conn resp) rest stream
        answers).ending.submitted = some txBuf → txBuf = headerBlock conn resp ++ rest := by
    intro rest stream
    constructor
    · rw [submitCopy_inBounds, hin, decide_eq_true hlen, Bool.or_true, Bool.and_true]
    · intro txBuf hsub
      rw [submitCopy_submitted, hbuf.len, hbuf.content] at hsub
      split at hsub
      · exact (Option.some.inj hsub).symm
      · cases hsub
  unfold sendResponse sentBody
  cases resp.streamer with
  | none => exact hcopy resp.body none
  | some total =>
    by_cases hchunk : answers.chunkBuf = true
    · simp only [hchunk, if_true]
      exact hcopy [] _
    · simp only [hchunk]
      exact ⟨hin, fun txBuf hsub => by cases hsub⟩

/-! ## Blocks that do not fit -/

/-- Every call ends well. -/
def allOk : Answers := ⟨true, true, true⟩

/-- A buffer of zero bytes. -/
def zeroStack : List UInt8 := List.replicate headerSize 0

/-- What is submitted is a part of the buffer as long as the block. -/
theorem block_of_wellSent (h : WellSent conn resp) :
    (buildHeader zeroStack conn resp).len ≤ headerSize ∧
      (buildHeader zeroStack conn resp).bytes.take (buildHeader zeroStack conn resp).len
        = headerBlock conn resp := by
  obtain ⟨hin, hsub⟩ := h zeroStack allOk length_replicate
  have hcopy : ∀ rest stream, sentBody resp = rest →
      sendResponse zeroStack conn resp allOk
        = submitCopy (buildHeader zeroStack conn resp) rest stream allOk →
      (buildHeader zeroStack conn resp).len ≤ headerSize ∧
        (buildHeader zeroStack conn resp).bytes.take (buildHeader zeroStack conn resp).len
          = headerBlock conn resp := by
    rintro rest stream rfl heq
    rw [heq] at hin hsub
    rw [submitCopy_inBounds, Bool.and_eq_true] at hin
    have hblock := hsub _ (submitCopy_submitted _ _ _ _)
    exact ⟨of_decide_eq_true hin.2, append_cancel_right hblock⟩
  cases hs : resp.streamer with
  | none =>
    exact hcopy resp.body none (by rw [sentBody, hs]) (by rw [sendResponse, hs])
  | some total =>
    exact hcopy [] (some (if total ≠ sizeMax then some total else none))
      (by rw [sentBody, hs]) (by rw [sendResponse, hs]; rfl)

/-- A block of exactly 2048 bytes ends in a NUL. -/
theorem not_full (hfull : (headerBlock conn resp).length = headerSize) :
    (buildHeader zeroStack conn resp).bytes.take (buildHeader zeroStack conn resp).len
      ≠ headerBlock conn resp := by
  intro heq
  rw [headerBlock_eq, length_append] at hfull
  have hlines : (linesText conn resp).length = 2046 := by
    have : (linesText conn resp).length + 2 = 2048 := hfull
    omega
  have hroom : (linesText conn resp).length < headerSize := by
    rw [hlines]
    decide
  have hbuf := holds_lines (show zeroStack.length = headerSize from length_replicate) hroom
  have hlast : buildHeader zeroStack conn resp = append _ crlf := rfl
  rw [hlast, append_eq hbuf (Nat.le_of_eq hfull), headerBlock_eq, hlines] at heq
  -- the last two bytes: `\r` and NUL in the buffer, `\r` and `\n` in the block
  have hbytes : ∀ rest : List UInt8, (linesText conn resp ++
      (crlf.take (headerSize - 2046 - 1) ++ [0]) ++ rest).take (2046 + crlf.length)
        = linesText conn resp ++ [0x0d, 0] := by
    intro rest
    have hshape : (linesText conn resp ++ (crlf.take (headerSize - 2046 - 1) ++ [0])).length
        = 2046 + crlf.length := by
      rw [length_append, hlines]
      rfl
    rw [← hshape, take_left]
    rfl
  have htail := (hbytes _).symm.trans heq
  have hcrlf := append_cancel_left htail
  revert hcrlf
  decide

/-- **The header block is sent whole and in bounds exactly when it is shorter than the
buffer.** -/
theorem wellSent_iff (conn : HttpConn) (resp : HttpResponse) :
    WellSent conn resp ↔ (headerBlock conn resp).length < headerSize := by
  refine ⟨fun h => ?_, wellSent_of_lt⟩
  obtain ⟨hlen, hblock⟩ := block_of_wellSent h
  have hle : (headerBlock conn resp).length ≤ headerSize := by
    rw [← hblock, length_take]
    omega
  refine Nat.lt_of_le_of_ne hle fun hfull => not_full hfull hblock

/-- A content type of 2100 bytes: the next line is written behind the buffer. -/
theorem long_type_overruns :
    ∃ conn resp, ¬ WellSent conn resp ∧
      (sendResponse zeroStack conn resp allOk).inBounds = false := by
  have hout : (sendResponse zeroStack ⟨true, none, none⟩
      ⟨200, some (List.replicate 2100 0x61), [], [], none⟩ allOk).inBounds = false := by
    decide +kernel
  refine ⟨_, _, fun h => ?_, hout⟩
  have hin := (h zeroStack allOk length_replicate).1
  rw [hout] at hin
  cases hin

end Response

end Http

end AxlSdk
