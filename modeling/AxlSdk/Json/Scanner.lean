import AxlSdk.Json.Lex

/-!
# The pull scanner

`AxlJsonScanner` turns a JSON text into events, over a contiguous buffer or over
a source that is read through a window. The window is `json`, the unread part of
it starts at `pos`, and `base` is the offset of the window in the input.

- A leaf that runs out of window is started over after a refill
  (`Scanner.leafRun`); nothing resumes in the middle of a token.
- `Scanner.refill` drops what is behind `pos`, doubles a full buffer and reads
  until the buffer is full or the source is exhausted. Allocations succeed.
- Spans are C `int`s (`toInt32`), so the text of an event is where the truncated
  offsets point.
-/

namespace AxlSdk

namespace Json

/-! ## Sources -/

/-- How a read can fail: a negative result, or more bytes than were asked for. -/
inductive ReadFault where
  | failed
  | overrun
  deriving DecidableEq, Repr

/-- A pull source: the bytes it still has, how many of them the `n`-th read
would like to deliver, and which reads fail. -/
structure PullSource where
  rest : List UInt8
  sizes : Nat → Nat
  fault : Nat → Option ReadFault
  reads : Nat

/-- One call of the read function with room for `max` bytes. It delivers at
least one byte unless the source is exhausted. -/
def PullSource.read (src : PullSource) (max : Nat) : Except ReadFault (List UInt8) × PullSource :=
  match src.fault src.reads with
  | some f => (.error f, { src with reads := src.reads + 1 })
  | none =>
    let n := min (Nat.max 1 (src.sizes src.reads)) max
    (.ok (src.rest.take n), { src with rest := src.rest.drop n, reads := src.reads + 1 })

/-! ## State -/

/-- `AxlJsonError`. -/
structure JsonError where
  code : ErrorCode
  offset : Nat
  line : UInt32
  column : UInt32
  missingFlag : AxlJsonFlags
  deriving DecidableEq, Repr

/-- The record of a parse without error. -/
def JsonError.none : JsonError := ⟨.ok, 0, 0, 0, 0⟩

/-- The `SCAN_ST_*` states. -/
inductive ScanState where
  | valueRoot
  | value
  | arrFirst
  | objFirst
  | objKey
  | colon
  | after
  | rootDone
  | done
  deriving DecidableEq, Repr

/-- `AxlJsonScanner`. `inArray d` is the bit of the container at level `d`. -/
structure Scanner where
  src : Option PullSource
  srcEof : Bool
  json : List UInt8
  pos : Nat
  base : Nat
  bufCap : Nat
  flags : AxlJsonFlags
  depth : Nat
  maxDepth : Nat
  line : UInt32
  column : UInt32
  state : ScanState
  inArray : Nat → Bool
  err : JsonError
  done : Bool

/-- `AxlJsonEventKind`. -/
inductive EventKind where
  | objBegin
  | objEnd
  | arrBegin
  | arrEnd
  | key
  | string
  | number
  | bool
  | null
  | eof
  deriving DecidableEq, Repr

/-- The bytes behind the `text` pointer of an event: none for NULL, and `wild`
where pointer and length leave the window. -/
inductive EventText where
  | null
  | bytes (bs : List UInt8)
  | wild
  deriving DecidableEq, Repr

/-- `AxlJsonEvent`; `start` is the distance of `text` from the window. -/
structure Event where
  kind : EventKind
  start : Int
  text : EventText
  len : Nat
  offset : Nat
  depth : Nat
  deriving DecidableEq, Repr

/-- The cast to `int`. -/
def toInt32 (n : Nat) : Int := (BitVec.ofNat 32 n).toInt

/-- The cast of an `int` to `size_t`. -/
def toSize (i : Int) : Nat := (BitVec.ofInt 64 i).toNat

/-- The `len` bytes at `json + start`. -/
def textAt (json : List UInt8) (start : Int) (len : Nat) : EventText :=
  if 0 ≤ start ∧ start.toNat + len ≤ json.length then
    .bytes ((json.drop start.toNat).take len)
  else .wild

namespace Scanner

/-- `scan_at_eof`. -/
def atEof (s : Scanner) : Bool := s.src.isNone || s.srcEof

/-- Advance line and column over a byte: columns count characters. -/
def stepLineCol (lc : UInt32 × UInt32) (c : UInt8) : UInt32 × UInt32 :=
  if c = 0x0A then (lc.1 + 1, 1)
  else if c &&& 0xC0 ≠ 0x80 then (lc.1, lc.2 + 1)
  else lc

/-- The loop of `scan_carry_line_col` and `scan_line_col`. -/
def lineColOver (lc : UInt32 × UInt32) (bs : List UInt8) : UInt32 × UInt32 :=
  bs.foldl stepLineCol lc

/-- `scan_line_col` for the offset `pos` in the window. -/
def lineCol (s : Scanner) (pos : Nat) : UInt32 × UInt32 :=
  lineColOver (s.line, s.column) (s.json.take (min pos s.json.length))

/-- `scan_fail` at the input offset `off`; the first failure wins. -/
def fail (s : Scanner) (code : ErrorCode) (off : Nat) (flag : AxlJsonFlags) : Scanner :=
  let lc := s.lineCol (off - s.base)
  let err := if s.err.code = .ok then ⟨code, off, lc.1, lc.2, flag⟩ else s.err
  { s with err := err, state := .done, done := true }

/-! ## Refilling the window -/

/-- The first window of a pull source, `SCAN_WINDOW_MIN`. -/
def windowMin : Nat := 1024

/-- Drop what is behind `pos`, carrying line and column over it. -/
def compact (s : Scanner) : Scanner :=
  if s.pos > 0 then
    let lc := lineColOver (s.line, s.column) (s.json.take s.pos)
    { s with
      json := s.json.drop s.pos, base := s.base + s.pos, pos := 0, line := lc.1, column := lc.2 }
  else s

/-- Make room in a full buffer. -/
def grow (s : Scanner) : Scanner :=
  if s.json.length ≥ s.bufCap then
    { s with bufCap := if s.bufCap = 0 then windowMin else s.bufCap * 2 }
  else s

/-- The read loop of `scan_refill`; false after a read fault. -/
def fillLoop : Nat → Scanner → Bool × Scanner
  | 0, s => (true, s)
  | fuel + 1, s =>
    match s.src with
    | none => (true, s)
    | some src =>
      if s.json.length < s.bufCap then
        match src.read (s.bufCap - s.json.length) with
        | (.error _, src) => (false, { s with src := some src }.fail .io (s.base + s.pos) 0)
        | (.ok [], src) => (true, { s with src := some src, srcEof := true })
        | (.ok bs, src) => fillLoop fuel { s with src := some src, json := s.json ++ bs }
      else (true, s)

/-- `scan_refill`. -/
def refill (s : Scanner) : Bool × Scanner :=
  if s.atEof then (false, s)
  else
    let s := s.compact
    let keep := s.json.length
    let s := s.grow
    match fillLoop (s.bufCap - s.json.length + 1) s with
    | (false, s) => (false, s)
    | (true, s) => (s.json.length > keep || s.srcEof, s)

/-! ## Leaves -/

/-- `scan_leaf` after a failure: adopt the leaf's error. -/
def adopt (s : Scanner) (at_ : Nat) (e : LexError) : Scanner :=
  let off := at_ + e.offset
  let lc := s.lineCol off
  let code := if e.code = .unknown then .unexpectedByte else e.code
  let err := if s.err.code = .ok then ⟨code, s.base + off, lc.1, lc.2, e.missingFlag⟩ else s.err
  { s with err := err, state := .done, done := true }

/-- `scan_leaf_run`: run a leaf, and start it over as long as the window is what
ran out. The result is the span of the token in the window. -/
def leafRun (kind : LeafKind) : Nat → Scanner → Option (Nat × Nat) × Scanner
  | 0, s => (none, s)
  | fuel + 1, s =>
    match leaf s.flags kind s.atEof (s.json.drop s.pos) with
    | .ok span pos =>
      (some (s.pos + span.1, s.pos + span.2), { s with pos := s.pos + pos })
    | .fail e resumeAt =>
      if e.code = .incomplete then
        match { s with pos := s.pos + resumeAt }.refill with
        | (true, s') => leafRun kind fuel s'
        | (false, s') => (none, s'.adopt s.pos e)
      else (none, s.adopt s.pos e)

/-- Enough turns for `leafRun`: every refill but the last takes a byte. -/
def turns (s : Scanner) : Nat := (s.src.elim 0 fun src => src.rest.length) + 3

/-- The loop of `scan_leaf_run` with enough fuel. -/
def runLeaf (s : Scanner) (kind : LeafKind) : Option (Nat × Nat) × Scanner :=
  leafRun kind s.turns s

/-! ## Events -/

/-- `scan_emit` for a delimiter or the end of a document. -/
def bareEvent (kind : EventKind) (offset depth : Nat) : Event := ⟨kind, 0, .null, 0, offset, depth⟩

/-- `scan_emit` for the token of a leaf, its span cast to `int`. -/
def textEvent (s : Scanner) (kind : EventKind) (span : Nat × Nat) (offset : Nat) : Event :=
  let start := toInt32 span.1
  let len := toSize (toInt32 span.2 - start)
  ⟨kind, start, textAt s.json start len, len, offset, s.depth⟩

/-- `scan_after_value`. -/
def afterValue (s : Scanner) : Scanner :=
  { s with state := if s.depth = 0 then .rootDone else .after }

/-- What one turn of the loop of `axl_json_scanner_next` does. -/
inductive Step where
  | event (ev : Event) (s : Scanner)
  | again (s : Scanner)
  | stop (s : Scanner)

/-- `scan_open`. -/
def openContainer (s : Scanner) (isArray : Bool) : Step :=
  if s.depth ≥ s.maxDepth then .stop (s.fail .depth (s.base + s.pos) 0)
  else
    .event (bareEvent (if isArray then .arrBegin else .objBegin) (s.base + s.pos) s.depth)
      { s with
        depth := s.depth + 1, inArray := Function.update s.inArray (s.depth + 1) isArray,
        pos := s.pos + 1, state := if isArray then .arrFirst else .objFirst }

/-- `scan_close`. -/
def closeContainer (s : Scanner) (isArray : Bool) : Step :=
  let s' := { s with pos := s.pos + 1, depth := s.depth - 1 }
  .event (bareEvent (if isArray then .arrEnd else .objEnd) (s.base + s.pos) s'.depth) s'.afterValue

/-- A leaf value: run the leaf and emit its token. -/
def leafValue (s : Scanner) (leafKind : LeafKind) (kind : Scanner → Nat × Nat → EventKind) : Step :=
  match s.runLeaf leafKind with
  | (none, s') => .stop s'
  | (some span, s') => .event (s'.textEvent (kind s' span) span (s.base + s.pos)) s'.afterValue

/-- The classification of a keyword by its first byte, `json[span.start]`. -/
def literalKind (s : Scanner) (span : Nat × Nat) : EventKind :=
  let start := toInt32 span.1
  let c := if 0 ≤ start then (s.json.drop start.toNat).head? else none
  if c = some 0x74 ∨ c = some 0x66 then .bool
  else if c = some 0x6E ∧ toSize (toInt32 span.2 - start) = 4 then .null
  else .number

/-- `scan_value`; `c` is the byte at the cursor. -/
def scanValue (s : Scanner) (c : UInt8) : Step :=
  if c = 0x7B then s.openContainer false -- '{'
  else if c = 0x5B then s.openContainer true -- '['
  else if c = 0x22 ∨ c = 0x27 then -- '"' or '\''
    if c = 0x27 ∧ allows s.flags allowSingleQuotes = false then
      .stop (s.fail .dialect (s.base + s.pos) allowSingleQuotes)
    else s.leafValue (.string c) fun _ _ => .string
  else if c = 0x2B ∨ c = 0x2D ∨ isDigit c ∨ c = 0x2E then
    s.leafValue .number fun _ _ => .number
  else if isIdentStart c then s.leafValue .literal literalKind
  else .stop (s.fail .unexpectedByte (s.base + s.pos) 0)

/-- The leaf of a key, `LEAF_STRING` or `LEAF_IDENT`, and its event. -/
def leafKey (s : Scanner) (leafKind : LeafKind) : Step :=
  match s.runLeaf leafKind with
  | (none, s') => .stop s'
  | (some span, s') =>
    .event (s'.textEvent .key span (s.base + s.pos)) { s' with state := .colon }

/-- `scan_key`; `c` is the byte at the cursor. -/
def scanKey (s : Scanner) (c : UInt8) : Step :=
  if c = 0x22 ∨ c = 0x27 then
    if c = 0x27 ∧ allows s.flags allowSingleQuotes = false then
      .stop (s.fail .dialect (s.base + s.pos) allowSingleQuotes)
    else s.leafKey (.string c)
  else if isIdentStart c then
    if allows s.flags allowUnquotedKeys = false then
      .stop (s.fail .dialect (s.base + s.pos) allowUnquotedKeys)
    else s.leafKey .ident
  else .stop (s.fail .unexpectedByte (s.base + s.pos) 0)

/-- The `switch` over the states, on the byte `c` at the cursor. -/
def dispatch (s : Scanner) (c : UInt8) : Step :=
  match s.state with
  | .valueRoot => s.scanValue c
  | .value =>
    -- the closer behind a trailing comma of an array
    if s.depth > 0 ∧ c = 0x5D ∧ allows s.flags allowTrailingComma = true ∧
        s.inArray s.depth = true then
      s.closeContainer true
    else s.scanValue c
  | .arrFirst => if c = 0x5D then s.closeContainer true else s.scanValue c
  | .objFirst => if c = 0x7D then s.closeContainer false else s.scanKey c
  | .objKey =>
    if c = 0x7D then
      if allows s.flags allowTrailingComma then s.closeContainer false
      else .stop (s.fail .dialect (s.base + s.pos) allowTrailingComma)
    else s.scanKey c
  | .colon =>
    if c = 0x3A then .again { s with pos := s.pos + 1, state := .value }
    else .stop (s.fail .unexpectedByte (s.base + s.pos) 0)
  | .after =>
    let arr := s.inArray s.depth
    if c = 0x2C then
      .again { s with pos := s.pos + 1, state := if arr then .value else .objKey }
    else if (arr = true ∧ c = 0x5D) ∨ (arr = false ∧ c = 0x7D) then s.closeContainer arr
    else .stop (s.fail .unexpectedByte (s.base + s.pos) 0)
  | .rootDone => .stop { s with done := true }
  | .done => .stop { s with done := true }

/-- One turn of the loop of `axl_json_scanner_next`. -/
def turn (s : Scanner) : Step :=
  if s.state = .rootDone then
    .event (bareEvent .eof (s.base + s.pos) 0) { s with state := .valueRoot }
  else
    match s.runLeaf .ws with
    | (none, s) => .stop s
    | (some _, s) =>
      match s.json.drop s.pos with
      | [] =>
        if s.state = .valueRoot ∧ s.depth = 0 then .stop { s with done := true }
        else .stop (s.fail .incomplete (s.base + s.pos) 0)
      | c :: _ => s.dispatch c

/-- The loop of `axl_json_scanner_next`: a separator takes one more turn. -/
def nextLoop : Nat → Scanner → Option Event × Scanner
  | 0, s => (none, s)
  | fuel + 1, s =>
    match s.turn with
    | .event ev s => (some ev, s)
    | .again s => nextLoop fuel s
    | .stop s => (none, s)

/-- `axl_json_scanner_next`. The byte after a separator is not a separator
again, so two turns are enough. -/
def next (s : Scanner) : Option Event × Scanner :=
  if s.done then (none, s) else nextLoop 2 s

/-- `axl_json_scanner_consumed`. -/
def consumed (s : Scanner) : Nat := s.base + s.pos

/-- Call `axl_json_scanner_next` up to `n` times, until it returns false. -/
def drain : Nat → Scanner → List (Event × Nat) × Scanner
  | 0, s => ([], s)
  | n + 1, s =>
    match s.next with
    | (none, s) => ([], s)
    | (some ev, s) =>
      let r := drain n s
      ((ev, s.consumed) :: r.1, r.2)

/-! ## Initialisation -/

/-- The depth limit that a flags word asks for. -/
def depthLimit (flags : AxlJsonFlags) : Nat :=
  let requested := min (depthOf flags) depthMax
  if requested = 0 then depthDefault else requested

/-- The zeroed scanner. -/
def zeroed : Scanner :=
  { src := none, srcEof := false, json := [], pos := 0, base := 0, bufCap := 0, flags := 0,
    depth := 0, maxDepth := 0, line := 0, column := 0, state := .valueRoot,
    inArray := fun _ => false, err := .none, done := false }

/-- What `axl_json_scanner_init` is given: a contiguous view or a read function. -/
inductive Input where
  | view (bytes : List UInt8)
  | pull (src : PullSource)

/-- `axl_json_scanner_init`. The reserved UTF-8 mode is refused. -/
def init (input : Input) (flags : AxlJsonFlags) : Bool × Scanner :=
  if utf8Of flags = utf8Mask then (false, zeroed.fail .invalidArgument 0 0)
  else
    let s := { zeroed with flags := flags, line := 1, column := 1, maxDepth := depthLimit flags }
    match input with
    | .view bytes => (true, { s with json := bytes })
    | .pull src => (true, { s with src := some src })

end Scanner

/-! ## Short spans -/

theorem toInt32_of_lt {n : Nat} (h : n < 2 ^ 31) : toInt32 n = n := by
  unfold toInt32
  rw [BitVec.toInt_eq_toNat_of_lt] <;> simp only [BitVec.toNat_ofNat] <;> omega

theorem toSize_of_lt {n : Nat} (h : n < 2 ^ 64) : toSize n = n := by
  simp only [toSize, BitVec.ofInt_natCast, BitVec.toNat_ofNat]
  omega

theorem toSize_sub {a b : Nat} (hab : a ≤ b) (hb : b < 2 ^ 31) :
    toSize (toInt32 b - toInt32 a) = b - a := by
  rw [toInt32_of_lt hb, toInt32_of_lt (by omega), ← Int.ofNat_sub hab, toSize_of_lt (by omega)]

end Json

end AxlSdk
