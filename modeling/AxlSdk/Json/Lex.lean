import Mathlib

/-!
# The leaves of the JSON lexer

`axl-json-lex.c` recognises tokens with five leaf functions: `skip_ws`,
`parse_string`, `parse_identifier`, `parse_number` and `parse_literal`. A leaf
sees the unread bytes of the window, the flags word that selects the dialect,
and `eof`: whether the window ends where the input ends. All offsets of a leaf's
result count from the byte at which the leaf started.

- `AxlJsonFlags` is the 64-bit flags word, with the source's bit positions.
- `lexFail` reclassifies a failure at the end of a window as `incomplete`.
- `LeafResult.fail` carries `resume_at`: what a refill may drop.
-/

namespace AxlSdk

namespace Json

/-! ## Flags -/

/-- `AxlJsonFlags`. -/
abbrev AxlJsonFlags := BitVec 64

def allowComments : AxlJsonFlags := 1#64 <<< 0
def allowTrailingComma : AxlJsonFlags := 1#64 <<< 1
def allowUnquotedKeys : AxlJsonFlags := 1#64 <<< 2
def allowSingleQuotes : AxlJsonFlags := 1#64 <<< 3
def allowHex : AxlJsonFlags := 1#64 <<< 4
def allowExtraEscapes : AxlJsonFlags := 1#64 <<< 5
def allowPlusSign : AxlJsonFlags := 1#64 <<< 6
def allowLeadingPoint : AxlJsonFlags := 1#64 <<< 7
def allowNanInf : AxlJsonFlags := 1#64 <<< 8
def allowExtraWhitespace : AxlJsonFlags := 1#64 <<< 9

/-- `AXL_JSON_STRICT`: RFC 8259. -/
def strict : AxlJsonFlags := 0#64

/-- `AXL_JSON_JSON5`. -/
def json5 : AxlJsonFlags :=
  allowComments ||| allowTrailingComma ||| allowUnquotedKeys ||| allowSingleQuotes |||
    allowHex ||| allowExtraEscapes ||| allowPlusSign ||| allowLeadingPoint ||| allowNanInf |||
    allowExtraWhitespace

/-- `dialect_allows`, and every other test of a single bit. -/
def allows (flags feature : AxlJsonFlags) : Bool := flags &&& feature != 0#64

def utf8Repair : AxlJsonFlags := 0#64 <<< 10
def utf8Raw : AxlJsonFlags := 1#64 <<< 10
def utf8Strict : AxlJsonFlags := 2#64 <<< 10
def utf8Mask : AxlJsonFlags := 3#64 <<< 10

/-- `AXL_JSON_UTF8_OF`. -/
def utf8Of (flags : AxlJsonFlags) : AxlJsonFlags := flags &&& utf8Mask

def depthDefault : Nat := 32
def depthMax : Nat := 256

/-- `AXL_JSON_DEPTH(n)`. -/
def depthFlag (n : Nat) : AxlJsonFlags := BitVec.ofNat 64 (min n depthMax) <<< 38

/-- `AXL_JSON_DEPTH_OF`. -/
def depthOf (flags : AxlJsonFlags) : Nat := ((flags >>> 38) &&& 0x3FF#64).toNat

/-! ## Errors -/

/-- `AxlJsonErrorCode`. -/
inductive ErrorCode where
  | ok
  | unknown
  | incomplete
  | unexpectedByte
  | badEscape
  | badNumber
  | badUtf8
  | depth
  | trailing
  | duplicateKey
  | dialect
  | io
  | noMemory
  | writerState
  | invalidArgument
  | truncated
  deriving DecidableEq, Repr

/-- What a leaf records about a failure. -/
structure LexError where
  code : ErrorCode
  offset : Nat
  missingFlag : AxlJsonFlags
  deriving DecidableEq, Repr

/-- What a leaf did: the span of its token and the cursor behind it, or a
failure with the offset from which a refill may resume. -/
inductive LeafResult where
  | ok (span : Nat × Nat) (pos : Nat)
  | fail (err : LexError) (resumeAt : Nat)
  deriving DecidableEq, Repr

/-- `lex_fail`. `here` holds the unread bytes at the cursor: a failure raised at
the end of a window is one about the window. -/
def lexFail (eof : Bool) (here : List UInt8) (code : ErrorCode) (pos : Nat)
    (flag : AxlJsonFlags) : LexError :=
  if !eof && here.isEmpty then ⟨.incomplete, pos, 0⟩ else ⟨code, pos, flag⟩

/-! ## Characters -/

/-- `axl_isspace`. -/
def isSpace (c : UInt8) : Bool :=
  c == 0x20 || c == 0x09 || c == 0x0A || c == 0x0D || c == 0x0B || c == 0x0C

/-- `axl_isdigit`. -/
def isDigit (c : UInt8) : Bool := 0x30 ≤ c && c ≤ 0x39

/-- `axl_isxdigit`. -/
def isXdigit (c : UInt8) : Bool :=
  isDigit c || (0x61 ≤ c && c ≤ 0x66) || (0x41 ≤ c && c ≤ 0x46)

/-- `axl_isalpha`. -/
def isAlpha (c : UInt8) : Bool := (0x61 ≤ c && c ≤ 0x7A) || (0x41 ≤ c && c ≤ 0x5A)

/-- `is_ident_start`: a letter, `_` or `$`. -/
def isIdentStart (c : UInt8) : Bool := isAlpha c || c == 0x5F || c == 0x24

/-- `is_ident_cont`. -/
def isIdentCont (c : UInt8) : Bool := isIdentStart c || isDigit c

/-! ## Whitespace and comments -/

/-- Where `skip_ws` is: between things, in a line comment or in a block comment. -/
inductive WsMode where
  | between
  | line
  | block
  deriving DecidableEq, Repr

/-- The loops of `skip_ws`, its two inner loops as modes. `pos` is the cursor
and `res` is `resume_at`, which a comment leaves at its opening slash. -/
@[grind =] def skipWsLoop (flags : AxlJsonFlags) (eof : Bool) :
    WsMode → List UInt8 → Nat → Nat → LeafResult
  | .between, [], pos, res =>
    if eof then .ok (0, 0) pos else .fail (lexFail eof [] .incomplete pos 0) res
  | .between, c :: cs, pos, _ =>
    if isSpace c then
      if (c = 0x0B ∨ c = 0x0C) ∧ allows flags allowExtraWhitespace = false then
        .fail (lexFail eof (c :: cs) .dialect pos allowExtraWhitespace) pos
      else skipWsLoop flags eof .between cs (pos + 1) (pos + 1)
    else if c = 0x2F then -- '/'
      match cs with
      | [] => if eof then .ok (0, 0) pos else .fail (lexFail eof (c :: cs) .incomplete pos 0) pos
      | n :: cs' =>
        if n = 0x2F ∨ n = 0x2A then
          if allows flags allowComments = false then
            .fail (lexFail eof (c :: cs) .dialect pos allowComments) pos
          else if n = 0x2F then skipWsLoop flags eof .line cs' (pos + 2) pos
          else skipWsLoop flags eof .block cs' (pos + 2) pos
        else .ok (0, 0) pos
    else .ok (0, 0) pos
  | .line, [], pos, res =>
    if eof then .ok (0, 0) pos else .fail (lexFail eof [] .incomplete pos 0) res
  | .line, c :: cs, pos, res =>
    -- the line break itself is whitespace of the outer loop
    if c = 0x0A ∨ c = 0x0D then skipWsLoop flags eof .between cs (pos + 1) (pos + 1)
    else skipWsLoop flags eof .line cs (pos + 1) res
  | .block, [], pos, res => .fail (lexFail eof [] .incomplete pos 0) res
  | .block, c :: cs, pos, res =>
    match cs with
    | [] => .fail (lexFail eof (c :: cs) .incomplete pos 0) res
    | d :: ds =>
      if c = 0x2A ∧ d = 0x2F then skipWsLoop flags eof .between ds (pos + 2) res
      else skipWsLoop flags eof .block (d :: ds) (pos + 1) res

/-- `skip_ws`. -/
def skipWs (flags : AxlJsonFlags) (eof : Bool) (s : List UInt8) : LeafResult :=
  skipWsLoop flags eof .between s 0 0

/-! ## Strings -/

/-- The digit loop of a `\u` escape: what is wrong with the next `k` digits. -/
def uEscapeError : Nat → List UInt8 → Option ErrorCode
  | 0, _ => none
  | _ + 1, [] => some .incomplete
  | k + 1, d :: ds => if isXdigit d then uEscapeError k ds else some .badEscape

/-- The escapes of RFC 8259 other than `\u`: `" \ / b f n r t`. -/
def isRfcEscape (e : UInt8) : Bool :=
  e == 0x22 || e == 0x5C || e == 0x2F || e == 0x62 || e == 0x66 || e == 0x6E || e == 0x72 ||
    e == 0x74

/-- A backslash in `parse_string`, on the bytes behind it: how many bytes the
escape takes, or what is wrong with it. -/
def escapeUnit (flags : AxlJsonFlags) : List UInt8 → Except (ErrorCode × AxlJsonFlags) Nat
  | [] => .error (.incomplete, 0)
  | e :: es =>
    if e = 0x78 ∧ allows flags allowExtraEscapes = true then -- 'x'
      match es with
      | h₁ :: h₂ :: _ => if isXdigit h₁ && isXdigit h₂ then .ok 4 else .error (.badEscape, 0)
      | _ => .error (.incomplete, 0)
    else if e = 0x75 then -- 'u'
      match uEscapeError 4 es with
      | none => .ok 6
      | some code => .error (code, 0)
    else if allows flags allowExtraEscapes = false ∧ isRfcEscape e = false then
      .error (.dialect, allowExtraEscapes)
    -- `<CR><LF>` is one line continuation
    else .ok (if e = 0x0D ∧ es.head? = some 0x0A then 3 else 2)

/-- One turn of the loop of `parse_string`, not on the closing quote. -/
def stringUnit (flags : AxlJsonFlags) : List UInt8 → Except (ErrorCode × AxlJsonFlags) Nat
  | [] => .error (.incomplete, 0)
  | c :: cs =>
    if c = 0x5C then escapeUnit flags cs -- '\\'
    else if c < 0x20 then
      if c = 0x09 then
        if allows flags allowExtraWhitespace then .ok 1 else .error (.dialect, allowExtraWhitespace)
      else .error (.unexpectedByte, 0)
    else .ok 1

/-- The loop of `parse_string`; `pos` is the cursor. -/
def parseStringLoop (flags : AxlJsonFlags) (eof : Bool) (quote : UInt8) :
    Nat → List UInt8 → Nat → LeafResult
  | 0, s, pos => .fail (lexFail eof s .incomplete pos 0) 0
  | fuel + 1, s, pos =>
    if s.head? = some quote then .ok (1, pos) (pos + 1)
    else
      match stringUnit flags s with
      | .error (code, flag) => .fail (lexFail eof s code pos flag) 0
      | .ok n => parseStringLoop flags eof quote fuel (s.drop n) (pos + n)

/-- `parse_string`, on its opening quote. The span brackets the inner content. -/
def parseString (flags : AxlJsonFlags) (eof : Bool) (quote : UInt8) (s : List UInt8) :
    LeafResult :=
  parseStringLoop flags eof quote s.length s.tail 1

/-! ## Identifiers, numbers and literals -/

/-- `parse_identifier`. -/
def parseIdentifier (eof : Bool) (s : List UInt8) : LeafResult :=
  let n := (s.takeWhile isIdentCont).length
  if (s.dropWhile isIdentCont).isEmpty && !eof then .fail (lexFail eof [] .incomplete n 0) 0
  else .ok (0, n) n

/-- `NaN`. -/
def nanWord : List UInt8 := [0x4E, 0x61, 0x4E]

/-- `Infinity`. -/
def infinityWord : List UInt8 := [0x49, 0x6E, 0x66, 0x69, 0x6E, 0x69, 0x74, 0x79]

def trueWord : List UInt8 := [0x74, 0x72, 0x75, 0x65]
def falseWord : List UInt8 := [0x66, 0x61, 0x6C, 0x73, 0x65]
def nullWord : List UInt8 := [0x6E, 0x75, 0x6C, 0x6C]

/-- `[. frac]` in the decimal branch of `parse_number`: the unread bytes, the
cursor and `saw_frac`. -/
def fracPart (flags : AxlJsonFlags) (eof sawInt : Bool) (s : List UInt8) (pos : Nat) :
    Except LexError (List UInt8 × Nat × Bool) :=
  match s with
  | [] => .ok (s, pos, false)
  | c :: cs =>
    if c = 0x2E then
      if sawInt = false ∧ allows flags allowLeadingPoint = false then
        .error (lexFail eof s .dialect 0 allowLeadingPoint)
      else
        let frac := cs.takeWhile isDigit
        let rest := cs.dropWhile isDigit
        if frac = [] ∧ allows flags allowLeadingPoint = false then
          .error (lexFail eof rest .dialect 0 allowLeadingPoint)
        else .ok (rest, pos + 1 + frac.length, frac != [])
    else .ok (s, pos, false)

/-- The sign of an exponent. -/
def expSign (s : List UInt8) : Nat :=
  match s with
  | [] => 0
  | c :: _ => if c = 0x2B ∨ c = 0x2D then 1 else 0

/-- `[exp]` in the decimal branch of `parse_number`. -/
def expPart (eof : Bool) (s : List UInt8) (pos : Nat) : Except LexError (List UInt8 × Nat) :=
  match s with
  | [] => .ok (s, pos)
  | e :: es =>
    if e = 0x65 ∨ e = 0x45 then
      let digits := es.drop (expSign es)
      let exp := digits.takeWhile isDigit
      let rest := digits.dropWhile isDigit
      if exp = [] then .error (lexFail eof rest .badNumber 0 0)
      else .ok (rest, pos + 1 + expSign es + exp.length)
    else .ok (s, pos)

/-- The decimal branch of `parse_number`, from the first byte after the sign at
offset `pos`: the unread bytes and the cursor, or the failure. -/
def parseDecimal (flags : AxlJsonFlags) (eof : Bool) (s : List UInt8) (pos : Nat) :
    Except LexError (List UInt8 × Nat) :=
  let int := s.takeWhile isDigit
  let rest := s.dropWhile isDigit
  if int.length > 1 ∧ int.head? = some 0x30 then .error (lexFail eof rest .badNumber 0 0)
  else
    match fracPart flags eof (int != []) rest (pos + int.length) with
    | .error e => .error e
    | .ok (rest, pos, sawFrac) =>
      if int = [] ∧ sawFrac = false then .error (lexFail eof rest .badNumber 0 0)
      else expPart eof rest pos

/-- The signed `NaN` and `Infinity` of `parse_number`, from the byte after the
sign: the first of the words that stands there decides. -/
def parseSignedWord (flags : AxlJsonFlags) (eof : Bool) (s : List UInt8) :
    List (List UInt8) → Option LeafResult
  | [] => none
  | w :: ws =>
    if w.isPrefixOf s then
      let rest := s.drop w.length
      if allows flags allowNanInf = false then
        some (.fail (lexFail eof s .dialect 0 allowNanInf) 0)
      else if rest.isEmpty && !eof then some (.fail (lexFail eof s .incomplete 1 0) 0)
      else if rest.head?.any isIdentCont then some (.fail (lexFail eof s .badNumber 0 0) 0)
      else some (.ok (0, 1 + w.length) (1 + w.length))
    else parseSignedWord flags eof s ws

/-- The hexadecimal branch of `parse_number`, behind the `0x`. -/
def parseHex (eof : Bool) (s : List UInt8) (pos : Nat) : Except LexError (List UInt8 × Nat) :=
  let hex := s.takeWhile isXdigit
  let rest := s.dropWhile isXdigit
  if hex = [] then .error (lexFail eof rest .badNumber 0 0) else .ok (rest, pos + hex.length)

/-- The end of `parse_number`: a number that touches the edge of the window may
go on. -/
def finishNumber (eof : Bool) (r : Except LexError (List UInt8 × Nat)) : LeafResult :=
  match r with
  | .error e => .fail e 0
  | .ok (rest, pos) =>
    if rest.isEmpty && !eof then .fail (lexFail eof rest .incomplete pos 0) 0
    else .ok (0, pos) pos

/-- The number starts with `0x` or `0X`. -/
def isHexPrefix (s : List UInt8) : Bool :=
  match s with
  | z :: x :: _ => z == 0x30 && (x == 0x78 || x == 0x58)
  | _ => false

/-- `parse_number` behind an optional sign of `sign` bytes. -/
def parseUnsigned (flags : AxlJsonFlags) (eof : Bool) (sign : Nat) (s : List UInt8) :
    LeafResult :=
  if isHexPrefix s then
    if allows flags allowHex = false then .fail (lexFail eof s .dialect 0 allowHex) 0
    else finishNumber eof (parseHex eof (s.drop 2) (sign + 2))
  else finishNumber eof (parseDecimal flags eof s sign)

/-- `parse_number`, on a sign, a digit or a point. -/
def parseNumber (flags : AxlJsonFlags) (eof : Bool) (s : List UInt8) : LeafResult :=
  match s with
  | c :: cs =>
    if c = 0x2D ∨ c = 0x2B then
      if c = 0x2B ∧ allows flags allowPlusSign = false then
        .fail (lexFail eof s .dialect 0 allowPlusSign) 0
      -- settle the word behind the sign before matching it
      else if !eof && cs.head?.any isIdentStart && (cs.dropWhile isIdentCont).isEmpty then
        .fail (lexFail eof cs .incomplete 1 0) 0
      else
        match parseSignedWord flags eof cs [nanWord, infinityWord] with
        | some r => r
        | none => parseUnsigned flags eof 1 cs
    else parseUnsigned flags eof 0 s
  | [] => parseUnsigned flags eof 0 s

/-- The keyword table of `parse_literal`, with the flag each word needs. -/
def keywords : List (List UInt8 × AxlJsonFlags) :=
  [(trueWord, 0), (falseWord, 0), (nullWord, 0), (nanWord, allowNanInf),
    (infinityWord, allowNanInf)]

/-- A keyword that the flags allow stands here, and no identifier goes on. -/
def keywordMatches (flags : AxlJsonFlags) (s : List UInt8) (k : List UInt8 × AxlJsonFlags) :
    Bool :=
  (k.2 == 0 || allows flags k.2) && k.1.isPrefixOf s &&
    !(s.drop k.1.length).head?.any isIdentCont

/-- `parse_literal`, on the first byte of an identifier. -/
def parseLiteral (flags : AxlJsonFlags) (eof : Bool) (s : List UInt8) : LeafResult :=
  if !eof && (s.dropWhile isIdentCont).isEmpty then .fail (lexFail eof s .incomplete 0 0) 0
  else
    match keywords.find? (keywordMatches flags s) with
    | some k => .ok (0, k.1.length) k.1.length
    | none =>
      -- say which gated keyword this was
      match keywords.find? fun k => k.2 != 0 && k.1.isPrefixOf s with
      | some k => .fail (lexFail eof s .dialect 0 k.2) 0
      | none => .fail (lexFail eof s .unexpectedByte 0 0) 0

/-! ## Leaves by kind -/

/-- `LeafKind`, with the quote of a string. -/
inductive LeafKind where
  | ws
  | string (quote : UInt8)
  | ident
  | number
  | literal
  deriving DecidableEq, Repr

/-- The `switch` of `scan_leaf_run`. -/
def leaf (flags : AxlJsonFlags) (kind : LeafKind) (eof : Bool) (s : List UInt8) : LeafResult :=
  match kind with
  | .ws => skipWs flags eof s
  | .string quote => parseString flags eof quote s
  | .ident => parseIdentifier eof s
  | .number => parseNumber flags eof s
  | .literal => parseLiteral flags eof s

end Json

end AxlSdk
