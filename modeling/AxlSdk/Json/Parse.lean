import AxlSdk.Json.Decode
import AxlSdk.Json.Scanner

/-!
# Whole-document parsing

`axl_json_parse` drains a scanner over one view and builds a token array from
its events: a container's token is appended when it opens and patched when it
closes. The trailing region and the two policies over the finished document
(strict UTF-8, no duplicate keys) come after the scan. Allocations succeed.
-/

namespace AxlSdk

namespace Json

/-! ## Tokens -/

/-- `AxlJsonTokType`. -/
inductive TokType where
  | object
  | array
  | string
  | primitive
  deriving DecidableEq, Repr

/-- `AxlJsonTok`; `stop` is its `end`. -/
structure Tok where
  type : TokType
  start : Int
  stop : Int
  size : Nat
  deriving DecidableEq, Repr

/-- The bytes of a token. -/
def Tok.text (json : List UInt8) (t : Tok) : List UInt8 :=
  (json.drop t.start.toNat).take (t.stop.toNat - t.start.toNat)

/-- `Builder`: the tokens so far and, for every open container, innermost first,
the index of its token and its children so far (`BuildLevel`). -/
structure Builder where
  tokens : List Tok
  stack : List (Nat × Nat)
  deriving DecidableEq, Repr

namespace Builder

def empty : Builder := ⟨[], []⟩

/-- `build_count`: an object counts its keys, an array its values. -/
def buildCount (b : Builder) (isKey : Bool) : Builder :=
  match b.stack with
  | [] => b
  | (idx, count) :: stack =>
    if isKey ∨ (b.tokens[idx]?.map fun t => t.type) = some .array then
      { b with stack := (idx, count + 1) :: stack }
    else b

/-- `build_open`. -/
def buildOpen (b : Builder) (ev : Event) (type : TokType) : Builder :=
  { tokens := b.tokens ++ [⟨type, toInt32 ev.offset, -1, 0⟩],
    stack := (b.tokens.length, 0) :: b.stack }

/-- `build_close`. -/
def buildClose (b : Builder) (ev : Event) : Builder :=
  match b.stack with
  | [] => b
  | (idx, count) :: stack =>
    { tokens := b.tokens.modify idx fun t => { t with stop := toInt32 ev.offset + 1, size := count },
      stack := stack }

/-- `build_leaf`: the span of the text, not the offset of the event. -/
def buildLeaf (b : Builder) (ev : Event) (type : TokType) : Builder :=
  { b with tokens := b.tokens ++ [⟨type, ev.start, ev.start + toInt32 ev.len, 0⟩] }

/-- The `switch` of the loop of `axl_json_parse_internal`. -/
def event (b : Builder) (ev : Event) : Builder :=
  match ev.kind with
  | .eof => b
  | .objBegin => (b.buildCount false).buildOpen ev .object
  | .arrBegin => (b.buildCount false).buildOpen ev .array
  | .objEnd | .arrEnd => b.buildClose ev
  | .key => (b.buildCount true).buildLeaf ev .string
  | .string => (b.buildCount false).buildLeaf ev .string
  | .number | .bool | .null => (b.buildCount false).buildLeaf ev .primitive

end Builder

/-! ## Policies over the finished document -/

/-- The loop of `axl_json_check_utf8_strict`: the offset of the first byte that
starts no well-formed sequence. -/
def utf8StrictLoop : Nat → List UInt8 → Nat → Option Nat
  | 0, _, _ => none
  | _ + 1, [], _ => none
  | fuel + 1, b :: bs, pos =>
    if b < 0x80 then utf8StrictLoop fuel bs (pos + 1)
    else
      let r := utf8Step (b :: bs)
      if r.2 then utf8StrictLoop fuel ((b :: bs).drop r.1) (pos + r.1) else some pos

/-- `axl_json_check_utf8_strict`. -/
def checkUtf8Strict (json : List UInt8) : Option Nat := utf8StrictLoop json.length json 0

/-- `key_bytes_are_name`. -/
def keyBytesAreName (bytes : List UInt8) (utf8Mode : AxlJsonFlags) : Bool :=
  !bytes.contains 0x5C &&
    (utf8Of utf8Mode != utf8Repair || bytes.all fun b => b < 0x80)

/-- The string that a NUL-terminated buffer holds. -/
def cString (bytes : List UInt8) : List UInt8 := bytes.takeWhile (· != 0)

/-- `AXL_JSON_KEY_DECODE_BOUND`. -/
def keyDecodeBound (len : Nat) : Nat := len * 3 + 1

/-- `axl_json_decode_key_name`, and `dup_key_decode` measured by its caller. -/
def decodeKeyName (bytes : List UInt8) (dstSize : Nat) (utf8Mode : AxlJsonFlags) :
    Option (List UInt8) :=
  match decodeJsonString bytes dstSize utf8Mode with
  | some (name, false) => some (cString name)
  | _ => none

/-- `DUP_LINEAR_MAX`. -/
def dupLinearMax : Nat := 8

/-- The name of a key in `dup_check_object`: a small object borrows the bytes of
an escape-free key (`dup_key_borrow`). -/
def dupKeyName (bytes : List UInt8) (linear : Bool) (utf8Mode : AxlJsonFlags) :
    Option (List UInt8) :=
  if linear && keyBytesAreName bytes utf8Mode then some bytes
  else decodeKeyName bytes (keyDecodeBound bytes.length) utf8Mode

mutual

/-- `dup_check_subtree`: one past the subtree at `idx`, or the error. -/
def dupCheckSubtree (json : List UInt8) (toks : List Tok) (utf8Mode : AxlJsonFlags) :
    Nat → Nat → Except (ErrorCode × Nat) Nat
  | 0, _ => .error (.unknown, 0)
  | fuel + 1, idx =>
    match toks[idx]? with
    | none => .error (.unknown, 0)
    | some t =>
      match t.type with
      | .object =>
        dupCheckMembers json toks utf8Mode (t.size ≤ dupLinearMax) fuel t.size (idx + 1) []
      | .array => dupCheckItems json toks utf8Mode fuel t.size (idx + 1)
      | .string | .primitive => .ok (idx + 1)

/-- The loop of `dup_check_object` over the `pairs` members left; `seen` holds
the names so far. -/
def dupCheckMembers (json : List UInt8) (toks : List Tok) (utf8Mode : AxlJsonFlags)
    (linear : Bool) : Nat → Nat → Nat → List (List UInt8) → Except (ErrorCode × Nat) Nat
  | _, 0, next, _ => .ok next
  | 0, _ + 1, _, _ => .error (.unknown, 0)
  | fuel + 1, pairs + 1, next, seen =>
    match toks[next]? with
    | none => .error (.unknown, 0)
    | some kt =>
      if kt.type ≠ .string then .error (.unknown, 0)
      else
        match dupKeyName (kt.text json) linear utf8Mode with
        | none => .error (.noMemory, 0)
        | some name =>
          if seen.contains name then .error (.duplicateKey, kt.start.toNat)
          else
            match dupCheckSubtree json toks utf8Mode fuel (next + 1) with
            | .error e => .error e
            | .ok next => dupCheckMembers json toks utf8Mode linear fuel pairs next (name :: seen)

/-- The loop over the elements of an array in `dup_check_subtree`. -/
def dupCheckItems (json : List UInt8) (toks : List Tok) (utf8Mode : AxlJsonFlags) :
    Nat → Nat → Nat → Except (ErrorCode × Nat) Nat
  | _, 0, next => .ok next
  | 0, _ + 1, _ => .error (.unknown, 0)
  | fuel + 1, items + 1, next =>
    match dupCheckSubtree json toks utf8Mode fuel next with
    | .error e => .error e
    | .ok next => dupCheckItems json toks utf8Mode fuel items next

end

/-- `axl_json_check_duplicate_keys`; every call of the recursion reads a token
that no other one reads, so that twice their number is enough. -/
def checkDuplicateKeys (json : List UInt8) (toks : List Tok) (utf8Mode : AxlJsonFlags) :
    Option (ErrorCode × Nat) :=
  if toks = [] then none
  else
    match dupCheckSubtree json toks utf8Mode (2 * toks.length + 2) 0 with
    | .error e => some e
    | .ok _ => none

/-! ## Parsing -/

/-- `AXL_JSON_REJECT_DUPLICATES`. -/
def rejectDuplicates : AxlJsonFlags := 1#64 <<< 18

/-- The loop of `axl_json_parse_internal`; true when it met the end of a document. -/
def parseLoop : Nat → Scanner → Builder → Scanner × Builder × Bool
  | 0, s, b => (s, b, false)
  | fuel + 1, s, b =>
    match s.next with
    | (none, s) => (s, b, false)
    | (some ev, s) => if ev.kind = .eof then (s, b, true) else parseLoop fuel s (b.event ev)

/-- What follows the loop: input that ended early, or anything but a gap behind
the document. -/
def finishScan (s : Scanner) (atBoundary : Bool) : Scanner :=
  if !atBoundary then
    if s.err.code = .ok then s.fail .incomplete (s.base + s.pos) 0 else s
  else
    match s.runLeaf .ws with
    | (none, s) => s
    | (some _, s) =>
      if s.pos ≠ s.json.length then s.fail .trailing (s.base + s.pos) 0 else s

/-- The policies, over a document without error. -/
def applyPolicies (s : Scanner) (json : List UInt8) (flags : AxlJsonFlags) (toks : List Tok) :
    JsonError :=
  let at_ (e : ErrorCode × Nat) : JsonError :=
    let lc := s.lineCol e.2
    ⟨e.1, e.2, lc.1, lc.2, 0⟩
  match (if utf8Of flags = utf8Strict then checkUtf8Strict json else none) with
  | some pos => at_ (.badUtf8, pos)
  | none =>
    match (if allows flags rejectDuplicates then checkDuplicateKeys json toks (utf8Of flags)
      else none) with
    | some e => at_ e
    | none => .none

/-- The part of `AxlJsonReader` that a successful parse fills in. -/
structure Reader where
  json : List UInt8
  tokens : List Tok
  utf8Mode : AxlJsonFlags
  deriving DecidableEq, Repr

/-- `axl_json_parse_internal`. An event takes at least a byte of the document,
the last one apart. -/
def parseInternal (json : List UInt8) (flags : AxlJsonFlags) : Except JsonError Reader :=
  match Scanner.init (.view json) flags with
  | (false, s) => .error { JsonError.none with code := s.err.code }
  | (true, s) =>
    let r := parseLoop (json.length + 2) s .empty
    let s := finishScan r.1 r.2.2
    let err := if s.err.code = .ok then applyPolicies s json flags r.2.1.tokens else s.err
    if err.code = .ok then .ok ⟨json, r.2.1.tokens, utf8Of flags⟩ else .error err

/-- `axl_json_parse`. -/
def parse (json : List UInt8) (flags : AxlJsonFlags) : Except JsonError Reader :=
  if json = [] then .error { JsonError.none with code := .invalidArgument }
  else parseInternal json flags

end Json

end AxlSdk
