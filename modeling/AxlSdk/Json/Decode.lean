import AxlSdk.Json.Lex
import AxlSdk.Json.Utf8

/-!
# Decoding string and number tokens

`decode_json_string` resolves the escapes of a token into a buffer of a given
size, trims a sequence that the size cut in half and, in the REPAIR mode,
replaces ill-formed bytes. The integer accessors read a number token through
`parse_magnitude`.
-/

namespace AxlSdk

namespace Json

/-! ## Strings -/

/-- `axl_hex_nibble`. -/
def hexNibble (c : UInt8) : Option Nat :=
  if isDigit c then some (c.toNat - 0x30)
  else if 0x61 ≤ c ∧ c ≤ 0x66 then some (c.toNat - 0x61 + 10)
  else if 0x41 ≤ c ∧ c ≤ 0x46 then some (c.toNat - 0x41 + 10)
  else none

/-- The loop of `hex4`. -/
def hexDigits : Nat → List UInt8 → Nat → Option Nat
  | 0, _, v => some v
  | _ + 1, [], _ => none
  | k + 1, d :: ds, v =>
    match hexNibble d with
    | none => none
    | some n => hexDigits k ds (v * 16 + n)

/-- `hex4`. -/
def hex4 (s : List UInt8) : Option Nat := hexDigits 4 s 0

/-- The `\u` arm of `decode_json_string`, behind the `u`: the bytes it appends
and how many bytes of the source it takes, the backslash included. -/
def decodeUnicode (es : List UInt8) : List UInt8 × Nat :=
  match hex4 es with
  | none => ([0x75], 2)
  | some cp =>
    if 0xD800 ≤ cp ∧ cp ≤ 0xDBFF then
      -- a high surrogate needs the low one of the next escape
      let next := es.drop 4
      match (if next.take 2 = [0x5C, 0x75] then hex4 (next.drop 2) else none) with
      | some lo =>
        if 0xDC00 ≤ lo ∧ lo ≤ 0xDFFF then
          (utf8Encode (0x10000 + (cp - 0xD800) * 1024 + (lo - 0xDC00)), 12)
        else (replacement, 6)
      | none => (replacement, 6)
    else if (0xDC00 ≤ cp ∧ cp ≤ 0xDFFF) ∨ cp = 0 then (replacement, 6)
    else (utf8Encode cp, 6)

/-- The `\x` arm, behind the `x`. -/
def decodeHexEscape (es : List UInt8) : List UInt8 × Nat :=
  match es.head?.bind hexNibble, es.tail.head?.bind hexNibble with
  | some hi, some lo =>
    if hi * 16 + lo = 0 then (replacement, 4) else (utf8Encode (hi * 16 + lo), 4)
  | _, _ => ([0x78], 2)

/-- The `switch` over the byte behind a backslash. -/
def decodeEscape (e : UInt8) (es : List UInt8) : List UInt8 × Nat :=
  if e = 0x62 then ([0x08], 2) -- 'b'
  else if e = 0x66 then ([0x0C], 2) -- 'f'
  else if e = 0x6E then ([0x0A], 2) -- 'n'
  else if e = 0x72 then ([0x0D], 2) -- 'r'
  else if e = 0x74 then ([0x09], 2) -- 't'
  else if e = 0x76 then ([0x0B], 2) -- 'v'
  else if e = 0x30 then (replacement, 2) -- '0'
  else if e = 0x78 then decodeHexEscape es -- 'x'
  else if e = 0x75 then decodeUnicode es -- 'u'
  else if e = 0x0A then ([], 2)
  else if e = 0x0D then ([], if es.head? = some 0x0A then 3 else 2)
  -- the quotes, the backslash and the slash stand for themselves like any other byte
  else ([e], 2)

/-- One turn of the loop of `decode_json_string`. -/
def decodeUnit (s : List UInt8) : List UInt8 × Nat :=
  match s with
  | [] => ([], 1)
  | c :: cs =>
    match cs with
    | [] => ([c], 1)
    | e :: es => if c = 0x5C then decodeEscape e es else ([c], 1)

/-- The loop of `decode_json_string`: the unread source, the bytes written, and
`full`. A unit that does not fit is refused whole. -/
def decodeLoop (dstSize : Nat) :
    Nat → List UInt8 → List UInt8 → List UInt8 × List UInt8 × Bool
  | 0, s, out => (s, out, false)
  | fuel + 1, s, out =>
    if s = [] ∨ out.length ≥ dstSize - 1 then (s, out, false)
    else
      let u := decodeUnit s
      if out.length + u.1.length > dstSize - 1 then (s.drop u.2, out, true)
      else decodeLoop dstSize fuel (s.drop u.2) (out ++ u.1)

/-- `peek_continuations`. -/
def peekContinuations : Nat → List UInt8 → Nat
  | 0, _ => 0
  | _ + 1, [] => 0
  | max + 1, c :: cs =>
    match cs with
    | [] => if isCont c then 1 else 0
    | e :: es =>
      if c = 0x5C then if isCont e then peekContinuations max es + 1 else 0
      else if isCont c then peekContinuations max (e :: es) + 1
      else 0

/-- The loop of `trim_split_tail` over the bytes before the end, last first:
`back` of them are continuation bytes so far. `s` is the unread source. -/
def trimBack (s : List UInt8) : Nat → List UInt8 → Nat → Nat
  | 0, _, _ => 0
  | _ + 1, [], _ => 0
  | fuel + 1, c :: rev, back =>
    if isCont c then trimBack s fuel rev (back + 1)
    else
      let need := if c < 0x80 then some 1 else if leadNeed c = 1 then none else some (leadNeed c)
      match need with
      | none => 0
      | some need =>
        if need ≤ back then 0
        else if peekContinuations (need - back) s = need - back then back else 0

/-- `trim_split_tail`. -/
def trimSplitTail (s out : List UInt8) : List UInt8 :=
  out.take (out.length - trimBack s 4 out.reverse 1)

/-- A unit of `repair_decoded_utf8`: how many bytes it is, and what it becomes. -/
def repairUnit (s : List UInt8) : Nat × List UInt8 :=
  match s with
  | [] => (1, [])
  | b :: _ =>
    if b < 0x80 then (1, [b])
    else
      let r := utf8Step s
      if r.2 then (r.1, s.take r.1) else (1, replacement)

/-- The two passes of `repair_decoded_utf8`: the first stops before the unit that
does not fit, the second rewrites what is kept. -/
def repairLoop (dstSize : Nat) : Nat → List UInt8 → List UInt8 → List UInt8 × Bool
  | 0, _, out => (out, false)
  | fuel + 1, s, out =>
    if s = [] then (out, false)
    else
      let u := repairUnit s
      if out.length + u.2.length > dstSize - 1 then (out, true)
      else repairLoop dstSize fuel (s.drop u.1) (out ++ u.2)

/-- `decode_json_string`: the bytes before the terminator, and `out_truncated`;
none when there is no room for the terminator. -/
def decodeJsonString (src : List UInt8) (dstSize : Nat) (utf8Mode : AxlJsonFlags) :
    Option (List UInt8 × Bool) :=
  if dstSize = 0 then none
  else
    let r := decodeLoop dstSize src.length src []
    let out := if r.2.2 then r.2.1 else trimSplitTail r.1 r.2.1
    let rep :=
      if utf8Of utf8Mode = utf8Repair then repairLoop dstSize out.length out [] else (out, false)
    some (rep.1, r.2.2 || rep.2 || !r.1.isEmpty)

/-! ## Integers -/

end Json

end AxlSdk
