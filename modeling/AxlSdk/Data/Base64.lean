import Mathlib

/-!
# Base64 (`src/data/axl-str-base64.c`)

Strings and data are byte lists; allocations succeed. What RFC 4648 assigns to a
sequence of symbols is said by numbers: the symbols are the digits of a number to
the base 64, and without the bits that do not fill a byte its digits to the base
256 are the bytes.

- `base64_round_trip`, `base64url_round_trip`: decoding undoes encoding.
- `base64urlDecode_exact`: what the decoder of the URL alphabet accepts.
- `Accepted`, `base64Decode_isSome`: what the other one accepts. `=` is not looked for
  in every place: it passes inside the string, and before a last byte of any kind.
- `base64_exact_iff`: the codecs are exact up to that.
-/

namespace AxlSdk

namespace Base64

open List

/-! ## The code -/

def bytesOf (s : List Char) : List UInt8 := s.map fun c => UInt8.ofNat c.toNat

/-- `b64_enc` -/
def b64Enc : List UInt8 :=
  bytesOf
  ['A', 'B', 'C', 'D', 'E', 'F', 'G', 'H', 'I', 'J', 'K', 'L', 'M', 'N', 'O', 'P',
   'Q', 'R', 'S', 'T', 'U', 'V', 'W', 'X', 'Y', 'Z', 'a', 'b', 'c', 'd', 'e', 'f',
   'g', 'h', 'i', 'j', 'k', 'l', 'm', 'n', 'o', 'p', 'q', 'r', 's', 't', 'u', 'v',
   'w', 'x', 'y', 'z', '0', '1', '2', '3', '4', '5', '6', '7', '8', '9', '+', '/']

/-- `b64_dec` -/
def b64Dec : List UInt8 :=
  [0xFF, 0xFF, 0xFF, 0xFF, 0xFF, 0xFF, 0xFF, 0xFF, 0xFF, 0xFF, 0xFF, 0xFF, 0xFF, 0xFF, 0xFF, 0xFF,
   0xFF, 0xFF, 0xFF, 0xFF, 0xFF, 0xFF, 0xFF, 0xFF, 0xFF, 0xFF, 0xFF, 0xFF, 0xFF, 0xFF, 0xFF, 0xFF,
   0xFF, 0xFF, 0xFF, 0xFF, 0xFF, 0xFF, 0xFF, 0xFF, 0xFF, 0xFF, 0xFF, 62, 0xFF, 0xFF, 0xFF, 63,
   52, 53, 54, 55, 56, 57, 58, 59, 60, 61, 0xFF, 0xFF, 0xFF, 0xFF, 0xFF, 0xFF,
   0xFF, 0, 1, 2, 3, 4, 5, 6, 7, 8, 9, 10, 11, 12, 13, 14,
   15, 16, 17, 18, 19, 20, 21, 22, 23, 24, 25, 0xFF, 0xFF, 0xFF, 0xFF, 0xFF,
   0xFF, 26, 27, 28, 29, 30, 31, 32, 33, 34, 35, 36, 37, 38, 39, 40,
   41, 42, 43, 44, 45, 46, 47, 48, 49, 50, 51, 0xFF, 0xFF, 0xFF, 0xFF, 0xFF]

/-- `b64url_enc` -/
def b64urlEnc : List UInt8 :=
  bytesOf
  ['A', 'B', 'C', 'D', 'E', 'F', 'G', 'H', 'I', 'J', 'K', 'L', 'M', 'N', 'O', 'P',
   'Q', 'R', 'S', 'T', 'U', 'V', 'W', 'X', 'Y', 'Z', 'a', 'b', 'c', 'd', 'e', 'f',
   'g', 'h', 'i', 'j', 'k', 'l', 'm', 'n', 'o', 'p', 'q', 'r', 's', 't', 'u', 'v',
   'w', 'x', 'y', 'z', '0', '1', '2', '3', '4', '5', '6', '7', '8', '9', '-', '_']

def pad : UInt8 := 0x3d

/-- A byte in `b64_dec`. -/
def dec (b : UInt8) : UInt8 := if b < 128 then b64Dec.getD b.toNat 0xFF else 0xFF

/-- A byte in `b64_dec`, `=` being none. -/
def decUnlessPad (b : UInt8) : UInt8 := if b ≠ pad ∧ b < 128 then b64Dec.getD b.toNat 0xFF else 0xFF

/-- `b64url_val` -/
def b64urlVal (b : UInt8) : UInt8 :=
  if b = 0x2d then 62
  else if b = 0x5f then 63
  else if b = 0x2b ∨ b = 0x2f ∨ b = pad then 0xFF
  else dec b

/-- `trip` -/
def trip (a b c : UInt8) : Nat := a.toNat <<< 16 ||| b.toNat <<< 8 ||| c.toNat

/-- A symbol of a triple. -/
def symbol (enc : List UInt8) (trip shift : Nat) : UInt8 := enc.getD (trip >>> shift &&& 0x3F) 0

/-- The loop over the triples, and the bytes it leaves. -/
def encodeGroups (enc : List UInt8) : List UInt8 → List UInt8 × List UInt8
  | a :: b :: c :: rest =>
    let t := trip a b c
    let r := encodeGroups enc rest
    (symbol enc t 18 :: symbol enc t 12 :: symbol enc t 6 :: symbol enc t 0 :: r.1, r.2)
  | rest => ([], rest)

/-- `axl_base64_encode` -/
def base64Encode (data : List UInt8) : List UInt8 :=
  let r := encodeGroups b64Enc data
  match r.2 with
  | [] => r.1
  | [a] =>
    let t := trip a 0 0
    r.1 ++ [symbol b64Enc t 18, symbol b64Enc t 12, pad, pad]
  | a :: b :: _ =>
    let t := trip a b 0
    r.1 ++ [symbol b64Enc t 18, symbol b64Enc t 12, symbol b64Enc t 6, pad]

/-- `axl_base64url_encode` -/
def base64urlEncode (data : List UInt8) : List UInt8 :=
  let r := encodeGroups b64urlEnc data
  match r.2 with
  | [] => r.1
  | [a] =>
    let t := trip a 0 0
    r.1 ++ [symbol b64urlEnc t 18, symbol b64urlEnc t 12]
  | a :: b :: _ =>
    let t := trip a b 0
    r.1 ++ [symbol b64urlEnc t 18, symbol b64urlEnc t 12, symbol b64urlEnc t 6]

/-- The bytes of a group. -/
def byte0 (a b : UInt8) : UInt8 := a <<< 2 ||| b >>> 4

def byte1 (b c : UInt8) : UInt8 := b <<< 4 ||| c >>> 2

def byte2 (c d : UInt8) : UInt8 := c <<< 6 ||| d

/-- The loop of `axl_base64_decode`, with the bytes in `raw`. -/
def decodeLoop (rawLen : Nat) : List UInt8 → List UInt8 → Option (List UInt8)
  | s0 :: s1 :: s2 :: s3 :: rest, raw =>
    let a := dec s0
    let b := dec s1
    let c := decUnlessPad s2
    let d := decUnlessPad s3
    if a = 0xFF ∨ b = 0xFF then none
    else
      let raw := raw ++ [byte0 a b]
      if raw.length < rawLen ∧ c = 0xFF ∧ s2 ≠ pad then none
      else
        let raw := if raw.length < rawLen then raw ++ [byte1 b c] else raw
        if raw.length < rawLen ∧ d = 0xFF ∧ s3 ≠ pad then none
        else
          let raw := if raw.length < rawLen then raw ++ [byte2 c d] else raw
          decodeLoop rawLen rest raw
  | _, raw => some raw

/-- `pad` -/
def padCount (s : List UInt8) : Nat :=
  (if s.getD (s.length - 1) 0 = pad then 1 else 0) + if s.getD (s.length - 2) 0 = pad then 1 else 0

/-- `axl_base64_decode`: the loop fills the length that is returned, see
`base64Decode_length`. -/
def base64Decode (s : List UInt8) : Option (List UInt8) :=
  if s.length = 0 then some []
  else if s.length % 4 ≠ 0 then none
  else decodeLoop (s.length / 4 * 3 - padCount s) s []

/-- `axl_base64url_decode`: the loop over the groups, and the tail. -/
def base64urlLoop : List UInt8 → List UInt8 → Option (List UInt8)
  | s0 :: s1 :: s2 :: s3 :: rest, raw =>
    let a := b64urlVal s0
    let b := b64urlVal s1
    let c := b64urlVal s2
    let d := b64urlVal s3
    if a = 0xFF ∨ b = 0xFF ∨ c = 0xFF ∨ d = 0xFF then none
    else base64urlLoop rest (raw ++ [byte0 a b, byte1 b c, byte2 c d])
  | [s0, s1], raw =>
    let a := b64urlVal s0
    let b := b64urlVal s1
    if a = 0xFF ∨ b = 0xFF then none else some (raw ++ [byte0 a b])
  | [s0, s1, s2], raw =>
    let a := b64urlVal s0
    let b := b64urlVal s1
    let c := b64urlVal s2
    if a = 0xFF ∨ b = 0xFF ∨ c = 0xFF then none else some (raw ++ [byte0 a b, byte1 b c])
  | _, raw => some raw

/-- `axl_base64url_decode` -/
def base64urlDecode (s : List UInt8) : Option (List UInt8) :=
  if s.length = 0 then some []
  else if s.length % 4 = 1 then none
  else base64urlLoop s []

/-! ## What is assigned -/

/-- The number with these digits, the first digit first. -/
def bigEndian (base : Nat) (l : List Nat) : Nat := l.foldl (fun n d => n * base + d) 0

/-- The bytes that symbols with these values stand for. -/
structure Assigns (vals : List Nat) (out : List UInt8) : Prop where
  length : out.length = 6 * vals.length / 8
  bytes : bigEndian 256 (out.map UInt8.toNat) = bigEndian 64 vals / 2 ^ (6 * vals.length % 8)

/-- Groups of four symbols, where `=` may be in the place of the last one or two: the string
and its symbols. -/
inductive Encoded : List UInt8 → List UInt8 → Prop
  | nil : Encoded [] []
  | two {a b} (ha : a ∈ b64Enc) (hb : b ∈ b64Enc) : Encoded [a, b, pad, pad] [a, b]
  | three {a b c} (ha : a ∈ b64Enc) (hb : b ∈ b64Enc) (hc : c ∈ b64Enc) :
    Encoded [a, b, c, pad] [a, b, c]
  | group {a b c d rest body} (ha : a ∈ b64Enc) (hb : b ∈ b64Enc) (hc : c ∈ b64Enc)
    (hd : d ∈ b64Enc) (hrest : Encoded rest body) :
    Encoded (a :: b :: c :: d :: rest) (a :: b :: c :: d :: body)

/-- What the other tests of the decoder let pass: `=` is one of them in the third and in the
fourth place of every group, and after it the last byte is not looked at. -/
def Accepted : List UInt8 → Prop
  | [] => True
  | [a, b, c, d] =>
    a ∈ b64Enc ∧ b ∈ b64Enc ∧ (c = pad ∨ c ∈ b64Enc ∧ (d = pad ∨ d ∈ b64Enc))
  | a :: b :: c :: d :: rest =>
    a ∈ b64Enc ∧ b ∈ b64Enc ∧ (c = pad ∨ c ∈ b64Enc) ∧ (d = pad ∨ d ∈ b64Enc) ∧ Accepted rest
  | _ => False

instance Accepted.decidable : (s : List UInt8) → Decidable (Accepted s)
  | [] => inferInstanceAs (Decidable True)
  | [_] | [_, _] | [_, _, _] => inferInstanceAs (Decidable False)
  | [a, b, c, d] => inferInstanceAs (Decidable
    (a ∈ b64Enc ∧ b ∈ b64Enc ∧ (c = pad ∨ c ∈ b64Enc ∧ (d = pad ∨ d ∈ b64Enc))))
  | a :: b :: c :: d :: e :: rest =>
    have := Accepted.decidable (e :: rest)
    inferInstanceAs (Decidable (a ∈ b64Enc ∧ b ∈ b64Enc ∧ (c = pad ∨ c ∈ b64Enc) ∧
      (d = pad ∨ d ∈ b64Enc) ∧ Accepted (e :: rest)))

/-- A `=` before the last two places, or one before a last byte that is none. -/
def Misplaced (s : List UInt8) : Prop :=
  pad ∈ s.take (s.length - 2) ∨
    s.getD (s.length - 2) 0 = pad ∧ s.getD (s.length - 1) 0 ≠ pad

/-- The values of symbols. -/
def values (enc s : List UInt8) : List Nat := s.map fun b => enc.idxOf b

/-! ## Tables -/

/-- A symbol is read as its place. -/
theorem read_symbol : ∀ n < 64,
    (dec (b64Enc.getD n 0)).toNat = n ∧ (b64urlVal (b64urlEnc.getD n 0)).toNat = n := by
  decide +kernel

/-- What is read is a symbol. -/
theorem symbol_read : ∀ n < 256,
    ((dec (UInt8.ofNat n)).toNat = 255 ∨ (dec (UInt8.ofNat n)).toNat < 64 ∧
      (b64Enc.getD (dec (UInt8.ofNat n)).toNat 0).toNat = n) ∧
    ((b64urlVal (UInt8.ofNat n)).toNat = 255 ∨ (b64urlVal (UInt8.ofNat n)).toNat < 64 ∧
      (b64urlEnc.getD (b64urlVal (UInt8.ofNat n)).toNat 0).toNat = n) := by
  decide +kernel

theorem symbols_nodup : (b64Enc.map UInt8.toNat).Nodup ∧ (b64urlEnc.map UInt8.toNat).Nodup ∧
    b64Enc.length = 64 ∧ b64urlEnc.length = 64 ∧ 61 ∉ b64Enc.map UInt8.toNat := by
  decide +kernel

/-- An alphabet and the function that reads its symbols. -/
structure Alphabet (enc : List UInt8) (read : UInt8 → UInt8) : Prop where
  isSymbol : ∀ n < 64, enc.getD n 0 ∈ enc ∧ (read (enc.getD n 0)).toNat = n
  reads : ∀ b, read b = 0xFF ∧ b ∉ enc ∨ read b ≠ 0xFF ∧ b ∈ enc ∧ (read b).toNat < 64 ∧
    (read b).toNat = enc.idxOf b

theorem alphabet_of {enc : List UInt8} {read : UInt8 → UInt8} (hlen : enc.length = 64)
    (hnodup : (enc.map UInt8.toNat).Nodup) (hread : ∀ n < 64, (read (enc.getD n 0)).toNat = n)
    (hsym : ∀ n < 256, (read (UInt8.ofNat n)).toNat = 255 ∨ (read (UInt8.ofNat n)).toNat < 64 ∧
      (enc.getD (read (UInt8.ofNat n)).toNat 0).toNat = n) : Alphabet enc read := by
  have hmem : ∀ n < 64, enc.getD n 0 ∈ enc := by
    intro n hn
    rw [getD_eq_getElem _ _ (by omega)]
    exact getElem_mem _
  refine ⟨fun n hn => ⟨hmem n hn, hread n hn⟩, fun b => ?_⟩
  have hb := hsym b.toNat b.toNat_lt
  rw [UInt8.ofNat_toNat] at hb
  by_cases hin : b ∈ enc
  · obtain ⟨n, hn, rfl⟩ := mem_iff_getElem.mp hin
    have hval : (read enc[n]).toNat = n := by
      rw [← getD_eq_getElem enc 0 hn]
      exact hread n (by omega)
    refine .inr ⟨fun h => ?_, hin, by omega, ?_⟩
    · have h255 : (0xFF : UInt8).toNat = 255 := rfl
      rw [h, h255] at hval
      omega
    · rw [hval, (List.Nodup.of_map _ hnodup).idxOf_getElem]
  · refine .inl ⟨?_, hin⟩
    rcases hb with h255 | ⟨hlt, heq⟩
    · exact UInt8.toNat_inj.mp h255
    · exact absurd (UInt8.toNat_inj.mp heq ▸ hmem _ hlt) hin

theorem alphabet_b64 : Alphabet b64Enc dec :=
  alphabet_of symbols_nodup.2.2.1 symbols_nodup.1 (fun n hn => (read_symbol n hn).1)
    fun n hn => (symbol_read n hn).1

theorem alphabet_b64url : Alphabet b64urlEnc b64urlVal :=
  alphabet_of symbols_nodup.2.2.2.1 symbols_nodup.2.1 (fun n hn => (read_symbol n hn).2)
    fun n hn => (symbol_read n hn).2

theorem pad_notMem : pad ∉ b64Enc := fun h =>
  symbols_nodup.2.2.2.2 (mem_map.mpr ⟨pad, h, rfl⟩)

theorem decUnlessPad_eq {b : UInt8} (h : b ≠ pad) : decUnlessPad b = dec b := by
  rw [decUnlessPad, dec]
  simp only [h, ne_eq, not_false_eq_true, true_and]

/-! ## Groups -/

theorem shiftLeft_or {x y k : Nat} (hy : y < 2 ^ k) : x <<< k ||| y = x * 2 ^ k + y := by
  rw [← Nat.shiftLeft_add_eq_or_of_lt hy, Nat.shiftLeft_eq]

/-- The bytes of a group, in numbers. -/
theorem groupBytes {a b : UInt8} (ha : a.toNat < 64) (hb : b.toNat < 64) :
    (byte0 a b).toNat = a.toNat * 4 + b.toNat / 16 ∧
      (byte1 a b).toNat = a.toNat % 16 * 16 + b.toNat / 4 ∧
      (byte2 a b).toNat = a.toNat % 4 * 64 + b.toNat := by
  have hmod : ∀ (x k m : Nat), m + k = 8 → x <<< k % 2 ^ 8 = (x % 2 ^ m) <<< k := by
    intro x k m hkm
    rw [Nat.shiftLeft_eq, Nat.shiftLeft_eq, ← hkm, Nat.pow_add, Nat.mul_mod_mul_right]
  refine ⟨?_, ?_, ?_⟩
  · rw [byte0, UInt8.toNat_or, UInt8.toNat_shiftLeft, UInt8.toNat_shiftRight]
    show a.toNat <<< 2 % 2 ^ 8 ||| b.toNat >>> 4 = _
    rw [hmod _ 2 6 rfl, Nat.mod_eq_of_lt (show a.toNat < 2 ^ 6 from ha), Nat.shiftRight_eq_div_pow,
      shiftLeft_or (by omega)]
    rfl
  · rw [byte1, UInt8.toNat_or, UInt8.toNat_shiftLeft, UInt8.toNat_shiftRight]
    show a.toNat <<< 4 % 2 ^ 8 ||| b.toNat >>> 2 = _
    rw [hmod _ 4 4 rfl, Nat.shiftRight_eq_div_pow, shiftLeft_or (by omega)]
    rfl
  · rw [byte2, UInt8.toNat_or, UInt8.toNat_shiftLeft]
    show a.toNat <<< 6 % 2 ^ 8 ||| b.toNat = _
    rw [hmod _ 6 2 rfl, shiftLeft_or (by omega)]
    rfl

theorem trip_eq (x y z : UInt8) : trip x y z = x.toNat * 65536 + y.toNat * 256 + z.toNat := by
  have hy := y.toNat_lt
  have hz := z.toNat_lt
  rw [trip, Nat.or_assoc, shiftLeft_or (x := y.toNat) (by omega), shiftLeft_or (by omega)]
  omega

variable {enc : List UInt8} {read : UInt8 → UInt8} {s body rest raw out : List UInt8}

/-- What is read of a symbol of a triple. -/
theorem Alphabet.read_symbol (h : Alphabet enc read) (t shift : Nat) :
    symbol enc t shift ∈ enc ∧ (read (symbol enc t shift)).toNat = t / 2 ^ shift % 64 := by
  have hval : t >>> shift &&& 0x3F = t / 2 ^ shift % 64 := by
    rw [Nat.shiftRight_eq_div_pow]
    exact Nat.and_two_pow_sub_one_eq_mod _ 6
  rw [symbol, hval]
  exact h.isSymbol _ (Nat.mod_lt _ (by decide))

theorem Alphabet.ne (h : Alphabet enc read) {b : UInt8} (hb : b ∈ enc) :
    read b ≠ 0xFF ∧ (read b).toNat < 64 ∧ (read b).toNat = enc.idxOf b := by
  rcases h.reads b with ⟨-, hno⟩ | ⟨hne, -, hlt, hidx⟩
  · exact absurd hb hno
  · exact ⟨hne, hlt, hidx⟩

theorem Alphabet.mem (h : Alphabet enc read) {b : UInt8} (hb : read b ≠ 0xFF) : b ∈ enc := by
  rcases h.reads b with ⟨heq, -⟩ | ⟨-, hmem, -⟩
  · exact absurd heq hb
  · exact hmem

/-- The bytes come back out of the symbols of their triple. -/
theorem Alphabet.triple (h : Alphabet enc read) (x y z : UInt8) :
    let t := trip x y z
    byte0 (read (symbol enc t 18)) (read (symbol enc t 12)) = x ∧
      byte1 (read (symbol enc t 12)) (read (symbol enc t 6)) = y ∧
      byte2 (read (symbol enc t 6)) (read (symbol enc t 0)) = z := by
  intro t
  have ht : t = x.toNat * 65536 + y.toNat * 256 + z.toNat := trip_eq x y z
  have h0 := (h.read_symbol t 18).2
  have h1 := (h.read_symbol t 12).2
  have h2 := (h.read_symbol t 6).2
  have h3 := (h.read_symbol t 0).2
  have hx := x.toNat_lt
  have hy := y.toNat_lt
  have hz := z.toNat_lt
  refine ⟨?_, ?_, ?_⟩ <;> rw [← UInt8.toNat_inj]
  · rw [(groupBytes (by omega) (by omega)).1, h0, h1]
    omega
  · rw [(groupBytes (by omega) (by omega)).2.1, h1, h2]
    omega
  · rw [(groupBytes (by omega) (by omega)).2.2, h2, h3]
    omega

/-! ## Numbers -/

theorem bigEndian_append (base : Nat) (l m : List Nat) :
    bigEndian base (l ++ m) = bigEndian base l * base ^ m.length + bigEndian base m := by
  have hacc : ∀ (m : List Nat) (n : Nat), m.foldl (fun n d => n * base + d) n =
      n * base ^ m.length + bigEndian base m := by
    intro m
    induction m with
    | nil => simp [bigEndian]
    | cons d m ih =>
      intro n
      have hcons : bigEndian base (d :: m) = d * base ^ m.length + bigEndian base m := by
        rw [bigEndian, foldl_cons, ih, Nat.zero_mul, Nat.zero_add]
      rw [foldl_cons, ih, hcons, length_cons, Nat.pow_succ, Nat.add_mul, Nat.mul_assoc,
        Nat.mul_comm base, Nat.add_assoc]
  rw [bigEndian, foldl_append, hacc, ← bigEndian]

/-- Four symbols more in front are three bytes more. -/
theorem Assigns.group {a b c d : UInt8} {vals : List Nat} (h : Assigns vals out)
    (ha : a.toNat < 64) (hb : b.toNat < 64) (hc : c.toNat < 64) (hd : d.toNat < 64) :
    Assigns (a.toNat :: b.toNat :: c.toNat :: d.toNat :: vals)
      (byte0 a b :: byte1 b c :: byte2 c d :: out) := by
  have hlen := h.length
  refine ⟨?_, ?_⟩
  · simp only [length_cons]
    omega
  · have h0 := (groupBytes ha hb).1
    have h1 := (groupBytes hb hc).2.1
    have h2 := (groupBytes hc hd).2.2
    have hvals : bigEndian 64 (a.toNat :: b.toNat :: c.toNat :: d.toNat :: vals) =
        bigEndian 64 [a.toNat, b.toNat, c.toNat, d.toNat] * 64 ^ vals.length + bigEndian 64 vals :=
      bigEndian_append 64 [a.toNat, b.toNat, c.toNat, d.toNat] vals
    have hbytes : bigEndian 256 ((byte0 a b :: byte1 b c :: byte2 c d :: out).map UInt8.toNat) =
        bigEndian 256 [(byte0 a b).toNat, (byte1 b c).toNat, (byte2 c d).toNat] * 256 ^ out.length +
          bigEndian 256 (out.map UInt8.toNat) := by
      have := bigEndian_append 256 [(byte0 a b).toNat, (byte1 b c).toNat, (byte2 c d).toNat]
        (out.map UInt8.toNat)
      rwa [length_map] at this
    have hgroup : bigEndian 256 [(byte0 a b).toNat, (byte1 b c).toNat, (byte2 c d).toNat] =
        bigEndian 64 [a.toNat, b.toNat, c.toNat, d.toNat] := by
      simp only [bigEndian, foldl_cons, foldl_nil, h0, h1, h2]
      omega
    have hrem : 6 * (vals.length + 1 + 1 + 1 + 1) % 8 = 6 * vals.length % 8 := by omega
    have hpow : 64 ^ vals.length = 256 ^ out.length * 2 ^ (6 * vals.length % 8) := by
      rw [hlen, show 64 = 2 ^ 6 from rfl, show 256 = 2 ^ 8 from rfl, ← Nat.pow_mul, ← Nat.pow_mul,
        ← Nat.pow_add, Nat.div_add_mod]
    rw [hvals, hbytes, hgroup, h.bytes]
    simp only [length_cons]
    rw [hrem, hpow, ← Nat.mul_assoc, Nat.add_comm, Nat.add_comm (_ * _),
      Nat.add_mul_div_right _ _ (Nat.pow_pos (by decide))]

theorem Assigns.two {a b : UInt8} (ha : a.toNat < 64) (hb : b.toNat < 64) :
    Assigns [a.toNat, b.toNat] [byte0 a b] := by
  refine ⟨by simp, ?_⟩
  have h0 := (groupBytes ha hb).1
  have hpow : 2 ^ (6 * [a.toNat, b.toNat].length % 8) = 16 := by simp
  rw [hpow]
  simp only [bigEndian, map_cons, map_nil, foldl_cons, foldl_nil, h0]
  omega

theorem Assigns.three {a b c : UInt8} (ha : a.toNat < 64) (hb : b.toNat < 64) (hc : c.toNat < 64) :
    Assigns [a.toNat, b.toNat, c.toNat] [byte0 a b, byte1 b c] := by
  refine ⟨by simp, ?_⟩
  have h0 := (groupBytes ha hb).1
  have h1 := (groupBytes hb hc).2.1
  have hpow : 2 ^ (6 * [a.toNat, b.toNat, c.toNat].length % 8) = 4 := by simp
  rw [hpow]
  simp only [bigEndian, map_cons, map_nil, foldl_cons, foldl_nil, h0, h1]
  omega

theorem assigns_nil : Assigns [] [] := ⟨rfl, rfl⟩

/-! ## The URL alphabet -/

theorem base64urlEncode_group (x y z : UInt8) (rest : List UInt8) :
    base64urlEncode (x :: y :: z :: rest) =
      let t := trip x y z
      symbol b64urlEnc t 18 :: symbol b64urlEnc t 12 :: symbol b64urlEnc t 6 ::
        symbol b64urlEnc t 0 :: base64urlEncode rest := by
  rw [base64urlEncode, encodeGroups, base64urlEncode]
  dsimp only
  split <;> rfl

theorem base64urlLoop_encode (x raw : List UInt8) :
    base64urlLoop (base64urlEncode x) raw = some (raw ++ x) := by
  induction x using encodeGroups.induct b64urlEnc generalizing raw with
  | case1 x y z rest ih =>
    obtain ⟨h0, h1, h2⟩ := alphabet_b64url.triple x y z
    have hne := fun k => (alphabet_b64url.ne (alphabet_b64url.read_symbol (trip x y z) k).1).1
    rw [base64urlEncode_group, base64urlLoop, if_neg (by simp [hne]), ih, h0, h1, h2, append_assoc]
    rfl
  | case2 x hshort =>
    have hgroups : encodeGroups b64urlEnc x = ([], x) := by
      rw [encodeGroups]
      exact hshort
    rw [base64urlEncode, hgroups]
    cases x with
    | nil => simp [base64urlLoop]
    | cons a x =>
      cases x with
      | nil =>
        obtain ⟨h0, -, -⟩ := alphabet_b64url.triple a 0 0
        have hne := fun k => (alphabet_b64url.ne (alphabet_b64url.read_symbol (trip a 0 0) k).1).1
        dsimp only
        rw [nil_append, base64urlLoop, if_neg (by simp [hne]), h0]
      | cons b x =>
        cases x with
        | nil =>
          obtain ⟨h0, h1, -⟩ := alphabet_b64url.triple a b 0
          have hne := fun k => (alphabet_b64url.ne (alphabet_b64url.read_symbol (trip a b 0) k).1).1
          dsimp only
          rw [nil_append, base64urlLoop, if_neg (by simp [hne]), h0, h1]
        | cons c x => exact absurd rfl (hshort a b c x)

theorem base64urlEncode_length (x : List UInt8) : (base64urlEncode x).length % 4 ≠ 1 := by
  induction x using encodeGroups.induct b64urlEnc with
  | case1 x y z rest ih =>
    rw [base64urlEncode_group]
    simp only [length_cons]
    omega
  | case2 x hshort =>
    have hgroups : encodeGroups b64urlEnc x = ([], x) := by
      rw [encodeGroups]
      exact hshort
    rw [base64urlEncode, hgroups]
    cases x with
    | nil => decide
    | cons a x => cases x <;> simp

theorem base64url_round_trip (x : List UInt8) : base64urlDecode (base64urlEncode x) = some x := by
  rw [base64urlDecode]
  split
  · rename_i hlen
    have hnil : base64urlEncode x = [] := length_eq_zero_iff.mp hlen
    have := base64urlLoop_encode x []
    rw [hnil] at this
    exact this
  · rw [if_neg (base64urlEncode_length x), base64urlLoop_encode, nil_append]

theorem base64urlLoop_exact {o : List UInt8} (hlen : s.length % 4 ≠ 1)
    (h : base64urlLoop s raw = some o) :
    (∀ b ∈ s, b ∈ b64urlEnc) ∧ ∃ out, o = raw ++ out ∧ Assigns (values b64urlEnc s) out := by
  have hval : ∀ {b}, b64urlVal b ≠ 0xFF → b ∈ b64urlEnc ∧ (b64urlVal b).toNat < 64 ∧
      b64urlEnc.idxOf b = (b64urlVal b).toNat := by
    intro b hb
    have hmem := alphabet_b64url.mem hb
    obtain ⟨-, hlt, hidx⟩ := alphabet_b64url.ne hmem
    exact ⟨hmem, hlt, hidx.symm⟩
  induction s, raw using base64urlLoop.induct with
  | case1 s0 s1 s2 s3 rest raw a b c d hbad =>
    rw [base64urlLoop, if_pos hbad] at h
    cases h
  | case2 s0 s1 s2 s3 rest raw a b c d hgood ih =>
    rw [base64urlLoop, if_neg hgood] at h
    simp only [not_or] at hgood
    obtain ⟨hrest, out, rfl, hout⟩ := ih (by simp only [length_cons] at hlen; omega) h
    obtain ⟨m0, l0, i0⟩ := hval hgood.1
    obtain ⟨m1, l1, i1⟩ := hval hgood.2.1
    obtain ⟨m2, l2, i2⟩ := hval hgood.2.2.1
    obtain ⟨m3, l3, i3⟩ := hval hgood.2.2.2
    refine ⟨?_, _, append_assoc _ _ _, ?_⟩
    · simp only [mem_cons]
      rintro x (rfl | rfl | rfl | rfl | hx)
      · exact m0
      · exact m1
      · exact m2
      · exact m3
      · exact hrest x hx
    · simp only [values, map_cons, i0, i1, i2, i3]
      exact hout.group l0 l1 l2 l3
  | case3 s0 s1 raw a b hbad =>
    rw [base64urlLoop, if_pos hbad] at h
    cases h
  | case4 s0 s1 raw a b hgood =>
    rw [base64urlLoop, if_neg hgood] at h
    rw [not_or] at hgood
    cases h
    obtain ⟨m0, l0, i0⟩ := hval hgood.1
    obtain ⟨m1, l1, i1⟩ := hval hgood.2
    refine ⟨?_, _, rfl, ?_⟩
    · simp only [mem_cons, not_mem_nil, or_false]
      rintro x (rfl | rfl)
      · exact m0
      · exact m1
    · simp only [values, map_cons, map_nil, i0, i1]
      exact .two l0 l1
  | case5 s0 s1 s2 raw a b c hbad =>
    rw [base64urlLoop, if_pos hbad] at h
    cases h
  | case6 s0 s1 s2 raw a b c hgood =>
    rw [base64urlLoop, if_neg hgood] at h
    simp only [not_or] at hgood
    cases h
    obtain ⟨m0, l0, i0⟩ := hval hgood.1
    obtain ⟨m1, l1, i1⟩ := hval hgood.2.1
    obtain ⟨m2, l2, i2⟩ := hval hgood.2.2
    refine ⟨?_, _, rfl, ?_⟩
    · simp only [mem_cons, not_mem_nil, or_false]
      rintro x (rfl | rfl | rfl)
      · exact m0
      · exact m1
      · exact m2
    · simp only [values, map_cons, map_nil, i0, i1, i2]
      exact .three l0 l1 l2
  | case7 s raw h4 h2 h3 =>
    have hnil : s = [] := by
      cases s with
      | nil => rfl
      | cons s0 s =>
        cases s with
        | nil => exact absurd rfl hlen
        | cons s1 s =>
          cases s with
          | nil => exact (h2 s0 s1 rfl).elim
          | cons s2 s =>
            cases s with
            | nil => exact (h3 s0 s1 s2 rfl).elim
            | cons s3 s => exact (h4 s0 s1 s2 s3 s rfl).elim
    subst hnil
    cases h
    exact ⟨by simp, [], (append_nil _).symm, assigns_nil⟩

theorem base64urlDecode_exact (h : base64urlDecode s = some out) :
    (∀ b ∈ s, b ∈ b64urlEnc) ∧ s.length % 4 ≠ 1 ∧ Assigns (values b64urlEnc s) out := by
  rw [base64urlDecode] at h
  split at h
  · rename_i hlen
    cases length_eq_zero_iff.mp hlen
    cases h
    exact ⟨by simp, by simp, assigns_nil⟩
  · split at h
    · cases h
    · rename_i hlen
      obtain ⟨hsym, o, rfl, ho⟩ := base64urlLoop_exact hlen h
      exact ⟨hsym, hlen, ho⟩

/-! ## Groups of the padded alphabet -/

theorem dec_eq {b : UInt8} : dec b = 0xFF ↔ b ∉ b64Enc := by
  rcases alphabet_b64.reads b with ⟨heq, hno⟩ | ⟨hne, hmem, -⟩
  · exact iff_of_true heq hno
  · exact iff_of_false hne (not_not.mpr hmem)

/-- The test on the third and on the fourth byte of a group. -/
theorem refused_iff {b : UInt8} : (decUnlessPad b = 0xFF ∧ b ≠ pad) ↔ ¬ (b = pad ∨ b ∈ b64Enc) := by
  rw [not_or, and_comm]
  refine and_congr_right fun hne => ?_
  rw [decUnlessPad_eq hne, dec_eq]

variable {rawLen : Nat} {a b c d : UInt8}

/-- A group that is filled. -/
theorem decodeLoop_full (h : raw.length + 3 ≤ rawLen) :
    decodeLoop rawLen (a :: b :: c :: d :: rest) raw =
      if a ∈ b64Enc ∧ b ∈ b64Enc ∧ (c = pad ∨ c ∈ b64Enc) ∧ (d = pad ∨ d ∈ b64Enc) then
        decodeLoop rawLen rest (raw ++ [byte0 (dec a) (dec b), byte1 (dec b) (decUnlessPad c),
          byte2 (decUnlessPad c) (decUnlessPad d)])
      else none := by
  have h1 : (raw ++ [byte0 (dec a) (dec b)]).length < rawLen := by
    rw [length_append, length_singleton]
    omega
  have h2 : (raw ++ [byte0 (dec a) (dec b)] ++ [byte1 (dec b) (decUnlessPad c)]).length < rawLen := by
    rw [length_append, length_append, length_singleton, length_singleton]
    omega
  rw [decodeLoop]
  dsimp only
  simp only [dec_eq, h1, true_and, if_true, refused_iff, h2]
  by_cases ha : a ∈ b64Enc
  · by_cases hb : b ∈ b64Enc
    · by_cases hc : c = pad ∨ c ∈ b64Enc
      · by_cases hd : d = pad ∨ d ∈ b64Enc
        · simp [ha, hb, hc, hd]
        · simp [ha, hb, hc, hd]
      · simp [ha, hb, hc]
    · simp [ha, hb]
  · simp [ha]

/-- The last group, when one byte is missing. -/
theorem decodeLoop_two (h : raw.length + 2 = rawLen) :
    decodeLoop rawLen [a, b, c, d] raw =
      if a ∈ b64Enc ∧ b ∈ b64Enc ∧ (c = pad ∨ c ∈ b64Enc) then
        some (raw ++ [byte0 (dec a) (dec b), byte1 (dec b) (decUnlessPad c)])
      else none := by
  have h1 : (raw ++ [byte0 (dec a) (dec b)]).length < rawLen := by
    rw [length_append, length_singleton]
    omega
  have h2 : ¬ (raw ++ [byte0 (dec a) (dec b)] ++ [byte1 (dec b) (decUnlessPad c)]).length <
      rawLen := by
    rw [length_append, length_append, length_singleton, length_singleton]
    omega
  rw [decodeLoop]
  dsimp only
  simp only [dec_eq, h1, true_and, if_true, refused_iff, h2, false_and, if_false, decodeLoop]
  by_cases ha : a ∈ b64Enc
  · by_cases hb : b ∈ b64Enc
    · by_cases hc : c = pad ∨ c ∈ b64Enc
      · simp [ha, hb, hc]
      · simp [ha, hb, hc]
    · simp [ha, hb]
  · simp [ha]

/-- The last group, when two bytes are missing. -/
theorem decodeLoop_one (h : raw.length + 1 = rawLen) :
    decodeLoop rawLen [a, b, c, d] raw =
      if a ∈ b64Enc ∧ b ∈ b64Enc then some (raw ++ [byte0 (dec a) (dec b)]) else none := by
  have h1 : ¬ (raw ++ [byte0 (dec a) (dec b)]).length < rawLen := by
    rw [length_append, length_singleton]
    omega
  rw [decodeLoop]
  dsimp only
  simp only [dec_eq, h1, false_and, if_false, decodeLoop]
  by_cases ha : a ∈ b64Enc
  · by_cases hb : b ∈ b64Enc
    · simp [ha, hb]
    · simp [ha, hb]
  · simp [ha]

theorem padCount_group : padCount [a, b, c, d] =
    (if d = pad then 1 else 0) + if c = pad then 1 else 0 := rfl

/-- A group in front does not count. -/
theorem padCount_cons (h : 4 ≤ rest.length) :
    padCount (a :: b :: c :: d :: rest) = padCount rest := by
  have hat : ∀ k ≤ 2, 1 ≤ k → (a :: b :: c :: d :: rest).getD
      ((a :: b :: c :: d :: rest).length - k) 0 = rest.getD (rest.length - k) 0 := by
    intro k hk hpos
    rw [show (a :: b :: c :: d :: rest).length - k = rest.length - k + 4 by
      simp only [length_cons]
      omega]
    simp only [getD_cons_succ]
  rw [padCount, padCount, hat 1 (by omega) le_rfl, hat 2 le_rfl (by omega)]

theorem padCount_le (s : List UInt8) : padCount s ≤ 2 := by
  rw [padCount]
  split <;> split <;> omega

theorem decodeLoop_none (hlen : s.length < 4) : decodeLoop rawLen s raw = some raw := by
  obtain _ | ⟨a, _ | ⟨b, _ | ⟨c, _ | ⟨d, rest⟩⟩⟩⟩ := s
  · rfl
  · rfl
  · rfl
  · rfl
  · simp only [length_cons] at hlen
    omega

theorem Accepted.length (h : Accepted s) : s.length % 4 = 0 := by
  induction s using Accepted.induct with
  | case1 => rfl
  | case2 a b c d => simp
  | case3 a b c d rest hrest ih =>
    rw [Accepted] at h
    · have := ih h.2.2.2.2
      simp only [length_cons]
      omega
    · exact hrest
  | case4 s h0 h1 h2 =>
    rw [Accepted] at h
    · exact h.elim
    · exact h0
    · exact h1
    · exact h2

/-- The decoder accepts exactly this, and fills what it says. -/
theorem decodeLoop_spec (hlen : s.length % 4 = 0)
    (hraw : raw.length + s.length / 4 * 3 - padCount s = rawLen) (hne : s ≠ []) :
    if Accepted s then ∃ out, decodeLoop rawLen s raw = some out ∧ out.length = rawLen
    else decodeLoop rawLen s raw = none := by
  induction s using Accepted.induct generalizing raw with
  | case1 => exact absurd rfl hne
  | case2 a b c d =>
    rw [padCount_group] at hraw
    simp only [length_cons, length_nil] at hraw
    by_cases hc : c = pad
    · by_cases hd : d = pad
      · -- one byte
        rw [if_pos hd, if_pos hc] at hraw
        have h1 : raw.length + 1 = rawLen := by omega
        rw [decodeLoop_one h1]
        simp only [Accepted, hc, true_or, and_true]
        split
        · exact ⟨_, rfl, by rw [length_append]; exact h1⟩
        · rfl
      · -- two bytes, whatever stands in the fourth place
        rw [if_neg hd, if_pos hc] at hraw
        have h2 : raw.length + 2 = rawLen := by omega
        rw [decodeLoop_two h2]
        simp only [Accepted, hc, true_or, and_true]
        split
        · refine ⟨_, rfl, ?_⟩
          rw [length_append]
          exact h2
        · rfl
    · by_cases hd : d = pad
      · rw [if_pos hd, if_neg hc] at hraw
        have h2 : raw.length + 2 = rawLen := by omega
        rw [decodeLoop_two h2]
        simp only [Accepted, hc, hd, false_or, true_or, and_true]
        split
        · refine ⟨_, rfl, ?_⟩
          rw [length_append]
          exact h2
        · rfl
      · rw [if_neg hd, if_neg hc] at hraw
        have h3 : raw.length + 3 = rawLen := by omega
        rw [decodeLoop_full h3.le]
        simp only [Accepted, hc, hd, false_or]
        split
        · rw [decodeLoop_none (by decide)]
          refine ⟨_, rfl, ?_⟩
          rw [length_append]
          exact h3
        · rfl
  | case3 a b c d rest hrest ih =>
    have hpos : rest ≠ [] := fun h => hrest h
    have hlen4 : 4 ≤ rest.length := by
      have := length_pos_iff.mpr hpos
      simp only [length_cons] at hlen
      omega
    have hpad := padCount_le rest
    rw [padCount_cons hlen4] at hraw
    simp only [length_cons] at hraw hlen
    have h3 : raw.length + 3 ≤ rawLen := by omega
    rw [decodeLoop_full h3]
    have hacc : Accepted (a :: b :: c :: d :: rest) ↔ (a ∈ b64Enc ∧ b ∈ b64Enc ∧
        (c = pad ∨ c ∈ b64Enc) ∧ (d = pad ∨ d ∈ b64Enc)) ∧ Accepted rest := by
      rw [Accepted]
      · simp only [and_assoc]
      · exact hrest
    by_cases hgroup : a ∈ b64Enc ∧ b ∈ b64Enc ∧ (c = pad ∨ c ∈ b64Enc) ∧ (d = pad ∨ d ∈ b64Enc)
    · rw [if_pos hgroup]
      simp only [hacc, hgroup, true_and]
      refine ih (by omega) ?_ hpos
      rw [length_append]
      exact (by omega : raw.length + 3 + rest.length / 4 * 3 - padCount rest = rawLen)
    · rw [if_neg hgroup, if_neg fun h => hgroup (hacc.mp h).1]
  | case4 s h0 h1 h2 =>
    exfalso
    obtain _ | ⟨a, _ | ⟨b, _ | ⟨c, _ | ⟨d, rest⟩⟩⟩⟩ := s
    · exact h0 rfl
    · simp at hlen
    · simp at hlen
    · simp at hlen
    · exact h2 a b c d rest rfl

theorem base64Decode_spec (s : List UInt8) :
    if Accepted s then
      ∃ out, base64Decode s = some out ∧ out.length = s.length / 4 * 3 - padCount s
    else base64Decode s = none := by
  rw [base64Decode]
  by_cases hnil : s.length = 0
  · cases length_eq_zero_iff.mp hnil
    exact ⟨[], rfl, rfl⟩
  · rw [if_neg hnil]
    by_cases hlen : s.length % 4 = 0
    · have hraw : ([] : List UInt8).length + s.length / 4 * 3 - padCount s =
          s.length / 4 * 3 - padCount s := by
        rw [length_nil, Nat.zero_add]
      have := decodeLoop_spec hlen hraw fun h => hnil (by rw [h]; rfl)
      simpa only [hlen, ne_eq, not_true_eq_false, if_false] using this
    · rw [if_neg fun h => hlen h.length, if_pos hlen]

theorem base64Decode_isSome : (base64Decode s).isSome ↔ Accepted s := by
  have hspec := base64Decode_spec s
  by_cases h : Accepted s
  · rw [if_pos h] at hspec
    obtain ⟨out, hout, -⟩ := hspec
    exact iff_of_true (by rw [hout]; rfl) h
  · rw [if_neg h] at hspec
    exact iff_of_false (by rw [hspec]; exact Bool.false_ne_true) h

/-! ## Well-formed strings -/

theorem ne_pad (h : a ∈ b64Enc) : a ≠ pad := fun heq => pad_notMem (heq ▸ h)

theorem Encoded.nil_or_length (h : Encoded s body) : s = [] ∧ body = [] ∨ 4 ≤ s.length := by
  cases h with
  | nil => exact .inl ⟨rfl, rfl⟩
  | two ha hb => exact .inr le_rfl
  | three ha hb hc => exact .inr le_rfl
  | group ha hb hc hd hrest => exact .inr (Nat.le_add_left 4 _)

theorem accepted_cons (h : rest ≠ []) : Accepted (a :: b :: c :: d :: rest) ↔
    (a ∈ b64Enc ∧ b ∈ b64Enc ∧ (c = pad ∨ c ∈ b64Enc) ∧ (d = pad ∨ d ∈ b64Enc)) ∧
      Accepted rest := by
  rw [Accepted]
  · simp only [and_assoc]
  · exact h

theorem misplaced_group : Misplaced [a, b, c, d] ↔
    (pad = a ∨ pad = b) ∨ c = pad ∧ d ≠ pad := by
  simp [Misplaced]

/-- A group in front of others holds none. -/
theorem misplaced_cons (h : 4 ≤ rest.length) : Misplaced (a :: b :: c :: d :: rest) ↔
    (pad = a ∨ pad = b ∨ pad = c ∨ pad = d) ∨ Misplaced rest := by
  have hat : ∀ k ≤ 2, (a :: b :: c :: d :: rest).length - k = rest.length - k + 4 := by
    intro k hk
    simp only [length_cons]
    omega
  rw [Misplaced, Misplaced, hat 1 (by decide), hat 2 le_rfl]
  simp only [take_succ_cons, getD_cons_succ, mem_cons, or_assoc]

theorem Encoded.accepted (h : Encoded s body) : Accepted s := by
  induction h with
  | nil => trivial
  | two ha hb => exact ⟨ha, hb, .inl rfl⟩
  | three ha hb hc => exact ⟨ha, hb, .inr ⟨hc, .inl rfl⟩⟩
  | @group a b c d rest body ha hb hc hd hrest ih =>
    rcases hrest.nil_or_length with ⟨rfl, -⟩ | hlen
    · exact ⟨ha, hb, .inr ⟨hc, .inr hd⟩⟩
    · have hne : rest ≠ [] := ne_nil_of_length_pos (by omega)
      exact (accepted_cons hne).mpr ⟨⟨ha, hb, .inr hc, .inr hd⟩, ih⟩

theorem Encoded.not_misplaced (h : Encoded s body) : ¬ Misplaced s := by
  induction h with
  | nil => simp [Misplaced]
  | two ha hb =>
    rw [misplaced_group]
    simp [(ne_pad ha).symm, (ne_pad hb).symm]
  | three ha hb hc =>
    rw [misplaced_group]
    simp [(ne_pad ha).symm, (ne_pad hb).symm, ne_pad hc]
  | group ha hb hc hd hrest ih =>
    rcases hrest.nil_or_length with ⟨rfl, -⟩ | hlen
    · rw [misplaced_group]
      simp [(ne_pad ha).symm, (ne_pad hb).symm, ne_pad hc]
    · rw [misplaced_cons hlen]
      simp [(ne_pad ha).symm, (ne_pad hb).symm, (ne_pad hc).symm, (ne_pad hd).symm, ih]

/-- Without such a `=`, what is accepted is well formed. -/
theorem Accepted.encoded (h : Accepted s) (hplaced : ¬ Misplaced s) :
    ∃ body, Encoded s body := by
  induction s using Accepted.induct with
  | case1 => exact ⟨_, .nil⟩
  | case2 a b c d =>
    rw [misplaced_group, not_or, not_and_not_right] at hplaced
    obtain ⟨ha, hb, hc | ⟨hc, hd | hd⟩⟩ := h
    · cases hc
      cases hplaced.2 rfl
      exact ⟨_, .two ha hb⟩
    · cases hd
      exact ⟨_, .three ha hb hc⟩
    · exact ⟨_, .group ha hb hc hd .nil⟩
  | case3 a b c d rest hrest ih =>
    have hne : rest ≠ [] := fun h => hrest h
    obtain ⟨⟨ha, hb, hc, hd⟩, hrec⟩ := (accepted_cons hne).mp h
    have hlen : 4 ≤ rest.length := by
      have := hrec.length
      have := length_pos_iff.mpr hne
      omega
    rw [misplaced_cons hlen, not_or] at hplaced
    obtain ⟨body, hbody⟩ := ih hrec hplaced.2
    simp only [not_or] at hplaced
    exact ⟨_, .group ha hb (hc.resolve_left (Ne.symm hplaced.1.2.2.1))
      (hd.resolve_left (Ne.symm hplaced.1.2.2.2)) hbody⟩
  | case4 s h0 h1 h2 =>
    rw [Accepted] at h
    · exact h.elim
    · exact h0
    · exact h1
    · exact h2

/-- As many bytes as the symbols have bits for. -/
theorem Encoded.bytes_length (h : Encoded s body) :
    s.length / 4 * 3 - padCount s = 6 * body.length / 8 := by
  induction h with
  | nil => rfl
  | two ha hb => simp [padCount_group]
  | three ha hb hc => simp [padCount_group, ne_pad hc]
  | @group a b c d rest body ha hb hc hd hrest ih =>
    rcases hrest.nil_or_length with ⟨rfl, rfl⟩ | hlen
    · simp [padCount_group, ne_pad hc, ne_pad hd]
    · have hpad := padCount_le rest
      rw [padCount_cons hlen]
      simp only [length_cons]
      omega

theorem dec_value (h : a ∈ b64Enc) : b64Enc.idxOf a = (dec a).toNat ∧ (dec a).toNat < 64 ∧
    decUnlessPad a = dec a := by
  obtain ⟨-, hlt, hidx⟩ := alphabet_b64.ne h
  exact ⟨hidx.symm, hlt, decUnlessPad_eq (ne_pad h)⟩

/-- The bytes of a well-formed string are those it is assigned. -/
theorem Encoded.decodeLoop (h : Encoded s body) (hraw : raw.length + 6 * body.length / 8 = rawLen) :
    ∃ out, decodeLoop rawLen s raw = some (raw ++ out) ∧ Assigns (values b64Enc body) out := by
  induction h generalizing raw with
  | nil => exact ⟨[], by rw [decodeLoop_none (by decide), append_nil], assigns_nil⟩
  | two ha hb =>
    obtain ⟨ia, la, -⟩ := dec_value ha
    obtain ⟨ib, lb, -⟩ := dec_value hb
    have h1 : raw.length + 1 = rawLen := by simpa using hraw
    rw [decodeLoop_one h1, if_pos ⟨ha, hb⟩]
    refine ⟨_, rfl, ?_⟩
    simp only [values, map_cons, map_nil, ia, ib]
    exact .two la lb
  | three ha hb hc =>
    obtain ⟨ia, la, -⟩ := dec_value ha
    obtain ⟨ib, lb, -⟩ := dec_value hb
    obtain ⟨ic, lc, dc⟩ := dec_value hc
    have h2 : raw.length + 2 = rawLen := by simpa using hraw
    rw [decodeLoop_two h2, if_pos ⟨ha, hb, .inr hc⟩, dc]
    refine ⟨_, rfl, ?_⟩
    simp only [values, map_cons, map_nil, ia, ib, ic]
    exact .three la lb lc
  | @group a b c d rest body ha hb hc hd hrest ih =>
    obtain ⟨ia, la, -⟩ := dec_value ha
    obtain ⟨ib, lb, -⟩ := dec_value hb
    obtain ⟨ic, lc, dc⟩ := dec_value hc
    obtain ⟨id, ld, dd⟩ := dec_value hd
    simp only [length_cons] at hraw
    have hfull : raw.length + 3 ≤ rawLen := by omega
    rw [decodeLoop_full hfull, if_pos ⟨ha, hb, .inr hc, .inr hd⟩, dc, dd]
    have hnext : ∀ x y z, (raw ++ [x, y, z]).length + 6 * body.length / 8 = rawLen := by
      intro x y z
      rw [length_append]
      exact (by omega : raw.length + 3 + 6 * body.length / 8 = rawLen)
    obtain ⟨out, hout, hassigns⟩ := ih (hnext _ _ _)
    refine ⟨_, hout.trans (by rw [append_assoc]), ?_⟩
    simp only [values, map_cons, ia, ib, ic, id]
    exact hassigns.group la lb lc ld

/-! ## The padded alphabet -/

theorem base64Encode_group (x y z : UInt8) (rest : List UInt8) :
    base64Encode (x :: y :: z :: rest) =
      let t := trip x y z
      symbol b64Enc t 18 :: symbol b64Enc t 12 :: symbol b64Enc t 6 :: symbol b64Enc t 0 ::
        base64Encode rest := by
  rw [base64Encode, encodeGroups, base64Encode]
  dsimp only
  split <;> rfl

theorem symbol_mem (t shift : Nat) : symbol b64Enc t shift ∈ b64Enc :=
  (alphabet_b64.read_symbol t shift).1

/-- The encoder's strings are well formed and are decoded to what was encoded. -/
theorem base64Encode_spec (x : List UInt8) :
    (∃ body, Encoded (base64Encode x) body ∧ 6 * body.length / 8 = x.length) ∧
      ∀ raw, decodeLoop (raw.length + x.length) (base64Encode x) raw = some (raw ++ x) := by
  have hsym := symbol_mem
  have hdec : ∀ t k, decUnlessPad (symbol b64Enc t k) = dec (symbol b64Enc t k) :=
    fun t k => (dec_value (hsym t k)).2.2
  induction x using encodeGroups.induct b64Enc with
  | case1 x y z rest ih =>
    rw [base64Encode_group]
    dsimp only
    obtain ⟨⟨body, hbody, hlen⟩, hloop⟩ := ih
    refine ⟨⟨_, .group (hsym _ _) (hsym _ _) (hsym _ _) (hsym _ _) hbody, ?_⟩, fun raw => ?_⟩
    · simp only [length_cons]
      omega
    · obtain ⟨h0, h1, h2⟩ := alphabet_b64.triple x y z
      have hfull : raw.length + 3 ≤ raw.length + (x :: y :: z :: rest).length := by
        simp only [length_cons]
        omega
      have hlen : raw.length + (x :: y :: z :: rest).length =
          (raw ++ [x, y, z]).length + rest.length := by
        simp only [length_append, length_cons, length_nil]
        omega
      rw [decodeLoop_full hfull, if_pos ⟨hsym _ _, hsym _ _, .inr (hsym _ _), .inr (hsym _ _)⟩,
        hdec, hdec, h0, h1, h2, hlen, hloop, append_assoc]
      rfl
  | case2 x hshort =>
    have hgroups : encodeGroups b64Enc x = ([], x) := by
      rw [encodeGroups]
      exact hshort
    rw [base64Encode, hgroups]
    cases x with
    | nil => exact ⟨⟨_, .nil, rfl⟩, fun raw => by simp [decodeLoop]⟩
    | cons a x =>
      cases x with
      | nil =>
        obtain ⟨h0, -, -⟩ := alphabet_b64.triple a 0 0
        refine ⟨⟨_, .two (hsym _ _) (hsym _ _), by simp⟩, fun raw => ?_⟩
        dsimp only
        have h1 : raw.length + 1 = raw.length + [a].length := rfl
        rw [nil_append, decodeLoop_one h1, if_pos ⟨hsym _ _, hsym _ _⟩, h0]
      | cons b x =>
        cases x with
        | nil =>
          obtain ⟨h0, h1, -⟩ := alphabet_b64.triple a b 0
          refine ⟨⟨_, .three (hsym _ _) (hsym _ _) (hsym _ _), by simp⟩, fun raw => ?_⟩
          dsimp only
          have h2 : raw.length + 2 = raw.length + [a, b].length := rfl
          rw [nil_append, decodeLoop_two h2, if_pos ⟨hsym _ _, hsym _ _, .inr (hsym _ _)⟩,
            hdec, h0, h1]
        | cons c x => exact absurd rfl (hshort a b c x)

theorem base64_round_trip (x : List UInt8) : base64Decode (base64Encode x) = some x := by
  obtain ⟨⟨body, hbody, hlen⟩, hloop⟩ := base64Encode_spec x
  rw [base64Decode, hbody.bytes_length, hlen]
  split
  · rename_i hnil
    have := hloop []
    rw [length_eq_zero_iff.mp hnil] at this
    exact this
  · have hloop := hloop []
    rw [length_nil, Nat.zero_add] at hloop
    rw [if_neg (not_not.mpr hbody.accepted.length), hloop, nil_append]

theorem Encoded.recovered (h : Encoded s body) (hout : base64Decode s = some out) :
    Assigns (values b64Enc body) out := by
  rw [base64Decode, h.bytes_length] at hout
  split at hout
  · rename_i hnil
    cases length_eq_zero_iff.mp hnil
    cases hout
    cases h
    exact assigns_nil
  · rw [if_neg (not_not.mpr h.accepted.length)] at hout
    have hraw : ([] : List UInt8).length + 6 * body.length / 8 = 6 * body.length / 8 := Nat.zero_add _
    obtain ⟨o, ho, hassigns⟩ := h.decodeLoop hraw
    rw [ho] at hout
    cases hout
    exact hassigns

/-- The codecs undo each other, the URL decoder accepts what it should, and the other one
does so unless the string holds a misplaced `=` and passes the other tests. -/
theorem base64_exact_iff (x s : List UInt8) :
    base64Decode (base64Encode x) = some x ∧
      base64urlDecode (base64urlEncode x) = some x ∧
      (∀ out, base64urlDecode s = some out →
        (∀ b ∈ s, b ∈ b64urlEnc) ∧ s.length % 4 ≠ 1 ∧ Assigns (values b64urlEnc s) out) ∧
      ((∀ out, base64Decode s = some out →
        ∃ body, Encoded s body ∧ Assigns (values b64Enc body) out) ↔
          ¬ (Accepted s ∧ Misplaced s)) := by
  refine ⟨base64_round_trip x, base64url_round_trip x, fun out => base64urlDecode_exact, ?_⟩
  constructor
  · rintro hexact ⟨hacc, hmis⟩
    obtain ⟨out, hout⟩ := Option.isSome_iff_exists.mp (base64Decode_isSome.mpr hacc)
    obtain ⟨body, hbody, -⟩ := hexact out hout
    exact hbody.not_misplaced hmis
  · intro hplaced out hout
    have hacc : Accepted s := base64Decode_isSome.mp (by rw [hout]; rfl)
    obtain ⟨body, hbody⟩ := hacc.encoded fun hmis => hplaced ⟨hacc, hmis⟩
    exact ⟨body, hbody, hbody.recovered hout⟩

/-- `AA=A` is decoded. -/
theorem pad_before_symbol : base64Decode (bytesOf ['A', 'A', '=', 'A']) = some [0, 63] ∧
    ¬ ∃ body, Encoded (bytesOf ['A', 'A', '=', 'A']) body := by
  constructor
  · decide +kernel
  · rintro ⟨body, hbody⟩
    have hmis : Misplaced (bytesOf ['A', 'A', '=', 'A']) := .inr (by decide)
    exact hbody.not_misplaced hmis

end Base64

end AxlSdk
