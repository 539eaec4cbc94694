import AxlSdk.Json.Utf8
import AxlSdk.Lib.Clip
import AxlSdk.Lib.Utf16

/-!
# Unicode conversions (`axl-str.c`)

- `axlUtf8Encode`, and the loop over `axl_utf8_decode`, `codePoints`.
- `axlUtf16ToUtf8`, `axlUtf8ToUtf16`: a step of either loop reads a code point,
  `pointOfUnits` or `pointOfBytes`, and appends its encoding.
- `conversions`: what the three of them do to any input, for every size of the buffer.
-/

namespace AxlSdk

namespace Unicode

open Json Utf8 List

/-! ## The code points of a string -/

/-- `axl_utf8_encode`: what it returns, and what it writes to `dst`. -/
def axlUtf8Encode (codepoint : Nat) (dst : Option Nat) : Nat × List UInt8 :=
  if (codepoint ≥ 0xD800 ∧ codepoint ≤ 0xDFFF) ∨ codepoint > 0x10FFFF then (0, [])
  else
    let need := if codepoint < 0x80 then 1 else if codepoint < 0x800 then 2
      else if codepoint < 0x10000 then 3 else 4
    match dst with
    | none => (need, [])
    | some dstSize =>
      if dstSize < need then (0, [])
      else
        match need with
        | 1 => (need, [UInt8.ofNat codepoint])
        | 2 =>
          (need, [UInt8.ofNat (0xC0 ||| codepoint >>> 6),
            UInt8.ofNat (0x80 ||| codepoint &&& 0x3F)])
        | 3 =>
          (need, [UInt8.ofNat (0xE0 ||| codepoint >>> 12),
            UInt8.ofNat (0x80 ||| codepoint >>> 6 &&& 0x3F),
            UInt8.ofNat (0x80 ||| codepoint &&& 0x3F)])
        | _ =>
          (need, [UInt8.ofNat (0xF0 ||| codepoint >>> 18),
            UInt8.ofNat (0x80 ||| codepoint >>> 12 &&& 0x3F),
            UInt8.ofNat (0x80 ||| codepoint >>> 6 &&& 0x3F),
            UInt8.ofNat (0x80 ||| codepoint &&& 0x3F)])

theorem utf8Decode_nil : utf8Decode [] = (0, 0) := rfl

variable {s : List UInt8}

theorem drop_lt (h : (utf8Decode s).2 ≠ 0) :
    (s.drop (utf8Decode s).2).length < s.length := by
  have hs : s ≠ [] := by
    rintro rfl
    exact h rfl
  have := length_pos_of_ne_nil hs
  simp only [length_drop]
  omega

/-- The code points that `axl_utf8_decode` reads off a string, up to its terminator. -/
def codePoints (s : List UInt8) : List Nat :=
  if (utf8Decode s).2 = 0 then [] else (utf8Decode s).1 :: codePoints (s.drop (utf8Decode s).2)
termination_by s.length
decreasing_by exact drop_lt ‹_›

/-- The code points written one after the other. -/
def encodeAll (cps : List Nat) : List UInt8 := cps.flatMap fun cp => (axlUtf8Encode cp (some 4)).2

/-! ## From UTF-16 -/

/-- The code point at `src[0]`, and whether the unit behind it belongs to it. -/
def pointOfUnits (u : UInt16) (src : List UInt16) : Nat × Bool :=
  let cp := u.toNat
  if cp ≥ 0xD800 ∧ cp ≤ 0xDBFF then
    match src with
    | [] => (0xFFFD, false)
    | v :: _ =>
      if v.toNat ≥ 0xDC00 ∧ v.toNat ≤ 0xDFFF then
        (0x10000 + (cp - 0xD800) <<< 10 + (v.toNat - 0xDC00), true)
      else (0xFFFD, false)
  else if cp ≥ 0xDC00 ∧ cp ≤ 0xDFFF then (0xFFFD, false)
  else (cp, false)

/-- The loop of `axl_utf16_to_utf8`; `skip` says that `src[0]` was the second of a pair. -/
def utf16ToUtf8Loop (dst : Option Nat) (out : Nat) (skip : Bool) :
    List UInt16 → Nat × List UInt8
  | [] => (out, [])
  | u :: src =>
    if skip then utf16ToUtf8Loop dst out false src
    else
      let cp := (pointOfUnits u src).1
      let i := (pointOfUnits u src).2
      let need := if cp < 0x80 then 1 else if cp < 0x800 then 2 else if cp < 0x10000 then 3 else 4
      match dst with
      | none => utf16ToUtf8Loop dst (out + need) i src
      | some dstSize =>
        if out + need > dstSize then (out, [])
        else
          let r := utf16ToUtf8Loop dst (out + (utf8Encode cp).length) i src
          (r.1, utf8Encode cp ++ r.2)

/-- `axl_utf16_to_utf8` -/
def axlUtf16ToUtf8 (src : List UInt16) (dst : Option Nat) : Nat × List UInt8 :=
  utf16ToUtf8Loop dst 0 false src

/-! ## To UTF-16 -/

/-- The code point at `s[i]`, and how far `i` moves. The bytes from `s[i]` on. -/
def pointOfBytes (s : List UInt8) : Nat × Nat :=
  let b0 := s.getD 0 0
  let s1 := s.getD 1 0
  let s2 := s.getD 2 0
  let s3 := s.getD 3 0
  if b0 < 0x80 then (b0.toNat, 1)
  else if b0 &&& 0xE0 = 0xC0 ∧ 1 < s.length ∧ isCont s1 then
    let cp := (b0 &&& 0x1F).toNat <<< 6 ||| (s1 &&& 0x3F).toNat
    (if cp < 0x80 then 0xFFFD else cp, 2)
  else if b0 &&& 0xF0 = 0xE0 ∧ 2 < s.length ∧ isCont s1 ∧ isCont s2 then
    let cp := (b0 &&& 0x0F).toNat <<< 12 ||| (s1 &&& 0x3F).toNat <<< 6 ||| (s2 &&& 0x3F).toNat
    (if cp < 0x800 ∨ (cp ≥ 0xD800 ∧ cp ≤ 0xDFFF) then 0xFFFD else cp, 3)
  else if b0 &&& 0xF8 = 0xF0 ∧ 3 < s.length ∧ isCont s1 ∧ isCont s2 ∧ isCont s3 then
    let cp := (b0 &&& 0x07).toNat <<< 18 ||| (s1 &&& 0x3F).toNat <<< 12 |||
      (s2 &&& 0x3F).toNat <<< 6 ||| (s3 &&& 0x3F).toNat
    (if cp < 0x10000 ∨ cp > 0x10FFFF then 0xFFFD else cp, 4)
  else (0xFFFD, 1)

theorem pointOfBytes_pos (s : List UInt8) : 0 < (pointOfBytes s).2 := by
  unfold pointOfBytes
  dsimp only
  repeat' split
  all_goals exact Nat.succ_pos _

/-- The loop of `axl_utf8_to_utf16`. -/
def utf8ToUtf16Loop (dst : Option Nat) (out : Nat) (s : List UInt8) : Nat × List UInt16 :=
  if h : s = [] then (out, [])
  else
    let cp := (pointOfBytes s).1
    let rest := s.drop (pointOfBytes s).2
    if cp ≥ 0x10000 then
      let hi := UInt16.ofNat (0xD800 + (cp - 0x10000) >>> 10)
      let lo := UInt16.ofNat (0xDC00 + ((cp - 0x10000) &&& 0x3FF))
      match dst with
      | none => utf8ToUtf16Loop dst (out + 2) rest
      | some dstCount =>
        if out + 2 > dstCount then (out, [])
        else
          let r := utf8ToUtf16Loop dst (out + 2) rest
          (r.1, hi :: lo :: r.2)
    else
      match dst with
      | none => utf8ToUtf16Loop dst (out + 1) rest
      | some dstCount =>
        if out + 1 > dstCount then (out, [])
        else
          let r := utf8ToUtf16Loop dst (out + 1) rest
          (r.1, UInt16.ofNat cp :: r.2)
termination_by s.length
decreasing_by
  all_goals
    have := pointOfBytes_pos s
    have := length_pos_of_ne_nil h
    simp only [length_drop]
    omega

/-- `axl_utf8_to_utf16` -/
def axlUtf8ToUtf16 (src : List UInt8) (dst : Option Nat) : Nat × List UInt16 :=
  utf8ToUtf16Loop dst 0 src

/-! ## What a step reads -/

theorem scalar_replacement : Scalar 0xFFFD := by decide

variable {cp : Nat}

/-- A step on units: the point of a pair, of a unit that is no surrogate, or U+FFFD. -/
theorem pointOfUnits_units {u : UInt16} {us : List UInt16} (h : Utf16.Units cp (u :: us))
    (r : List UInt16) : pointOfUnits u (us ++ r) = (cp, !us.isEmpty) := by
  cases h with
  | one h l =>
    unfold Utf16.High at h
    unfold Utf16.Low at l
    simp only [pointOfUnits, ge_iff_le, if_neg h, if_neg l]
    rfl
  | @pair u v h l =>
    unfold Utf16.High at h
    unfold Utf16.Low at l
    simp only [pointOfUnits, cons_append, ge_iff_le, if_pos h, if_pos l, Nat.shiftLeft_eq]
    rfl

theorem pointOfUnits_scalar (u : UInt16) (src : List UInt16) : Scalar (pointOfUnits u src).1 := by
  have hu := u.toNat_lt
  simp only [pointOfUnits]
  split
  case isTrue high =>
    split
    case h_1 => exact scalar_replacement
    case h_2 v src =>
      split
      case isTrue low =>
        rw [Nat.shiftLeft_eq]
        unfold Scalar
        omega
      case isFalse => exact scalar_replacement
  case isFalse high =>
    split
    case isTrue => exact scalar_replacement
    case isFalse low =>
      unfold Scalar
      omega

/-- The code points that the loop reads. -/
def pointsOfUnits (skip : Bool) : List UInt16 → List Nat
  | [] => []
  | u :: src =>
    if skip then pointsOfUnits false src
    else (pointOfUnits u src).1 :: pointsOfUnits (pointOfUnits u src).2 src

theorem pointsOfUnits_scalar (skip : Bool) (src : List UInt16) :
    ∀ cp ∈ pointsOfUnits skip src, Scalar cp := by
  induction src generalizing skip with
  | nil => simp [pointsOfUnits]
  | cons u src ih =>
    rw [pointsOfUnits]
    split
    · exact ih false
    · rintro cp (_ | ⟨_, h⟩)
      · exact pointOfUnits_scalar u src
      · exact ih _ cp h

theorem pointsOfUnits_append {us : List UInt16} (h : Utf16.Units cp us) (r : List UInt16) :
    pointsOfUnits false (us ++ r) = cp :: pointsOfUnits false r := by
  have hp : ∀ {u : UInt16} {vs : List UInt16}, Utf16.Units cp (u :: vs) →
      pointOfUnits u (vs ++ r) = (cp, !vs.isEmpty) := fun h => pointOfUnits_units h r
  cases h with
  | one h l =>
    have := hp (.one h l)
    simp only [nil_append] at this
    simp [pointsOfUnits, this]
  | pair h l =>
    have := hp (.pair h l)
    simp only [cons_append, nil_append] at this
    simp [pointsOfUnits, this]

variable {cps : List Nat}

theorem pointsOfUnits_encode (h : ∀ cp ∈ cps, Scalar cp) :
    pointsOfUnits false (cps.flatMap Utf16.encode) = cps := by
  induction cps with
  | nil => rfl
  | cons cp cps ih =>
    rw [flatMap_cons, pointsOfUnits_append (Utf16.encode_units (h cp mem_cons_self)),
      ih fun c hc => h c (mem_cons_of_mem _ hc)]

theorem encode_length (cp : Nat) : (encode cp).length =
    if cp < 0x80 then 1 else if cp < 0x800 then 2 else if cp < 0x10000 then 3 else 4 := by
  unfold encode
  split_ifs <;> rfl

/-- The loop of `axl_utf16_to_utf8` writes the encodings of what it reads. -/
theorem utf16ToUtf8Loop_eq (dst : Option Nat) (out : Nat) (skip : Bool) (src : List UInt16) :
    utf16ToUtf8Loop dst out skip src = Clip.write encode dst out (pointsOfUnits skip src) := by
  induction src generalizing out skip with
  | nil => rfl
  | cons u src ih =>
    rw [utf16ToUtf8Loop, pointsOfUnits]
    split
    · exact ih out false
    · have hlt : (pointOfUnits u src).1 < 0x110000 := by
        have := pointOfUnits_scalar u src
        unfold Scalar at this
        omega
      cases dst <;> simp only [Clip.write, ← encode_length, utf8Encode_eq hlt, ih]

variable {b : UInt8}

/-- A step on bytes: an ASCII byte. -/
theorem pointOfBytes_ascii (h : b.toNat < 0x80) (r : List UInt8) :
    pointOfBytes (b :: r) = (b.toNat, 1) := by
  simp only [pointOfBytes, getD_cons_zero]
  exact if_pos h

/-- A step on bytes: an encoding. -/
theorem pointOfBytes_multi {u : List UInt8} (h : Multi cp u) (r : List UInt8) :
    pointOfBytes (u ++ r) = (cp, u.length) := by
  have hc : ∀ {b}, Cont b → isCont b = true := fun h => (isCont_iff _).mpr h
  have hlt : ∀ {b : UInt8}, Cont b → (b &&& 0x3F).toNat < 64 := fun h => by
    rw [cont_bits h]
    obtain ⟨-, h⟩ := h
    omega
  cases h with
  | @two b₀ b₁ h₀ h₁ hmin =>
    have ha : ¬ b₀ < 0x80 := byte_not_ascii (by omega)
    simp only [pointOfBytes, cons_append, nil_append, getD_cons_zero,
      getD_cons_succ, length_cons]
    rw [if_neg ha, if_pos ⟨(lead2_iff _).mpr h₀, by omega, hc h₁⟩, join2 (hlt h₁), cont_bits h₁,
      lead2_bits h₀, if_neg (by omega)]
    rfl
  | @three b₀ b₁ b₂ h₀ h₁ h₂ hmin hs =>
    have ha : ¬ b₀ < 0x80 := byte_not_ascii (by omega)
    have h2 : ¬ b₀ &&& 0xE0 = 0xC0 := by rw [lead2_iff]; omega
    simp only [pointOfBytes, cons_append, nil_append, getD_cons_zero,
      getD_cons_succ, length_cons]
    unfold Scalar at hs
    rw [if_neg ha, if_neg fun h => h2 h.1, if_pos ⟨(lead3_iff _).mpr h₀, by omega, hc h₁, hc h₂⟩,
      join3 (hlt h₁) (hlt h₂), cont_bits h₁, cont_bits h₂, lead3_bits h₀, if_neg (by omega)]
    rfl
  | @four b₀ b₁ b₂ b₃ h₀ h₁ h₂ h₃ hmin hmax =>
    have ha : ¬ b₀ < 0x80 := byte_not_ascii (by omega)
    have h2 : ¬ b₀ &&& 0xE0 = 0xC0 := by rw [lead2_iff]; omega
    have h3 : ¬ b₀ &&& 0xF0 = 0xE0 := by rw [lead3_iff]; omega
    simp only [pointOfBytes, cons_append, nil_append, getD_cons_zero,
      getD_cons_succ, length_cons]
    rw [if_neg ha, if_neg fun h => h2 h.1, if_neg fun h => h3 h.1,
      if_pos ⟨(lead4_iff _).mpr h₀, by omega, hc h₁, hc h₂, hc h₃⟩,
      join4 (hlt h₁) (hlt h₂) (hlt h₃), cont_bits h₁, cont_bits h₂, cont_bits h₃, lead4_bits h₀,
      if_neg (by omega)]
    rfl

/-- What is out of range or a surrogate has become U+FFFD. -/
theorem pointOfBytes_scalar (s : List UInt8) : Scalar (pointOfBytes s).1 := by
  have hlt : ∀ {b : UInt8}, isCont b = true → (b &&& 0x3F).toNat < 64 := fun h => by
    have h := (isCont_iff _).mp h
    rw [cont_bits h]
    obtain ⟨-, h⟩ := h
    omega
  simp only [pointOfBytes]
  split
  case isTrue ha =>
    have : (s.getD 0 0).toNat < 128 := ha
    unfold Scalar
    omega
  case isFalse =>
    split
    case isTrue h =>
      obtain ⟨h₀, -, h₁⟩ := h
      have h₀ := (lead2_iff _).mp h₀
      rw [join2 (hlt h₁), lead2_bits h₀]
      have := hlt h₁
      unfold Scalar
      split <;> omega
    case isFalse =>
      split
      case isTrue h =>
        obtain ⟨h₀, -, h₁, h₂⟩ := h
        have h₀ := (lead3_iff _).mp h₀
        rw [join3 (hlt h₁) (hlt h₂), lead3_bits h₀]
        have := hlt h₁
        have := hlt h₂
        unfold Scalar
        split <;> omega
      case isFalse =>
        split
        case isTrue =>
          unfold Scalar
          split <;> omega
        case isFalse => exact scalar_replacement

/-- The code points that the loop reads. -/
def pointsOfBytes (s : List UInt8) : List Nat :=
  if h : s = [] then [] else (pointOfBytes s).1 :: pointsOfBytes (s.drop (pointOfBytes s).2)
termination_by s.length
decreasing_by
  have := pointOfBytes_pos s
  have := length_pos_of_ne_nil h
  simp only [length_drop]
  omega

theorem pointsOfBytes_scalar (s : List UInt8) : ∀ cp ∈ pointsOfBytes s, Scalar cp := by
  induction s using pointsOfBytes.induct with
  | case1 => simp [pointsOfBytes]
  | case2 s h ih =>
    rw [pointsOfBytes, dif_neg h]
    rintro cp (_ | ⟨_, hcp⟩)
    · exact pointOfBytes_scalar s
    · exact ih cp hcp

theorem pointsOfBytes_cons {r : List UInt8} (h : b.toNat < 0x80) :
    pointsOfBytes (b :: r) = b.toNat :: pointsOfBytes r := by
  rw [pointsOfBytes, dif_neg (cons_ne_nil b r), pointOfBytes_ascii h]
  rfl

theorem pointsOfBytes_append {u : List UInt8} (h : Multi cp u) (r : List UInt8) :
    pointsOfBytes (u ++ r) = cp :: pointsOfBytes r := by
  have hu : u ++ r ≠ [] := by
    obtain ⟨b, t, rfl, -⟩ := h.shape
    exact cons_ne_nil _ _
  rw [pointsOfBytes, dif_neg hu, pointOfBytes_multi h, drop_left]

theorem pointsOfBytes_encode (h : ∀ cp ∈ cps, Scalar cp) :
    pointsOfBytes (cps.flatMap encode) = cps := by
  induction cps with
  | nil => simp [pointsOfBytes]
  | cons cp cps ih =>
    have ih := ih fun c hc => h c (mem_cons_of_mem _ hc)
    rw [flatMap_cons]
    by_cases hlo : cp < 0x80
    · have hb : (UInt8.ofNat cp).toNat = cp := toNat_ofNat_of_lt (by omega)
      rw [encode, if_pos hlo, cons_append, nil_append,
        pointsOfBytes_cons (by rwa [hb]), ih, hb]
    · rw [pointsOfBytes_append (encode_multi (h cp mem_cons_self) (by omega)), ih]

/-- The loop of `axl_utf8_to_utf16` writes the units of what it reads. -/
theorem utf8ToUtf16Loop_eq (dst : Option Nat) (out : Nat) (s : List UInt8) :
    utf8ToUtf16Loop dst out s = Clip.write Utf16.encode dst out (pointsOfBytes s) := by
  induction s using pointsOfBytes.induct generalizing out with
  | case1 => simp [utf8ToUtf16Loop, pointsOfBytes, Clip.write]
  | case2 s h ih =>
    have hmask : ∀ n, n &&& 0x3FF = n % 1024 := fun n => Nat.and_two_pow_sub_one_eq_mod n 10
    rw [utf8ToUtf16Loop, dif_neg h, pointsOfBytes, dif_neg h]
    by_cases hcp : (pointOfBytes s).1 < 0x10000
    · simp only [Clip.write, ge_iff_le, Nat.not_le.mpr hcp, if_false, ih, Utf16.encode_one hcp]
      cases dst <;> rfl
    · have hcp := Nat.not_lt.mp hcp
      simp only [Clip.write, ge_iff_le, hcp, if_true, ih, Utf16.encode_pair hcp, hmask,
        Nat.shiftRight_eq_div_pow]
      cases dst <;> rfl

/-! ## Repeated decoding -/

theorem utf8Decode_pad (s : List UInt8) : utf8Decode (s ++ [0, 0, 0]) = utf8Decode s := by
  have hget : ∀ i, (s ++ [0, 0, 0]).getD i 0 = s.getD i 0 := fun i => by
    simp only [getD_eq_getElem?_getD, getElem?_append]
    split
    · rfl
    · rw [getElem?_eq_none (l := s) (by omega)]
      rcases i - s.length with - | - | - | n <;> rfl
  simp only [utf8Decode, hget]

/-- An encoding has no NUL, so what is read past the end belongs to none. -/
theorem multi_of_pad {u r : List UInt8} (hu : Multi cp u) (h : s ++ [0, 0, 0] = u ++ r) :
    ∃ r', s = u ++ r' := by
  have hz : ∀ b ∈ u, b ≠ 0 := by
    obtain ⟨b, t, rfl, hb, -, ht⟩ := hu.shape
    rintro c (_ | ⟨_, hc⟩)
    · exact byte_ne_zero (by omega)
    · exact byte_ne_zero (ht c hc).1
  rcases append_eq_append_iff.mp h with ⟨v, rfl, hv⟩ | ⟨v, rfl, -⟩
  · cases v with
    | nil => exact ⟨[], by simp⟩
    | cons c v =>
      obtain rfl : c = 0 := by simpa using (congrArg List.head? hv).symm
      exact absurd rfl (hz 0 (by simp))
  · exact ⟨v, rfl⟩

/-- What `axl_utf8_decode` does not take for an encoding it reads as one ill-formed byte. -/
theorem utf8Decode_cases (hb : 0x80 ≤ b.toNat) (t : List UInt8) :
    (∃ cp u r, b :: t = u ++ r ∧ Multi cp u) ∨ utf8Decode (b :: t) = (0xFFFD, 1) := by
  obtain ⟨b₁, b₂, b₃, r, ht⟩ : ∃ b₁ b₂ b₃ r, t ++ [0, 0, 0] = b₁ :: b₂ :: b₃ :: r := by
    match t with
    | [] => exact ⟨_, _, _, _, rfl⟩
    | [_] => exact ⟨_, _, _, _, rfl⟩
    | [_, _] => exact ⟨_, _, _, _, rfl⟩
    | _ :: _ :: _ :: _ => exact ⟨_, _, _, _, rfl⟩
  have hpad : b :: t ++ [0, 0, 0] = b :: b₁ :: b₂ :: b₃ :: r := by rw [cons_append, ht]
  have hmulti : ∀ {cp u v}, Multi cp u → b :: b₁ :: b₂ :: b₃ :: r = u ++ v →
      ∃ cp u r, b :: t = u ++ r ∧ Multi cp u := fun hu he => by
    obtain ⟨v, hv⟩ := multi_of_pad hu (hpad.trans he)
    exact ⟨_, _, v, hv, hu⟩
  rw [← utf8Decode_pad, hpad]
  -- the lead byte decides how many bytes follow
  by_cases h2 : 0xC0 ≤ b.toNat ∧ b.toNat < 0xE0
  · rw [utf8Decode_lead2 h2]
    split
    case isTrue h => exact .inl (hmulti (.two h2 h.1 h.2) rfl)
    case isFalse => exact .inr rfl
  by_cases h3 : 0xE0 ≤ b.toNat ∧ b.toNat < 0xF0
  · rw [utf8Decode_lead3 h3]
    split
    case isTrue h => exact .inl (hmulti (.three h3 h.1 h.2.1 h.2.2.1 h.2.2.2) rfl)
    case isFalse => exact .inr rfl
  by_cases h4 : 0xF0 ≤ b.toNat ∧ b.toNat < 0xF8
  · rw [utf8Decode_lead4 h4]
    split
    case isTrue h =>
      exact .inl (hmulti (.four h4 h.1 h.2.1 h.2.2.1 h.2.2.2.1 h.2.2.2.2) rfl)
    case isFalse => exact .inr rfl
  · refine .inr ?_
    simp only [utf8Decode, getD_cons_zero]
    rw [if_neg (byte_ne_zero hb), if_neg (byte_not_ascii hb), if_neg (by rwa [lead2_iff]),
      if_neg (by rwa [lead3_iff]), if_neg (by rwa [lead4_iff])]

theorem utf8Decode_ascii (h0 : b ≠ 0) (hb : b.toNat < 0x80) (t : List UInt8) :
    utf8Decode (b :: t) = (b.toNat, 1) := by
  simp only [utf8Decode, getD_cons_zero]
  rw [if_neg h0]
  exact if_pos hb

theorem codePoints_of {n : Nat} (h : utf8Decode s = (cp, n)) (hn : n ≠ 0) :
    codePoints s = cp :: codePoints (s.drop n) := by
  rw [codePoints, h, if_neg hn]

/-- A scalar value is written as a whole or not at all. -/
theorem axlUtf8Encode_scalar (h : Scalar cp) (dst : Option Nat) :
    axlUtf8Encode cp dst =
      match dst with
      | none => ((encode cp).length, [])
      | some dstSize =>
        if dstSize < (encode cp).length then (0, []) else ((encode cp).length, encode cp) := by
  have hlt : cp < 0x110000 := by
    unfold Scalar at h
    omega
  rw [← utf8Encode_eq hlt]
  unfold Scalar at h
  unfold axlUtf8Encode Json.utf8Encode
  rw [if_neg (by omega)]
  dsimp only
  by_cases h1 : cp < 0x80
  · simp [h1]
  by_cases h2 : cp < 0x800
  · simp [h1, h2]
  by_cases h3 : cp < 0x10000
  · simp [h1, h2, h3]
  · simp [h1, h2, h3]

theorem axlUtf8Encode_some (h : Scalar cp) : axlUtf8Encode cp (some 4) =
    ((encode cp).length, encode cp) := by
  have hlen : (encode cp).length ≤ 4 := by
    rw [encode_length]
    split_ifs <;> decide
  rw [axlUtf8Encode_scalar h]
  exact if_neg (Nat.not_lt.mpr hlen)

theorem axlUtf8Encode_ascii (h : b.toNat < 0x80) :
    (axlUtf8Encode b.toNat (some 4)).2 = [b] := by
  rw [axlUtf8Encode_some (Or.inl (by omega)), encode, if_pos h, UInt8.ofNat_toNat]

/-- Decoding a string and encoding what is read repairs the string. -/
theorem codePoints_repairs (h : 0 ∉ s) : Repairs s (encodeAll (codePoints s)) := by
  have hall : ∀ cp cps, encodeAll (cp :: cps) = (axlUtf8Encode cp (some 4)).2 ++ encodeAll cps :=
    fun cp cps => flatMap_cons
  -- the induction is on the length, since a step takes up to four bytes
  induction hn : s.length using Nat.strong_induction_on generalizing s with
  | _ n ih =>
    cases s with
    | nil =>
      rw [codePoints, utf8Decode_nil, if_pos rfl]
      exact .nil
    | cons b t =>
      have hb0 : b ≠ 0 := fun hb => h (hb ▸ mem_cons_self)
      have ht : 0 ∉ t := fun ht => h (mem_cons_of_mem _ ht)
      simp only [length_cons] at hn
      by_cases hb : b.toNat < 0x80
      · rw [codePoints_of (utf8Decode_ascii hb0 hb t) one_ne_zero, hall, axlUtf8Encode_ascii hb]
        exact .ascii hb (ih t.length (by omega) ht rfl)
      by_cases hm : ∃ cp u r, b :: t = u ++ r ∧ Multi cp u
      · obtain ⟨cp, u, r, he, hu⟩ := hm
        have hlen := Multi.two_le hu
        rw [he, codePoints_of (utf8Decode_multi hu r) (by omega), hall,
          axlUtf8Encode_some hu.encode.2.1, ← hu.encode.1, drop_left]
        have hr : r.length < n := by
          have := congrArg List.length he
          simp only [length_cons, length_append] at this
          omega
        exact .multi hu (ih r.length hr (fun hr => h (he ▸ mem_append_right u hr)) rfl)
      · have hd := (utf8Decode_cases (by omega) t).resolve_left hm
        rw [codePoints_of hd one_ne_zero, hall, axlUtf8Encode_some scalar_replacement]
        exact .bad (by omega) (fun cp u r he hu => hm ⟨cp, u, r, he, hu⟩)
          (ih t.length (by omega) ht rfl)

/-! ## The conversions -/

theorem wellFormed_flatMap (h : ∀ cp ∈ cps, Scalar cp) :
    WellFormed (cps.flatMap encode) := by
  induction cps with
  | nil => exact .nil
  | cons cp cps ih =>
    have ih := ih fun c hc => h c (mem_cons_of_mem _ hc)
    rw [flatMap_cons]
    by_cases hlo : cp < 0x80
    · rw [encode, if_pos hlo]
      exact .ascii (by rwa [toNat_ofNat_of_lt (by omega)]) ih
    · exact .multi (encode_multi (h cp mem_cons_self) (by omega)) ih

/-- A conversion writes the code points `cps`: without a buffer it counts them all, and into
a buffer it writes as many whole ones as fit. -/
structure Writes {α : Type} (piece : Nat → List α) (wellFormed : List α → Prop)
    (convert : Option Nat → Nat × List α) (cps : List Nat) : Prop where
  scalar : ∀ cp ∈ cps, Scalar cp
  sizing : convert none = ((cps.flatMap piece).length, [])
  clipped : ∀ size, ∃ w, convert (some size) = (w.length, w) ∧ Clip.Clipped piece cps size w ∧
    wellFormed w

theorem Writes.of_write {α : Type} {piece : Nat → List α} {wellFormed : List α → Prop}
    {convert : Option Nat → Nat × List α} (hcps : ∀ cp ∈ cps, Scalar cp)
    (hwf : ∀ {cps : List Nat}, (∀ cp ∈ cps, Scalar cp) → wellFormed (cps.flatMap piece))
    (h : ∀ dst, convert dst = Clip.write piece dst 0 cps) :
    Writes piece wellFormed convert cps where
  scalar := hcps
  sizing := by rw [h, Clip.write_none, Nat.zero_add]
  clipped size := by
    obtain ⟨w, hw, hc⟩ := Clip.write_clipped piece size cps
    refine ⟨w, (h _).trans hw, hc, ?_⟩
    obtain ⟨pre, rest, rfl, rfl, -⟩ := hc
    exact hwf fun cp hcp => hcps cp (mem_append_left _ hcp)

theorem axlUtf16ToUtf8_writes (src : List UInt16) :
    Writes encode WellFormed (axlUtf16ToUtf8 src) (pointsOfUnits false src) :=
  .of_write (pointsOfUnits_scalar false src) wellFormed_flatMap
    fun dst => utf16ToUtf8Loop_eq dst 0 false src

theorem axlUtf8ToUtf16_writes (src : List UInt8) :
    Writes Utf16.encode Utf16.WellFormed (axlUtf8ToUtf16 src) (pointsOfBytes src) :=
  .of_write (pointsOfBytes_scalar src) (fun h => ⟨_, h, rfl⟩)
    fun dst => utf8ToUtf16Loop_eq dst 0 src

/-- The conversions are inverse on what encodes scalar values, write whole code points for
any input and any size, and the decoder repairs what it reads. -/
theorem conversions_exact :
    (∀ cps : List Nat, (∀ cp ∈ cps, Scalar cp) → ∀ n m : Nat, (cps.flatMap encode).length ≤ n →
      (cps.flatMap Utf16.encode).length ≤ m →
      axlUtf8ToUtf16 (cps.flatMap encode) (some m) =
        ((cps.flatMap Utf16.encode).length, cps.flatMap Utf16.encode) ∧
      axlUtf16ToUtf8 (cps.flatMap Utf16.encode) (some n) =
        ((cps.flatMap encode).length, cps.flatMap encode)) ∧
    (∀ src : List UInt16, ∃ cps, Writes encode WellFormed (axlUtf16ToUtf8 src) cps) ∧
    (∀ src : List UInt8, ∃ cps, Writes Utf16.encode Utf16.WellFormed (axlUtf8ToUtf16 src) cps) ∧
    ∀ s : List UInt8, 0 ∉ s → Repairs s (encodeAll (codePoints s)) := by
  refine ⟨fun cps h n m hn hm => ⟨?_, ?_⟩, fun src => ⟨_, axlUtf16ToUtf8_writes src⟩,
    fun src => ⟨_, axlUtf8ToUtf16_writes src⟩, fun s hs => codePoints_repairs hs⟩
  · rw [axlUtf8ToUtf16, utf8ToUtf16Loop_eq, pointsOfBytes_encode h, Clip.write_all hm]
  · rw [axlUtf16ToUtf8, utf16ToUtf8Loop_eq, pointsOfUnits_encode h, Clip.write_all hn]

/-- U+1F600 in both encodings, and a string with a stray byte. -/
theorem conversions_exact_emoji :
    axlUtf8ToUtf16 (encode 0x1F600) (some 2) = (2, Utf16.encode 0x1F600) ∧
    axlUtf16ToUtf8 (Utf16.encode 0x1F600) (some 4) = (4, encode 0x1F600) ∧
    Repairs [0x41, 0xFF] (encodeAll (codePoints [0x41, 0xFF])) := by
  have h := conversions_exact.1 [0x1F600] (by decide) 4 2 (by decide) (by decide)
  exact ⟨h.1, h.2, conversions_exact.2.2.2 [0x41, 0xFF] (by decide)⟩

end Unicode

end AxlSdk
