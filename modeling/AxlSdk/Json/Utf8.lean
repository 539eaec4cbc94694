import AxlSdk.Lib.Utf8

/-!
# UTF-8 in the JSON code

`axl_utf8_decode`, the wrapper `axl_json_utf8_step` that bounds it, and the
reader's `utf8_encode`. `utf8Step_eq_true` and `utf8Decode_multi` say that they
recognise exactly the encodings of `Utf8.Multi`.
-/

namespace AxlSdk

namespace Json

open Utf8 List

/-- `UTF8_IS_CONT`. -/
def isCont (b : UInt8) : Bool := b &&& 0xC0 == 0x80

/-- `axl_utf8_decode` on the bytes from the cursor on: the code point and how
many bytes it takes, 1 for an ill-formed one. -/
def utf8Decode (s : List UInt8) : Nat × Nat :=
  let b0 := s.getD 0 0
  let b1 := s.getD 1 0
  let b2 := if b1 = 0 then 0 else s.getD 2 0
  let b3 := if b2 = 0 then 0 else s.getD 3 0
  if b0 = 0 then (0, 0)
  else if b0 < 0x80 then (b0.toNat, 1)
  else if b0 &&& 0xE0 = 0xC0 then
    if !isCont b1 then (0xFFFD, 1)
    else
      let cp := (b0 &&& 0x1F).toNat <<< 6 ||| (b1 &&& 0x3F).toNat
      if cp < 0x80 then (0xFFFD, 1) else (cp, 2)
  else if b0 &&& 0xF0 = 0xE0 then
    if !isCont b1 || !isCont b2 then (0xFFFD, 1)
    else
      let cp := (b0 &&& 0x0F).toNat <<< 12 ||| (b1 &&& 0x3F).toNat <<< 6 ||| (b2 &&& 0x3F).toNat
      if cp < 0x800 ∨ (cp ≥ 0xD800 ∧ cp ≤ 0xDFFF) then (0xFFFD, 1) else (cp, 3)
  else if b0 &&& 0xF8 = 0xF0 then
    if !isCont b1 || !isCont b2 || !isCont b3 then (0xFFFD, 1)
    else
      let cp := (b0 &&& 0x07).toNat <<< 18 ||| (b1 &&& 0x3F).toNat <<< 12 |||
        (b2 &&& 0x3F).toNat <<< 6 ||| (b3 &&& 0x3F).toNat
      if cp < 0x10000 ∨ cp > 0x10FFFF then (0xFFFD, 1) else (cp, 4)
  else (0xFFFD, 1)

/-- The length that a lead byte announces; 1 for any other byte. -/
def leadNeed (b0 : UInt8) : Nat :=
  if b0 &&& 0xE0 = 0xC0 then 2
  else if b0 &&& 0xF0 = 0xE0 then 3
  else if b0 &&& 0xF8 = 0xF0 then 4
  else 1

/-- `axl_json_utf8_step` on the bytes from the cursor to the bound: how many of
them to consume, and whether they are well formed. -/
def utf8Step (s : List UInt8) : Nat × Bool :=
  let need := leadNeed (s.getD 0 0)
  if need = 1 ∨ need > s.length then (1, false)
  else if (utf8Decode s).2 ≠ need then (1, false)
  else (need, true)

/-- `utf8_encode`. -/
def utf8Encode (cp : Nat) : List UInt8 :=
  if cp < 0x80 then [UInt8.ofNat cp]
  else if cp < 0x800 then [UInt8.ofNat (0xC0 ||| cp >>> 6), UInt8.ofNat (0x80 ||| cp &&& 0x3F)]
  else if cp < 0x10000 then
    [UInt8.ofNat (0xE0 ||| cp >>> 12), UInt8.ofNat (0x80 ||| cp >>> 6 &&& 0x3F),
      UInt8.ofNat (0x80 ||| cp &&& 0x3F)]
  else
    [UInt8.ofNat (0xF0 ||| cp >>> 18), UInt8.ofNat (0x80 ||| cp >>> 12 &&& 0x3F),
      UInt8.ofNat (0x80 ||| cp >>> 6 &&& 0x3F), UInt8.ofNat (0x80 ||| cp &&& 0x3F)]

/-- `AXL_JSON_REPLACEMENT`, U+FFFD. -/
def replacement : List UInt8 := [0xEF, 0xBF, 0xBD]

/-! ## Bits of a byte -/

/-- A property of bytes that the 256 of them have. -/
theorem byte_all {p : UInt8 → Prop} (h : ∀ n < 256, p (UInt8.ofNat n)) (b : UInt8) : p b := by
  have := h b.toNat (UInt8.toNat_lt b)
  rwa [UInt8.ofNat_toNat] at this

/-- The masks of `axl_utf8_decode` on the 256 bytes: what a lead byte looks like, and the
bits that it and the bytes behind it carry. -/
theorem byte_masks (b : UInt8) :
    (isCont b = true ↔ Cont b) ∧
    (b &&& 0xE0 = 0xC0 ↔ 0xC0 ≤ b.toNat ∧ b.toNat < 0xE0) ∧
    (b &&& 0xF0 = 0xE0 ↔ 0xE0 ≤ b.toNat ∧ b.toNat < 0xF0) ∧
    (b &&& 0xF8 = 0xF0 ↔ 0xF0 ≤ b.toNat ∧ b.toNat < 0xF8) ∧
    (Cont b → (b &&& 0x3F).toNat = b.toNat - 0x80) ∧
    (0xC0 ≤ b.toNat ∧ b.toNat < 0xE0 → (b &&& 0x1F).toNat = b.toNat - 0xC0) ∧
    (0xE0 ≤ b.toNat ∧ b.toNat < 0xF0 → (b &&& 0x0F).toNat = b.toNat - 0xE0) ∧
    (0xF0 ≤ b.toNat ∧ b.toNat < 0xF8 → (b &&& 0x07).toNat = b.toNat - 0xF0) := by
  obtain ⟨n, hn, rfl⟩ : ∃ n < 256, UInt8.ofNat n = b := ⟨b.toNat, b.toNat_lt, UInt8.ofNat_toNat⟩
  revert n
  decide +kernel

theorem isCont_iff (b : UInt8) : isCont b = true ↔ Cont b := (byte_masks b).1

theorem lead2_iff (b : UInt8) : b &&& 0xE0 = 0xC0 ↔ 0xC0 ≤ b.toNat ∧ b.toNat < 0xE0 :=
  (byte_masks b).2.1

theorem lead3_iff (b : UInt8) : b &&& 0xF0 = 0xE0 ↔ 0xE0 ≤ b.toNat ∧ b.toNat < 0xF0 :=
  (byte_masks b).2.2.1

theorem lead4_iff (b : UInt8) : b &&& 0xF8 = 0xF0 ↔ 0xF0 ≤ b.toNat ∧ b.toNat < 0xF8 :=
  (byte_masks b).2.2.2.1

variable {b : UInt8}

theorem cont_bits (h : Cont b) : (b &&& 0x3F).toNat = b.toNat - 0x80 :=
  (byte_masks b).2.2.2.2.1 h

theorem lead2_bits (h : 0xC0 ≤ b.toNat ∧ b.toNat < 0xE0) :
    (b &&& 0x1F).toNat = b.toNat - 0xC0 :=
  (byte_masks b).2.2.2.2.2.1 h

theorem lead3_bits (h : 0xE0 ≤ b.toNat ∧ b.toNat < 0xF0) :
    (b &&& 0x0F).toNat = b.toNat - 0xE0 :=
  (byte_masks b).2.2.2.2.2.2.1 h

theorem lead4_bits (h : 0xF0 ≤ b.toNat ∧ b.toNat < 0xF8) :
    (b &&& 0x07).toNat = b.toNat - 0xF0 :=
  (byte_masks b).2.2.2.2.2.2.2 h

variable {a : Nat}

theorem join_bits {b : Nat} (k : Nat) (hb : b < 2 ^ k) : a <<< k ||| b = a * 2 ^ k + b := by
  rw [← Nat.shiftLeft_add_eq_or_of_lt hb, Nat.shiftLeft_eq]

theorem join2 {b : Nat} (hb : b < 64) : a <<< 6 ||| b = a * 64 + b := join_bits 6 hb

theorem join3 {b c : Nat} (hb : b < 64) (hc : c < 64) :
    a <<< 12 ||| b <<< 6 ||| c = a * 4096 + b * 64 + c := by
  have hb' : b <<< 6 < 2 ^ 12 := by rw [Nat.shiftLeft_eq]; omega
  have h : a <<< 12 ||| b <<< 6 = (a * 64 + b) <<< 6 := by
    rw [join_bits 12 hb', Nat.shiftLeft_eq, Nat.shiftLeft_eq]
    omega
  rw [h, join2 hc]
  omega

theorem join4 {b c d : Nat} (hb : b < 64) (hc : c < 64) (hd : d < 64) :
    a <<< 18 ||| b <<< 12 ||| c <<< 6 ||| d = a * 262144 + b * 4096 + c * 64 + d := by
  have hb' : b <<< 12 < 2 ^ 18 := by rw [Nat.shiftLeft_eq]; omega
  have h : a <<< 18 ||| b <<< 12 = (a * 64 + b) <<< 12 := by
    rw [join_bits 18 hb', Nat.shiftLeft_eq, Nat.shiftLeft_eq]
    omega
  rw [h, join3 hc hd]
  omega

/-! ## Encodings -/

theorem byte_ne_zero (h : 0x80 ≤ b.toNat) : b ≠ 0 := by
  rintro rfl
  simp at h

theorem byte_not_ascii (h : 0x80 ≤ b.toNat) : ¬ b < 0x80 := by
  rw [UInt8.lt_iff_toNat_lt]
  exact Nat.not_lt.mpr h

theorem low_bits_lt (b : UInt8) : (b &&& 0x3F).toNat < 64 := by
  rw [UInt8.toNat_and]
  exact Nat.lt_succ_of_le Nat.and_le_right

theorem not_cont (h : ¬ Cont b) : isCont b = false := by
  rwa [Bool.eq_false_iff, ne_eq, isCont_iff]

/-- `axl_utf8_decode` on a two-byte lead. -/
theorem utf8Decode_lead2 {b₀ b₁ : UInt8} (h₀ : 0xC0 ≤ b₀.toNat ∧ b₀.toNat < 0xE0)
    (r : List UInt8) :
    utf8Decode (b₀ :: b₁ :: r) =
      if Cont b₁ ∧ 0x80 ≤ (b₀.toNat - 0xC0) * 64 + (b₁.toNat - 0x80) then
        ((b₀.toNat - 0xC0) * 64 + (b₁.toNat - 0x80), 2)
      else (0xFFFD, 1) := by
  simp only [utf8Decode, getD_cons_zero, getD_cons_succ]
  rw [if_neg (byte_ne_zero (by omega)), if_neg (byte_not_ascii (by omega)),
    if_pos ((lead2_iff _).mpr h₀)]
  by_cases h₁ : Cont b₁
  · have hc := (isCont_iff _).mpr h₁
    simp only [hc, Bool.not_true, Bool.false_eq_true, if_false, h₁, true_and]
    rw [join2 (low_bits_lt _), cont_bits h₁, lead2_bits h₀]
    split <;> split <;> first | omega | rfl
  · have hc := not_cont h₁
    simp [hc, h₁]

/-- `axl_utf8_decode` on a three-byte lead. -/
theorem utf8Decode_lead3 {b₀ b₁ b₂ : UInt8} (h₀ : 0xE0 ≤ b₀.toNat ∧ b₀.toNat < 0xF0)
    (r : List UInt8) :
    utf8Decode (b₀ :: b₁ :: b₂ :: r) =
      if Cont b₁ ∧ Cont b₂ ∧
          0x800 ≤ (b₀.toNat - 0xE0) * 4096 + (b₁.toNat - 0x80) * 64 + (b₂.toNat - 0x80) ∧
          Scalar ((b₀.toNat - 0xE0) * 4096 + (b₁.toNat - 0x80) * 64 + (b₂.toNat - 0x80)) then
        ((b₀.toNat - 0xE0) * 4096 + (b₁.toNat - 0x80) * 64 + (b₂.toNat - 0x80), 3)
      else (0xFFFD, 1) := by
  simp only [utf8Decode, getD_cons_zero, getD_cons_succ]
  rw [if_neg (byte_ne_zero (by omega)), if_neg (byte_not_ascii (by omega)), if_neg, if_pos]
  rotate_left
  · exact (lead3_iff _).mpr h₀
  · rw [lead2_iff]
    omega
  by_cases h₁ : Cont b₁
  · have hz : b₁ ≠ 0 := byte_ne_zero h₁.1
    by_cases h₂ : Cont b₂
    · have hc₁ := (isCont_iff _).mpr h₁
      have hc₂ := (isCont_iff _).mpr h₂
      simp only [if_neg hz, hc₁, hc₂, Bool.not_true, Bool.or_false, Bool.false_eq_true, if_false,
        h₁, h₂, true_and]
      rw [join3 (low_bits_lt _) (low_bits_lt _), cont_bits h₁, cont_bits h₂, lead3_bits h₀]
      have hb := h₁.2
      have hb' := h₂.2
      unfold Scalar
      split <;> split <;> first | omega | rfl
    · have hc₂ := not_cont h₂
      simp [if_neg hz, hc₂, h₂]
  · have hc₁ := not_cont h₁
    simp [hc₁, h₁]

/-- `axl_utf8_decode` on a four-byte lead. -/
theorem utf8Decode_lead4 {b₀ b₁ b₂ b₃ : UInt8} (h₀ : 0xF0 ≤ b₀.toNat ∧ b₀.toNat < 0xF8)
    (r : List UInt8) :
    utf8Decode (b₀ :: b₁ :: b₂ :: b₃ :: r) =
      if Cont b₁ ∧ Cont b₂ ∧ Cont b₃ ∧
          0x10000 ≤ (b₀.toNat - 0xF0) * 262144 + (b₁.toNat - 0x80) * 4096 +
            (b₂.toNat - 0x80) * 64 + (b₃.toNat - 0x80) ∧
          (b₀.toNat - 0xF0) * 262144 + (b₁.toNat - 0x80) * 4096 +
            (b₂.toNat - 0x80) * 64 + (b₃.toNat - 0x80) < 0x110000 then
        ((b₀.toNat - 0xF0) * 262144 + (b₁.toNat - 0x80) * 4096 +
            (b₂.toNat - 0x80) * 64 + (b₃.toNat - 0x80), 4)
      else (0xFFFD, 1) := by
  simp only [utf8Decode, getD_cons_zero, getD_cons_succ]
  rw [if_neg (byte_ne_zero (by omega)), if_neg (byte_not_ascii (by omega)), if_neg, if_neg, if_pos]
  rotate_left
  · exact (lead4_iff _).mpr h₀
  · rw [lead3_iff]
    omega
  · rw [lead2_iff]
    omega
  by_cases h₁ : Cont b₁
  · have hz₁ : b₁ ≠ 0 := byte_ne_zero h₁.1
    by_cases h₂ : Cont b₂
    · have hz₂ : b₂ ≠ 0 := byte_ne_zero h₂.1
      by_cases h₃ : Cont b₃
      · have hc₁ := (isCont_iff _).mpr h₁
        have hc₂ := (isCont_iff _).mpr h₂
        have hc₃ := (isCont_iff _).mpr h₃
        simp only [if_neg hz₁, if_neg hz₂, hc₁, hc₂, hc₃, Bool.not_true, Bool.or_false,
          Bool.false_eq_true, if_false, h₁, h₂, h₃, true_and]
        rw [join4 (low_bits_lt _) (low_bits_lt _) (low_bits_lt _), cont_bits h₁, cont_bits h₂,
          cont_bits h₃, lead4_bits h₀]
        split <;> split <;> first | omega | rfl
      · have hc₃ := not_cont h₃
        simp [if_neg hz₁, if_neg hz₂, hc₃, h₃]
    · have hc₂ := not_cont h₂
      simp [if_neg hz₁, hc₂, h₂]
  · have hc₁ := not_cont h₁
    simp [hc₁, h₁]

variable {cp : Nat} {u : List UInt8}

theorem utf8Decode_multi (hu : Multi cp u) (r : List UInt8) :
    utf8Decode (u ++ r) = (cp, u.length) := by
  cases hu with
  | two h₀ h₁ hmin =>
    simp only [cons_append, nil_append]
    rw [utf8Decode_lead2 h₀, if_pos ⟨h₁, hmin⟩]
    rfl
  | three h₀ h₁ h₂ hmin hs =>
    simp only [cons_append, nil_append]
    rw [utf8Decode_lead3 h₀, if_pos ⟨h₁, h₂, hmin, hs⟩]
    rfl
  | four h₀ h₁ h₂ h₃ hmin hmax =>
    simp only [cons_append, nil_append]
    rw [utf8Decode_lead4 h₀, if_pos ⟨h₁, h₂, h₃, hmin, hmax⟩]
    rfl

theorem leadNeed_multi (hu : Multi cp u) (r : List UInt8) :
    leadNeed ((u ++ r).getD 0 0) = u.length := by
  cases hu with
  | two h₀ =>
    simp only [cons_append, getD_cons_zero, leadNeed]
    rw [if_pos ((lead2_iff _).mpr h₀)]
    rfl
  | three h₀ =>
    simp only [cons_append, getD_cons_zero, leadNeed, lead2_iff, lead3_iff]
    rw [if_neg (by omega), if_pos h₀]
    rfl
  | four h₀ =>
    simp only [cons_append, getD_cons_zero, leadNeed, lead2_iff, lead3_iff, lead4_iff]
    rw [if_neg (by omega), if_neg (by omega), if_pos h₀]
    rfl

theorem Multi.two_le (hu : Multi cp u) : 2 ≤ u.length := by
  cases hu <;> simp

theorem utf8Step_multi (hu : Multi cp u) (r : List UInt8) :
    utf8Step (u ++ r) = (u.length, true) := by
  have hlen := Multi.two_le hu
  rw [utf8Step, leadNeed_multi hu, utf8Decode_multi hu]
  simp
  omega

/-- A valid step consumes an encoding. -/
theorem utf8Step_true {s : List UInt8} {n : Nat} (h : utf8Step s = (n, true)) :
    ∃ cp u r, s = u ++ r ∧ Multi cp u ∧ n = u.length := by
  unfold utf8Step at h
  dsimp only at h
  split at h
  case isTrue => cases h
  case isFalse hneed =>
    split at h
    case isTrue => cases h
    case isFalse hdec =>
      obtain ⟨rfl, -⟩ := Prod.mk.inj h
      simp only [not_or, Nat.not_lt, not_not, gt_iff_lt] at hneed hdec
      unfold leadNeed at hneed hdec ⊢
      split at hneed
      case isTrue h₂ =>
        rw [if_pos h₂] at hdec ⊢
        match s, hneed.2 with
        | b₀ :: b₁ :: r, _ =>
          have h₀ := (lead2_iff b₀).mp h₂
          rw [utf8Decode_lead2 h₀] at hdec
          split at hdec
          case isFalse => simp at hdec
          case isTrue hok => exact ⟨_, [b₀, b₁], r, rfl, .two h₀ hok.1 hok.2, rfl⟩
      case isFalse h₂ =>
        rw [if_neg h₂] at hdec ⊢
        split at hneed
        case isTrue h₃ =>
          rw [if_pos h₃] at hdec ⊢
          match s, hneed.2 with
          | b₀ :: b₁ :: b₂ :: r, _ =>
            have h₀ := (lead3_iff b₀).mp h₃
            rw [utf8Decode_lead3 h₀] at hdec
            split at hdec
            case isFalse => simp at hdec
            case isTrue hok =>
              exact ⟨_, [b₀, b₁, b₂], r, rfl, .three h₀ hok.1 hok.2.1 hok.2.2.1 hok.2.2.2, rfl⟩
        case isFalse h₃ =>
          rw [if_neg h₃] at hdec ⊢
          split at hneed
          case isTrue h₄ =>
            rw [if_pos h₄] at hdec ⊢
            match s, hneed.2 with
            | b₀ :: b₁ :: b₂ :: b₃ :: r, _ =>
              have h₀ := (lead4_iff b₀).mp h₄
              rw [utf8Decode_lead4 h₀] at hdec
              split at hdec
              case isFalse => simp at hdec
              case isTrue hok =>
                exact ⟨_, [b₀, b₁, b₂, b₃], r, rfl,
                  .four h₀ hok.1 hok.2.1 hok.2.2.1 hok.2.2.2.1 hok.2.2.2.2, rfl⟩
          case isFalse h₄ => exact absurd rfl hneed.1

theorem utf8Step_false {s : List UInt8} {n : Nat} (h : utf8Step s = (n, false)) : n = 1 := by
  unfold utf8Step at h
  dsimp only at h
  split at h
  · cases h
    rfl
  · split at h <;> cases h
    rfl

theorem or_bits {b : Nat} (k : Nat) (hb : b < 2 ^ k) : a * 2 ^ k ||| b = a * 2 ^ k + b := by
  rw [← Nat.shiftLeft_eq, join_bits k hb, Nat.shiftLeft_eq]

/-- `utf8_encode` computes the encoding. -/
theorem utf8Encode_eq (h : cp < 0x110000) : utf8Encode cp = encode cp := by
  have hmask : ∀ n, n &&& 0x3F = n % 64 := fun n => Nat.and_two_pow_sub_one_eq_mod n 6
  have hcont : ∀ n, 0x80 ||| n % 64 = 0x80 + n % 64 := fun n =>
    or_bits (a := 2) 6 (Nat.mod_lt _ (by decide))
  have h2 : ∀ n < 32, 0xC0 ||| n = 0xC0 + n := fun n hn => or_bits (a := 6) 5 hn
  have h3 : ∀ n < 16, 0xE0 ||| n = 0xE0 + n := fun n hn => or_bits (a := 14) 4 hn
  have h4 : ∀ n < 8, 0xF0 ||| n = 0xF0 + n := fun n hn => or_bits (a := 30) 3 hn
  simp only [utf8Encode, encode, hmask, hcont, Nat.shiftRight_eq_div_pow]
  split
  · rfl
  · split
    · rw [h2 _ (by omega)]
    · split
      · rw [h3 _ (by omega)]
      · rw [h4 _ (by omega)]

end Json

end AxlSdk
