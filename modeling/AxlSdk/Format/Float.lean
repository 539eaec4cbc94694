import AxlSdk.Lib.Decimal

/-!
# Floating-point conversions (`emit_float`)

A finite value is a sign, the digits that `axl_dtoa` gives and the place of its point.
A count of digits is an `int` in the code and in `Int` here.

- `roundToSig_spec`: the digits that are kept are the value rounded half up.
- `fixed_spec`, `sci_spec`: a body is a numeral of the value of its digits, as long as
  the width function says.
- `emit_float_exact`: so what is written has the width, and reads back as the rounded
  value.
-/

namespace AxlSdk

namespace FormatFloat

open Decimal List

/-! ## The code -/

/-- `write_chars` -/
def writeChars (c : UInt8) (count : Int) : List UInt8 := List.replicate count.toNat c

/-- A character of `digits_lower` or `digits_upper`. -/
def digitChar (upper : Bool) (k : Nat) : UInt8 :=
  UInt8.ofNat (if k < 10 then 0x30 + k else (if upper then 0x41 else 0x61) + (k - 10))

/-- What `format_uint` puts in `tmp`, with room for so much. -/
def tmpDigits (base : Nat) (upper : Bool) : Nat → Nat → List UInt8
  | 0, _ => []
  | room + 1, val =>
    if val = 0 then [] else digitChar upper (val % base) :: tmpDigits base upper room (val / base)

/-- `format_uint` -/
def formatUint (bufSize val base : Nat) (upper : Bool) : List UInt8 :=
  if val = 0 then [0x30] else ((tmpDigits base upper 24 val).take bufSize).reverse

/-- The carry of `round_to_sig`, from before a digit: nothing if it leaves the front. -/
def carryLoop : Nat → List Digit → Option (List Digit)
  | 0, _ => none
  | i + 1, d => if d[i]? = some 9 then carryLoop i (d.set i 0) else some (d.set i (d.getD i 0 + 1))

/-- `round_to_sig` -/
def roundToSig (d : List Digit) (decpt nsig : Int) : List Digit × Int :=
  if nsig ≥ d.length then (d, decpt)
  else if nsig < 0 then ([], decpt)
  else
    let roundUp := 5 ≤ d.getD nsig.toNat 0
    let len := d.take nsig.toNat
    if ¬ roundUp then (len, decpt)
    else
      match carryLoop nsig.toNat len with
      | some d => (d, decpt)
      | none => ([1], decpt + 1)

/-- `strip_trailing_zeros` -/
def stripTrailingZeros : Nat → List Digit → List Digit
  | 0, d => d
  | fuel + 1, d =>
    if 1 < d.length ∧ d.getLast? = some 0 then stripTrailingZeros fuel d.dropLast else d

/-- `emit_exponent` -/
def emitExponent (echar : UInt8) (exp : Int) : List UInt8 :=
  let eb := formatUint 8 exp.natAbs 10 false
  let pad : Int := if eb.length < 2 then 2 - eb.length else 0
  echar :: (if exp < 0 then minus else plus) :: (writeChars 0x30 pad ++ eb)

/-- `exponent_width` -/
def exponentWidth (exp : Int) : Int :=
  let en := (formatUint 8 exp.natAbs 10 false).length
  2 + (if en < 2 then 2 else en)

/-- A fraction: zeros, digits from a place on, and zeros. -/
structure Fraction where
  lead : Int
  realStart : Int
  real : Int
  trail : Int
deriving DecidableEq, Repr

/-- The digits shown, less the zeros at their end. -/
def trimLoop (d : List Digit) (start : Nat) : Nat → Nat
  | 0 => 0
  | real + 1 => if d[start + real]? = some 0 then trimLoop d start real else real + 1

/-- `fixed_fraction_layout` -/
def fixedFractionLayout (d : List Digit) (decpt fprec : Int) (trim : Bool) : Fraction :=
  let lead := if decpt < 0 then -decpt else 0
  let lead := if lead > fprec then fprec else lead
  let realStart := if decpt < 0 then 0 else decpt
  let realEnd := decpt + fprec
  let realEnd := if realEnd > d.length then (d.length : Int) else realEnd
  let real := realEnd - realStart
  let real := if real < 0 then 0 else real
  let trail := fprec - lead - real
  let trail := if trail < 0 then 0 else trail
  if trim then
    let real : Int := trimLoop d realStart.toNat real.toNat
    ⟨if real = 0 then 0 else lead, realStart, real, 0⟩
  else ⟨lead, realStart, real, trail⟩

/-- `fixed_body_width` -/
def fixedBodyWidth (d : List Digit) (decpt fprec : Int) (trim : Bool) : Int :=
  let w := if decpt ≤ 0 then 1 else decpt
  let l := fixedFractionLayout d decpt fprec trim
  if fprec > 0 ∧ l.lead + l.real + l.trail > 0 then w + (1 + l.lead + l.real + l.trail) else w

/-- `emit_fixed_body` -/
def emitFixedBody (d : List Digit) (decpt fprec : Int) (trim : Bool) : List UInt8 :=
  let int :=
    if decpt ≤ 0 then [0x30]
    else
      let intreal := if (d.length : Int) < decpt then (d.length : Int) else decpt
      chars (d.take intreal.toNat) ++
        (if decpt > intreal then writeChars 0x30 (decpt - intreal) else [])
  let l := fixedFractionLayout d decpt fprec trim
  if fprec > 0 ∧ l.lead + l.real + l.trail > 0 then
    int ++ (point :: (writeChars 0x30 l.lead ++
      (chars ((d.drop l.realStart.toNat).take l.real.toNat) ++ writeChars 0x30 l.trail)))
  else int

/-- `sci_fraction_layout` -/
def sciFractionLayout (d : List Digit) (fprec : Int) (trim : Bool) : Int × Int :=
  let real : Int := if 1 < d.length then (d.length : Int) - 1 else 0
  let real := if real > fprec then fprec else real
  let trail := fprec - real
  if trim then (trimLoop d 1 real.toNat, 0) else (real, trail)

/-- `sci_body_width` -/
def sciBodyWidth (d : List Digit) (decpt fprec : Int) (trim : Bool) : Int :=
  let (real, trail) := sciFractionLayout d fprec trim
  let w :=
    if (if trim then real else fprec) > 0 ∧ real + trail > 0 then 1 + (1 + real + trail) else 1
  w + exponentWidth (decpt - 1)

/-- `emit_sci_body` -/
def emitSciBody (d : List Digit) (decpt fprec : Int) (trim : Bool) (echar : UInt8) : List UInt8 :=
  let lead := d.headD 0
  let (real, trail) := sciFractionLayout d fprec trim
  let frac :=
    if (if trim then real else fprec) > 0 ∧ real + trail > 0 then
      point :: (chars ((d.drop 1).take real.toNat) ++ writeChars 0x30 trail)
    else []
  lead.char :: (frac ++ emitExponent echar (decpt - 1))

/-- A value as `emit_float` sees it: what `axl_dtoa` makes of a finite one. -/
inductive Value where
  | nan
  | inf (neg : Bool)
  | finite (neg : Bool) (digits : List Digit) (decpt : Int)
deriving DecidableEq, Repr

structure Flags where
  zero : Bool
  left : Bool
  plus : Bool
  space : Bool
deriving DecidableEq, Repr

def isUpper (conv : UInt8) : Bool := 0x41 ≤ conv ∧ conv ≤ 0x5A

def lower (conv : UInt8) : UInt8 := if isUpper conv then conv + (0x61 - 0x41) else conv

/-- The sign that is written. -/
def signText (neg : Bool) (flags : Flags) : List UInt8 :=
  if neg then [minus] else if flags.plus then [plus] else if flags.space then [blank] else []

/-- The precision of `%g`. -/
def gPrec (prec : Option Nat) : Nat :=
  match prec with
  | some 0 => 1
  | some p => p
  | none => 6

/-- The digits, and how they are laid out. -/
structure Layout where
  d : List Digit
  decpt : Int
  styleE : Bool
  fprec : Int
  trim : Bool
deriving DecidableEq, Repr

/-- Zero for digits that were rounded away. -/
def orZero (r : List Digit × Int) : List Digit × Int := if r.1 = [] then ([0], 1) else r

/-- What `emit_float` makes of the digits. -/
def layout (lc : UInt8) (prec : Option Nat) (d : List Digit) (decpt : Int) : Layout :=
  if lc = 0x67 then
    let p : Int := gPrec prec
    let (d, decpt) := orZero (roundToSig d decpt p)
    let d := stripTrailingZeros d.length d
    let exp := decpt - 1
    if exp < -4 ∨ exp ≥ p then ⟨d, decpt, true, p - 1, true⟩
    else ⟨d, decpt, false, if p - 1 - exp < 0 then 0 else p - 1 - exp, true⟩
  else if lc = 0x65 then
    let fprec : Int := prec.getD 6
    let (d, decpt) := orZero (roundToSig d decpt (fprec + 1))
    ⟨d, decpt, true, fprec, false⟩
  else
    let fprec : Int := prec.getD 6
    let (d, decpt) := orZero (roundToSig d decpt (decpt + fprec))
    ⟨d, decpt, false, fprec, false⟩

def Layout.width (l : Layout) : Int :=
  if l.styleE then sciBodyWidth l.d l.decpt l.fprec l.trim
  else fixedBodyWidth l.d l.decpt l.fprec l.trim

def Layout.emit (l : Layout) (echar : UInt8) : List UInt8 :=
  if l.styleE then emitSciBody l.d l.decpt l.fprec l.trim echar
  else emitFixedBody l.d l.decpt l.fprec l.trim

/-- A word in a field. -/
def emitWord (word : List UInt8) (width : Int) (left : Bool) : List UInt8 :=
  let pad := if width > word.length then width - word.length else 0
  (if left then [] else writeChars blank pad) ++ (word ++ if left then writeChars blank pad else [])

/-- `emit_float` -/
def emitFloat (value : Value) (conv : UInt8) (prec : Option Nat) (width : Int) (flags : Flags) :
    List UInt8 :=
  let echar : UInt8 := if isUpper conv then 0x45 else 0x65
  match value with
  | .nan =>
    emitWord (if isUpper conv then [0x4E, 0x41, 0x4E] else [0x6E, 0x61, 0x6E]) width flags.left
  | .inf neg =>
    emitWord (signText neg flags ++
      if isUpper conv then [0x49, 0x4E, 0x46] else [0x69, 0x6E, 0x66]) width flags.left
  | .finite neg d decpt =>
    let sign := signText neg flags
    let (d, decpt) := orZero (d, decpt)
    let l := layout (lower conv) prec d decpt
    let total := l.width + sign.length
    let pad := if width > total then width - total else 0
    let padChar : UInt8 := if flags.zero ∧ ¬ flags.left then 0x30 else blank
    (if ¬ flags.left ∧ padChar = blank then writeChars blank pad else []) ++ (sign ++
      ((if ¬ flags.left ∧ padChar = 0x30 then writeChars 0x30 pad else []) ++
        (l.emit echar ++ if flags.left then writeChars blank pad else [])))

/-! ## Rounding -/

/-- The number that digits with a point among them stand for. -/
def magnitude (d : List Digit) (decpt : Int) : ℚ := natOf d * 10 ^ (decpt - d.length)

/-- The digits of a finite value as `axl_dtoa` documents them: zero is `0`, and nothing
else has a zero at an end. A double has a place of its point between these bounds. -/
structure Shortest where
  digits : List Digit
  decpt : Int
  canonical : digits = [0] ∧ decpt = 1 ∨
    digits ≠ [] ∧ digits.head? ≠ some 0 ∧ digits.getLast? ≠ some 0
  low : -323 ≤ decpt
  high : decpt ≤ 309

variable {d d' : List Digit} {decpt decpt' nsig fprec : Int}

theorem natOf_set (d : List Digit) {i : Nat} (hi : i < d.length) (x : Digit) :
    natOf (d.set i x) + d[i] * 10 ^ (d.length - 1 - i) =
      natOf d + x * 10 ^ (d.length - 1 - i) := by
  have hlen : (d.drop (i + 1)).length = d.length - 1 - i := by
    rw [length_drop]
    omega
  have hd : natOf d = natOf (d.take i ++ d[i] :: d.drop (i + 1)) := by
    rw [← drop_eq_getElem_cons hi, take_append_drop]
  rw [set_eq_take_append_cons_drop, if_pos hi, hd, natOf_append, natOf_append, natOf_cons,
    natOf_cons, length_cons, length_cons, hlen]
  omega

theorem val_succ {x : Digit} (h : x ≠ 9) : (x + 1).val = x.val + 1 := by
  revert x
  decide

/-- The carry adds one to the digits in front of it, or leaves the front of all nines. -/
theorem carryLoop_spec {i : Nat} (hi : i ≤ d.length)
    (hzero : ∀ j, i ≤ j → j < d.length → d[j]? = some 0) :
    match carryLoop i d with
    | some d' => d'.length = d.length ∧ natOf d' = natOf d + 10 ^ (d.length - i) ∧
        (d.head? ≠ some 0 → d'.head? ≠ some 0)
    | none => natOf d + 10 ^ (d.length - i) = 10 ^ d.length := by
  induction i generalizing d with
  | zero =>
    have hall : d = List.replicate d.length 0 := by
      refine eq_replicate_iff.mpr ⟨rfl, fun b hb => ?_⟩
      obtain ⟨j, hj, rfl⟩ := mem_iff_getElem.mp hb
      exact Option.some.inj ((getElem?_eq_getElem hj).symm.trans (hzero j (Nat.zero_le j) hj))
    have hnat : natOf d = 0 := by rw [hall, natOf_zeros]
    rw [carryLoop]
    simp only [hnat, Nat.sub_zero, Nat.zero_add]
  | succ i ih =>
    have hlt : i < d.length := hi
    have hpow : 10 ^ (d.length - i) = 10 * 10 ^ (d.length - 1 - i) := by
      rw [← Nat.pow_succ']
      congr 1
      omega
    have hsub : d.length - (i + 1) = d.length - 1 - i := by omega
    rw [carryLoop]
    by_cases hnine : d[i]? = some 9
    · rw [if_pos hnine]
      have hdi : d[i] = 9 := Option.some.inj ((getElem?_eq_getElem hlt).symm.trans hnine)
      have hset : natOf (d.set i 0) + d[i] * 10 ^ (d.length - 1 - i) =
          natOf d + 0 * 10 ^ (d.length - 1 - i) := natOf_set d hlt 0
      have hzero' : ∀ j, i ≤ j → j < (d.set i 0).length → (d.set i 0)[j]? = some 0 := by
        intro j hj hjlt
        rw [length_set] at hjlt
        by_cases hji : i = j
        · rw [← hji, getElem?_set_self hlt]
        · rw [getElem?_set_ne hji]
          exact hzero j (by omega) hjlt
      have hrec := ih (by rw [length_set]; exact hlt.le) hzero'
      rw [length_set, hpow] at hrec
      rw [hdi, show ((9 : Digit) : Nat) = 9 from rfl] at hset
      rw [hsub]
      cases hcarry : carryLoop i (d.set i 0) with
      | none =>
        rw [hcarry] at hrec
        dsimp only at hrec ⊢
        omega
      | some d' =>
        rw [hcarry] at hrec
        obtain ⟨hlen, hnat, hhead⟩ := hrec
        dsimp only
        refine ⟨hlen, ?_, fun h => hhead ?_⟩
        · omega
        · cases i with
          | zero => cases hcarry
          | succ i =>
            cases d with
            | nil => cases hlt
            | cons b d => exact h
    · rw [if_neg hnine]
      have hget : d.getD i 0 = d[i] := by
        rw [getD_eq_getElem?_getD, getElem?_eq_getElem hlt, Option.getD_some]
      have hne : d[i] ≠ 9 := fun h => hnine ((getElem?_eq_getElem hlt).trans (congrArg some h))
      have hsucc := val_succ hne
      have hset := natOf_set d hlt (d[i] + 1)
      rw [hget, hsub]
      refine ⟨length_set, ?_, fun h => ?_⟩
      · rw [hsucc, Nat.add_mul] at hset
        omega
      · cases i with
        | zero =>
          cases d with
          | nil => cases hlt
          | cons b d =>
            intro hhead
            have hval : (b + 1).val = 0 := congrArg Fin.val (Option.some.inj hhead)
            exact absurd (hsucc.symm.trans hval) (Nat.succ_ne_zero _)
        | succ i =>
          cases d with
          | nil => cases hlt
          | cons b d => exact h

/-- Digits that start with one that counts, or the zero. -/
def Leads (d : List Digit) (decpt : Int) : Prop :=
  d ≠ [] ∧ d.head? ≠ some 0 ∨ d = [0] ∧ decpt = 1

theorem Leads.ne_nil (h : Leads d decpt) : d ≠ [] := by
  obtain ⟨hne, -⟩ | ⟨rfl, -⟩ := h
  · exact hne
  · exact cons_ne_nil _ _

theorem Shortest.leads (v : Shortest) : Leads v.digits v.decpt := by
  obtain ⟨hd, hdecpt⟩ | ⟨hne, hhead, -⟩ := v.canonical
  · exact Or.inr ⟨hd, hdecpt⟩
  · exact Or.inl ⟨hne, hhead⟩

/-- What is left of digits that were rounded to so many. -/
structure Rounded (d : List Digit) (decpt nsig : Int) (r : List Digit × Int) : Prop where
  value : magnitude r.1 r.2 = roundHalfUp (magnitude d decpt) (10 ^ (decpt - nsig))
  leads : Leads r.1 r.2
  short : (r.1.length : Int) ≤ r.2 - decpt + nsig ∨ r = ([0], 1)
  few : (r.1.length : Int) ≤ max nsig 1
  near : r.2 = decpt ∨ r.2 = decpt + 1 ∨ r.2 = 1

theorem magnitude_zero : magnitude [0] 1 = 0 := by
  rw [magnitude, natOf_singleton]
  exact zero_mul _

theorem rounded_away (hvalue : roundHalfUp (magnitude d decpt) (10 ^ (decpt - nsig)) = 0) :
    Rounded d decpt nsig ([0], 1) :=
  ⟨magnitude_zero.trans hvalue.symm, Or.inr ⟨rfl, rfl⟩, Or.inr rfl, le_max_right _ _,
    Or.inr (Or.inr rfl)⟩

theorem magnitude_eq_multiple (d : List Digit) (decpt : Int) {nsig : Int} (h : nsig ≥ d.length) :
    magnitude d decpt =
      (natOf d * 10 ^ (nsig - d.length).toNat : Nat) * 10 ^ (decpt - nsig) := by
  have hexp : decpt - d.length = ((nsig - d.length).toNat : Int) + (decpt - nsig) := by omega
  rw [magnitude, hexp, zpow_add₀ (by norm_num), zpow_natCast]
  push_cast
  ring

theorem magnitude_lt (d : List Digit) (decpt : Int) : magnitude d decpt < 10 ^ decpt := by
  have hlt : (natOf d : ℚ) < 10 ^ d.length := by exact_mod_cast natOf_lt d
  have hpow : (0 : ℚ) < 10 ^ (decpt - d.length) := zpow_pos (by norm_num) _
  calc magnitude d decpt < 10 ^ d.length * 10 ^ (decpt - d.length) := by
        rw [magnitude]
        exact mul_lt_mul_of_pos_right hlt hpow
    _ = 10 ^ decpt := by
        rw [← zpow_natCast, ← zpow_add₀ (by norm_num)]
        congr 1
        omega

/-- **Rounding to significant digits.** -/
theorem roundToSig_spec (h : Leads d decpt) (nsig : Int) :
    Rounded d decpt nsig (orZero (roundToSig d decpt nsig)) := by
  have hunit : (0 : ℚ) < 10 ^ (decpt - nsig) := zpow_pos (by norm_num) _
  rw [roundToSig]
  by_cases hmany : nsig ≥ d.length
  · -- all the digits are kept
    rw [if_pos hmany, orZero, if_neg h.ne_nil]
    refine ⟨?_, h, Or.inl ?_, le_max_of_le_left hmany, Or.inl rfl⟩
    · dsimp only
      rw [magnitude_eq_multiple d decpt hmany, roundHalfUp_multiple _ hunit.ne']
    · dsimp only
      omega
  rw [if_neg hmany]
  by_cases hneg : nsig < 0
  · -- none is, and the value is below a tenth of the unit
    rw [if_pos hneg, orZero, if_pos rfl]
    refine rounded_away (roundHalfUp_zero ?_ hunit ?_)
    · exact mul_nonneg (Nat.cast_nonneg _) (zpow_nonneg (by norm_num) _)
    · have htenth : (10 : ℚ) ^ decpt ≤ 10 ^ (decpt - nsig) / 10 := by
        rw [div_eq_mul_inv, ← zpow_sub_one₀ (by norm_num)]
        exact zpow_le_zpow_right₀ (by norm_num) (by omega)
      have hlt := magnitude_lt d decpt
      linarith
  rw [if_neg hneg]
  obtain ⟨k, rfl⟩ : ∃ k : Nat, nsig = k := ⟨nsig.toNat, by omega⟩
  have hk : k < d.length := by omega
  have hget : d.getD k 0 = d[k] := by
    rw [getD_eq_getElem?_getD, getElem?_eq_getElem hk, Option.getD_some]
  have htake : (d.take k).length = k := by
    rw [length_take]
    omega
  have hvalue : roundHalfUp (magnitude d decpt) (10 ^ (decpt - k)) =
      (natOf (d.take k) + if 5 ≤ d[k] then 1 else 0 : Nat) * 10 ^ (decpt - k) := by
    rw [← roundHalfUp_digits (d.take k) (d.drop (k + 1)) d[k]]
    rw [← drop_eq_getElem_cons hk, take_append_drop, magnitude, length_drop]
    congr 3
    omega
  have hhead : 0 < k → (d.take k).head? ≠ some 0 := by
    intro hpos
    obtain ⟨-, hhead⟩ | ⟨rfl, -⟩ := h
    · rwa [head?_take, if_neg hpos.ne']
    · rw [length_singleton] at hk
      omega
  rw [Int.toNat_natCast]
  dsimp only
  rw [hget]
  by_cases hup : 5 ≤ d[k]
  · rw [if_pos hup] at hvalue
    rw [if_neg (not_not.mpr hup)]
    have hspec := carryLoop_spec htake.ge fun j hj hlt => by omega
    rw [htake, Nat.sub_self, pow_zero] at hspec
    cases hcarry : carryLoop k (d.take k) with
    | some d' =>
      rw [hcarry] at hspec
      obtain ⟨hlen, hnat, hlead⟩ := hspec
      have hpos : 0 < k := by
        by_contra hzero
        rw [Nat.eq_zero_of_not_pos hzero] at hcarry
        cases hcarry
      have hne : d' ≠ [] := by
        rintro rfl
        rw [length_nil] at hlen
        omega
      dsimp only
      rw [orZero, if_neg hne]
      refine ⟨?_, Or.inl ⟨hne, hlead (hhead hpos)⟩, Or.inl ?_, ?_, Or.inl rfl⟩
      · rw [hvalue, magnitude, hlen, hnat]
      · dsimp only
        omega
      · dsimp only
        omega
    | none =>
      rw [hcarry] at hspec
      dsimp only at hspec ⊢
      rw [orZero, if_neg (cons_ne_nil _ _)]
      have hone : [(1 : Digit)].head? ≠ some 0 := by decide
      refine ⟨?_, Or.inl ⟨cons_ne_nil _ _, hone⟩, Or.inl ?_, le_max_right _ _,
        Or.inr (Or.inl rfl)⟩
      · rw [hvalue, hspec, magnitude, natOf_singleton]
        push_cast
        rw [← zpow_natCast, ← zpow_add₀ (by norm_num)]
        simp
      · dsimp only
        rw [length_singleton]
        omega
  · rw [if_neg hup, Nat.add_zero] at hvalue
    rw [if_pos hup]
    by_cases hzero : k = 0
    · rw [hzero, take_zero, orZero, if_pos rfl, ← hzero]
      refine rounded_away ?_
      rw [hvalue, hzero, take_zero, natOf_nil, Nat.cast_zero, zero_mul]
    · have hne : d.take k ≠ [] := by
        intro hnil
        rw [hnil, length_nil] at htake
        omega
      rw [orZero, if_neg hne]
      refine ⟨?_, Or.inl ⟨hne, hhead (Nat.pos_of_ne_zero hzero)⟩, Or.inl ?_, ?_, Or.inl rfl⟩
      · rw [hvalue, magnitude, htake]
      · dsimp only
        omega
      · dsimp only
        omega

/-! ## Bodies -/

def zeros (k : Int) : List Digit := List.replicate k.toNat 0

theorem chars_zeros (k : Int) : chars (zeros k) = writeChars 0x30 k := by
  rw [chars, zeros, map_replicate]
  rfl

theorem chars_append (ds es : List Digit) : chars (ds ++ es) = chars ds ++ chars es :=
  map_append

theorem length_chars (ds : List Digit) : (chars ds).length = ds.length := length_map _

theorem length_fractionText (frac : List Digit) :
    (fractionText frac).length = if frac = [] then 0 else 1 + frac.length := by
  rw [fractionText]
  split
  · rfl
  · rw [length_cons, length_chars, Nat.add_comm]

/-- The digits before the point. -/
def intDigits (d : List Digit) (decpt : Int) : List Digit :=
  if decpt ≤ 0 then [0] else d.take decpt.toNat ++ zeros (decpt - d.length)

/-- The digits of a fraction. -/
def Fraction.digits (l : Fraction) (d : List Digit) : List Digit :=
  zeros l.lead ++ ((d.drop l.realStart.toNat).take l.real.toNat ++ zeros l.trail)

/-- A fraction that is cut out of the digits, and not wider than the precision. -/
structure Fraction.Fits (l : Fraction) (d : List Digit) (fprec : Int) : Prop where
  lead : 0 ≤ l.lead
  start : 0 ≤ l.realStart
  real : 0 ≤ l.real
  trail : 0 ≤ l.trail
  inside : l.real ≤ 0 ∨ l.realStart + l.real ≤ d.length
  prec : l.lead + l.real + l.trail ≤ fprec

theorem Fraction.Fits.length {l : Fraction} (h : l.Fits d fprec) :
    ((l.digits d).length : Int) = l.lead + l.real + l.trail := by
  obtain ⟨hlead, hstart, hreal, htrail, hinside, -⟩ := h
  rw [Fraction.digits, length_append, length_append, zeros, zeros,
    length_replicate, length_replicate, length_take, length_drop]
  omega

theorem intDigits_ne_nil (d : List Digit) (decpt : Int) (hd : d ≠ []) :
    intDigits d decpt ≠ [] := by
  rw [intDigits]
  split
  · exact cons_ne_nil _ _
  · intro hnil
    have hlen := congrArg List.length (append_eq_nil_iff.mp hnil).1
    rw [length_take, length_nil] at hlen
    have := length_pos_iff.mpr hd
    omega

/-- The digits before the point are written, and as many as the width counts. -/
theorem intDigits_written (d : List Digit) (decpt : Int) :
    (if decpt ≤ 0 then [0x30]
      else chars (d.take (if (d.length : Int) < decpt then (d.length : Int) else decpt).toNat) ++
        if decpt > (if (d.length : Int) < decpt then (d.length : Int) else decpt) then
          writeChars 0x30 (decpt - if (d.length : Int) < decpt then (d.length : Int) else decpt)
        else []) = chars (intDigits d decpt) ∧
    ((intDigits d decpt).length : Int) = if decpt ≤ 0 then 1 else decpt := by
  rw [intDigits]
  by_cases hneg : decpt ≤ 0
  · simp only [if_pos hneg]
    exact ⟨rfl, rfl⟩
  · simp only [if_neg hneg]
    by_cases hshort : (d.length : Int) < decpt
    · simp only [if_pos hshort, gt_iff_lt]
      constructor
      · rw [chars_append, chars_zeros, take_of_length_le (by omega),
          take_of_length_le (by omega)]
      · rw [length_append, length_take, zeros, length_replicate]
        omega
    · simp only [if_neg hshort, gt_iff_lt, lt_self_iff_false, if_false, append_nil]
      have hnone : zeros (decpt - d.length) = [] := by
        rw [zeros, Int.toNat_of_nonpos (by omega)]
        rfl
      constructor
      · rw [hnone, append_nil]
      · rw [hnone, append_nil, length_take]
        omega

theorem emitFixedBody_eq {trim : Bool}
    (h : (fixedFractionLayout d decpt fprec trim).Fits d fprec) :
    emitFixedBody d decpt fprec trim = chars (intDigits d decpt) ++
      fractionText ((fixedFractionLayout d decpt fprec trim).digits d) ∧
    ((emitFixedBody d decpt fprec trim).length : Int) = fixedBodyWidth d decpt fprec trim := by
  obtain ⟨hint, hintLen⟩ := intDigits_written d decpt
  have hlen := h.length
  have hprec := h.prec
  simp only [emitFixedBody, fixedBodyWidth, hint, ← hintLen]
  generalize fixedFractionLayout d decpt fprec trim = l at *
  by_cases hany : fprec > 0 ∧ l.lead + l.real + l.trail > 0
  · have hne : l.digits d ≠ [] := by
      intro hnil
      rw [hnil, length_nil] at hlen
      omega
    have htext : point :: (writeChars 0x30 l.lead ++
        (chars ((d.drop l.realStart.toNat).take l.real.toNat) ++ writeChars 0x30 l.trail)) =
          fractionText (l.digits d) := by
      rw [fractionText, if_neg hne, Fraction.digits, chars_append, chars_append, chars_zeros,
        chars_zeros]
    rw [if_pos hany, if_pos hany, htext]
    refine ⟨rfl, ?_⟩
    rw [length_append, length_chars, length_fractionText, if_neg hne]
    omega
  · have hnil : l.digits d = [] := by
      have hreal := h.real
      have hlead := h.lead
      have htrail := h.trail
      exact length_eq_zero_iff.mp (by omega)
    rw [if_neg hany, if_neg hany, hnil]
    refine ⟨(append_nil _).symm, ?_⟩
    rw [length_chars]

theorem trimLoop_eq {start real : Nat} (h : 0 < real → d[start + (real - 1)]? ≠ some 0) :
    trimLoop d start real = real := by
  cases real with
  | zero => rfl
  | succ real =>
    have hne : d[start + real]? ≠ some 0 := h (Nat.succ_pos real)
    rw [trimLoop, if_neg hne]

/-- Digits that end with one that counts, or the zero. -/
def Trimmed (d : List Digit) (decpt : Int) : Prop := d.getLast? ≠ some 0 ∨ d = [0] ∧ decpt = 1

theorem fixedFractionLayout_eq {trim : Bool} (hd : d ≠ []) (hprec : 0 ≤ fprec)
    (hshort : (d.length : Int) ≤ decpt + fprec) (htrim : trim = true → Trimmed d decpt) :
    fixedFractionLayout d decpt fprec trim =
      ⟨max (-decpt) 0, max decpt 0, max (d.length - max decpt 0) 0,
        if trim then 0 else fprec - max (-decpt) 0 - max (d.length - max decpt 0) 0⟩ := by
  have hpos : 0 < d.length := length_pos_iff.mpr hd
  have hlead : (if (if decpt < 0 then -decpt else 0) > fprec then fprec
      else if decpt < 0 then -decpt else 0) = max (-decpt) 0 := by
    split_ifs <;> omega
  have hstart : (if decpt < 0 then 0 else decpt) = max decpt 0 := by
    split_ifs <;> omega
  have hend : (if decpt + fprec > d.length then (d.length : Int) else decpt + fprec) =
      d.length := by
    split_ifs <;> omega
  have hreal : (if (d.length : Int) - max decpt 0 < 0 then 0 else (d.length : Int) - max decpt 0) =
      max (d.length - max decpt 0) 0 := by
    split_ifs <;> omega
  have htrail : (if fprec - max (-decpt) 0 - max (d.length - max decpt 0) 0 < 0 then 0
      else fprec - max (-decpt) 0 - max (d.length - max decpt 0) 0) =
        fprec - max (-decpt) 0 - max (d.length - max decpt 0) 0 := by
    split_ifs <;> omega
  simp only [fixedFractionLayout, hlead, hstart, hend, hreal, htrail]
  cases trim with
  | false => rfl
  | true =>
    have hloop : trimLoop d (max decpt 0).toNat (max (d.length - max decpt 0) 0).toNat =
        (max (d.length - max decpt 0) 0).toNat := by
      refine trimLoop_eq fun hsome hzero => ?_
      have hat : (max decpt 0).toNat + ((max (d.length - max decpt 0) 0).toNat - 1) =
          d.length - 1 := by omega
      rw [hat, ← getLast?_eq_getElem?] at hzero
      obtain hlast | ⟨rfl, rfl⟩ := htrim rfl
      · exact hlast hzero
      · exact absurd hsome (by decide)
    have hcast : (((max (d.length - max decpt 0) 0).toNat : Nat) : Int) =
        max (d.length - max decpt 0) 0 := by omega
    simp only [if_true, hloop, hcast]
    congr 1
    split_ifs <;> omega

theorem natOf_append_zeros (ds : List Digit) (k : Int) :
    natOf (ds ++ zeros k) = natOf ds * 10 ^ k.toNat := by
  rw [natOf_append, zeros, natOf_zeros, length_replicate, Nat.add_zero]

theorem natOf_zeros_append (k : Int) (ds : List Digit) : natOf (zeros k ++ ds) = natOf ds := by
  rw [natOf_append, zeros, natOf_zeros, Nat.zero_mul, Nat.zero_add]

theorem length_zeros (k : Int) : (zeros k).length = k.toNat := length_replicate

theorem zeros_nonpos {k : Int} (h : k ≤ 0) : zeros k = [] := by
  rw [zeros, Int.toNat_of_nonpos h]
  rfl

/-- Digits before and after the point, with zeros to either side. -/
theorem magnitude_fixed (hd : d ≠ []) (decpt trail : Int) (htrail : 0 ≤ trail) :
    (natOf (intDigits d decpt ++ (zeros (-decpt) ++ (d.drop decpt.toNat ++ zeros trail))) : ℚ) *
      10 ^ (-((zeros (-decpt) ++ (d.drop decpt.toNat ++ zeros trail)).length : Int)) =
        magnitude d decpt := by
  have hscale : ∀ a b : Nat, (a : Int) - b = decpt - d.length →
      ((natOf d * 10 ^ a : Nat) : ℚ) * 10 ^ (-(b : Int)) = magnitude d decpt := by
    intro a b hab
    rw [magnitude, ← hab, sub_eq_add_neg, zpow_add₀ (by norm_num), zpow_natCast]
    push_cast
    ring
  rw [length_append, length_append, length_zeros, length_zeros, length_drop,
    intDigits]
  by_cases hneg : decpt ≤ 0
  · have hall : d.drop decpt.toNat = d := by rw [Int.toNat_of_nonpos hneg, drop_zero]
    have hzero : natOf [0] = 0 := rfl
    rw [if_pos hneg, natOf_append, hzero, Nat.zero_mul, Nat.zero_add, natOf_zeros_append,
      natOf_append_zeros, hall]
    exact hscale _ _ (by omega)
  · rw [if_neg hneg, zeros_nonpos (show -decpt ≤ 0 by omega), nil_append]
    by_cases hlong : d.length < decpt.toNat
    · -- the point is behind all the digits
      rw [take_of_length_le hlong.le, drop_of_length_le hlong.le, nil_append,
        natOf_append_zeros, natOf_append_zeros, Nat.mul_assoc, ← Nat.pow_add]
      exact hscale _ _ (by omega)
    · rw [zeros_nonpos (show decpt - d.length ≤ 0 by omega), append_nil, ← append_assoc,
        take_append_drop, natOf_append_zeros]
      exact hscale _ _ (by omega)

/-- What a body is: a numeral without a sign, in the width that is computed for it. -/
structure Written (text : List UInt8) (width : Int) (x : ℚ) (n : Numeral) : Prop where
  spelled : ∃ e, ExpText n.exp e ∧ text = chars n.int ++ (fractionText n.frac ++ e)
  width : (text.length : Int) = width
  int : n.int ≠ []
  neg : n.neg = false
  value : n.abs = x

/-- **A fixed body.** -/
theorem fixed_spec {trim : Bool} (hd : d ≠ []) (hprec : 0 ≤ fprec)
    (hshort : (d.length : Int) ≤ decpt + fprec) (htrim : trim = true → Trimmed d decpt) :
    ∃ n, Written (emitFixedBody d decpt fprec trim) (fixedBodyWidth d decpt fprec trim)
        (magnitude d decpt) n ∧ n.exp = none ∧
      (trim = false → (n.frac.length : Int) = fprec) ∧
      (trim = true → n.frac.getLast? ≠ some 0) := by
  have hpos : 0 < d.length := length_pos_iff.mpr hd
  have hlayout := fixedFractionLayout_eq hd hprec hshort htrim
  have hfits : (fixedFractionLayout d decpt fprec trim).Fits d fprec := by
    rw [hlayout]
    constructor <;> dsimp only <;> try split_ifs
    all_goals omega
  have htrail : 0 ≤ (fixedFractionLayout d decpt fprec trim).trail := hfits.trail
  have hdigits : (fixedFractionLayout d decpt fprec trim).digits d =
      zeros (-decpt) ++ (d.drop decpt.toNat ++
        zeros (fixedFractionLayout d decpt fprec trim).trail) := by
    have htake : (d.drop (max decpt 0).toNat).take (max ((d.length : Int) - max decpt 0) 0).toNat =
        d.drop (max decpt 0).toNat := by
      refine take_of_length_le ?_
      rw [length_drop]
      omega
    have hmax : (max decpt 0).toNat = decpt.toNat := by omega
    have hlead : zeros (max (-decpt) 0) = zeros (-decpt) := by
      rw [zeros, zeros]
      congr 1
      omega
    rw [Fraction.digits, hlayout]
    dsimp only
    rw [htake, hmax, hlead]
  obtain ⟨htext, hwidth⟩ := emitFixedBody_eq hfits
  have hlen := hfits.length
  generalize (fixedFractionLayout d decpt fprec trim).digits d = frac at *
  refine ⟨⟨false, intDigits d decpt, frac, none⟩, ⟨⟨[], .none, ?_⟩, hwidth,
    intDigits_ne_nil d decpt hd, rfl, ?_⟩, rfl, fun hfalse => ?_, fun htrue => ?_⟩
  · rw [append_nil]
    exact htext
  · rw [hdigits, Numeral.abs]
    dsimp only
    rw [Option.getD_none, zero_sub]
    exact magnitude_fixed hd decpt _ htrail
  · dsimp only
    rw [hlen, hlayout, hfalse]
    dsimp only
    rw [if_neg Bool.false_ne_true]
    omega
  · dsimp only
    rw [hdigits, hlayout, htrue]
    dsimp only
    rw [if_pos rfl, zeros_nonpos le_rfl, append_nil]
    by_cases hnone : d.drop decpt.toNat = []
    · have hbehind := drop_eq_nil_iff.mp hnone
      rw [hnone, zeros_nonpos (by omega)]
      exact fun h => absurd h.symm (Option.some_ne_none _)
    · rw [getLast?_append_of_ne_nil _ hnone, getLast?_drop, if_neg (by
        rw [drop_eq_nil_iff] at hnone
        exact hnone)]
      obtain hlast | ⟨rfl, rfl⟩ := htrim htrue
      · exact hlast
      · exact absurd rfl hnone

/-! ## Exponents -/

/-- The digits that are put in `tmp`. -/
theorem tmpDigits_spec {room val : Nat} (h : val < 10 ^ room) :
    ∃ ds : List Digit, (tmpDigits 10 false room val).reverse = chars ds ∧ natOf ds = val ∧
      ∀ k, val < 10 ^ k → ds.length ≤ k := by
  induction room generalizing val with
  | zero =>
    have hzero : val = 0 := by
      rw [pow_zero] at h
      omega
    exact ⟨[], rfl, hzero.symm, fun k _ => Nat.zero_le k⟩
  | succ room ih =>
    rw [tmpDigits]
    by_cases hzero : val = 0
    · rw [if_pos hzero]
      exact ⟨[], rfl, hzero.symm, fun k _ => Nat.zero_le k⟩
    · rw [if_neg hzero]
      have hdiv : val / 10 < 10 ^ room := by
        rw [Nat.pow_succ] at h
        omega
      obtain ⟨ds, hds, hnat, hlen⟩ := ih hdiv
      have hmod : val % 10 < 10 := Nat.mod_lt _ (by decide)
      have hchar : digitChar false (val % 10) = Digit.char ⟨val % 10, hmod⟩ := by
        rw [digitChar, if_pos hmod, UInt8.ofNat_add]
        rfl
      refine ⟨ds ++ [⟨val % 10, hmod⟩], ?_, ?_, ?_⟩
      · rw [reverse_cons, hds, hchar, chars_append]
        rfl
      · rw [natOf_append, natOf_singleton, hnat, length_singleton]
        dsimp only
        omega
      · intro k hk
        cases k with
        | zero =>
          rw [pow_zero] at hk
          omega
        | succ k =>
          have hk' : val / 10 < 10 ^ k := by
            rw [Nat.pow_succ] at hk
            omega
          rw [length_append, length_singleton]
          exact Nat.succ_le_succ (hlen k hk')

/-- A number of at most eight digits has room in `eb`. -/
theorem formatUint_spec {val : Nat} (h : val < 10 ^ 8) :
    ∃ ds : List Digit, formatUint 8 val 10 false = chars ds ∧ natOf ds = val := by
  rw [formatUint]
  by_cases hzero : val = 0
  · rw [if_pos hzero, hzero]
    exact ⟨[0], rfl, rfl⟩
  · rw [if_neg hzero]
    have hroom : val < 10 ^ 24 := h.trans (by decide)
    obtain ⟨ds, hds, hnat, hlen⟩ := tmpDigits_spec hroom
    have hshort : (tmpDigits 10 false 24 val).length ≤ 8 := by
      rw [← length_reverse, hds, length_chars]
      exact hlen 8 h
    rw [take_of_length_le hshort]
    exact ⟨ds, hds, hnat⟩

/-- An exponent is written as one, in its width. -/
theorem emitExponent_spec {echar : UInt8} (hechar : echar = 0x65 ∨ echar = 0x45) {exp : Int}
    (hexp : exp.natAbs < 10 ^ 8) :
    ExpText (some exp) (emitExponent echar exp) ∧
      ((emitExponent echar exp).length : Int) = exponentWidth exp := by
  obtain ⟨ds, hds, hnat⟩ := formatUint_spec hexp
  have htext : writeChars 0x30 (if (chars ds).length < 2 then 2 - ((chars ds).length : Int) else 0) ++
      chars ds = chars (zeros (if ds.length < 2 then 2 - (ds.length : Int) else 0) ++ ds) := by
    rw [chars_append, chars_zeros, length_chars]
  have hvalue : ∀ k, natOf (zeros k ++ ds) = exp.natAbs := by
    intro k
    rw [natOf_zeros_append, hnat]
  simp only [emitExponent, exponentWidth, hds, htext]
  constructor
  · by_cases hneg : exp < 0
    · have hexp' : exp = -((exp.natAbs : Nat) : Int) := by omega
      have hminus := ExpText.neg echar
        (zeros (if ds.length < 2 then 2 - (ds.length : Int) else 0) ++ ds) hechar
      rw [hvalue, ← hexp'] at hminus
      rw [if_pos hneg]
      exact hminus
    · have hexp' : exp = ((exp.natAbs : Nat) : Int) := by omega
      have hpos := ExpText.pos echar
        (zeros (if ds.length < 2 then 2 - (ds.length : Int) else 0) ++ ds) hechar
      rw [hvalue, ← hexp'] at hpos
      rw [if_neg hneg]
      exact hpos
  · rw [length_cons, length_cons, length_chars, length_chars, length_append,
      length_zeros]
    split_ifs <;> omega

/-- **A scientific body.** -/
theorem sci_spec {trim : Bool} {echar : UInt8} (hechar : echar = 0x65 ∨ echar = 0x45)
    (hd : d ≠ []) (hshort : (d.length : Int) ≤ fprec + 1)
    (hexp : (decpt - 1).natAbs < 10 ^ 8) (htrim : trim = true → Trimmed d decpt) :
    ∃ n, Written (emitSciBody d decpt fprec trim echar) (sciBodyWidth d decpt fprec trim)
        (magnitude d decpt) n ∧ n.exp = some (decpt - 1) ∧
      (trim = false → (n.frac.length : Int) = fprec) ∧
      (trim = true → n.frac.getLast? ≠ some 0) := by
  obtain ⟨b, ds, rfl⟩ := exists_cons_of_ne_nil hd
  rw [length_cons, Nat.cast_add_one] at hshort
  have hreal : (if (if 1 < (b :: ds).length then ((b :: ds).length : Int) - 1 else 0) > fprec
      then fprec else if 1 < (b :: ds).length then ((b :: ds).length : Int) - 1 else 0) =
        ds.length := by
    rw [length_cons]
    split_ifs <;> omega
  have hlayout : sciFractionLayout (b :: ds) fprec trim =
      ((ds.length : Int), if trim then 0 else fprec - ds.length) := by
    simp only [sciFractionLayout, hreal]
    cases trim with
    | false => rfl
    | true =>
      have hloop : trimLoop (b :: ds) 1 ds.length = ds.length := by
        refine trimLoop_eq fun hsome hzero => ?_
        have hat : 1 + (ds.length - 1) = (b :: ds).length - 1 := by
          rw [length_cons]
          omega
        rw [hat, ← getLast?_eq_getElem?] at hzero
        obtain hlast | ⟨hone, -⟩ := htrim rfl
        · exact hlast hzero
        · cases hone
          exact absurd hsome (by decide)
      rw [if_pos rfl, if_pos rfl, Int.toNat_natCast, hloop]
  have htrail : 0 ≤ if trim then 0 else fprec - (ds.length : Int) := by
    split_ifs <;> omega
  obtain ⟨hexpText, hexpLen⟩ := emitExponent_spec hechar hexp
  generalize hgen : (if trim then 0 else fprec - (ds.length : Int)) = trail at hlayout htrail
  have htake : (((b :: ds).drop 1).take (ds.length : Int).toNat) = ds := by
    rw [Int.toNat_natCast]
    exact take_length
  have hlen : (ds ++ zeros trail).length = ds.length + trail.toNat := by
    rw [length_append, length_zeros]
  have hsum : ((if trim then (ds.length : Int) else fprec) > 0 ∧ (ds.length : Int) + trail > 0) ↔
      ds ++ zeros trail ≠ [] := by
    rw [ne_eq, ← length_eq_zero_iff, hlen]
    cases trim with
    | false =>
      rw [if_neg Bool.false_ne_true] at hgen ⊢
      omega
    | true =>
      rw [if_pos rfl] at hgen ⊢
      omega
  have htext : emitSciBody (b :: ds) decpt fprec trim echar =
      chars [b] ++ (fractionText (ds ++ zeros trail) ++ emitExponent echar (decpt - 1)) := by
    simp only [emitSciBody, hlayout, htake, hsum, headD_cons]
    by_cases hnone : ds ++ zeros trail = []
    · rw [if_neg (not_not.mpr hnone), fractionText, if_pos hnone]
      rfl
    · rw [if_pos hnone, fractionText, if_neg hnone, chars_append, chars_zeros]
      rfl
  refine ⟨⟨false, [b], ds ++ zeros trail, some (decpt - 1)⟩, ⟨⟨_, hexpText, htext⟩, ?_,
    cons_ne_nil _ _, rfl, ?_⟩, rfl, fun hfalse => ?_, fun htrue => ?_⟩
  · rw [htext, length_append, length_append, length_chars, length_fractionText]
    simp only [sciBodyWidth, hlayout, hsum]
    rw [← hexpLen, length_singleton]
    by_cases hnone : ds ++ zeros trail = []
    · rw [if_pos hnone, if_neg (not_not.mpr hnone)]
      omega
    · rw [if_neg hnone, if_pos hnone]
      omega
  · rw [Numeral.abs, magnitude]
    dsimp only
    rw [Option.getD_some, hlen, ← append_assoc, singleton_append, natOf_append_zeros,
      length_cons]
    have hexps : decpt - ((ds.length + 1 : Nat) : Int) =
        (trail.toNat : Int) + (decpt - 1 - ((ds.length + trail.toNat : Nat) : Int)) := by omega
    rw [hexps, zpow_add₀ (by norm_num), zpow_natCast]
    push_cast
    ring
  · dsimp only
    rw [hlen]
    rw [hfalse, if_neg Bool.false_ne_true] at hgen
    omega
  · dsimp only
    rw [htrue, if_pos rfl] at hgen
    rw [← hgen, zeros_nonpos le_rfl, append_nil]
    obtain hlast | ⟨hone, -⟩ := htrim htrue
    · cases ds with
      | nil => exact fun h => absurd h.symm (Option.some_ne_none _)
      | cons c ds => exact hlast
    · cases hone
      exact fun h => absurd h.symm (Option.some_ne_none _)

/-! ## What is written -/

theorem stripTrailingZeros_spec {fuel : Nat} (hfuel : d.length ≤ fuel) (h : Leads d decpt) :
    Leads (stripTrailingZeros fuel d) decpt ∧ Trimmed (stripTrailingZeros fuel d) decpt ∧
      magnitude (stripTrailingZeros fuel d) decpt = magnitude d decpt ∧
      (stripTrailingZeros fuel d).length ≤ d.length := by
  induction fuel generalizing d with
  | zero => exact absurd (length_eq_zero_iff.mp (Nat.le_zero.mp hfuel)) h.ne_nil
  | succ fuel ih =>
    rw [stripTrailingZeros]
    by_cases hstrip : 1 < d.length ∧ d.getLast? = some 0
    · rw [if_pos hstrip]
      obtain ⟨hlong, hlast⟩ := hstrip
      have hd : d = d.dropLast ++ [0] := (dropLast_append_getLast? 0 hlast).symm
      have hlen : d.dropLast.length = d.length - 1 := length_dropLast
      have hleads : Leads d.dropLast decpt := by
        obtain ⟨-, hhead⟩ | ⟨rfl, -⟩ := h
        · refine Or.inl ⟨fun hnil => ?_, ?_⟩
          · rw [hnil, length_nil] at hlen
            omega
          · rwa [head?_dropLast, if_pos hlong]
        · exact absurd hlong (by decide)
      have hvalue : magnitude d.dropLast decpt = magnitude d decpt := by
        have hexp : decpt - (d.dropLast.length : Int) = 1 + (decpt - d.length) := by omega
        have hnat : natOf d = natOf d.dropLast * 10 := by
          conv => lhs; rw [hd]
          rw [natOf_append]
          rfl
        rw [magnitude, magnitude, hexp, zpow_add₀ (by norm_num), zpow_one, hnat]
        push_cast
        ring
      obtain ⟨hl, ht, hv, hle⟩ := ih (by omega) hleads
      exact ⟨hl, ht, hv.trans hvalue, hle.trans (by omega)⟩
    · rw [if_neg hstrip]
      refine ⟨h, ?_, rfl, le_rfl⟩
      by_cases hlong : 1 < d.length
      · exact Or.inl fun hlast => hstrip ⟨hlong, hlast⟩
      · obtain ⟨hne, hhead⟩ | hzero := h
        · obtain ⟨b, ds, rfl⟩ := exists_cons_of_ne_nil hne
          have hds : ds = [] := length_eq_zero_iff.mp (by rw [length_cons] at hlong; omega)
          rw [hds] at hhead ⊢
          exact Or.inl hhead
        · exact Or.inr hzero

/-- The exponent of digits is where their point is. -/
theorem log_magnitude (h : Leads d decpt) : Int.log 10 (magnitude d decpt) = decpt - 1 := by
  obtain ⟨hne, hhead⟩ | ⟨rfl, rfl⟩ := h
  · obtain ⟨b, ds, rfl⟩ := exists_cons_of_ne_nil hne
    have hb : 1 ≤ b.val := by
      refine Nat.one_le_iff_ne_zero.mpr fun hzero => hhead ?_
      exact congrArg some (Fin.ext hzero)
    have hnat : 10 ^ ds.length ≤ natOf (b :: ds) := by
      rw [natOf_cons]
      nlinarith [Nat.zero_le (natOf ds), Nat.one_le_pow ds.length 10 (by decide)]
    have hlow : (10 : ℚ) ^ (decpt - 1) ≤ magnitude (b :: ds) decpt := by
      have hexp : decpt - 1 = (ds.length : Int) + (decpt - (b :: ds).length) := by
        rw [length_cons]
        push_cast
        omega
      rw [magnitude, hexp, zpow_add₀ (by norm_num), zpow_natCast]
      exact mul_le_mul_of_nonneg_right (by exact_mod_cast hnat) (zpow_nonneg (by norm_num) _)
    have hpos : 0 < magnitude (b :: ds) decpt := (zpow_pos (by norm_num) _).trans_le hlow
    have hten : ((10 : Nat) : ℚ) = 10 := rfl
    have hge : decpt - 1 ≤ Int.log 10 (magnitude (b :: ds) decpt) :=
      (Int.zpow_le_iff_le_log (by decide : 1 < 10) hpos).mp (hten ▸ hlow)
    have hlt : Int.log 10 (magnitude (b :: ds) decpt) < decpt :=
      (Int.lt_zpow_iff_log_lt (by decide : 1 < 10) hpos).mp (hten ▸ magnitude_lt (b :: ds) decpt)
    exact le_antisymm (Int.le_sub_one_of_lt hlt) hge
  · rw [magnitude_zero, Int.log_zero_right]
    rfl

/-- The number of digits of a fraction. -/
def fixedPrec (prec : Option Nat) : Nat := prec.getD 6

/-- What a value is rounded to a multiple of: fixed digits for `%f`, significant ones for
`%e` and `%g`. -/
def unit (lc : UInt8) (prec : Option Nat) (decpt : Int) : ℚ :=
  if lc = 0x67 then 10 ^ (decpt - gPrec prec)
  else if lc = 0x65 then 10 ^ (decpt - (fixedPrec prec + 1))
  else 10 ^ (-(fixedPrec prec : Int))

def Shortest.rounded (v : Shortest) (lc : UInt8) (prec : Option Nat) : ℚ :=
  roundHalfUp (magnitude v.digits v.decpt) (unit lc prec v.decpt)

/-- A numeral in the style that a conversion asks for. -/
structure Styled (lc : UInt8) (prec : Option Nat) (x : ℚ) (n : Numeral) : Prop where
  shorter : lc = 0x67 →
    (n.exp.isSome ↔ Int.log 10 x < -4 ∨ gPrec prec ≤ Int.log 10 x) ∧ n.frac.getLast? ≠ some 0
  sci : lc = 0x65 → n.exp.isSome ∧ n.frac.length = fixedPrec prec
  fixed : lc ≠ 0x67 → lc ≠ 0x65 → n.exp = none ∧ n.frac.length = fixedPrec prec

theorem gPrec_pos (prec : Option Nat) : 1 ≤ gPrec prec := by
  rcases prec with _ | _ | p
  · decide
  · decide
  · exact Nat.succ_pos p

/-- A place of the point that has an exponent of at most eight digits. -/
theorem Rounded.natAbs_lt {v : Shortest} {nsig : Int} {r : List Digit × Int}
    (h : Rounded v.digits v.decpt nsig r) : (r.2 - 1).natAbs < 10 ^ 8 := by
  have hlow := v.low
  have hhigh := v.high
  obtain hnear | hnear | hnear := h.near <;> omega

/-- **The body.** -/
theorem layout_spec (v : Shortest) (lc : UInt8) (prec : Option Nat) {echar : UInt8}
    (hechar : echar = 0x65 ∨ echar = 0x45) :
    ∃ n, Written ((layout lc prec v.digits v.decpt).emit echar)
        (layout lc prec v.digits v.decpt).width (v.rounded lc prec) n ∧
      Styled lc prec (v.rounded lc prec) n := by
  by_cases hg : lc = 0x67
  · -- significant digits, less the zeros at the end
    have hrounded := roundToSig_spec v.leads (gPrec prec)
    have hpos := gPrec_pos prec
    have hexp := hrounded.natAbs_lt
    have hvalue := hrounded.value
    have hfew := hrounded.few
    have hleads := hrounded.leads
    have hx : v.rounded lc prec = roundHalfUp (magnitude v.digits v.decpt)
        (10 ^ (v.decpt - gPrec prec)) := by rw [Shortest.rounded, unit, if_pos hg]
    rw [hx, ← hvalue]
    simp only [layout, if_pos hg]
    generalize orZero (roundToSig v.digits v.decpt (gPrec prec)) = r at *
    obtain ⟨hl, htrim, hsame, hle⟩ := stripTrailingZeros_spec (le_refl r.1.length) hleads
    have hlog := log_magnitude hleads
    generalize stripTrailingZeros r.1.length r.1 = d' at *
    by_cases hsci : r.2 - 1 < -4 ∨ r.2 - 1 ≥ gPrec prec
    · simp only [if_pos hsci, Layout.emit, Layout.width, if_true]
      obtain ⟨n, hwritten, hn, -, hzeros⟩ := sci_spec hechar hl.ne_nil
        (show (d'.length : Int) ≤ (gPrec prec : Int) - 1 + 1 by omega) hexp fun _ => htrim
      rw [hsame] at hwritten
      refine ⟨n, hwritten, fun _ => ⟨?_, hzeros rfl⟩, fun h => ?_, fun h => absurd hg h⟩
      · rw [hlog, hn]
        exact iff_of_true rfl hsci
      · rw [hg] at h
        exact absurd h (by decide)
    · have hprec : ¬ (gPrec prec : Int) - 1 - (r.2 - 1) < 0 := by omega
      simp only [if_neg hsci, if_neg hprec, Layout.emit, Layout.width, Bool.false_eq_true, if_false]
      obtain ⟨n, hwritten, hn, -, hzeros⟩ := fixed_spec hl.ne_nil (not_lt.mp hprec)
        (show (d'.length : Int) ≤ r.2 + ((gPrec prec : Int) - 1 - (r.2 - 1)) by omega)
        fun _ => htrim
      rw [hsame] at hwritten
      refine ⟨n, hwritten, fun _ => ⟨?_, hzeros rfl⟩, fun h => ?_, fun h => absurd hg h⟩
      · rw [hlog, hn]
        exact iff_of_false Bool.false_ne_true hsci
      · rw [hg] at h
        exact absurd h (by decide)
  · by_cases he : lc = 0x65
    · have hrounded := roundToSig_spec v.leads ((fixedPrec prec : Int) + 1)
      have hx : v.rounded lc prec = roundHalfUp (magnitude v.digits v.decpt)
          (10 ^ (v.decpt - (fixedPrec prec + 1))) := by
        rw [Shortest.rounded, unit, if_neg hg, if_pos he]
      rw [hx, ← hrounded.value]
      simp only [layout, if_neg hg, if_pos he, Layout.emit, Layout.width, if_true]
      have hfew := hrounded.few
      obtain ⟨n, hwritten, hn, hlen, -⟩ := sci_spec hechar hrounded.leads.ne_nil
        (show _ ≤ (fixedPrec prec : Int) + 1 by omega) hrounded.natAbs_lt
        fun h => absurd h Bool.false_ne_true
      refine ⟨n, hwritten, fun h => absurd h hg, fun _ => ⟨by rw [hn]; rfl, ?_⟩,
        fun _ h => absurd he h⟩
      exact Int.ofNat_inj.mp (hlen rfl)
    · have hrounded := roundToSig_spec v.leads (v.decpt + fixedPrec prec)
      have hx : v.rounded lc prec = roundHalfUp (magnitude v.digits v.decpt)
          (10 ^ (v.decpt - (v.decpt + fixedPrec prec))) := by
        rw [Shortest.rounded, unit, if_neg hg, if_neg he, sub_add_cancel_left]
      rw [hx, ← hrounded.value]
      simp only [layout, if_neg hg, if_neg he, Layout.emit, Layout.width, Bool.false_eq_true,
        if_false]
      have hshort : ((orZero (roundToSig v.digits v.decpt (v.decpt + fixedPrec prec))).1.length :
          Int) ≤ (orZero (roundToSig v.digits v.decpt (v.decpt + fixedPrec prec))).2 +
            fixedPrec prec := by
        obtain hshort | hzero := hrounded.short
        · omega
        · rw [hzero]
          dsimp only
          rw [length_singleton]
          omega
      obtain ⟨n, hwritten, hn, hlen, -⟩ := fixed_spec hrounded.leads.ne_nil (Int.natCast_nonneg _)
        hshort fun h => absurd h Bool.false_ne_true
      refine ⟨n, hwritten, fun h => absurd h hg, fun h => absurd h he, fun _ _ => ⟨hn, ?_⟩⟩
      exact Int.ofNat_inj.mp (hlen rfl)

theorem signText_spec (neg : Bool) (flags : Flags) : SignText neg (signText neg flags) := by
  rw [signText]
  cases neg with
  | true => exact .minus
  | false =>
    rw [if_neg Bool.false_ne_true]
    split_ifs
    · exact .plus
    · exact .blank
    · exact .none

/-- A body in a field, with blanks outside and zeros inside it. -/
theorem field_spec {body : List UInt8} {w : Int} {x : ℚ} {n : Numeral} (h : Written body w x n)
    (neg : Bool) (flags : Flags) (front inside behind : Int) :
    let out := writeChars blank front ++ (signText neg flags ++ (writeChars 0x30 inside ++
      (body ++ writeChars blank behind)))
    (out.length : Int) = front.toNat + (signText neg flags).length + inside.toNat + w +
      behind.toNat ∧
      ∃ m, parse out = some m ∧ m.value = (if neg then -x else x) ∧ m.frac = n.frac ∧
        m.exp = n.exp := by
  obtain ⟨⟨e, hexp, htext⟩, hwidth, hint, hneg, hvalue⟩ := h
  have hlen : ∀ c k, (writeChars c k).length = k.toNat := fun c k => length_replicate
  dsimp only
  constructor
  · simp only [length_append, hlen]
    push_cast
    omega
  · have hne : zeros inside ++ n.int ≠ [] := fun hnil => hint (append_eq_nil_iff.mp hnil).2
    have hparse := parse_text (n := ⟨neg, zeros inside ++ n.int, n.frac, n.exp⟩) hne
      (signText_spec neg flags) hexp front.toNat behind.toNat
    refine ⟨⟨neg, zeros inside ++ n.int, n.frac, n.exp⟩, ?_, ?_, rfl, rfl⟩
    · rw [← hparse, htext, chars_append, chars_zeros]
      simp only [append_assoc]
      rfl
    · have habs : Numeral.abs ⟨neg, zeros inside ++ n.int, n.frac, n.exp⟩ = x := by
        rw [← hvalue, Numeral.abs, Numeral.abs]
        dsimp only
        rw [append_assoc, natOf_zeros_append]
      rw [Numeral.value, habs]

theorem Styled.of_eq {lc : UInt8} {prec : Option Nat} {x : ℚ} {n m : Numeral}
    (h : Styled lc prec x n) (hfrac : m.frac = n.frac) (hexp : m.exp = n.exp) :
    Styled lc prec x m := by
  constructor
  · rw [hfrac, hexp]
    exact h.shorter
  · rw [hfrac, hexp]
    exact h.sci
  · rw [hfrac, hexp]
    exact h.fixed

/-- The padding is in one place. -/
theorem emitFloat_finite (v : Shortest) (neg : Bool) (conv : UInt8) (prec : Option Nat)
    (width : Int) (flags : Flags) :
    let l := layout (lower conv) prec v.digits v.decpt
    let total := l.width + (signText neg flags).length
    ∃ front inside behind : Int,
      front.toNat + inside.toNat + behind.toNat = max width total - total ∧
      emitFloat (.finite neg v.digits v.decpt) conv prec width flags =
        writeChars blank front ++ (signText neg flags ++ (writeChars 0x30 inside ++
          (l.emit (if isUpper conv then 0x45 else 0x65) ++ writeChars blank behind))) := by
  have hdigits : orZero (v.digits, v.decpt) = (v.digits, v.decpt) := by
    rw [orZero, if_neg v.leads.ne_nil]
  simp only [emitFloat, hdigits]
  generalize layout (lower conv) prec v.digits v.decpt = l
  have hpad : (if width > l.width + ((signText neg flags).length : Int)
      then width - (l.width + ((signText neg flags).length : Int)) else 0) =
        max width (l.width + (signText neg flags).length) -
          (l.width + (signText neg flags).length) := by
    split_ifs <;> omega
  rw [hpad]
  generalize hp : max width (l.width + ((signText neg flags).length : Int)) -
    (l.width + (signText neg flags).length) = pad
  have hnonneg : 0 ≤ pad := by omega
  have hnone : ∀ c, writeChars c 0 = [] := fun _ => rfl
  cases hleft : flags.left with
  | true =>
    refine ⟨0, 0, pad, by omega, ?_⟩
    simp only [hnone, and_false, false_and, if_false, if_true,
      not_true_eq_false]
  | false =>
    cases hzero : flags.zero with
    | true =>
      refine ⟨0, pad, 0, by omega, ?_⟩
      have hblank : ((0x30 : UInt8) = blank) = False := eq_false (by decide)
      simp only [hnone, hblank, Bool.false_eq_true, not_false_eq_true, and_self,
        and_false, if_true, if_false]
    | false =>
      refine ⟨pad, 0, 0, by omega, ?_⟩
      have hdigit : (blank = (0x30 : UInt8)) = False := eq_false (by decide)
      simp only [hnone, hdigit, Bool.false_eq_true, not_false_eq_true, and_self, and_true,
        and_false, if_true, if_false]

/-- **What is written has the width, and reads back as the rounded value.** -/
theorem emit_float_exact (v : Shortest) (neg : Bool) (conv : UInt8) (prec : Option Nat)
    (width : Int) (flags : Flags) :
    let out := emitFloat (.finite neg v.digits v.decpt) conv prec width flags
    let body := (layout (lower conv) prec v.digits v.decpt).width
    let x := v.rounded (lower conv) prec
    (out.length : Int) = max width (body + (signText neg flags).length) ∧
      ∃ n, parse out = some n ∧ n.value = (if neg then -x else x) ∧
        Styled (lower conv) prec x n := by
  have hechar : (if isUpper conv then (0x45 : UInt8) else 0x65) = 0x65 ∨
      (if isUpper conv then (0x45 : UInt8) else 0x65) = 0x45 := by
    split_ifs
    · exact Or.inr rfl
    · exact Or.inl rfl
  obtain ⟨n, hwritten, hstyled⟩ := layout_spec v (lower conv) prec hechar
  obtain ⟨front, inside, behind, hpad, htext⟩ := emitFloat_finite v neg conv prec width flags
  obtain ⟨hlen, m, hparse, hvalue, hfrac, hexp⟩ :=
    field_spec hwritten neg flags front inside behind
  dsimp only at hlen hparse ⊢
  rw [htext]
  refine ⟨hlen.trans ?_, m, hparse, hvalue, hstyled.of_eq hfrac hexp⟩
  omega

/-- `%.1e` of 9.95. -/
example : emitFloat (.finite false [9, 9, 5] 1) 0x65 (some 1) 0 ⟨false, false, false, false⟩ =
    [0x31, 0x2E, 0x30, 0x65, 0x2B, 0x30, 0x31] := by decide +kernel

end FormatFloat

end AxlSdk
