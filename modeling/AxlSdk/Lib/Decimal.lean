import Mathlib.Data.Int.Log
import Mathlib.Data.Nat.Digits.Defs
import Mathlib.Data.Rat.Floor

/-!
# Decimal numerals

Digits are most significant first.

- `Numeral`: a sign, the digits before and after the point, and an exponent, with its
  value.
- `parse`: reads a numeral, with blanks around it. `parse_text`: it reads back what is
  written.
- `roundHalfUp`: a multiple of a unit. `roundHalfUp_digits`: what it does to a string of
  digits is told by the first digit that is left out.
-/

namespace AxlSdk

namespace Decimal

open List

abbrev Digit := Fin 10

/-- The number that digits stand for. -/
def natOf (ds : List Digit) : Nat := Nat.ofDigits 10 (ds.reverse.map Fin.val)

variable {ds es : List Digit} {d : Digit}

theorem natOf_nil : natOf [] = 0 := rfl

theorem natOf_append (ds es : List Digit) :
    natOf (ds ++ es) = natOf ds * 10 ^ es.length + natOf es := by
  rw [natOf, reverse_append, map_append, Nat.ofDigits_append, length_map,
    length_reverse, natOf, natOf, Nat.mul_comm, Nat.add_comm]

theorem natOf_singleton (d : Digit) : natOf [d] = d := Nat.ofDigits_singleton

theorem natOf_cons (d : Digit) (ds : List Digit) :
    natOf (d :: ds) = d * 10 ^ ds.length + natOf ds := by
  rw [← singleton_append, natOf_append, natOf_singleton]

theorem natOf_zeros (k : Nat) : natOf (List.replicate k 0) = 0 := by
  rw [natOf, reverse_replicate, map_replicate]
  exact Nat.ofDigits_replicate_zero

theorem natOf_lt (ds : List Digit) : natOf ds < 10 ^ ds.length := by
  have hdigits : ∀ x ∈ ds.reverse.map Fin.val, x < 10 := by
    intro x hx
    obtain ⟨d, -, rfl⟩ := mem_map.mp hx
    exact d.isLt
  have hlt := Nat.ofDigits_lt_base_pow_length (by decide) hdigits
  rwa [length_map, length_reverse] at hlt

/-! ## Numerals -/

/-- A decimal numeral. -/
structure Numeral where
  neg : Bool
  int : List Digit
  frac : List Digit
  exp : Option Int
deriving DecidableEq, Repr

/-- The number without its sign. -/
def Numeral.abs (n : Numeral) : ℚ :=
  natOf (n.int ++ n.frac) * 10 ^ (n.exp.getD 0 - n.frac.length)

def Numeral.value (n : Numeral) : ℚ := if n.neg then -n.abs else n.abs

/-! ## Text -/

def blank : UInt8 := 0x20
def plus : UInt8 := 0x2B
def minus : UInt8 := 0x2D
def point : UInt8 := 0x2E

def Digit.char (d : Digit) : UInt8 := 0x30 + UInt8.ofNat d.val

/-- The digit that a character is. -/
def digit? (b : UInt8) : Option Digit :=
  if h : 0x30 ≤ b.toNat ∧ b.toNat < 0x3A then some ⟨b.toNat - 0x30, by omega⟩ else none

/-- The digits at the front, and the rest. -/
def digits : List UInt8 → List Digit × List UInt8
  | [] => ([], [])
  | b :: s =>
    match digit? b with
    | some d => (d :: (digits s).1, (digits s).2)
    | none => ([], b :: s)

/-- A sign at the front: whether it is a minus, and the rest. -/
def signed (s : List UInt8) : Bool × List UInt8 :=
  if s.head? = some minus then (true, s.tail)
  else if s.head? = some plus then (false, s.tail)
  else (false, s)

/-- A fraction at the front. -/
def fraction (s : List UInt8) : List Digit × List UInt8 :=
  if s.head? = some point then digits s.tail else ([], s)

/-- An exponent at the front, if there is one. -/
def exponent (s : List UInt8) : Option Int × List UInt8 :=
  if s.head? = some 0x65 ∨ s.head? = some 0x45 then
    let (neg, s) := signed s.tail
    let (ds, s) := digits s
    (some (if neg then -(natOf ds : Int) else natOf ds), s)
  else (none, s)

/-- A numeral with blanks around it. -/
def parse (s : List UInt8) : Option Numeral :=
  let (neg, s) := signed (s.dropWhile (· == blank))
  let (int, s) := digits s
  let (frac, s) := fraction s
  let (exp, s) := exponent s
  if int ≠ [] ∧ s.all (· == blank) then some ⟨neg, int, frac, exp⟩ else none

/-- The characters of digits. -/
def chars (ds : List Digit) : List UInt8 := ds.map Digit.char

def fractionText (frac : List Digit) : List UInt8 :=
  if frac = [] then [] else point :: chars frac

theorem digit?_char (d : Digit) : digit? d.char = some d := by
  revert d
  decide

/-- What comes behind digits. -/
def Ends (s : List UInt8) : Prop := ∀ b ∈ s.head?, digit? b = none

theorem digits_append {s : List UInt8} (ds : List Digit) (hends : Ends s) : digits (chars ds ++ s) = (ds, s) := by
  induction ds with
  | nil =>
    cases s with
    | nil => rfl
    | cons b s =>
      have hb : digit? b = none := hends b rfl
      simp only [chars, map_nil, nil_append, digits, hb]
  | cons d ds ih =>
    have hcons : chars (d :: ds) ++ s = d.char :: (chars ds ++ s) := rfl
    simp only [hcons, digits, digit?_char, ih]

theorem fraction_append {s : List UInt8} (frac : List Digit) (hends : Ends s)
    (hpoint : s.head? ≠ some point) : fraction (fractionText frac ++ s) = (frac, s) := by
  by_cases hfrac : frac = []
  · rw [fractionText, if_pos hfrac, nil_append, fraction, if_neg hpoint, hfrac]
  · rw [fractionText, if_neg hfrac, cons_append, fraction, head?_cons, if_pos rfl,
      tail_cons, digits_append _ hends]

theorem signed_plus (s : List UInt8) : signed (plus :: s) = (false, s) := by
  rw [signed, head?_cons, if_neg (by decide), if_pos rfl, tail_cons]

theorem signed_minus (s : List UInt8) : signed (minus :: s) = (true, s) := by
  rw [signed, head?_cons, if_pos rfl, tail_cons]

/-- How a sign is written. -/
inductive SignText : Bool → List UInt8 → Prop where
  | none : SignText false []
  | blank : SignText false [blank]
  | plus : SignText false [plus]
  | minus : SignText true [minus]

/-- How an exponent is written. -/
inductive ExpText : Option Int → List UInt8 → Prop where
  | none : ExpText none []
  | pos (c : UInt8) (ds : List Digit) (hc : c = 0x65 ∨ c = 0x45) :
      ExpText (some (natOf ds)) (c :: plus :: chars ds)
  | neg (c : UInt8) (ds : List Digit) (hc : c = 0x65 ∨ c = 0x45) :
      ExpText (some (-natOf ds)) (c :: minus :: chars ds)

theorem ends_blanks (k : Nat) : Ends (List.replicate k blank) := by
  cases k with
  | zero => exact fun b hb => absurd hb (Option.not_mem_none b)
  | succ k =>
    intro b hb
    cases hb
    decide

theorem exponent_append {e : Option Int} {t : List UInt8} (h : ExpText e t) (k : Nat) :
    exponent (t ++ List.replicate k blank) = (e, List.replicate k blank) ∧
      Ends (t ++ List.replicate k blank) ∧
      (t ++ List.replicate k blank).head? ≠ some point := by
  have hend := ends_blanks k
  cases h with
  | none =>
    rw [nil_append]
    cases k with
    | zero => exact ⟨rfl, hend, by decide⟩
    | succ k =>
      refine ⟨rfl, hend, ?_⟩
      rw [replicate_succ, head?_cons]
      decide
  | pos c ds hc =>
    have hdigit : digit? c = none := by
      obtain rfl | rfl := hc <;> decide
    have hmark : some c = some 0x65 ∨ some c = some 0x45 := hc.imp (congrArg some) (congrArg some)
    refine ⟨?_, fun b hb => ?_, ?_⟩
    · rw [exponent, cons_append, head?_cons, if_pos hmark, tail_cons, cons_append]
      simp only [signed_plus, digits_append _ hend, Bool.false_eq_true, if_false]
    · cases hb
      exact hdigit
    · rw [cons_append, head?_cons]
      obtain rfl | rfl := hc <;> decide
  | neg c ds hc =>
    have hdigit : digit? c = none := by
      obtain rfl | rfl := hc <;> decide
    have hmark : some c = some 0x65 ∨ some c = some 0x45 := hc.imp (congrArg some) (congrArg some)
    refine ⟨?_, fun b hb => ?_, ?_⟩
    · rw [exponent, cons_append, head?_cons, if_pos hmark, tail_cons, cons_append]
      simp only [signed_minus, digits_append _ hend, if_true]
    · cases hb
      exact hdigit
    · rw [cons_append, head?_cons]
      obtain rfl | rfl := hc <;> decide

/-- What is not a blank at the front. -/
theorem dropWhile_blanks {s : List UInt8} (hs : s.head? ≠ some blank) (k : Nat) :
    (List.replicate k blank ++ s).dropWhile (· == blank) = s := by
  induction k with
  | zero =>
    cases s with
    | nil => rfl
    | cons b s =>
      have hb : (b == blank) = false := beq_eq_false_iff_ne.mpr fun heq => hs (heq ▸ rfl)
      rw [replicate_zero, nil_append, dropWhile_cons, hb]
      rfl
  | succ k ih =>
    rw [replicate_succ, cons_append, dropWhile_cons, if_pos (by decide), ih]

/-- A sign in front of a digit. -/
theorem signed_append {neg : Bool} {t : List UInt8} (h : SignText neg t) (d : Digit)
    (s : List UInt8) (k : Nat) :
    signed ((List.replicate k blank ++ (t ++ d.char :: s)).dropWhile (· == blank)) =
      (neg, d.char :: s) := by
  have hd : d.char ≠ blank ∧ d.char ≠ minus ∧ d.char ≠ plus := by
    revert d
    decide
  have hplain : signed (d.char :: s) = (false, d.char :: s) := by
    rw [signed, head?_cons, if_neg (fun h => hd.2.1 (Option.some.inj h)),
      if_neg (fun h => hd.2.2 (Option.some.inj h))]
  have hhead : (d.char :: s).head? ≠ some blank := fun h => hd.1 (Option.some.inj h)
  cases h with
  | none =>
    rw [nil_append, dropWhile_blanks hhead, hplain]
  | blank =>
    rw [cons_append, nil_append, ← singleton_append, ← append_assoc,
      ← replicate_succ', dropWhile_blanks hhead, hplain]
  | plus =>
    have hplus : (plus :: d.char :: s).head? ≠ some blank := by
      rw [head?_cons]
      decide
    rw [singleton_append, dropWhile_blanks hplus, signed_plus]
  | minus =>
    have hminus : (minus :: d.char :: s).head? ≠ some blank := by
      rw [head?_cons]
      decide
    rw [singleton_append, dropWhile_blanks hminus, signed_minus]

/-- A numeral that is written is read back. -/
theorem parse_text {n : Numeral} {sign e : List UInt8} (hint : n.int ≠ [])
    (hsign : SignText n.neg sign) (hexp : ExpText n.exp e) (front behind : Nat) :
    parse (List.replicate front blank ++ (sign ++ (chars n.int ++ (fractionText n.frac ++
      (e ++ List.replicate behind blank))))) = some n := by
  obtain ⟨d, ds, hds⟩ := exists_cons_of_ne_nil hint
  obtain ⟨hexponent, hends, hpoint⟩ := exponent_append hexp behind
  have hfraction := fraction_append n.frac hends hpoint
  have hmore : Ends (fractionText n.frac ++ (e ++ List.replicate behind blank)) := by
    by_cases hfrac : n.frac = []
    · rwa [fractionText, if_pos hfrac, nil_append]
    · rw [fractionText, if_neg hfrac]
      intro b hb
      cases hb
      decide
  have hdigits := digits_append n.int hmore
  have hcons : chars n.int = d.char :: chars ds := by rw [hds]; rfl
  have hblanks : (List.replicate behind blank).all (· == blank) = true := by
    rw [all_replicate]
    cases behind <;> rfl
  rw [hcons, cons_append] at hdigits ⊢
  rw [parse, signed_append hsign]
  simp only [hdigits, hfraction, hexponent]
  rw [if_pos ⟨hint, hblanks⟩]

/-! ## Rounding -/

/-- The nearest multiple of a unit, the greater of two. -/
def roundHalfUp (x u : ℚ) : ℚ := ⌊x / u + 1 / 2⌋ * u

/-- A digit of five and more rounds up. -/
theorem roundHalfUp_digits (ds es : List Digit) (d : Digit) (k : Int) :
    roundHalfUp (natOf (ds ++ d :: es) * 10 ^ (k - (es.length + 1 : Nat))) (10 ^ k) =
      (natOf ds + if 5 ≤ d then 1 else 0 : Nat) * 10 ^ k := by
  have hunit : (10 : ℚ) ^ k ≠ 0 := zpow_ne_zero k (by norm_num)
  have hpow : (0 : ℚ) < 10 ^ es.length := by positivity
  have hnat : (natOf (ds ++ d :: es) : ℚ) =
      natOf ds * (10 * 10 ^ es.length) + d.val * 10 ^ es.length + natOf es := by
    rw [natOf_append, natOf_cons, length_cons]
    push_cast
    ring
  have hrest : (natOf es : ℚ) < 10 ^ es.length := by exact_mod_cast natOf_lt es
  have hrest0 : (0 : ℚ) ≤ natOf es := Nat.cast_nonneg _
  have hquot : (natOf (ds ++ d :: es) * 10 ^ (k - (es.length + 1 : Nat)) / 10 ^ k : ℚ) =
      natOf (ds ++ d :: es) / (10 * 10 ^ es.length) := by
    rw [zpow_sub₀ (by norm_num), zpow_natCast, pow_succ']
    field_simp
  have hd : (d.val : ℚ) ≤ 9 := by exact_mod_cast Nat.le_of_lt_succ d.isLt
  have hfloor : ⌊(natOf (ds ++ d :: es) / (10 * 10 ^ es.length) + 1 / 2 : ℚ)⌋ =
      ((natOf ds + if 5 ≤ d then 1 else 0 : Nat) : Int) := by
    rw [Int.floor_eq_iff, hnat]
    by_cases h : 5 ≤ d
    · have h5 : (5 : ℚ) ≤ d.val := by exact_mod_cast h
      rw [if_pos h]
      constructor
      · rw [← sub_le_iff_le_add, le_div_iff₀ (by positivity)]
        push_cast
        nlinarith
      · rw [← lt_sub_iff_add_lt, div_lt_iff₀ (by positivity)]
        push_cast
        nlinarith
    · have h4 : (d.val : ℚ) ≤ 4 := by exact_mod_cast Nat.le_of_lt_succ (not_le.mp h)
      have hd0 : (0 : ℚ) ≤ d.val := Nat.cast_nonneg _
      rw [if_neg h]
      constructor
      · rw [← sub_le_iff_le_add, le_div_iff₀ (by positivity)]
        push_cast
        nlinarith
      · rw [← lt_sub_iff_add_lt, div_lt_iff₀ (by positivity)]
        push_cast
        nlinarith
  rw [roundHalfUp, hquot, hfloor, Int.cast_natCast]

/-- Less than half a unit. -/
theorem roundHalfUp_zero {x u : ℚ} (hx : 0 ≤ x) (hu : 0 < u) (h : x < u / 2) :
    roundHalfUp x u = 0 := by
  have hfloor : ⌊x / u + 1 / 2⌋ = 0 := by
    rw [Int.floor_eq_zero_iff]
    constructor
    · positivity
    · have : x / u < 1 / 2 := by
        rw [div_lt_iff₀ hu]
        linarith
      linarith
  rw [roundHalfUp, hfloor, Int.cast_zero, zero_mul]

/-- A multiple of the unit stays. -/
theorem roundHalfUp_multiple (n : Nat) {u : ℚ} (hu : u ≠ 0) : roundHalfUp (n * u) u = n * u := by
  have hfloor : ⌊(n * u) / u + 1 / 2⌋ = n := by
    rw [mul_div_cancel_right₀ _ hu, Int.floor_eq_iff]
    constructor <;> push_cast <;> linarith
  rw [roundHalfUp, hfloor, Int.cast_natCast]

end Decimal

end AxlSdk
