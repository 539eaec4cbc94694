import Mathlib

/-!
# Division by a multiplication and a shift

With the reciprocal `m = 2 ^ s / d + 1` and its error `e = m * d - 2 ^ s`, the quotient of
`n * m` by `2 ^ s` is that of `n` by `d` while `n * e` is below `2 ^ s`.

- `recip s d`, `recipError s d`: the reciprocal and its error, which is in `[1, d]`.
- `mul_recip`: the multiplication gives the quotient.
- `half_up`: rounding by adding half of the divisor is rounding half up.
-/

namespace AxlSdk

namespace Reciprocal

def recip (s d : Nat) : Nat := 2 ^ s / d + 1

def recipError (s d : Nat) : Nat := recip s d * d - 2 ^ s

theorem recip_mul (s : Nat) {d : Nat} (hd : 0 < d) : recip s d * d = 2 ^ s + recipError s d := by
  have h := Nat.lt_div_mul_add (a := 2 ^ s) hd
  rw [recipError, recip, Nat.add_mul, Nat.one_mul]
  omega

theorem recipError_pos (s : Nat) {d : Nat} (hd : 0 < d) : 0 < recipError s d := by
  have h := Nat.lt_div_mul_add (a := 2 ^ s) hd
  rw [recipError, recip, Nat.add_mul, Nat.one_mul]
  omega

theorem mul_recip {s n d : Nat} (hd : 0 < d) (h : n * recipError s d < 2 ^ s) :
    n * recip s d / 2 ^ s = n / d := by
  -- both sides are the quotient of `n * recip * d` by `2 ^ s * d`
  have hprod : n * recip s d * d = n * 2 ^ s + n * recipError s d := by
    rw [Nat.mul_assoc, recip_mul s hd, Nat.mul_add]
  have hq : n / d * d ≤ n := Nat.div_mul_le_self n d
  have hn : n < (n / d + 1) * d := by
    have := Nat.lt_div_mul_add (a := n) hd
    rwa [Nat.add_mul, Nat.one_mul]
  apply Nat.div_eq_of_lt_le
  · apply Nat.le_of_mul_le_mul_right _ hd
    calc n / d * 2 ^ s * d = n / d * d * 2 ^ s := by rw [Nat.mul_right_comm]
      _ ≤ n * 2 ^ s := Nat.mul_le_mul_right _ hq
      _ ≤ n * recip s d * d := by omega
  · apply Nat.lt_of_mul_lt_mul_right (a := d)
    calc n * recip s d * d < (n + 1) * 2 ^ s := by rw [hprod, Nat.add_mul, Nat.one_mul]; omega
      _ ≤ (n / d + 1) * d * 2 ^ s := Nat.mul_le_mul_right _ hn
      _ = (n / d + 1) * 2 ^ s * d := by rw [Nat.mul_right_comm]

/-- The test for it, with a division. -/
theorem mul_error_lt {s n d nmax : Nat} (hd : 0 < d) (hn : n ≤ nmax)
    (h : nmax ≤ (2 ^ s - 1) / recipError s d) : n * recipError s d < 2 ^ s := by
  have hmax := (Nat.le_div_iff_mul_le (recipError_pos s hd)).mp h
  have hpow : 0 < 2 ^ s := Nat.two_pow_pos s
  have := Nat.mul_le_mul_right (recipError s d) hn
  omega

/-- Rounding half up, with the half rounded down. -/
theorem half_up (n : Nat) {d : Nat} (hd : 0 < d) :
    round ((n : ℚ) / d) = ((n + d / 2) / d : ℕ) := by
  have hnat : (n + d / 2) / d = (2 * n + d) / (2 * d) := by
    rw [← Nat.div_div_eq_div_mul]
    congr 1
    omega
  have hrat : (n : ℚ) / d + 1 / 2 = ((2 * n + d : ℕ) : ℚ) / (2 * d : ℕ) := by
    have : (d : ℚ) ≠ 0 := by exact_mod_cast hd.ne'
    push_cast
    field_simp
  rw [round_eq, hrat, Rat.floor_natCast_div_natCast, hnat, Int.natCast_div]

end Reciprocal

end AxlSdk
