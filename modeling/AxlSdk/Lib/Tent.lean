import Mathlib

/-!
# Box sums and the tent

The sum of the `n` samples from `t` on is a box. A box of boxes is a weighted sum of samples
whose weights rise to `n` and fall again: the tent.

- `box n f t`, `box_succ`: a box, and the next one from it.
- `weight n k`, `tent n f t`, `box_box`: the tent is the box of the boxes.
- `box_shift`, `tent_const`: sums of a constant, which bound the sums of bounded samples.
-/

namespace AxlSdk

namespace Tent

open Finset

section Monoid

variable {M : Type*} [AddCommMonoid M]

/-- The `n` samples from `t` on. -/
def box (n : ℕ) (f : ℤ → M) (t : ℤ) : M := ∑ j ∈ range n, f (t + j)

/-- The weights 1, 2, …, n, …, 2, 1. -/
def weight (n k : ℕ) : ℕ := min (k + 1) (2 * n - 1 - k)

/-- The `2 n - 1` samples from `t` on, with their weights. -/
def tent (n : ℕ) (f : ℤ → M) (t : ℤ) : M := ∑ k ∈ range (2 * n - 1), weight n k • f (t + k)

/-- What enters the window and what leaves it. -/
theorem box_succ (n : ℕ) (f : ℤ → M) (t : ℤ) :
    box n f (t + 1) + f t = box n f t + f (t + n) := by
  have h := sum_range_succ' (fun j : ℕ => f (t + j)) n
  rw [sum_range_succ] at h
  simpa [box, add_assoc, add_comm, add_left_comm] using h.symm

theorem box_add (n : ℕ) (f : ℤ → M) (t : ℤ) : box (n + 1) f t = box n f t + f (t + n) :=
  sum_range_succ _ n

theorem weight_rise {n k : ℕ} (h : k < n) : weight (n + 1) k = weight n k := by
  unfold weight
  omega

theorem weight_fall {n k : ℕ} (h : k < n) : weight (n + 1) (n + k) = weight n (n + k) + 1 + 1 := by
  unfold weight
  omega

/-- The weights behind the tent are 0, so that more samples can be summed. -/
theorem tent_eq {n m : ℕ} (h : 2 * n - 1 ≤ m) (f : ℤ → M) (t : ℤ) :
    tent n f t = ∑ k ∈ range m, weight n k • f (t + k) := by
  refine sum_subset (range_subset_range.mpr h) fun k _ hk => ?_
  have hzero : weight n k = 0 := by
    have := mem_range.not.mp hk
    unfold weight
    omega
  rw [hzero, zero_nsmul]

/-- The next tent has two more boxes on its falling side, the second one sample shorter. -/
theorem tent_succ (n : ℕ) (f : ℤ → M) (t : ℤ) :
    tent (n + 1) f t = tent n f t + box (n + 1) f (t + n) + box n f (t + n) := by
  have hrise : ∑ k ∈ range n, weight (n + 1) k • f (t + k) =
      ∑ k ∈ range n, weight n k • f (t + k) :=
    sum_congr rfl fun k hk => by rw [weight_rise (mem_range.mp hk)]
  have hfall : ∑ k ∈ range n, weight (n + 1) (n + k) • f (t + ↑(n + k)) =
      ∑ k ∈ range n, weight n (n + k) • f (t + ↑(n + k)) + box n f (t + n) + box n f (t + n) := by
    rw [box, ← sum_add_distrib, ← sum_add_distrib]
    refine sum_congr rfl fun k hk => ?_
    rw [weight_fall (mem_range.mp hk), add_nsmul, add_nsmul, one_nsmul, Nat.cast_add, add_assoc t]
  have hlast : weight (n + 1) (n + n) = 1 := by
    unfold weight
    omega
  rw [tent_eq (m := n + n + 1) (by omega), tent_eq (n := n) (m := n + n) (by omega),
    sum_range_succ, sum_range_add, sum_range_add, hrise, hfall, hlast, one_nsmul, box_add]
  push_cast
  simp only [add_assoc, add_left_comm, add_comm]

/-- The tent is the box of the boxes. -/
theorem box_box (n : ℕ) (f : ℤ → M) (t : ℤ) : box n (box n f) t = tent n f t := by
  induction n with
  | zero => simp [box, tent]
  | succ n ih =>
    have hinner : box n (box (n + 1) f) t = box n (box n f) t + box n f (t + n) := by
      simp only [box, sum_range_succ, sum_add_distrib]
      congr 1
      exact sum_congr rfl fun j _ => by rw [add_right_comm]
    rw [box_add, hinner, ih, tent_succ, add_right_comm]

/-- A box of samples that are read from another place. -/
theorem box_shift (n : ℕ) (f : ℤ → M) (d t : ℤ) :
    box n (fun i => f (i + d)) t = box n f (t + d) :=
  sum_congr rfl fun j _ => by rw [add_right_comm]

end Monoid

/-! ## Bounds -/

theorem sum_weight (n : ℕ) : ∑ k ∈ range (2 * n - 1), weight n k = n * n := by
  have h := box_box n (fun _ => 1) 0
  simpa [box, tent] using h.symm

theorem box_le {n b : ℕ} {f : ℤ → ℕ} (hf : ∀ i, f i ≤ b) (t : ℤ) : box n f t ≤ b * n :=
  calc box n f t ≤ ∑ _j ∈ range n, b := sum_le_sum fun j _ => hf _
    _ = b * n := by rw [sum_const, card_range, smul_eq_mul, Nat.mul_comm]

end Tent

end AxlSdk
