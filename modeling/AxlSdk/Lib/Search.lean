import Mathlib

/-!
# Searching

- `IsFirst p lo r`, `IsLast p hi r`: `r` is the answer of a search for `p`
  upwards from `lo`, downwards from `hi`. Each has at most one answer.
- `Occurs x y n s`: the word `y` of length `n` stands in the text `x` at `s`;
  texts are functions on positions, over any alphabet.
- `not_occurs_of_shift`: why a search may move on by more than one place when
  the last letter under the word is known (Horspool's rule).
-/

namespace AxlSdk

namespace Search

/-! ## Answers of a search -/

/-- The least position from `lo` on with `p`, or none. -/
def IsFirst (p : Nat → Prop) (lo : Nat) : Option Nat → Prop
  | some s => lo ≤ s ∧ p s ∧ ∀ t, lo ≤ t → t < s → ¬ p t
  | none => ∀ t, lo ≤ t → ¬ p t

/-- The greatest position up to `hi` with `p`, or none. -/
def IsLast (p : Nat → Prop) (hi : Nat) : Option Nat → Prop
  | some s => s ≤ hi ∧ p s ∧ ∀ t, s < t → t ≤ hi → ¬ p t
  | none => ∀ t, t ≤ hi → ¬ p t

variable {p q : Nat → Prop} {lo hi : Nat} {r r' : Option Nat}

theorem IsFirst.unique (h : IsFirst p lo r) (h' : IsFirst p lo r') : r = r' := by
  cases r with
  | none =>
    cases r' with
    | none => rfl
    | some t => exact absurd h'.2.1 (h t h'.1)
  | some s =>
    cases r' with
    | none => exact absurd h.2.1 (h' s h.1)
    | some t =>
      rcases Nat.lt_trichotomy s t with hlt | rfl | hlt
      · exact absurd h.2.1 (h'.2.2 s h.1 hlt)
      · rfl
      · exact absurd h'.2.1 (h.2.2 t h'.1 hlt)

theorem IsLast.unique (h : IsLast p hi r) (h' : IsLast p hi r') : r = r' := by
  cases r with
  | none =>
    cases r' with
    | none => rfl
    | some t => exact absurd h'.2.1 (h t h'.1)
  | some s =>
    cases r' with
    | none => exact absurd h.2.1 (h' s h.1)
    | some t =>
      rcases Nat.lt_trichotomy s t with hlt | rfl | hlt
      · exact absurd h'.2.1 (h.2.2 t hlt h'.1)
      · rfl
      · exact absurd h.2.1 (h'.2.2 s hlt h.1)

/-- Places that were ruled out may be added at the front. -/
theorem IsFirst.extend {lo' : Nat} (h : IsFirst p lo' r) (hle : lo ≤ lo')
    (hno : ∀ t, lo ≤ t → t < lo' → ¬ p t) : IsFirst p lo r := by
  cases r with
  | none =>
    intro t ht
    by_cases hlt : t < lo'
    · exact hno t ht hlt
    · exact h t (by omega)
  | some s =>
    obtain ⟨hs, hp, hbefore⟩ := h
    refine ⟨by omega, hp, fun t ht hts => ?_⟩
    by_cases hlt : t < lo'
    · exact hno t ht hlt
    · exact hbefore t (by omega) hts

/-- Places that were ruled out may be added at the back. -/
theorem IsLast.extend {hi' : Nat} (h : IsLast p hi' r) (hle : hi' ≤ hi)
    (hno : ∀ t, hi' < t → t ≤ hi → ¬ p t) : IsLast p hi r := by
  cases r with
  | none =>
    intro t ht
    by_cases hlt : hi' < t
    · exact hno t hlt ht
    · exact h t (by omega)
  | some s =>
    obtain ⟨hs, hp, hafter⟩ := h
    refine ⟨by omega, hp, fun t ht hts => ?_⟩
    by_cases hlt : hi' < t
    · exact hno t hlt hts
    · exact hafter t ht (by omega)

/-! ## Words in a text -/

variable {β : Type}

/-- The first `n` letters of `y` stand in `x` from `s` on. -/
def Occurs (x y : Nat → β) (n s : Nat) : Prop := ∀ k < n, x (s + k) = y k

/-- Horspool's rule. The letter `c` under the end of the word stands in the word
itself, before its end, no later than `shift` from the end; no occurrence is
nearer than `shift`. -/
theorem not_occurs_of_shift {x y : Nat → β} {n i shift : Nat} (hn : shift ≤ n)
    (hshift : ∀ k, k + 1 < n → y k = x (i + (n - 1)) → shift ≤ n - 1 - k) {d : Nat} (hd : 0 < d)
    (hlt : d < shift) : ¬ Occurs x y n (i + d) := by
  intro hocc
  -- the letter lies under the place `n - 1 - d` of the word
  have hk := hocc (n - 1 - d) (by omega)
  have hpos : i + d + (n - 1 - d) = i + (n - 1) := by omega
  rw [hpos] at hk
  have := hshift (n - 1 - d) (by omega) hk.symm
  omega

end Search

end AxlSdk
