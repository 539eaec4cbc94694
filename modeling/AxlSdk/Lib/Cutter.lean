import Mathlib

/-!
# Reading a sequence unit by unit

A `Cutter` takes one unit off the front of a sequence, or says that the sequence
is too short for one. What it takes must not depend on what comes behind
(`stable`). `scan` cuts until nothing can be cut and keeps the rest. The rest is
all that has to be carried from one piece of a sequence to the next:
`scan_append`. So a sequence may be handed over in pieces of any size.
-/

namespace AxlSdk

/-- How to take one unit, spelled by one or more letters, off the front. -/
structure Cutter (α β : Type) where
  cut : List α → Option (β × Nat)
  pos : ∀ {xs b n}, cut xs = some (b, n) → 0 < n
  le : ∀ {xs b n}, cut xs = some (b, n) → n ≤ xs.length
  stable : ∀ {xs r} (ys), cut xs = some r → cut (xs ++ ys) = some r

namespace Cutter

variable {α β : Type} (c : Cutter α β)

/-- At most `fuel` cuts. -/
def scanN : Nat → List α → List β × List α
  | 0, xs => ([], xs)
  | fuel + 1, xs =>
    match c.cut xs with
    | none => ([], xs)
    | some (b, n) => (b :: (scanN fuel (xs.drop n)).1, (scanN fuel (xs.drop n)).2)

/-- All units of the sequence, and the rest that is not one. -/
def scan (xs : List α) : List β × List α := c.scanN xs.length xs

variable {c}

theorem cut_nil : c.cut [] = none := by
  cases h : c.cut [] with
  | none => rfl
  | some r =>
    have h0 := c.pos h
    have h1 := c.le h
    simp only [List.length_nil] at h1
    omega

theorem scanN_of_le {fuel fuel' : Nat} {xs : List α} (h : xs.length ≤ fuel)
    (h' : xs.length ≤ fuel') : c.scanN fuel xs = c.scanN fuel' xs := by
  induction fuel generalizing fuel' xs with
  | zero =>
    have hnil : xs = [] := List.length_eq_zero_iff.mp (by omega)
    subst hnil
    cases fuel' with
    | zero => rfl
    | succ fuel' => rw [scanN, scanN, cut_nil]
  | succ fuel ih =>
    cases fuel' with
    | zero =>
      have hnil : xs = [] := List.length_eq_zero_iff.mp (by omega)
      subst hnil
      rw [scanN, scanN, cut_nil]
    | succ fuel' =>
      rw [scanN, scanN]
      cases hc : c.cut xs with
      | none => rfl
      | some r =>
        obtain ⟨b, n⟩ := r
        have hpos := c.pos hc
        have hle := c.le hc
        have hlen : (xs.drop n).length = xs.length - n := List.length_drop
        have hrec := @ih fuel' (xs.drop n) (by omega) (by omega)
        dsimp only
        rw [hrec]

theorem scan_of_none {xs : List α} (h : c.cut xs = none) : c.scan xs = ([], xs) := by
  rw [scan]
  cases hlen : xs.length with
  | zero => rfl
  | succ n => rw [scanN, h]

theorem scan_of_some {xs : List α} {b : β} {n : Nat} (h : c.cut xs = some (b, n)) :
    c.scan xs = (b :: (c.scan (xs.drop n)).1, (c.scan (xs.drop n)).2) := by
  have hpos := c.pos h
  have hle := c.le h
  have hlen : (xs.drop n).length = xs.length - n := List.length_drop
  have hrec : c.scanN (xs.length - 1) (xs.drop n) = c.scan (xs.drop n) :=
    scanN_of_le (by omega) (Nat.le_refl _)
  obtain ⟨m, hm⟩ : ∃ m, xs.length = m + 1 := ⟨xs.length - 1, by omega⟩
  rw [show xs.length - 1 = m by omega] at hrec
  conv_lhs => rw [scan, hm, scanN, h]
  dsimp only
  rw [hrec]

/-- The rest is no unit. -/
theorem cut_rest (xs : List α) : c.cut (c.scan xs).2 = none := by
  induction hlen : xs.length using Nat.strong_induction_on generalizing xs with
  | _ len ih =>
    cases h : c.cut xs with
    | none =>
      rw [scan_of_none h]
      exact h
    | some r =>
      obtain ⟨b, n⟩ := r
      have hpos := c.pos h
      have hle := c.le h
      rw [scan_of_some h]
      exact ih (xs.drop n).length (by rw [List.length_drop]; omega) (xs.drop n) rfl

/-- **Pieces**: the rest of the first piece goes in front of the second. -/
theorem scan_append (xs ys : List α) :
    c.scan (xs ++ ys)
      = ((c.scan xs).1 ++ (c.scan ((c.scan xs).2 ++ ys)).1,
          (c.scan ((c.scan xs).2 ++ ys)).2) := by
  induction hlen : xs.length using Nat.strong_induction_on generalizing xs with
  | _ len ih =>
    cases h : c.cut xs with
    | none => rw [scan_of_none h, List.nil_append]
    | some r =>
      obtain ⟨b, n⟩ := r
      have hpos := c.pos h
      have hle := c.le h
      have hdrop : (xs ++ ys).drop n = xs.drop n ++ ys := List.drop_append_of_le_length hle
      have hrec := ih (xs.drop n).length (by rw [List.length_drop]; omega) (xs.drop n) rfl
      rw [scan_of_some (c.stable ys h), hdrop, hrec, scan_of_some h]
      rfl

end Cutter

end AxlSdk
