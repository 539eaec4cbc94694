import Mathlib

/-!
# Edits of a sequence and their timeline

The mathematics under an editor with undo: sequences over any alphabet, the two
ways to change them, and the two stacks of changes that surround the current
state.

- `splice` / `cut` put a run of elements in and take one out. A `Change` is
  either of them with the content involved, and `Takes c D D'` says that `c`
  leads from `D` to `D'`; it determines each end from the other.
- A *timeline* is given by a state before and a state after each recorded
  change. `Past es s` says that undoing `es`, head first, walks back from `s`
  through these states; `Future es s` is the same walk forward. `base es s` is
  where the past starts.
-/

namespace AxlSdk

namespace EditHistory

open List

/-! ## Changing a sequence -/

section Changes

variable {α : Type}

/-- Put `xs` in at position `o`, or at the end if `D` is shorter. -/
def splice (D : List α) (o : Nat) (xs : List α) : List α :=
  D.take o ++ (xs ++ D.drop o)

/-- Take `n` elements out at position `o`. -/
def cut (D : List α) (o n : Nat) : List α :=
  D.take o ++ D.drop (o + n)

@[simp] theorem splice_append (a b xs : List α) :
    splice (a ++ b) a.length xs = a ++ (xs ++ b) := by
  simp [splice]

theorem splice_of_length_le {D : List α} {o : Nat} (h : D.length ≤ o) (xs : List α) :
    splice D o xs = D ++ xs := by
  rw [splice, take_of_length_le h, drop_of_length_le h, append_nil]

/-- Positions past the end count as the end. -/
theorem splice_min (D : List α) (o : Nat) (xs : List α) :
    splice D (min o D.length) xs = splice D o xs := by
  rcases Nat.le_total o D.length with h | h
  · rw [Nat.min_eq_left h]
  · rw [Nat.min_eq_right h, splice_of_length_le (Nat.le_refl _), splice_of_length_le h]

@[simp] theorem cut_append (a xs b : List α) :
    cut (a ++ (xs ++ b)) a.length xs.length = a ++ b := by
  simp [cut, ← drop_drop]

/-- A cut that starts in the first part, and may reach into the second. -/
theorem cut_append_of_le {a : List α} {o : Nat} (h : o ≤ a.length) (b : List α) (n : Nat) :
    cut (a ++ b) o n = cut a o n ++ cut b 0 (n - (a.length - o)) := by
  simp only [cut, take_append_of_le_length h, drop_append, append_assoc,
    take_zero, nil_append, Nat.zero_add]
  congr 3
  omega

theorem cut_zero (D : List α) (o : Nat) : cut D o 0 = D := by
  simp [cut]

/-- A change together with the content it puts in or takes out. -/
inductive Change (α : Type) where
  | insert (o : Nat) (xs : List α)
  | delete (o : Nat) (xs : List α)

/-- `c` leads from the first sequence to the second. -/
inductive Takes : Change α → List α → List α → Prop where
  | insert (a xs b : List α) : Takes (.insert a.length xs) (a ++ b) (a ++ (xs ++ b))
  | delete (a xs b : List α) : Takes (.delete a.length xs) (a ++ (xs ++ b)) (a ++ b)

theorem takes_insert_iff {o : Nat} {xs D D' : List α} :
    Takes (.insert o xs) D D' ↔ o ≤ D.length ∧ D' = splice D o xs := by
  constructor
  · rintro ⟨⟩
    exact ⟨by simp, by simp⟩
  · rintro ⟨ho, rfl⟩
    have h := Takes.insert (D.take o) xs (D.drop o)
    rw [length_take_of_le ho, take_append_drop] at h
    exact h

theorem takes_delete_iff {o : Nat} {xs D D' : List α} :
    Takes (.delete o xs) D D' ↔ o ≤ D'.length ∧ D = splice D' o xs := by
  constructor
  · rintro ⟨⟩
    exact ⟨by simp, by simp⟩
  · rintro ⟨ho, rfl⟩
    have h := Takes.delete (D'.take o) xs (D'.drop o)
    rw [length_take_of_le ho, take_append_drop] at h
    exact h

/-- Cutting out what was spliced in gives back the sequence. -/
theorem cut_splice {D : List α} {o : Nat} (ho : o ≤ D.length) (xs : List α) :
    cut (splice D o xs) o xs.length = D := by
  have h := cut_append (D.take o) xs (D.drop o)
  rw [length_take_of_le ho, take_append_drop] at h
  exact h

/-- Splicing back the elements that a cut removes gives back the sequence. -/
theorem splice_cut {D : List α} {o : Nat} (ho : o ≤ D.length) (n : Nat) :
    splice (cut D o n) o ((D.drop o).take n) = D := by
  have hlen : (D.take o).length = o := length_take_of_le ho
  have hcut : cut D o n = D.take o ++ (D.drop o).drop n := by
    rw [cut, drop_drop]
  rw [hcut]
  have h := splice_append (D.take o) ((D.drop o).drop n) ((D.drop o).take n)
  rw [hlen] at h
  rw [h, take_append_drop, take_append_drop]

end Changes

/-! ## Timelines -/

section Timeline

variable {E S : Type} (before after : E → S)

/-- Undoing the changes of the list, head first, leads from `s` back through
the states they recorded. -/
def Past : List E → S → Prop
  | [], _ => True
  | e :: es, s => after e = s ∧ Past es (before e)

/-- Redoing the changes of the list, head first, leads from `s` forward. -/
def Future : List E → S → Prop
  | [], _ => True
  | e :: es, s => before e = s ∧ Future es (after e)

/-- The state before the oldest change of the past. -/
def base : List E → S → S
  | [], s => s
  | e :: es, _ => base es (before e)

variable {before after}

theorem Past.take {es : List E} {s : S} (h : Past before after es s) (n : Nat) :
    Past before after (es.take n) s := by
  induction es generalizing s n with
  | nil => simp [Past]
  | cons e es ih =>
    cases n with
    | zero => trivial
    | succ n => exact ⟨h.1, ih h.2 n⟩

/-- A timeline reads the recorded states of its own changes only. -/
theorem Past.congr {before' after' : E → S} {es : List E} {s : S}
    (h : Past before after es s) (hb : ∀ e ∈ es, before' e = before e)
    (ha : ∀ e ∈ es, after' e = after e) : Past before' after' es s := by
  induction es generalizing s with
  | nil => trivial
  | cons e es ih =>
    refine ⟨(ha e (by simp)).trans h.1, ?_⟩
    rw [hb e (by simp)]
    exact ih h.2 (fun e' he => hb e' (by simp [he])) fun e' he => ha e' (by simp [he])

theorem base_congr {before' : E → S} {es : List E} {s : S}
    (hb : ∀ e ∈ es, before' e = before e) : base before' es s = base before es s := by
  induction es generalizing s with
  | nil => rfl
  | cons e es ih =>
    rw [base, base, hb e (by simp)]
    exact ih fun e' he => hb e' (by simp [he])

end Timeline

end EditHistory

end AxlSdk
