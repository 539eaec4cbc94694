import AxlSdk.Lib.InPlace

/-!
# Sorting (`src/util/axl-sort.c`)

An introsort: quicksort with the median of three, insertion sort for small ranges, and
heapsort where the recursion gets too deep. The functions are written for a `Machine`, which
stands for the base pointer, the element size and the comparator; moving the base pointer is
`Machine.shift`. `byteMachine` is the machine of the source, with `mem_swap` on bytes.

An array is no larger than half of the address space, so that the indices stay in `size_t`.
-/

namespace AxlSdk

namespace Sorting

open InPlace

variable {S : Type} (m : Machine S)

/-! ## The algorithms -/

/-- The child that `sift_down` looks at: the greater one, where there are two. -/
def chooseChild (child n : Nat) (s : S) : Nat × S :=
  if child + 1 < n then
    let r := m.cmp child (child + 1) s
    (if r.1 < 0 then child + 1 else child, r.2)
  else (child, s)

theorem chooseChild_ge (child n : Nat) (s : S) : child ≤ (chooseChild m child n s).1 := by
  unfold chooseChild
  split
  · dsimp only
    split <;> omega
  · exact Nat.le_refl _

/-- `sift_down` -/
def siftDown (root n : Nat) (s : S) : S :=
  if 2 * root + 1 ≥ n then s
  else
    let r := chooseChild m (2 * root + 1) n s
    let r' := m.cmp root r.1 r.2
    if r'.1 ≥ 0 then r'.2 else siftDown r.1 n (m.swap root r.1 r'.2)
termination_by n - root
decreasing_by
  have := chooseChild_ge m (2 * root + 1) n s
  omega

/-- The second loop of `heap_sort`. -/
def pullLoop : Nat → S → S
  | e + 2, s => pullLoop (e + 1) (siftDown m 0 (e + 1) (m.swap 0 (e + 1) s))
  | _, s => s

section Keeps

variable {m} {n : Nat} {I : S → Prop}

end Keeps

/-! ## In order -/

section Ordered

variable {α : Type} {m : Machine S} {n : Nat} {view : S → Nat → α} {le : α → α → Prop}

/-- Around the place `p`, the elements in front are not greater, those behind not less. -/
structure Around (le : α → α → Prop) (p n : Nat) (v : Nat → α) : Prop where
  front : ∀ i, i < p → le (v i) (v p)
  behind : ∀ i, p < i → i < n → le (v p) (v i)

/-- Two sorted parts around a place are sorted together. -/
theorem Around.sorted {p : Nat} {v : Nat → α} (h : Around le p n v) (hle : TotalPreorder le)
    (hfront : SortedOn le p v) (hbehind : SortedOn le (n - p - 1) fun i => v (p + 1 + i)) :
    SortedOn le n v := by
  intro i j hij hj
  rcases Nat.lt_trichotomy j p with hjp | rfl | hjp
  · exact hfront i j hij hjp
  · exact h.front i hij
  · rcases Nat.lt_trichotomy i p with hip | rfl | hip
    · exact hle.trans (h.front i hip) (h.behind j hjp hj)
    · exact h.behind j hjp hj
    · have hsorted := hbehind (i - (p + 1)) (j - (p + 1)) (by omega) (by omega)
      dsimp only at hsorted
      rwa [Nat.add_sub_cancel' hip, Nat.add_sub_cancel' hjp] at hsorted

end Ordered

/-! ## Bytes -/

/-- Memory, by address. -/
abbrev Mem := Nat → UInt8

/-- Two regions of memory are the same or have no byte in common. -/
def Apart (a b size : Nat) : Prop := a = b ∨ a + size ≤ b ∨ b + size ≤ a

/-- Two regions changed places. -/
def swapped (a b size : Nat) (mem : Mem) : Mem := fun x =>
  if a ≤ x ∧ x < a + size then mem (b + (x - a))
  else if b ≤ x ∧ x < b + size then mem (a + (x - b))
  else mem x

theorem Apart.mono {a b size k : Nat} (h : Apart a b size) (hk : k ≤ size) : Apart a b k := by
  unfold Apart at *
  omega

theorem Apart.rest {a b size k : Nat} (h : Apart a b (k + size)) : Apart (a + k) (b + k) size := by
  unfold Apart at *
  omega

end Sorting

end AxlSdk
