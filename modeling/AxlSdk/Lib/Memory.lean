import Mathlib

/-!
# Arrays in memory

A block of memory is the list of its cells. `read`, `write`, `move` and
`realloc` are `memcpy` from and to a block, `memmove` inside it and its growth;
`updateLoop` is the loop that changes a range of cells in place. The lemmas say
what each does to a block given as a concatenation of parts.
-/

namespace AxlSdk

namespace Memory

open List

variable {α : Type}

/-- `n` cells from `i` on. -/
def read (m : List α) (i n : Nat) : List α := (m.drop i).take n

/-- The cells from `i` on become `xs`. -/
def write (m : List α) (i : Nat) (xs : List α) : List α := m.take i ++ xs ++ m.drop (i + xs.length)

/-- `n` cells are copied from `src` to `dst`; the two ranges may overlap. -/
def move (m : List α) (dst src n : Nat) : List α := write m dst (read m src n)

/-- A block of `n` cells with the old contents, the new cells being `junk`. -/
def realloc (m : List α) (n : Nat) (junk : Nat → α) : List α :=
  m.take n ++ (List.range (n - m.length)).map junk

/-- The cells `i`, `i + 1`, … are changed by `f`, `n` of them. -/
def updateLoop (f : α → α) : Nat → Nat → List α → List α
  | 0, _, m => m
  | n + 1, i, m => updateLoop f n (i + 1) (m.modify i f)

theorem length_realloc (m : List α) (n : Nat) (junk : Nat → α) :
    (realloc m n junk).length = n := by
  simp [realloc]
  omega

/-- A block that grows keeps its contents. -/
theorem realloc_grow {m : List α} {n : Nat} (h : m.length ≤ n) (junk : Nat → α) :
    ∃ j, realloc m n junk = m ++ j ∧ j.length = n - m.length :=
  ⟨_, by rw [realloc, take_of_length_le h], by simp⟩

theorem read_append {a b c : List α} {i n : Nat} (hi : i = a.length) (hn : n = b.length) :
    read (a ++ b ++ c) i n = b := by
  subst hi hn
  simp [read, append_assoc]

/-- A write over the middle part. -/
theorem write_append {a b c xs : List α} {i : Nat} (hi : i = a.length)
    (hlen : b.length = xs.length) : write (a ++ b ++ c) i xs = a ++ xs ++ c := by
  subst hi
  have htake : (a ++ b ++ c).take a.length = a := by simp [append_assoc]
  have hdrop : (a ++ b ++ c).drop (a.length + xs.length) = c := by
    rw [← hlen, ← length_append]
    exact drop_left
  rw [write, htake, hdrop]

/-- The part `b` moves up by `k` cells, over whatever is there. -/
theorem move_up {a b c : List α} {dst src n k : Nat} (hsrc : src = a.length) (hn : n = b.length)
    (hdst : dst = a.length + k) (hk : k ≤ c.length) :
    ∃ g, move (a ++ b ++ c) dst src n = a ++ g ++ b ++ c.drop k ∧ g.length = k := by
  refine ⟨(b ++ c).take k, ?_, by simp; omega⟩
  rw [move, read_append hsrc hn]
  have hsplit : a ++ b ++ c = (a ++ (b ++ c).take k) ++ ((b ++ c).drop k).take b.length
      ++ c.drop k := by
    have h₁ : ((b ++ c).drop k).drop b.length = c.drop k := by
      rw [drop_drop, Nat.add_comm, ← drop_drop, drop_left]
    rw [← h₁, append_assoc a b c]
    simp only [append_assoc, take_append_drop]
  have hlen : (((b ++ c).drop k).take b.length).length = b.length := by
    simp
    omega
  rw [hsplit, write_append (by simp; omega) hlen]

/-- The part `b` moves down over `x`. -/
theorem move_down {a x b c : List α} {dst src n : Nat} (hdst : dst = a.length)
    (hsrc : src = a.length + x.length) (hn : n = b.length) :
    ∃ g, move (a ++ x ++ b ++ c) dst src n = a ++ b ++ g ++ c ∧ g.length = x.length := by
  refine ⟨(x ++ b).drop b.length, ?_, by simp⟩
  have hread : read (a ++ x ++ b ++ c) src n = b := read_append (by simp [hsrc]) hn
  have hsplit : a ++ x ++ b ++ c = a ++ (x ++ b).take b.length ++ ((x ++ b).drop b.length ++ c) := by
    simp only [append_assoc]
    rw [← append_assoc ((x ++ b).take b.length), take_append_drop, append_assoc]
  rw [move, hread, hsplit, write_append hdst (by simp)]
  simp

theorem updateLoop_append (f : α → α) {a b c : List α} {i n : Nat} (hi : i = a.length)
    (hn : n = b.length) : updateLoop f n i (a ++ b ++ c) = a ++ b.map f ++ c := by
  induction b generalizing a i n with
  | nil =>
    subst hn
    simp [updateLoop]
  | cons x b ih =>
    subst hi hn
    have hmod : (a ++ x :: b ++ c).modify a.length f = (a ++ [f x]) ++ b ++ c := by
      rw [modify_eq_take_cons_drop (by simp)]
      simp [append_assoc]
    rw [length_cons, updateLoop, hmod, ih (by simp) rfl]
    simp

end Memory

end AxlSdk
