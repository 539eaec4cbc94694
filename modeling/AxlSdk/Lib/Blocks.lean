import Mathlib

/-!
# Lists of blocks of one length

A list of records of `n` letters each, laid out one after the other: what stands at a
multiple of `n` is a record, and cutting or patching there acts on records.
-/

namespace AxlSdk

namespace Blocks

open List

variable {α : Type} {n : Nat} {bs : List (List α)} {b : List α}

/-- Every block has `n` letters. -/
def Sized (n : Nat) (bs : List (List α)) : Prop := ∀ b ∈ bs, b.length = n

theorem sized_nil : Sized n ([] : List (List α)) := by
  intro b hb
  cases hb

theorem sized_cons : Sized n (b :: bs) ↔ b.length = n ∧ Sized n bs := forall_mem_cons

theorem Sized.append {cs : List (List α)} (h : Sized n bs) (hc : Sized n cs) :
    Sized n (bs ++ cs) := by
  intro b hb
  rcases mem_append.mp hb with hb | hb
  · exact h b hb
  · exact hc b hb

theorem Sized.drop (h : Sized n bs) (k : Nat) : Sized n (bs.drop k) :=
  fun b hb => h b (mem_of_mem_drop hb)

theorem Sized.set (h : Sized n bs) (hb : b.length = n) (i : Nat) : Sized n (bs.set i b) := by
  intro c hc
  rcases mem_or_eq_of_mem_set hc with hc | rfl
  · exact h c hc
  · exact hb

theorem Sized.length_flatten (h : Sized n bs) : bs.flatten.length = bs.length * n := by
  induction bs with
  | nil => rw [flatten_nil, length_nil, length_nil, Nat.zero_mul]
  | cons b bs ih =>
    obtain ⟨hb, hbs⟩ := sized_cons.mp h
    rw [flatten_cons, length_append, hb, ih hbs, length_cons, Nat.succ_mul,
      Nat.add_comm]

theorem Sized.drop_flatten (h : Sized n bs) (k : Nat) :
    bs.flatten.drop (k * n) = (bs.drop k).flatten := by
  induction k generalizing bs with
  | zero => rw [Nat.zero_mul, drop_zero, drop_zero]
  | succ k ih =>
    cases bs with
    | nil => rw [flatten_nil, drop_nil, drop_nil, flatten_nil]
    | cons b bs =>
      obtain ⟨hb, hbs⟩ := sized_cons.mp h
      rw [flatten_cons, drop_succ_cons, Nat.succ_mul, Nat.add_comm, ← drop_drop,
        drop_left' hb, ih hbs]

theorem Sized.take_flatten (h : Sized n bs) (k : Nat) :
    bs.flatten.take (k * n) = (bs.take k).flatten := by
  have hsplit : (bs.take k).flatten ++ (bs.drop k).flatten = bs.flatten := by
    rw [← flatten_append, take_append_drop]
  rw [← h.drop_flatten] at hsplit
  exact (append_cancel_right
    (hsplit.trans (take_append_drop (k * n) bs.flatten).symm)).symm

/-- The letters at place `i * n` are the block `i`. -/
theorem Sized.block_flatten (h : Sized n bs) {i : Nat} (hi : i < bs.length) :
    (bs.flatten.drop (i * n)).take n = bs[i] := by
  rw [h.drop_flatten, drop_eq_getElem_cons hi, flatten_cons,
    take_left' (h _ (getElem_mem hi))]

/-- Letters written over place `i * n` replace the block `i`. -/
theorem Sized.patch_flatten (h : Sized n bs) (i : Nat) (b : List α) (hi : i < bs.length) :
    bs.flatten.take (i * n) ++ (b ++ bs.flatten.drop (i * n + n)) = (bs.set i b).flatten := by
  rw [← Nat.succ_mul, h.take_flatten, h.drop_flatten, set_eq_take_append_cons_drop,
    if_pos hi, flatten_append, flatten_cons]

end Blocks

end AxlSdk
