import Mathlib

/-!
# Circular arrays

A list read and written from a position on, around its end. `List.rotate` is
the view from a position; reads and writes are made of the two pieces that a
program copies.
-/

namespace AxlSdk

namespace Circular

open List

variable {α : Type}

/-- Overwrite `l` from `off` on. -/
def write (l : List α) (off : Nat) (d : List α) : List α :=
  l.take off ++ (d ++ l.drop (off + d.length))

theorem length_write {l d : List α} {off : Nat} (h : off + d.length ≤ l.length) :
    (write l off d).length = l.length := by
  simp only [write, length_append, length_take, length_drop]
  omega

/-- Read `n` elements from `pos` on, in up to two pieces. -/
def readAround (l : List α) (off n : Nat) : List α :=
  if n ≤ l.length - off then (l.drop off).take n
  else l.drop off ++ l.take (n - (l.length - off))

/-- Overwrite from `off` on, in up to two pieces. -/
def writeAround (l : List α) (off : Nat) (d : List α) : List α :=
  if d.length ≤ l.length - off then write l off d
  else write (write l off (d.take (l.length - off))) 0 (d.drop (l.length - off))

theorem length_writeAround {l d : List α} {off : Nat} (hoff : off ≤ l.length)
    (h : d.length ≤ l.length) : (writeAround l off d).length = l.length := by
  unfold writeAround
  split
  · exact length_write (by omega)
  · have hfirst : (write l off (d.take (l.length - off))).length = l.length :=
      length_write (by rw [length_take]; omega)
    rw [length_write, hfirst]
    rw [hfirst, length_drop]
    omega

theorem rotate_eq {l : List α} {off : Nat} (h : off ≤ l.length) :
    l.rotate off = l.drop off ++ l.take off :=
  rotate_eq_drop_append_take h

/-- Reading around the end is reading the view. -/
theorem readAround_eq {l : List α} {off n : Nat} (hoff : off ≤ l.length) (hn : n ≤ l.length) :
    readAround l off n = (l.rotate off).take n := by
  rw [rotate_eq hoff, take_append, length_drop]
  unfold readAround
  split
  case isTrue h =>
    rw [show n - (l.length - off) = 0 by omega, take_zero, append_nil]
  case isFalse h =>
    have hlong : (l.drop off).take n = l.drop off :=
      take_of_length_le (by rw [length_drop]; omega)
    rw [hlong, take_take, show min (n - (l.length - off)) off = n - (l.length - off) by omega]

/-- Writing around the end writes to the front of the view. -/
theorem rotate_writeAround {l d : List α} {off : Nat} (hoff : off ≤ l.length)
    (hd : d.length ≤ l.length) :
    (writeAround l off d).rotate off = d ++ (l.rotate off).drop d.length := by
  have hlen := length_writeAround hoff hd
  obtain ⟨a, b, rfl, rfl⟩ : ∃ a b, l = a ++ b ∧ off = a.length :=
    ⟨l.take off, l.drop off, (take_append_drop off l).symm,
      by rw [length_take]; omega⟩
  rw [rotate_append_length_eq]
  unfold writeAround at hlen ⊢
  simp only [length_append, Nat.add_sub_cancel_left] at hd hlen ⊢
  split
  case isTrue h =>
    rw [write, take_left, rotate_append_length_eq, drop_append_of_le_length h,
      append_assoc, ← drop_drop, drop_left]
  case isFalse h =>
    -- the first piece fills `b`, the second starts over in `a`
    have hb : (d.take b.length).length = b.length := by
      rw [length_take]
      omega
    have hfirst : write (a ++ b) a.length (d.take b.length) = a ++ d.take b.length := by
      rw [write, take_left, hb, drop_eq_nil_of_le (by simp), append_nil]
    have hnil : b.drop d.length = [] := drop_eq_nil_of_le (by omega)
    have hle : (d.drop b.length).length ≤ a.length := by
      rw [length_drop]
      omega
    have hpre : (d.drop b.length ++ a.drop (d.drop b.length).length).length = a.length := by
      rw [length_append, length_drop, length_drop]
      rw [length_drop] at hle
      omega
    rw [hfirst, write, take_zero, nil_append, Nat.zero_add,
      drop_append_of_le_length hle, ← append_assoc, ← hpre,
      rotate_append_length_eq, ← append_assoc, take_append_drop,
      drop_append, hnil, nil_append, length_drop]

/-- The view from behind the first part of the view. -/
theorem rotate_add_append {l x y : List α} {r : Nat} (h : l.rotate r = x ++ y) :
    l.rotate (r + x.length) = y ++ x := by
  rw [← rotate_rotate, h, rotate_append_length_eq]

/-- The same, read backwards. -/
theorem rotate_of_rotate_add {l x y : List α} {r : Nat}
    (h : l.rotate (r + x.length) = y ++ x) : l.rotate r = x ++ y := by
  rw [← rotate_rotate] at h
  exact rotate_injective x.length (h.trans (rotate_append_length_eq x y).symm)

end Circular

end AxlSdk
