import AxlSdk.Data.Ucs2

/-!
# The wire codec of 9P2000.L (`axl-9p-codec.c`)

Little-endian numbers and counted strings.

- `le`, `wStr`, `message`: what the writer emits. A writer is its bytes; it has
  overflown if they are more than its capacity.
- `Axl9pReader` and `rU8` … `rStr`: the read cursor, here the bytes still ahead of it
  and whether a read ran past the end.
- `rUint_le`, `rStr_wStr`: a reader gets back what a writer put.
-/

namespace AxlSdk

namespace NineP

open Ucs2 (CString)

/-- The `k` bytes of a number, the low byte first. -/
def le : Nat → Nat → List UInt8
  | 0, _ => []
  | k + 1, n => UInt8.ofNat (n % 256) :: le k (n / 256)

/-- The number of some bytes. -/
def leNat : List UInt8 → Nat
  | [] => 0
  | b :: bs => b.toNat + 256 * leNat bs

/-- `axl_9p_w_str` -/
def wStr (s : List UInt8) : List UInt8 := le 2 s.length ++ s

/-- A message: `size[4] type[1] tag[2]` and the body. -/
def message (type tag : Nat) (body : List UInt8) : List UInt8 :=
  le 4 (7 + body.length) ++ le 1 type ++ le 2 tag ++ body

/-- The bytes ahead of the cursor, and whether a read ran past them. -/
structure Axl9pReader where
  rest : List UInt8
  error : Bool
deriving DecidableEq, Repr

/-- A number of `k` bytes; `0`, and an error, if there are not as many left. -/
def rUint (k : Nat) (r : Axl9pReader) : Nat × Axl9pReader :=
  if r.rest.length < k then (0, { r with error := true })
  else (leNat (r.rest.take k), { r with rest := r.rest.drop k })

def rU8 (r : Axl9pReader) : Nat × Axl9pReader := rUint 1 r

def rU16 (r : Axl9pReader) : Nat × Axl9pReader := rUint 2 r

def rU32 (r : Axl9pReader) : Nat × Axl9pReader := rUint 4 r

/-- `axl_9p_r_u64`: two halves, each read on its own. -/
def rU64 (r : Axl9pReader) : Nat × Axl9pReader :=
  let (lo, r) := rU32 r
  let (hi, r) := rU32 r
  (lo + 2 ^ 32 * hi, r)

theorem zero_not_mem_takeWhile (bytes : List UInt8) : 0 ∉ bytes.takeWhile (· ≠ 0) := by
  intro h
  simpa using List.mem_takeWhile_imp h

/-- The C string in a buffer: the bytes before the first NUL. -/
def cstring (bytes : List UInt8) : CString :=
  ⟨bytes.takeWhile (· ≠ 0), zero_not_mem_takeWhile bytes⟩

/-- `axl_9p_r_str` into a buffer of `cap` bytes: the string in the buffer and the
length on the wire. -/
def rStr (cap : Nat) (r : Axl9pReader) : (CString × Nat) × Axl9pReader :=
  let (n, r) := rU16 r
  if r.rest.length < n then ((cstring [], 0), { r with error := true })
  else ((cstring ((r.rest.take n).take (cap - 1)), n), { r with rest := r.rest.drop n })

/-! ## Round trips -/

@[simp] theorem le_length (k n : Nat) : (le k n).length = k := by
  induction k generalizing n with
  | zero => rfl
  | succ k ih => rw [le, List.length_cons, ih]

theorem leNat_le (k n : Nat) : leNat (le k n) = n % 256 ^ k := by
  induction k generalizing n with
  | zero => rw [Nat.pow_zero, Nat.mod_one]; rfl
  | succ k ih =>
    have hb : (UInt8.ofNat (n % 256)).toNat = n % 256 := by
      rw [UInt8.toNat_ofNat']
      omega
    rw [le, leNat, ih, hb, Nat.pow_succ', Nat.mod_mul]

theorem leNat_lt (bs : List UInt8) : leNat bs < 256 ^ bs.length := by
  induction bs with
  | nil => exact Nat.one_pos
  | cons b bs ih =>
    have hb := b.toNat_lt
    rw [leNat, List.length_cons, Nat.pow_succ]
    omega

theorem rUint_le (k : Nat) {n : Nat} (hn : n < 256 ^ k) (rest : List UInt8) (e : Bool) :
    rUint k ⟨le k n ++ rest, e⟩ = (n, ⟨rest, e⟩) := by
  have hlen : ¬ (le k n ++ rest).length < k := by simp
  have htake : (le k n ++ rest).take k = le k n := List.take_left' (le_length k n)
  have hdrop : (le k n ++ rest).drop k = rest := List.drop_left' (le_length k n)
  rw [rUint]
  simp only [if_neg hlen, htake, hdrop, leNat_le, Nat.mod_eq_of_lt hn]

theorem le_add (j k n : Nat) : le (j + k) n = le j n ++ le k (n / 256 ^ j) := by
  induction j generalizing n with
  | zero => simp [le]
  | succ j ih =>
    rw [show j + 1 + k = (j + k) + 1 by omega, le, le, ih, List.cons_append, Nat.div_div_eq_div_mul,
      Nat.pow_succ']

theorem le_mod (k n : Nat) : le k (n % 256 ^ k) = le k n := by
  induction k generalizing n with
  | zero => rfl
  | succ k ih =>
    have hlow : n % 256 ^ (k + 1) % 256 = n % 256 := by
      rw [Nat.pow_succ', Nat.mod_mul_right_mod]
    have hhigh : n % 256 ^ (k + 1) / 256 = n / 256 % 256 ^ k := by
      rw [Nat.pow_succ', Nat.mod_mul_right_div_self]
    rw [le, le, hlow, hhigh, ih]

theorem rU64_le {n : Nat} (hn : n < 2 ^ 64) (rest : List UInt8) (e : Bool) :
    rU64 ⟨le 8 n ++ rest, e⟩ = (n, ⟨rest, e⟩) := by
  have hlow : n % 256 ^ 4 < 256 ^ 4 := Nat.mod_lt _ (by decide)
  have hhigh : n / 256 ^ 4 < 256 ^ 4 := by omega
  rw [rU64, show le 8 n = le 4 n ++ le 4 (n / 256 ^ 4) from le_add 4 4 n, ← le_mod 4 n,
    List.append_assoc]
  simp only [rU32]
  rw [rUint_le 4 hlow]
  simp only []
  rw [rUint_le 4 hhigh]
  simp only [Prod.mk.injEq, and_true]
  omega

theorem rUint_lt (k : Nat) (r : Axl9pReader) : (rUint k r).1 < 256 ^ k := by
  rw [rUint]
  split
  · exact Nat.pos_of_ne_zero (by simp)
  · next h =>
    have hlen : (r.rest.take k).length = k := by
      rw [List.length_take]
      omega
    have := leNat_lt (r.rest.take k)
    rwa [hlen] at this

theorem cstring_of_noNul {s : List UInt8} (h : 0 ∉ s) : (cstring s).bytes = s := by
  rw [cstring, List.takeWhile_eq_self_iff]
  intro b hb
  have hne : b ≠ 0 := fun hz => h (hz ▸ hb)
  simpa using hne

/-- A string that fits the buffer is read back. -/
theorem rStr_wStr {s : List UInt8} {cap : Nat} (hs : 0 ∉ s) (hcap : s.length < cap)
    (hlen : s.length < 2 ^ 16) (rest : List UInt8) (e : Bool) :
    ∃ c, rStr cap ⟨wStr s ++ rest, e⟩ = ((c, s.length), ⟨rest, e⟩) ∧ c.bytes = s := by
  have htake : (s ++ rest).take s.length = s := List.take_left
  have hshort : s.take (cap - 1) = s := List.take_of_length_le (by omega)
  refine ⟨cstring s, ?_, cstring_of_noNul hs⟩
  have hcount : rU16 ⟨wStr s ++ rest, e⟩ = (s.length, ⟨s ++ rest, e⟩) := by
    rw [rU16, wStr, List.append_assoc]
    exact rUint_le 2 (by omega) _ _
  have hroom : ¬ (s ++ rest).length < s.length := by simp
  simp only [rStr, hcount, if_neg hroom, htake, hshort, List.drop_left]

end NineP

end AxlSdk
