import AxlSdk.Lib.Utf8

/-!
# UTF-16

- `encode cp` are the one or two code units of a code point.
- `Units cp us`: the same, read off the units.
-/

namespace AxlSdk

namespace Utf16

open Utf8 (Scalar)

/-- The code units of a code point. -/
def encode (cp : Nat) : List UInt16 :=
  if cp < 0x10000 then [UInt16.ofNat cp]
  else [UInt16.ofNat (0xD800 + (cp - 0x10000) / 1024), UInt16.ofNat (0xDC00 + (cp - 0x10000) % 1024)]

theorem encode_one {cp : Nat} (h : cp < 0x10000) : encode cp = [UInt16.ofNat cp] := if_pos h

theorem encode_pair {cp : Nat} (h : 0x10000 ≤ cp) : encode cp =
    [UInt16.ofNat (0xD800 + (cp - 0x10000) / 1024),
      UInt16.ofNat (0xDC00 + (cp - 0x10000) % 1024)] :=
  if_neg (Nat.not_lt.mpr h)

/-- The first unit of a pair. -/
def High (u : UInt16) : Prop := 0xD800 ≤ u.toNat ∧ u.toNat ≤ 0xDBFF

/-- The second unit of a pair. -/
def Low (u : UInt16) : Prop := 0xDC00 ≤ u.toNat ∧ u.toNat ≤ 0xDFFF

theorem toNat_ofNat_of_lt {n : Nat} (h : n < 65536) : (UInt16.ofNat n).toNat = n := by
  simp only [UInt16.toNat_ofNat']
  omega

/-- The units of a scalar value: one that is no surrogate, or a pair. -/
inductive Units : Nat → List UInt16 → Prop
  | one {u : UInt16} (h : ¬ High u) (l : ¬ Low u) : Units u.toNat [u]
  | pair {u v : UInt16} (h : High u) (l : Low v) :
      Units (0x10000 + (u.toNat - 0xD800) * 1024 + (v.toNat - 0xDC00)) [u, v]

theorem encode_units {cp : Nat} (h : Scalar cp) : Units cp (encode cp) := by
  unfold Scalar at h
  unfold encode
  split
  · have hn : (UInt16.ofNat cp).toNat = cp := toNat_ofNat_of_lt (by omega)
    have := @Units.one (UInt16.ofNat cp) (by unfold High; rw [hn]; omega)
      (by unfold Low; rw [hn]; omega)
    rwa [hn] at this
  · have hu := toNat_ofNat_of_lt (show 0xD800 + (cp - 0x10000) / 1024 < 65536 by omega)
    have hv := toNat_ofNat_of_lt (show 0xDC00 + (cp - 0x10000) % 1024 < 65536 by omega)
    have := @Units.pair (UInt16.ofNat (0xD800 + (cp - 0x10000) / 1024))
      (UInt16.ofNat (0xDC00 + (cp - 0x10000) % 1024)) (by unfold High; rw [hu]; omega)
      (by unfold Low; rw [hv]; omega)
    rw [hu, hv] at this
    rwa [show 0x10000 + (0xD800 + (cp - 0x10000) / 1024 - 0xD800) * 1024 +
      (0xDC00 + (cp - 0x10000) % 1024 - 0xDC00) = cp by omega] at this

/-- Units that stand for a sequence of scalar values. -/
def WellFormed (us : List UInt16) : Prop :=
  ∃ cps : List Nat, (∀ cp ∈ cps, Scalar cp) ∧ us = cps.flatMap encode

end Utf16

end AxlSdk
