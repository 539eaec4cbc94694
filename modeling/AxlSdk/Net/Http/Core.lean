import Mathlib

/-!
# HTTP message parsing (`src/net/axl-http-core.c`)

The request line shared by the server and the client. Strings are the byte
lists of C strings; `cString` is what survives of a byte range that
`axl_strndup` copies.

`RequestLine` carries what the parser guarantees of the parts: the method holds
no space and the path neither a space nor a `?`. The response cache depends on
it, since its keys join the parts with exactly these bytes.
-/

namespace AxlSdk

namespace Http

/-- The bytes the parser splits on. -/
def space : UInt8 := 0x20

def questionMark : UInt8 := 0x3f

/-- The bytes of a string literal. -/
def ascii (s : String) : List UInt8 := s.toList.map fun c => UInt8.ofNat c.toNat

/-- `%llu` -/
def decimal (n : Nat) : List UInt8 := (Nat.toDigits 10 n).map fun c => UInt8.ofNat c.toNat

/-- `axl_toupper` on one byte. -/
def toUpper (b : UInt8) : UInt8 := if 0x61 ≤ b && b ≤ 0x7a then b - 0x20 else b

/-- `axl_tolower` on one byte. -/
def toLower (b : UInt8) : UInt8 := if 0x41 ≤ b && b ≤ 0x5a then b + 0x20 else b

/-- `axl_strcasecmp(a, b) == 0`. -/
def equalsIgnoreCase (a b : List UInt8) : Bool := a.map toLower == b.map toLower

theorem toUpper_ne_space {b : UInt8} (h : b ≠ space) : toUpper b ≠ space := by
  unfold toUpper
  split
  · rename_i hb
    simp only [space, Bool.and_eq_true, decide_eq_true_eq, UInt8.le_iff_toNat_le] at hb ⊢
    intro h'
    have hsub : (b - 0x20).toNat = b.toNat - 0x20 := UInt8.toNat_sub_of_le _ _ (by
      rw [UInt8.le_iff_toNat_le]
      exact Nat.le_trans (by decide) hb.1)
    rw [h'] at hsub
    simp only [UInt8.reduceToNat] at hb hsub
    omega
  · exact h

/-- Method, path and query string of a request line. -/
structure RequestLine where
  method : List UInt8
  path : List UInt8
  query : Option (List UInt8)
  space_not_mem_method : space ∉ method
  space_not_mem_path : space ∉ path
  questionMark_not_mem_path : questionMark ∉ path

end Http

end AxlSdk
