import AxlSdk.Lib.Checked
import AxlSdk.Lib.Reciprocal
import AxlSdk.Lib.Tent
import AxlSdk.Gfx.Compositor.Scene

/-!
# Blurring a buffer (`axl-gfx-effects.c`)

The rows are blurred by two running sums, the columns by a transpose, the rows again and a
transpose back. An index out of range and a signed overflow have no result here.

- `boxboxRow`, `boxbox`: a row and the pass over all rows, for a `Kernel` of number type and
  steps; `scalar`, `sse41` and `neon` are the three kernels of the source.
- `blurTranspose`, `axlGfxBufferBlur`: the transpose in tiles, and the call.
- `blurred`: the tent mean along the rows and then along the columns, rounded half up.
- `Kernel.Exact`: a kernel that loses nothing; each of the three is one.
- `buffer_blur_exact`: the call computes `blurred`, whichever kernel it takes.
-/

namespace AxlSdk

namespace Blur

open Checked Tent Reciprocal

open Gfx (AxlGfxPixel)

/-! ## Numbers and pixels -/

def int32 (n : Int) : Option Int := if -2 ^ 31 ≤ n ∧ n < 2 ^ 31 then some n else none

def int64 (n : Int) : Option Int := if -2 ^ 63 ≤ n ∧ n < 2 ^ 63 then some n else none

/-- The four channels: blue, green, red and alpha. -/
abbrev Lanes (α : Type) : Type := Fin 4 → α

def lanes (p : AxlGfxPixel) : Lanes UInt8 := ![p.blue, p.green, p.red, p.alpha]

def pixel (v : Lanes UInt8) : AxlGfxPixel := ⟨v 0, v 1, v 2, v 3⟩

/-- A step on each of the channels. -/
def each {α : Type} (f : Fin 4 → Option α) : Option (Lanes α) := do
  let b ← f 0
  let g ← f 1
  let r ← f 2
  let a ← f 3
  some ![b, g, r, a]

/-- `blur_clampi` -/
def blurClampi (v hi : Int) : Int := if v < 0 then 0 else if v > hi then hi else v

/-! ## Reciprocals -/

def BLUR_RECIP_SHIFT : Nat := 55

/-- `BlurRecip`; with `mul = 0` it is divided. -/
structure BlurRecip where
  mul : Nat
  div : Nat

/-- `blur_recip_make` -/
def blurRecipMake (div nmax : Nat) : BlurRecip :=
  let one := 2 ^ BLUR_RECIP_SHIFT
  let m := one / div + 1
  let e := m * div - one
  if nmax ≤ (one - 1) / e ∧ nmax ≤ (2 ^ 64 - 1) / m then ⟨m, div⟩ else ⟨0, div⟩

/-- `blur_round` -/
def blurRound (n : Int) (rp : BlurRecip) : UInt8 :=
  if rp.mul ≠ 0 then
    UInt8.ofNat ((n % 2 ^ 64).toNat * rp.mul % 2 ^ 64 / 2 ^ BLUR_RECIP_SHIFT)
  else UInt8.ofInt (n.tdiv rp.div)

/-- `blur_recip32` -/
def blurRecip32 (div nmax : Nat) : UInt32 :=
  if nmax > 2 ^ 31 - 1 then 0
  else
    let m := 2 ^ 32 / div + 1
    let e := m * div - 2 ^ 32
    if m > 2 ^ 32 - 1 ∨ nmax > (2 ^ 32 - 1) / e then 0 else UInt32.ofNat m

/-! ## Kernels -/

/-- What the row passes differ in: the numbers of a running sum, and the steps on them. `i1`
holds words of 32 bits. -/
structure Kernel (α : Type) where
  zero : α
  -- box1: a sample enters, and a sample enters while another leaves
  add : α → UInt8 → Option α
  slide : α → UInt8 → UInt8 → Option α
  put : α → Option UInt32
  -- box2: the same for the words of `i1`
  addSum : α → UInt32 → Option α
  slideSum : α → UInt32 → UInt32 → Option α
  round : Lanes α → Option (Lanes UInt8)

/-- `(r + 1) * (r + 1)` -/
def divisor (r : Nat) : Nat := (r + 1) * (r + 1)

/-- The largest number that is divided. -/
def dividendMax (r : Nat) : Nat := 255 * divisor r + divisor r / 2

/-- The arithmetic of `blur_pass_boxbox`: `int64_t` sums, `int32_t` words. -/
def scalar (r : Nat) : Kernel Int where
  zero := 0
  add c s := int64 (c + s.toNat)
  slide c a e := int64 (c + (a.toNat - e.toNat))
  put c := (int32 c).map UInt32.ofInt
  addSum b v := int64 (b + v.toInt32.toInt)
  slideSum b a e := do
    let d ← int32 (a.toInt32.toInt - e.toInt32.toInt)
    int64 (b + d)
  round b := each fun c => do
    let n ← int64 (b c + (divisor r / 2 : Nat))
    some (blurRound n (blurRecipMake (divisor r) (dividendMax r)))

/-- The arithmetic of both vector passes: lanes modulo `2 ^ 32`. `quotient` divides the four of
them and packs them to a pixel. -/
def vector (r : Nat) (quotient : Lanes UInt32 → Lanes UInt8) : Kernel UInt32 where
  zero := 0
  add c s := some (c + s.toUInt32)
  slide c a e := some (c + a.toUInt32 - e.toUInt32)
  put c := some c
  addSum b v := some (b + v)
  slideSum b a e := some (b + a - e)
  round b := some (quotient fun c => b c + UInt32.ofNat (divisor r / 2))

/-- `_mm_mul_epu32`: the products of the even lanes, in two lanes each. -/
def mulEpu32 (a b : Lanes UInt32) : Lanes UInt32 :=
  let p := (a 0).toUInt64 * (b 0).toUInt64
  let q := (a 2).toUInt64 * (b 2).toUInt64
  ![p.toUInt32, (p >>> 32).toUInt32, q.toUInt32, (q >>> 32).toUInt32]

/-- `_mm_srli_si128(a, 4)` -/
def srliSi128 (a : Lanes UInt32) : Lanes UInt32 := ![a 1, a 2, a 3, 0]

/-- `_mm_shuffle_ps`, and with `a = b` `_mm_shuffle_epi32`. -/
def shufflePs (a b : Lanes UInt32) (i j k l : Fin 4) : Lanes UInt32 := ![a i, a j, b k, b l]

/-- A lane of `_mm_packus_epi32`. -/
def packusEpi32 (q : UInt32) : UInt16 :=
  UInt16.ofNat (max 0 (min q.toInt32.toInt 65535)).toNat

/-- A lane of `_mm_packus_epi16`. -/
def packusEpi16 (q : UInt16) : UInt8 := UInt8.ofNat (max 0 (min q.toInt16.toInt 255)).toNat

def sse41Quotient (recip : UInt32) (n : Lanes UInt32) : Lanes UInt8 :=
  let vmul : Lanes UInt32 := fun _ => recip
  let p02 := mulEpu32 n vmul
  let p13 := mulEpu32 (srliSi128 n) vmul
  let q := shufflePs p02 p13 1 3 1 3
  let q := shufflePs q q 0 2 1 3
  fun c => packusEpi16 (packusEpi32 (q c))

/-- `vmull_u32`, `vshrn_n_u64(_, 32)`, `vmovn_u32` and `vmovn_u16` -/
def neonQuotient (recip : UInt32) (n : Lanes UInt32) : Lanes UInt8 := fun c =>
  (((n c).toUInt64 * recip.toUInt64) >>> 32).toUInt32.toUInt16.toUInt8

def sse41 (r : Nat) (recip : UInt32) : Kernel UInt32 := vector r (sse41Quotient recip)

def neon (r : Nat) (recip : UInt32) : Kernel UInt32 := vector r (neonQuotient recip)

/-! ## The pass over the rows -/

/-- `src[l * w + i]`, where `i` is an index into the row. -/
def rowAt (src : Array AxlGfxPixel) (w l : Nat) (i : Int) : Option AxlGfxPixel :=
  if 0 ≤ i ∧ i < w then src[l * w + i.toNat]? else none

section Pass

variable {α : Type} (K : Kernel α) (w r : Nat)

/-- The window at `t = -r`. -/
def box1Seed (s0 : Int → Option AxlGfxPixel) : Option (Lanes α) :=
  loop (r + 1) (fun j acc => do
    let s ← s0 (blurClampi (j - r) (w - 1))
    each fun c => K.add (acc c) (lanes s c)) fun _ => K.zero

/-- The first box, with `r` entries before the row: the entry `p` is the window at `p - r`. -/
def box1 (s0 : Int → Option AxlGfxPixel) (acc : Lanes α) (i1 : Array (Lanes UInt32)) :
    Option (Lanes α × Array (Lanes UInt32)) :=
  let nI1 := (w + r) % 2 ^ 32
  loop nI1 (fun p (acc, i1) => do
    let v ← each fun c => K.put (acc c)
    let i1 ← store i1 p v
    if p + 1 < nI1 then
      let a ← s0 (blurClampi (p + 1) (w - 1))
      let e ← s0 (blurClampi (p - r) (w - 1))
      let acc ← each fun c => K.slide (acc c) (lanes a c) (lanes e c)
      some (acc, i1)
    else some (acc, i1)) (acc, i1)

/-- The second box at `x = 0`. -/
def box2Seed (i1 : Array (Lanes UInt32)) : Option (Lanes α) :=
  loop (r + 1) (fun p sum => do
    let v ← i1[p]?
    each fun c => K.addSum (sum c) (v c)) fun _ => K.zero

/-- The second box, rounded into the row `l` of `dst`. -/
def box2 (l : Nat) (i1 : Array (Lanes UInt32)) (sum : Lanes α) (dst : Array AxlGfxPixel) :
    Option (Lanes α × Array AxlGfxPixel) :=
  loop w (fun x (sum, dst) => do
    let d ← K.round sum
    let dst ← store dst (l * w + x) (pixel d)
    if x + 1 < w then
      let a ← i1[(x + 1 + r) % 2 ^ 32]?
      let e ← i1[x]?
      let sum ← each fun c => K.slideSum (sum c) (a c) (e c)
      some (sum, dst)
    else some (sum, dst)) (sum, dst)

/-- A turn of the loop over the rows. -/
def boxboxRow (src : Array AxlGfxPixel) (l : Nat) (dst : Array AxlGfxPixel)
    (i1 : Array (Lanes UInt32)) : Option (Array AxlGfxPixel × Array (Lanes UInt32)) := do
  let acc ← box1Seed K w r (rowAt src w l)
  let (_, i1) ← box1 K w r (rowAt src w l) acc i1
  let sum ← box2Seed K r i1
  let (_, dst) ← box2 K w r l i1 sum dst
  some (dst, i1)

/-- The row passes. -/
def boxbox (src dst : Array AxlGfxPixel) (h : Nat) (i1 : Array (Lanes UInt32)) :
    Option (Array AxlGfxPixel × Array (Lanes UInt32)) :=
  loop h (fun l (dst, i1) => boxboxRow K w r src l dst i1) (dst, i1)

end Pass

/-! ## The call -/

def BLUR_TILE : Nat := 32

/-- `blur_transpose` -/
def blurTranspose (src dst : Array AxlGfxPixel) (w h : Nat) : Option (Array AxlGfxPixel) :=
  loopFrom 0 h BLUR_TILE (fun y0 dst =>
    let ymax := if h - y0 < BLUR_TILE then h else y0 + BLUR_TILE
    loopFrom 0 w BLUR_TILE (fun x0 dst =>
      let xmax := if w - x0 < BLUR_TILE then w else x0 + BLUR_TILE
      loopFrom y0 ymax 1 (fun y dst =>
        loopFrom x0 xmax 1 (fun x dst => do
          let p ← rowAt src w y x
          store dst (x * h + y) p) dst) dst) dst) dst

/-- `AxlGfxBuffer`, the pixels by rows. -/
structure AxlGfxBuffer where
  w : Nat
  h : Nat
  pixels : Array AxlGfxPixel
  size_eq : pixels.size = w * h

inductive Status where
  | ok
  | err
  deriving DecidableEq, Repr

/-- The vector unit that `axl_cpu_features` finds. -/
inductive Simd where
  | sse41
  | neon
  deriving DecidableEq, Repr

/-- What the call finds: the vector unit, and the memory that `axl_malloc` grants with its
contents. -/
structure Machine where
  simd : Option Simd
  tmp : Option (Nat → AxlGfxPixel)
  i1 : Option (Nat → Lanes UInt32)

/-- `n` cells of fresh memory. -/
def granted {α : Type} (n : Nat) (contents : Nat → α) : Array α :=
  Array.ofFn fun i : Fin n => contents i

/-- Rows, transpose, rows, transpose. -/
def passes {α : Type} (K : Kernel α) (px tmp : Array AxlGfxPixel) (i1 : Array (Lanes UInt32))
    (w h r : Nat) : Option (Array AxlGfxPixel) := do
  let (tmp, i1) ← boxbox K w r px tmp h i1
  let px ← blurTranspose tmp px w h
  let (tmp, _) ← boxbox K h r px tmp w i1
  blurTranspose tmp px h w

/-- The vector unit is used when the radius has a 32-bit reciprocal. -/
def dispatch (simd : Option Simd) (px tmp : Array AxlGfxPixel) (i1 : Array (Lanes UInt32))
    (w h r : Nat) : Option (Array AxlGfxPixel) :=
  let m32 := blurRecip32 (divisor r) (dividendMax r)
  if m32 ≠ 0 then
    match simd with
    | some .sse41 => passes (sse41 r m32) px tmp i1 w h r
    | some .neon => passes (neon r m32) px tmp i1 w h r
    | none => passes (scalar r) px tmp i1 w h r
  else passes (scalar r) px tmp i1 w h r

/-- `axl_gfx_buffer_blur`; the result has the pixels of the buffer after the call. -/
def axlGfxBufferBlur (m : Machine) (buf : AxlGfxBuffer) (radius : Nat) :
    Option (Status × Array AxlGfxPixel) :=
  let w := buf.w
  let h := buf.h
  if radius = 0 then some (.ok, buf.pixels)
  else if w = 0 ∨ h = 0 then some (.ok, buf.pixels)
  else
    let maxDim := if w > h then w else h
    let r := if radius > maxDim then maxDim else radius
    match m.tmp, m.i1 with
    | some tmp, some i1 => do
      let px ← dispatch m.simd buf.pixels (granted (w * h) tmp) (granted (maxDim + r) i1) w h r
      some (.ok, px)
    | _, _ => some (.err, buf.pixels)

/-! ## What it is for -/

/-- Rows of pixels. -/
abbrev Image : Type := Nat → Nat → AxlGfxPixel

/-- The index into a line of `n` samples, with the samples at the ends repeated. -/
def edge (n : Nat) (i : Int) : Nat := (max 0 (min i (n - 1))).toNat

/-- The mean of the samples around `x`, with the weights 1, 2, …, r + 1, …, 2, 1. -/
def tentMean (r : Nat) (f : Int → ℚ) (x : Int) : ℚ :=
  tent (r + 1) f (x - r) / ∑ k ∈ Finset.range (2 * (r + 1) - 1), (weight (r + 1) k : ℚ)

/-- The mean rounded half up. -/
def smooth (r : Nat) (f : Int → UInt8) (x : Int) : UInt8 :=
  UInt8.ofNat (round (tentMean r (fun i => ((f i).toNat : ℚ)) x)).toNat

def rows (r w : Nat) (img : Image) : Image := fun y x =>
  pixel fun c => smooth r (fun i => lanes (img y (edge w i)) c) x

def columns (r h : Nat) (img : Image) : Image := fun y x =>
  pixel fun c => smooth r (fun i => lanes (img (edge h i) x) c) y

def blurred (r w h : Nat) (img : Image) : Image := columns r h (rows r w img)

/-- The pixels of `w` columns and `h` rows. -/
def Image.pixels (img : Image) (w h : Nat) : Array AxlGfxPixel :=
  Array.ofFn fun i : Fin (w * h) => img (i / w) (i % w)

/-! ## Pixels and rows -/

theorem pixel_lanes (p : AxlGfxPixel) : pixel (lanes p) = p := rfl

theorem each_eq {α : Type} {f : Fin 4 → Option α} {v : Lanes α} (h : ∀ c, f c = some (v c)) :
    each f = some v := by
  have hv : v = ![v 0, v 1, v 2, v 3] := by
    funext c
    fin_cases c <;> rfl
  simp only [each, h]
  exact congrArg some hv.symm

variable {n : Nat}

theorem edge_lt (hn : 0 < n) (i : Int) : edge n i < n := by
  unfold edge
  omega

theorem edge_of_lt {i : Nat} (h : i < n) : edge n i = i := by
  unfold edge
  omega

theorem blurClampi_eq (hn : 0 < n) (i : Int) : blurClampi i (n - 1) = edge n i := by
  unfold blurClampi edge
  split_ifs <;> omega

/-- The array has the pixels of the image. -/
def Holds (a : Array AxlGfxPixel) (w h : Nat) (img : Image) : Prop :=
  a.size = w * h ∧ ∀ y < h, ∀ x < w, a[y * w + x]? = some (img y x)

theorem cell_lt {w h y x : Nat} (hy : y < h) (hx : x < w) : y * w + x < w * h := by
  have : (y + 1) * w ≤ h * w := Nat.mul_le_mul_right w hy
  rw [Nat.mul_comm w h]
  rw [Nat.add_mul, Nat.one_mul] at this
  omega

theorem holds_pixels (img : Image) (w h : Nat) : Holds (img.pixels w h) w h img := by
  refine ⟨Array.size_ofFn, fun y hy x hx => ?_⟩
  have hlt := cell_lt hy hx
  have hdiv : (y * w + x) / w = y := by
    rw [Nat.add_comm, Nat.add_mul_div_right _ _ (by omega), Nat.div_eq_of_lt hx, Nat.zero_add]
  have hmod : (y * w + x) % w = x := by
    rw [Nat.add_comm, Nat.add_mul_mod_self_right, Nat.mod_eq_of_lt hx]
  rw [Image.pixels, Array.getElem?_ofFn, dif_pos hlt, hdiv, hmod]

/-- An image has one array of pixels. -/
theorem Holds.eq_pixels {a : Array AxlGfxPixel} {w h : Nat} {img : Image} (ha : Holds a w h img) :
    a = img.pixels w h := by
  refine Array.ext (by rw [ha.1, (holds_pixels img w h).1]) fun i hi hi' => ?_
  have hw : 0 < w := Nat.pos_of_mul_pos_right (ha.1 ▸ Nat.zero_lt_of_lt hi)
  have hy : i / w < h := (Nat.div_lt_iff_lt_mul hw).mpr (by rw [Nat.mul_comm, ← ha.1]; exact hi)
  have hx := Nat.mod_lt i hw
  have hij : i / w * w + i % w = i := by rw [Nat.mul_comm]; exact Nat.div_add_mod i w
  have h1 := ha.2 _ hy _ hx
  have h2 := (holds_pixels img w h).2 _ hy _ hx
  rw [hij] at h1 h2
  rw [← Option.some_inj, ← Array.getElem?_eq_getElem hi, ← Array.getElem?_eq_getElem hi', h1, h2]

/-- An index into a row that is clamped is in the row. -/
theorem rowAt_eq {src : Array AxlGfxPixel} {w h l : Nat} {img : Image} (hsrc : Holds src w h img)
    (hl : l < h) (hw : 0 < w) (i : Int) :
    rowAt src w l (blurClampi i (w - 1)) = some (img l (edge w i)) := by
  have hlt := edge_lt hw i
  rw [blurClampi_eq hw, rowAt, if_pos (by omega), Int.toNat_natCast]
  exact hsrc.2 l hl _ hlt

/-! ## A pass with an exact kernel -/

theorem divisor_pos (r : Nat) : 0 < divisor r := Nat.mul_pos r.succ_pos r.succ_pos

/-- The largest sum of the first box. -/
def boxMax (r : Nat) : Nat := 255 * (r + 1)

/-- The kernel computes with natural numbers as long as they are sums of a blur of radius `r`;
`rep` says how it writes them. -/
structure Kernel.Exact {α : Type} (K : Kernel α) (r : Nat) (rep : Nat → α) : Prop where
  zero : K.zero = rep 0
  add : ∀ n s, n + s.toNat ≤ boxMax r → K.add (rep n) s = some (rep (n + s.toNat))
  slide : ∀ n n' a e, n ≤ boxMax r → n' ≤ boxMax r → n' + e.toNat = n + a.toNat →
    K.slide (rep n) a e = some (rep n')
  put : ∀ n ≤ boxMax r, K.put (rep n) = some (UInt32.ofNat n)
  addSum : ∀ n v, v ≤ boxMax r → n + v ≤ 255 * divisor r →
    K.addSum (rep n) (UInt32.ofNat v) = some (rep (n + v))
  slideSum : ∀ n n' a e, a ≤ boxMax r → e ≤ boxMax r → n ≤ 255 * divisor r →
    n' ≤ 255 * divisor r → n' + e = n + a →
    K.slideSum (rep n) (UInt32.ofNat a) (UInt32.ofNat e) = some (rep n')
  round : ∀ n : Lanes Nat, (∀ c, n c ≤ 255 * divisor r) →
    K.round (fun c => rep (n c)) =
      some fun c => UInt8.ofNat ((n c + divisor r / 2) / divisor r)

/-- The samples of a channel of a row. -/
def sample (w : Nat) (row : Nat → AxlGfxPixel) (c : Fin 4) (i : Int) : Nat :=
  (lanes (row (edge w i)) c).toNat

theorem sample_le (w : Nat) (row : Nat → AxlGfxPixel) (c : Fin 4) (i : Int) :
    sample w row c i ≤ 255 := Nat.le_of_lt_succ (UInt8.toNat_lt _)

/-- An entry of `i1`: the window that starts `r` samples before. -/
def window (r w : Nat) (row : Nat → AxlGfxPixel) (c : Fin 4) (p : Int) : Nat :=
  box (r + 1) (sample w row c) (p + -r)

theorem window_le (r w : Nat) (row : Nat → AxlGfxPixel) (c : Fin 4) (p : Int) :
    window r w row c p ≤ boxMax r := box_le (sample_le w row c) _

/-- A sum of the second box. -/
def boxSum (r w : Nat) (row : Nat → AxlGfxPixel) (c : Fin 4) (x : Int) : Nat :=
  box (r + 1) (window r w row c) x

theorem boxSum_le (r w : Nat) (row : Nat → AxlGfxPixel) (c : Fin 4) (x : Int) :
    boxSum r w row c x ≤ 255 * divisor r :=
  calc boxSum r w row c x ≤ boxMax r * (r + 1) := box_le (window_le r w row c) x
    _ = 255 * divisor r := Nat.mul_assoc _ _ _

theorem boxSum_eq_tent (r w : Nat) (row : Nat → AxlGfxPixel) (c : Fin 4) (x : Int) :
    boxSum r w row c x = tent (r + 1) (sample w row c) (x - r) := by
  rw [boxSum, ← box_box, Int.sub_eq_add_neg]
  exact box_shift (r + 1) (box (r + 1) (sample w row c)) (-r) x

/-- The sum of the second box, rounded, is the tent mean rounded half up. -/
theorem smooth_eq (r w : Nat) (row : Nat → AxlGfxPixel) (c : Fin 4) (x : Int) :
    smooth r (fun i => lanes (row (edge w i)) c) x =
      UInt8.ofNat ((boxSum r w row c x + divisor r / 2) / divisor r) := by
  have hweights : (∑ k ∈ Finset.range (2 * (r + 1) - 1), (weight (r + 1) k : ℚ)) =
      (divisor r : ℕ) := by
    rw [← Nat.cast_sum, sum_weight, divisor]
  have htent : tent (r + 1) (fun i => ((lanes (row (edge w i)) c).toNat : ℚ)) (x - r) =
      (boxSum r w row c x : ℕ) := by
    rw [boxSum_eq_tent]
    simp only [tent, sample, nsmul_eq_mul, Nat.cast_sum, Nat.cast_mul]
    rfl
  rw [smooth, tentMean, hweights, htent, half_up _ (divisor_pos r),
    Int.toNat_natCast]

section Exact

variable {α : Type} {K : Kernel α} {rep : Nat → α} {w r : Nat}

theorem box1Seed_ends (hK : K.Exact r rep) (row : Nat → AxlGfxPixel)
    {s0 : Int → Option AxlGfxPixel} (hs : ∀ i, s0 (blurClampi i (w - 1)) = some (row (edge w i))) :
    Ends (box1Seed K w r s0) fun acc => acc = fun c => rep (window r w row c 0) := by
  refine (loop_ends (fun j acc => acc = fun c => rep (box j (sample w row c) (-r))) (r + 1)
    ?_ fun j hj acc hacc => ?_).mono fun acc hacc => ?_
  · simp only [box, Finset.range_zero, Finset.sum_empty, hK.zero]
  · subst hacc
    refine .bind_eq (hs _) (.of_eq (each_eq fun c => ?_) rfl)
    have hnext := box_add j (sample w row c) (-r)
    rw [hK.add, hnext, show (-r + j : Int) = j - r by omega, sample]
    have hle := box_le (n := j + 1) (sample_le w row c) (-r)
    rw [hnext, show (-r + j : Int) = j - r by omega, sample] at hle
    exact hle.trans (Nat.mul_le_mul_left _ (by omega))
  · simp only [hacc, window, Int.zero_add]

/-- What `i1` holds for a row. -/
def Filled (r w : Nat) (row : Nat → AxlGfxPixel) (n : Nat) (i1 : Array (Lanes UInt32)) : Prop :=
  ∀ p < n, i1[p]? = some fun c => UInt32.ofNat (window r w row c p)

variable {i1 : Array (Lanes UInt32)}

theorem box1_ends (hK : K.Exact r rep) (row : Nat → AxlGfxPixel) (hw : w + r < 2 ^ 32)
    {s0 : Int → Option AxlGfxPixel} (hs : ∀ i, s0 (blurClampi i (w - 1)) = some (row (edge w i)))
    (hi1 : w + r ≤ i1.size) :
    Ends (box1 K w r s0 (fun c => rep (window r w row c 0)) i1) fun t =>
      t.2.size = i1.size ∧ Filled r w row (w + r) t.2 := by
  rw [box1, Nat.mod_eq_of_lt hw]
  refine (loop_ends (fun p t => (p < w + r → t.1 = fun c => rep (window r w row c p)) ∧
    t.2.size = i1.size ∧ Filled r w row p t.2) (w + r) ⟨fun _ => rfl, rfl, fun _ h => by omega⟩
    fun p hp t ht => ?_).mono fun t ht => ht.2
  obtain ⟨acc, cells⟩ := t
  obtain ⟨hacc, hsize, hfilled⟩ := ht
  dsimp only at hacc hsize hfilled
  rw [hacc hp]
  refine .bind_eq (each_eq fun c => hK.put _ (window_le r w row c p)) ?_
  refine (store_ends (by omega) _).bind fun cells' ⟨hsize', hnew, hold⟩ => ?_
  have hfilled' : Filled r w row (p + 1) cells' := fun q hq => by
    rcases Nat.lt_succ_iff_lt_or_eq.mp hq with hlt | rfl
    · rw [hold q (by omega), hfilled q hlt]
    · exact hnew
  split_ifs with hnext
  · refine .bind_eq (hs _) (.bind_eq (hs _) ?_)
    refine Ends.bind_eq (a := fun c => rep (window r w row c ↑(p + 1))) (each_eq fun c => ?_) ?_
    · apply hK.slide _ _ _ _ (window_le r w row c _) (window_le r w row c _)
      -- the window slides from `p - r` to `p + 1 - r`
      have h := box_succ (r + 1) (sample w row c) (p + -r)
      rw [show (p : Int) + -r + 1 = ↑(p + 1) + -r by omega,
        show (p : Int) + -r + ↑(r + 1) = p + 1 by omega] at h
      exact h
    · exact .intro ⟨fun _ => rfl, hsize'.trans hsize, hfilled'⟩
  · exact .intro ⟨fun h => absurd h hnext, hsize'.trans hsize, hfilled'⟩

theorem box2Seed_ends (hK : K.Exact r rep) {row : Nat → AxlGfxPixel} (hw : 0 < w)
    (hi1 : Filled r w row (w + r) i1) :
    Ends (box2Seed K r i1) fun sum => sum = fun c => rep (boxSum r w row c 0) := by
  refine (loop_ends (fun p sum => sum = fun c => rep (box p (window r w row c) 0)) (r + 1)
    ?_ fun p hp sum hsum => ?_).mono fun sum hsum => hsum
  · simp only [box, Finset.range_zero, Finset.sum_empty, hK.zero]
  · subst hsum
    refine .bind_eq (hi1 p (by omega)) (.of_eq (each_eq fun c => ?_) rfl)
    have hnext := box_add p (window r w row c) 0
    rw [Int.zero_add] at hnext
    rw [hK.addSum _ _ (window_le r w row c p), hnext]
    rw [← hnext]
    calc box (p + 1) (window r w row c) 0 ≤ boxMax r * (p + 1) := box_le (window_le r w row c) 0
      _ ≤ boxMax r * (r + 1) := Nat.mul_le_mul_left _ (by omega)
      _ = 255 * divisor r := Nat.mul_assoc _ _ _

variable {dst : Array AxlGfxPixel}

/-- The row `l` is written, the rest of `dst` is not. -/
theorem box2_ends (hK : K.Exact r rep) {row : Nat → AxlGfxPixel} (hw : w + r < 2 ^ 32)
    (hi1 : Filled r w row (w + r) i1) (l : Nat) (hdst : l * w + w ≤ dst.size) :
    Ends (box2 K w r l i1 (fun c => rep (boxSum r w row c 0)) dst) fun t =>
      t.2.size = dst.size ∧
      (∀ x < w, t.2[l * w + x]? =
        some (pixel fun c => smooth r (fun i => lanes (row (edge w i)) c) x)) ∧
      ∀ j < l * w, t.2[j]? = dst[j]? := by
  refine (loop_ends (fun x t => (x < w → t.1 = fun c => rep (boxSum r w row c x)) ∧
    t.2.size = dst.size ∧
    (∀ q < x, t.2[l * w + q]? =
      some (pixel fun c => smooth r (fun i => lanes (row (edge w i)) c) q)) ∧
    ∀ j < l * w, t.2[j]? = dst[j]?) w ⟨fun _ => rfl, rfl, fun _ h => by omega, fun _ _ => rfl⟩
    fun x hx t ht => ?_).mono fun t ht => ht.2
  obtain ⟨sum, out⟩ := t
  obtain ⟨hsum, hsize, hdone, hold⟩ := ht
  dsimp only at hsum hsize hdone hold
  rw [hsum hx]
  refine .bind_eq (hK.round _ fun c => boxSum_le r w row c x) ?_
  refine (store_ends (by omega) _).bind fun out' ⟨hsize', hnew, hkeep⟩ => ?_
  have hdone' : ∀ q < x + 1, out'[l * w + q]? =
      some (pixel fun c => smooth r (fun i => lanes (row (edge w i)) c) q) := fun q hq => by
    rcases Nat.lt_succ_iff_lt_or_eq.mp hq with hlt | rfl
    · rw [hkeep _ (by omega), hdone q hlt]
    · simp only [smooth_eq]
      exact hnew
  have hold' : ∀ j < l * w, out'[j]? = dst[j]? := fun j hj => by
    rw [hkeep j (by omega), hold j hj]
  split_ifs with hnext
  · rw [Nat.mod_eq_of_lt (by omega)]
    refine .bind_eq (hi1 _ (by omega)) (.bind_eq (hi1 x (by omega)) ?_)
    refine Ends.bind_eq (a := fun c => rep (boxSum r w row c ↑(x + 1))) (each_eq fun c => ?_) ?_
    · apply hK.slideSum _ _ _ _ (window_le r w row c _) (window_le r w row c _)
        (boxSum_le r w row c _) (boxSum_le r w row c _)
      have h := box_succ (r + 1) (window r w row c) x
      rw [show (x : Int) + ↑(r + 1) = ↑(x + 1 + r) by omega] at h
      exact h
    · exact .intro ⟨fun _ => rfl, hsize'.trans hsize, hdone', hold'⟩
  · exact .intro ⟨fun h => absurd h hnext, hsize'.trans hsize, hdone', hold'⟩

theorem boxboxRow_ends (hK : K.Exact r rep) {src : Array AxlGfxPixel} {h l : Nat} {img : Image}
    (hsrc : Holds src w h img) (hl : l < h) (hw : 0 < w) (hwr : w + r < 2 ^ 32)
    (hdst : dst.size = w * h) (hi1 : w + r ≤ i1.size) :
    Ends (boxboxRow K w r src l dst i1) fun t =>
      t.1.size = dst.size ∧ t.2.size = i1.size ∧
      (∀ x < w, t.1[l * w + x]? = some (rows r w img l x)) ∧ ∀ j < l * w, t.1[j]? = dst[j]? := by
  have hs := rowAt_eq hsrc hl hw
  have hrow : l * w + w ≤ dst.size := by
    have := cell_lt hl (Nat.sub_lt hw Nat.one_pos)
    omega
  refine (box1Seed_ends hK (img l) hs).bind fun acc hacc => ?_
  subst hacc
  refine (box1_ends hK (img l) hwr hs hi1).bind fun ⟨_, cells⟩ ⟨hsize, hfilled⟩ => ?_
  refine (box2Seed_ends hK hw hfilled).bind fun sum hsum => ?_
  subst hsum
  refine (box2_ends hK hwr hfilled l hrow).bind fun ⟨_, out⟩ ⟨hout, hdone, hold⟩ => ?_
  exact .intro ⟨hout, hsize, hdone, hold⟩

/-- The pass blurs along the rows. -/
theorem boxbox_ends (hK : K.Exact r rep) {src : Array AxlGfxPixel} {h : Nat} {img : Image}
    (hsrc : Holds src w h img) (hw : 0 < w) (hwr : w + r < 2 ^ 32) (hdst : dst.size = w * h)
    (hi1 : w + r ≤ i1.size) :
    Ends (boxbox K w r src dst h i1) fun t =>
      Holds t.1 w h (rows r w img) ∧ t.2.size = i1.size := by
  refine (loop_ends (fun l t => t.1.size = w * h ∧ t.2.size = i1.size ∧
    ∀ y < l, ∀ x < w, t.1[y * w + x]? = some (rows r w img y x)) h
    ⟨hdst, rfl, fun _ h => by omega⟩ fun l hl t ht => ?_).mono fun t ht => ⟨⟨ht.1, ht.2.2⟩, ht.2.1⟩
  obtain ⟨out, cells⟩ := t
  obtain ⟨hout, hcells, hdone⟩ := ht
  refine (boxboxRow_ends hK hsrc hl hw hwr hout (hcells.symm ▸ hi1)).mono fun t ht => ?_
  obtain ⟨hsize, hsize', hrow, hold⟩ := ht
  refine ⟨hsize.trans hout, hsize'.trans hcells, fun y hy x hx => ?_⟩
  rcases Nat.lt_succ_iff_lt_or_eq.mp hy with hlt | rfl
  · have hbefore : y * w + x < l * w := by
      have := cell_lt hlt hx
      rwa [Nat.mul_comm w l] at this
    rw [hold _ hbefore, hdone y hlt x hx]
  · exact hrow x hx

end Exact

/-! ## The transpose -/

/-- The pixels of `img` that satisfy `P` are at their places in the transposed array. -/
def Moved (w h : Nat) (img : Image) (P : Nat → Nat → Prop) (dst : Array AxlGfxPixel) : Prop :=
  dst.size = w * h ∧ ∀ y < h, ∀ x < w, P y x → dst[x * h + y]? = some (img y x)

section Transpose

variable {w h : Nat} {img : Image}

variable {P : Nat → Nat → Prop} {dst : Array AxlGfxPixel}

theorem Moved.mono {P' : Nat → Nat → Prop} (hd : Moved w h img P dst)
    (hP : ∀ y < h, ∀ x < w, P' y x → P y x) : Moved w h img P' dst :=
  ⟨hd.1, fun y hy x hx hp => hd.2 y hy x hx (hP y hy x hx hp)⟩

/-- Two pixels have different places. -/
theorem cell_inj {y x y' x' : Nat} (hy : y < h) (hy' : y' < h)
    (heq : x * h + y = x' * h + y') : x = x' ∧ y = y' := by
  have hx : x = x' := by
    have := congrArg (· / h) heq
    simpa [Nat.add_comm _ y, Nat.add_comm _ y', Nat.add_mul_div_right _ _ (Nat.zero_lt_of_lt hy),
      Nat.div_eq_of_lt hy, Nat.div_eq_of_lt hy'] using this
  subst hx
  exact ⟨rfl, Nat.add_left_cancel heq⟩

variable {src : Array AxlGfxPixel}

/-- The innermost step moves one pixel. -/
theorem Moved.step (hsrc : Holds src w h img) (hd : Moved w h img P dst) {y x : Nat} (hy : y < h)
    (hx : x < w) :
    Ends (do let p ← rowAt src w y x; store dst (x * h + y) p)
      (Moved w h img fun y' x' => P y' x' ∨ (y' = y ∧ x' = x)) := by
  have hread : rowAt src w y x = some (img y x) := by
    rw [rowAt, if_pos (by omega), Int.toNat_natCast]
    exact hsrc.2 y hy x hx
  have hlt : x * h + y < dst.size := by
    rw [hd.1, Nat.mul_comm w h]
    exact cell_lt hx hy
  refine .bind_eq hread ((store_ends hlt _).mono fun dst' ⟨hsize, hnew, hold⟩ => ?_)
  refine ⟨hsize.trans hd.1, fun y' hy' x' hx' hp => ?_⟩
  by_cases hsame : x' * h + y' = x * h + y
  · obtain ⟨rfl, rfl⟩ := cell_inj hy' hy hsame
    exact hnew
  · rw [hold _ hsame]
    refine hd.2 y' hy' x' hx' (hp.resolve_right ?_)
    rintro ⟨rfl, rfl⟩
    exact hsame rfl

/-- The two inner loops move a tile. -/
theorem tile_ends (hsrc : Holds src w h img) (hd : Moved w h img P dst) (y0 x0 : Nat)
    {ymax xmax : Nat} (hymax : ymax ≤ h) (hxmax : xmax ≤ w) :
    Ends (loopFrom y0 ymax 1 (fun y dst => loopFrom x0 xmax 1 (fun x dst => do
        let p ← rowAt src w y x
        store dst (x * h + y) p) dst) dst)
      (Moved w h img fun y x => P y x ∨ (y0 ≤ y ∧ y < ymax ∧ x0 ≤ x ∧ x < xmax)) := by
  refine (loopFrom_ends (fun y1 => Moved w h img fun y x =>
    P y x ∨ (y0 ≤ y ∧ y < y1 ∧ x0 ≤ x ∧ x < xmax)) Nat.one_pos
    (hd.mono fun y _ x _ hp => hp.resolve_right (by omega)) fun y1 _ hy1 dst hd => ?_).mono
    fun dst' ⟨y1, hy1, hd⟩ => hd.mono fun y _ x _ hp => hp.imp_right (by omega)
  refine (loopFrom_ends (fun x1 => Moved w h img fun y x =>
    (P y x ∨ (y0 ≤ y ∧ y < y1 ∧ x0 ≤ x ∧ x < xmax)) ∨ (y = y1 ∧ x0 ≤ x ∧ x < x1)) Nat.one_pos
    (hd.mono fun y _ x _ hp => hp.resolve_right (by omega)) fun x1 _ hx1 dst hd => ?_).mono
    fun dst' ⟨x1, hx1, hd⟩ => hd.mono fun y _ x _ hp => by grind
  have hstep := hd.step hsrc (Nat.lt_of_lt_of_le hy1 hymax) (Nat.lt_of_lt_of_le hx1 hxmax)
  exact hstep.mono fun dst' hd' => hd'.mono fun y _ x _ hp => by grind

/-- The tiles cover the image. -/
theorem blurTranspose_ends (hsrc : Holds src w h img) (hdst : dst.size = w * h) :
    Ends (blurTranspose src dst w h) fun dst' => Holds dst' h w fun x y => img y x := by
  have htile : 0 < BLUR_TILE := by decide
  refine (loopFrom_ends (fun y0 => Moved w h img fun y _ => y < y0) htile
    ⟨hdst, fun _ _ _ _ hp => by omega⟩ fun y0 _ hy0 dst hd => ?_).mono
    fun dst' ⟨y0, hy0, hd⟩ => ⟨by rw [hd.1, Nat.mul_comm], fun x hx y hy =>
      hd.2 y hy x hx (Nat.lt_of_lt_of_le hy hy0)⟩
  generalize hymax : (if h - y0 < BLUR_TILE then h else y0 + BLUR_TILE) = ymax
  have hy : ymax ≤ h ∧ (h ≤ ymax ∨ y0 + BLUR_TILE ≤ ymax) := by split_ifs at hymax <;> omega
  -- a band of tiles
  refine (loopFrom_ends (fun x0 => Moved w h img fun y x => y < y0 ∨ (y < ymax ∧ x < x0)) htile
    (hd.mono fun y _ x _ hp => by omega) fun x0 _ hx0 dst hd => ?_).mono
    fun dst' ⟨x0, hx0, hd⟩ => hd.mono fun y hy x hx hp => by omega
  generalize hxmax : (if w - x0 < BLUR_TILE then w else x0 + BLUR_TILE) = xmax
  have hx : xmax ≤ w ∧ (w ≤ xmax ∨ x0 + BLUR_TILE ≤ xmax) := by split_ifs at hxmax <;> omega
  exact (tile_ends hsrc hd y0 x0 hy.1 hx.1).mono fun dst' hd' =>
    hd'.mono fun y _ x _ hp => by omega

end Transpose

/-! ## The kernels are exact -/

/-- What is rounded is at most 255. -/
theorem quotient_le {r : Nat} (hn : n ≤ 255 * divisor r) :
    n + divisor r / 2 ≤ dividendMax r ∧ (n + divisor r / 2) / divisor r ≤ 255 := by
  have hpos := divisor_pos r
  refine ⟨Nat.add_le_add_right hn _, Nat.le_of_lt_succ ((Nat.div_lt_iff_lt_mul hpos).mpr ?_)⟩
  omega

variable {div nmax : Nat}

theorem blurRecipMake_mul (h : (blurRecipMake div nmax).mul ≠ 0) :
    (blurRecipMake div nmax).mul = recip BLUR_RECIP_SHIFT div ∧
      nmax ≤ (2 ^ BLUR_RECIP_SHIFT - 1) / recipError BLUR_RECIP_SHIFT div ∧
      nmax ≤ (2 ^ 64 - 1) / recip BLUR_RECIP_SHIFT div := by
  simp only [blurRecipMake] at h ⊢
  split_ifs at h ⊢ with htest
  · exact ⟨rfl, htest⟩
  · exact absurd rfl h

theorem blurRecipMake_div (div nmax : Nat) : (blurRecipMake div nmax).div = div := by
  simp only [blurRecipMake]
  split_ifs <;> rfl

/-- The reciprocal of the scalar pass gives the quotient, without leaving 64 bits. -/
theorem blurRecipMake_exact (hdiv : 0 < div) (hn : n ≤ nmax) (h : (blurRecipMake div nmax).mul ≠ 0)
    :
    n * (blurRecipMake div nmax).mul < 2 ^ 64 ∧
      n * (blurRecipMake div nmax).mul / 2 ^ BLUR_RECIP_SHIFT = n / div := by
  obtain ⟨hm, herr, hover⟩ := blurRecipMake_mul h
  rw [hm]
  refine ⟨?_, mul_recip hdiv (mul_error_lt hdiv hn herr)⟩
  have hprod := (Nat.le_div_iff_mul_le (Nat.succ_pos _)).mp (hn.trans hover)
  exact Nat.lt_of_le_of_lt hprod (by decide)

theorem blurRecip32_ne_zero (h : blurRecip32 div nmax ≠ 0) :
    nmax < 2 ^ 31 ∧ (blurRecip32 div nmax).toNat = recip 32 div ∧
      nmax ≤ (2 ^ 32 - 1) / recipError 32 div := by
  simp only [blurRecip32] at h ⊢
  split_ifs at h ⊢ with hmax htest
  · exact absurd rfl h
  · exact absurd rfl h
  · obtain ⟨hm, herr⟩ := not_or.mp htest
    refine ⟨by omega, ?_, Nat.not_lt.mp herr⟩
    rw [UInt32.toNat_ofNat', Nat.mod_eq_of_lt (by omega)]
    rfl

/-- The reciprocal of the vector passes gives the quotient. -/
theorem blurRecip32_exact (hdiv : 0 < div) (hn : n ≤ nmax) (h : blurRecip32 div nmax ≠ 0) :
    n * (blurRecip32 div nmax).toNat / 2 ^ 32 = n / div := by
  obtain ⟨-, hm, herr⟩ := blurRecip32_ne_zero h
  rw [hm]
  exact mul_recip hdiv (mul_error_lt hdiv hn herr)

theorem blurRound_eq (hdiv : 0 < div) (hn : n ≤ nmax) (hmax : nmax < 2 ^ 63) :
    blurRound n (blurRecipMake div nmax) = UInt8.ofNat (n / div) := by
  unfold blurRound
  split_ifs with hmul
  · obtain ⟨hover, hquot⟩ := blurRecipMake_exact hdiv hn hmul
    have hcast : ((n : Int) % 2 ^ 64).toNat = n := by omega
    rw [hcast, Nat.mod_eq_of_lt hover, hquot]
  · rw [blurRecipMake_div, ← Int.ofNat_tdiv, UInt8.ofInt]
    apply UInt8.toNat.inj
    simp only [UInt8.toNat_ofNat']
    omega

/-- A word below `2 ^ 31` read as an `int32_t`. -/
theorem toInt_ofNat {v : Nat} (hv : v < 2 ^ 31) : (UInt32.ofNat v).toInt32.toInt = v := by
  rw [UInt32.toInt32_ofNat', Int32.toInt_ofNat_of_lt hv]

theorem int32_eq {n : Int} (hlo : -2 ^ 31 ≤ n) (hhi : n < 2 ^ 31) : int32 n = some n :=
  if_pos ⟨hlo, hhi⟩

theorem int64_eq {n : Int} (hlo : -2 ^ 63 ≤ n) (hhi : n < 2 ^ 63) : int64 n = some n :=
  if_pos ⟨hlo, hhi⟩

/-- The sums of a radius below `2 ^ 22` fit: those of the first box in 31 bits, those of the
second one in 63. -/
theorem sums_fit {r : Nat} (hr : r < 2 ^ 22) : boxMax r < 2 ^ 31 ∧ dividendMax r < 2 ^ 63 := by
  have hdiv : divisor r ≤ 2 ^ 22 * 2 ^ 22 := Nat.mul_le_mul hr hr
  unfold boxMax dividendMax
  omega

theorem scalar_exact {r : Nat} (hr : r < 2 ^ 22) : (scalar r).Exact r fun n => (n : Int) := by
  obtain ⟨hbox, hsum⟩ := sums_fit hr
  have hdiv : 255 * divisor r ≤ dividendMax r := Nat.le_add_right _ _
  refine ⟨rfl, fun n s h => ?_, fun n n' a e hn hn' h => ?_, fun n hn => ?_, fun n v hv h => ?_,
    fun n n' a e ha he hn hn' h => ?_, fun n hn => ?_⟩
  · simp only [scalar]
    rw [← Nat.cast_add, int64_eq (by omega) (by omega)]
  · have hval : (n : Int) + ((a.toNat : Nat) - (e.toNat : Nat)) = n' := by omega
    simp only [scalar]
    rw [hval, int64_eq (by omega) (by omega)]
  · simp only [scalar]
    rw [int32_eq (by omega) (by omega), Option.map_some, UInt32.ofInt]
    congr 2
    omega
  · simp only [scalar]
    rw [toInt_ofNat (by omega), ← Nat.cast_add, int64_eq (by omega) (by omega)]
  · have hval : (n : Int) + (a - e) = n' := by omega
    simp only [scalar]
    rw [toInt_ofNat (by omega), toInt_ofNat (by omega), int32_eq (by omega) (by omega),
      Option.bind_eq_bind, Option.bind_some, hval, int64_eq (by omega) (by omega)]
  · simp only [scalar]
    refine each_eq fun c => ?_
    obtain ⟨hle, -⟩ := quotient_le (hn c)
    have hround := blurRound_eq (divisor_pos r) hle hsum
    rw [← Nat.cast_add, int64_eq (by omega) (by omega), Option.bind_eq_bind, Option.bind_some,
      hround]

/-- Lanes add and subtract modulo `2 ^ 32`, so that only the quotient needs a bound. -/
theorem vector_exact {r : Nat} {quotient : Lanes UInt32 → Lanes UInt8}
    (hq : ∀ n : Lanes Nat, (∀ c, n c ≤ 255 * divisor r) →
      quotient (fun c => UInt32.ofNat (n c + divisor r / 2)) =
        fun c => UInt8.ofNat ((n c + divisor r / 2) / divisor r)) :
    (vector r quotient).Exact r UInt32.ofNat := by
  have hbyte (s : UInt8) : s.toUInt32 = UInt32.ofNat s.toNat := by simp
  have hslide {n n' a e : Nat} (h : n' + e = n + a) :
      UInt32.ofNat n + UInt32.ofNat a - UInt32.ofNat e = UInt32.ofNat n' := by
    rw [← UInt32.ofNat_add, ← h, UInt32.ofNat_add, UInt32.add_sub_cancel]
  refine ⟨rfl, fun n s _ => ?_, fun n n' a e _ _ h => ?_, fun n _ => rfl, fun n v _ _ => ?_,
    fun n n' a e _ _ _ _ h => congrArg some (hslide h), fun n hn => ?_⟩
  · exact congrArg some (by rw [hbyte, UInt32.ofNat_add])
  · exact congrArg some (by rw [hbyte, hbyte, hslide h])
  · exact congrArg some (UInt32.ofNat_add n v).symm
  · refine congrArg some ?_
    rw [← hq n hn]
    exact congrArg quotient (funext fun c => (UInt32.ofNat_add _ _).symm)

/-! ### Quotients of lanes -/

/-- The high half of a product of two words. -/
def mulHigh (n recip : UInt32) : UInt32 := ((n.toUInt64 * recip.toUInt64) >>> 32).toUInt32

theorem mulHigh_eq (n recip : UInt32) :
    (mulHigh n recip).toNat = n.toNat * recip.toNat / 2 ^ 32 := by
  have hprod : n.toNat * recip.toNat ≤ (2 ^ 32 - 1) * (2 ^ 32 - 1) :=
    Nat.mul_le_mul (Nat.le_of_lt_succ n.toNat_lt) (Nat.le_of_lt_succ recip.toNat_lt)
  have hword : n.toNat * recip.toNat % 2 ^ 64 = n.toNat * recip.toNat :=
    Nat.mod_eq_of_lt (by omega)
  simp only [mulHigh, UInt64.toNat_toUInt32, UInt64.toNat_shiftRight, UInt64.toNat_mul,
    UInt32.toNat_toUInt64, hword, UInt64.reduceToNat, Nat.reduceMod, Nat.shiftRight_eq_div_pow]
  exact Nat.mod_eq_of_lt (by omega)

/-- The shuffles bring the four quotients back into their lanes. -/
theorem sse41Quotient_lane (recip : UInt32) (n : Lanes UInt32) (c : Fin 4) :
    sse41Quotient recip n c = packusEpi16 (packusEpi32 (mulHigh (n c) recip)) := by
  fin_cases c <;> rfl

theorem pack_eq {q : UInt32} (hq : q.toNat ≤ 255) :
    packusEpi16 (packusEpi32 q) = UInt8.ofNat q.toNat := by
  have h32 : q.toInt32.toInt = q.toNat := by
    conv_lhs => rw [← UInt32.ofNat_toNat (x := q)]
    exact toInt_ofNat (by omega)
  have hpack : packusEpi32 q = UInt16.ofNat q.toNat := by
    rw [packusEpi32, h32]
    congr 1
    omega
  have h16 : (UInt16.ofNat q.toNat).toInt16.toInt = q.toNat := by
    rw [UInt16.toInt16_ofNat', Int16.toInt_ofNat_of_lt (by omega)]
  rw [hpack, packusEpi16, h16]
  congr 1
  omega

theorem narrow_eq (q : UInt32) : q.toUInt16.toUInt8 = UInt8.ofNat q.toNat := by
  apply UInt8.toNat.inj
  simp only [UInt16.toNat_toUInt8, UInt32.toNat_toUInt16, UInt8.toNat_ofNat']
  omega

/-- The quotient of a lane, when the reciprocal is there. -/
theorem mulHigh_exact {r : Nat} (h : blurRecip32 (divisor r) (dividendMax r) ≠ 0)
    (hn : n ≤ 255 * divisor r) :
    (mulHigh (UInt32.ofNat (n + divisor r / 2)) (blurRecip32 (divisor r) (dividendMax r))).toNat =
      (n + divisor r / 2) / divisor r := by
  obtain ⟨hle, -⟩ := quotient_le hn
  have hmax := (blurRecip32_ne_zero h).1
  rw [mulHigh_eq, UInt32.toNat_ofNat', Nat.mod_eq_of_lt (by omega)]
  exact blurRecip32_exact (divisor_pos r) hle h

theorem sse41_exact {r : Nat} (h : blurRecip32 (divisor r) (dividendMax r) ≠ 0) :
    (sse41 r (blurRecip32 (divisor r) (dividendMax r))).Exact r UInt32.ofNat :=
  vector_exact fun n hn => funext fun c => by
    have hquot := mulHigh_exact h (hn c)
    rw [sse41Quotient_lane, pack_eq (by rw [hquot]; exact (quotient_le (hn c)).2), hquot]

theorem neon_exact {r : Nat} (h : blurRecip32 (divisor r) (dividendMax r) ≠ 0) :
    (neon r (blurRecip32 (divisor r) (dividendMax r))).Exact r UInt32.ofNat :=
  vector_exact fun n hn => funext fun c => by
    show (mulHigh _ _).toUInt16.toUInt8 = _
    rw [narrow_eq, mulHigh_exact h (hn c)]

/-! ## The call computes the blur -/

theorem size_granted {α : Type} (n : Nat) (contents : Nat → α) : (granted n contents).size = n :=
  Array.size_ofFn

theorem passes_eq {α : Type} {K : Kernel α} {r : Nat} {rep : Nat → α} (hK : K.Exact r rep)
    {px tmp : Array AxlGfxPixel} {i1 : Array (Lanes UInt32)} {w h : Nat} {img : Image}
    (hpx : Holds px w h img) (htmp : tmp.size = w * h) (hw : 0 < w) (hh : 0 < h)
    (hi1 : i1.size = max w h + r) (hmax : max w h + r < 2 ^ 32) :
    passes K px tmp i1 w h r = some ((blurred r w h img).pixels w h) := by
  have hends : Ends (passes K px tmp i1 w h r) fun out => Holds out w h (blurred r w h img) := by
    refine (boxbox_ends hK hpx hw (by omega) htmp (by omega)).bind
      fun ⟨t1, cells⟩ ⟨h1, hcells⟩ => ?_
    refine (blurTranspose_ends h1 hpx.1).bind fun p1 h2 => ?_
    -- the columns are now rows, `w` of them
    refine (boxbox_ends hK h2 hh (by omega) (by rw [h1.1, Nat.mul_comm])
      (by dsimp only at hcells; omega)).bind fun ⟨t2, _⟩ ⟨h3, _⟩ => ?_
    exact blurTranspose_ends h3 h2.1
  obtain ⟨out, hout, hholds⟩ := hends
  rw [hout, hholds.eq_pixels]

/-- Every kernel that the call may take gives the same bytes. -/
theorem dispatch_eq (simd : Option Simd) {r : Nat} (hr : r < 2 ^ 22) {px tmp : Array AxlGfxPixel}
    {i1 : Array (Lanes UInt32)} {w h : Nat} {img : Image} (hpx : Holds px w h img)
    (htmp : tmp.size = w * h) (hw : 0 < w) (hh : 0 < h) (hi1 : i1.size = max w h + r)
    (hmax : max w h + r < 2 ^ 32) :
    dispatch simd px tmp i1 w h r = some ((blurred r w h img).pixels w h) := by
  unfold dispatch
  dsimp only
  split_ifs with h32
  · match simd with
    | some .sse41 => exact passes_eq (sse41_exact h32) hpx htmp hw hh hi1 hmax
    | some .neon => exact passes_eq (neon_exact h32) hpx htmp hw hh hi1 hmax
    | none => exact passes_eq (scalar_exact hr) hpx htmp hw hh hi1 hmax
  · exact passes_eq (scalar_exact hr) hpx htmp hw hh hi1 hmax

theorem smooth_zero (f : Int → UInt8) (x : Int) : smooth 0 f x = f x := by
  have hmean : tentMean 0 (fun i => ((f i).toNat : ℚ)) x = ((f x).toNat : ℕ) := by
    simp [tentMean, tent, weight]
  rw [smooth, hmean, round_natCast, Int.toNat_natCast, UInt8.ofNat_toNat]

/-- The image of a buffer. -/
def AxlGfxBuffer.image (buf : AxlGfxBuffer) : Image := fun y x =>
  buf.pixels.getD (y * buf.w + x) ⟨0, 0, 0, 0⟩

theorem AxlGfxBuffer.holds (buf : AxlGfxBuffer) : Holds buf.pixels buf.w buf.h buf.image := by
  refine ⟨buf.size_eq, fun y hy x hx => ?_⟩
  have hlt : y * buf.w + x < buf.pixels.size := by
    rw [buf.size_eq]
    exact cell_lt hy hx
  rw [AxlGfxBuffer.image, Array.getD_eq_getD_getElem?, Array.getElem?_eq_getElem hlt,
    Option.getD_some]

theorem blurred_zero (buf : AxlGfxBuffer) :
    (blurred 0 buf.w buf.h buf.image).pixels buf.w buf.h = buf.pixels := by
  have hsame : Holds buf.pixels buf.w buf.h (blurred 0 buf.w buf.h buf.image) := by
    refine ⟨buf.size_eq, fun y hy x hx => ?_⟩
    rw [buf.holds.2 y hy x hx]
    simp only [blurred, columns, rows, smooth_zero, pixel_lanes, edge_of_lt hy,
      edge_of_lt hx]
  exact hsame.eq_pixels.symm

/-- The radius, clamped to the larger side. -/
def AxlGfxBuffer.reach (buf : AxlGfxBuffer) (radius : Nat) : Nat := min radius (max buf.w buf.h)

/-- There is nothing to blur, or memory to blur with. -/
def Served (m : Machine) (buf : AxlGfxBuffer) (radius : Nat) : Prop :=
  radius = 0 ∨ buf.w = 0 ∨ buf.h = 0 ∨ (m.tmp.isSome ∧ m.i1.isSome)

instance (m : Machine) (buf : AxlGfxBuffer) (radius : Nat) : Decidable (Served m buf radius) :=
  inferInstanceAs (Decidable (_ ∨ _))

/-- The call, and the blur that it computes. -/
theorem axlGfxBufferBlur_eq (m : Machine) (buf : AxlGfxBuffer) (radius : Nat)
    (hw : buf.w < 2 ^ 22) (hh : buf.h < 2 ^ 22) :
    axlGfxBufferBlur m buf radius =
      some (if Served m buf radius then
        (.ok, (blurred (buf.reach radius) buf.w buf.h buf.image).pixels buf.w buf.h)
      else (.err, buf.pixels)) := by
  have hdim : (if buf.w > buf.h then buf.w else buf.h) = max buf.w buf.h := by split_ifs <;> omega
  have hreach : (if radius > max buf.w buf.h then max buf.w buf.h else radius) =
      buf.reach radius := by
    unfold AxlGfxBuffer.reach
    split_ifs <;> omega
  have hle : buf.reach radius ≤ max buf.w buf.h := Nat.min_le_right _ _
  simp only [axlGfxBufferBlur, hdim, hreach]
  by_cases h0 : radius = 0
  · have hserved : Served m buf radius := .inl h0
    have hzero : buf.reach radius = 0 := by rw [h0, AxlGfxBuffer.reach, Nat.zero_min]
    rw [if_pos h0, if_pos hserved, hzero, blurred_zero]
  rw [if_neg h0]
  by_cases hempty : buf.w = 0 ∨ buf.h = 0
  · have hserved : Served m buf radius := .inr (hempty.imp_right .inl)
    have hsame : Holds buf.pixels buf.w buf.h (blurred (buf.reach radius) buf.w buf.h buf.image) :=
      ⟨buf.size_eq, fun y hy x hx => by omega⟩
    rw [if_pos hempty, if_pos hserved, ← hsame.eq_pixels]
  rw [if_neg hempty]
  have hmem : Served m buf radius ↔ m.tmp.isSome ∧ m.i1.isSome := by
    unfold Served
    tauto
  simp only [hmem]
  cases m.tmp with
  | none => simp
  | some tmp =>
    cases m.i1 with
    | none => simp
    | some i1 =>
      simp only [Option.isSome_some, and_self, if_true]
      rw [dispatch_eq m.simd (by omega) buf.holds (size_granted _ tmp) (by omega) (by omega)
        (size_granted _ i1) (by omega)]
      rfl

/-- The blur is the tent mean of every channel, along the rows and then along the columns, on
every vector unit. A reciprocal that is used gives the quotient of every number up to the
largest one that is divided. -/
theorem buffer_blur_exact (m : Machine) (buf : AxlGfxBuffer) (radius : Nat)
    (hw : buf.w < 2 ^ 22) (hh : buf.h < 2 ^ 22) :
    axlGfxBufferBlur m buf radius =
      some (if Served m buf radius then
        (.ok, (blurred (buf.reach radius) buf.w buf.h buf.image).pixels buf.w buf.h)
      else (.err, buf.pixels)) ∧
    (∀ simd, axlGfxBufferBlur { m with simd := simd } buf radius =
      axlGfxBufferBlur m buf radius) ∧
    ∀ r, r = buf.reach radius → ∀ n ≤ dividendMax r,
      ((blurRecipMake (divisor r) (dividendMax r)).mul ≠ 0 →
        n * (blurRecipMake (divisor r) (dividendMax r)).mul < 2 ^ 64 ∧
        n * (blurRecipMake (divisor r) (dividendMax r)).mul / 2 ^ BLUR_RECIP_SHIFT =
          n / divisor r) ∧
      (blurRecip32 (divisor r) (dividendMax r) ≠ 0 →
        n < 2 ^ 31 ∧
        n * (blurRecip32 (divisor r) (dividendMax r)).toNat / 2 ^ 32 = n / divisor r) := by
  refine ⟨axlGfxBufferBlur_eq m buf radius hw hh, fun simd => ?_, fun r _ n hn => ⟨?_, ?_⟩⟩
  · rw [axlGfxBufferBlur_eq _ buf radius hw hh, axlGfxBufferBlur_eq m buf radius hw hh]
    rfl
  · exact blurRecipMake_exact (divisor_pos r) hn
  · intro h
    exact ⟨Nat.lt_of_le_of_lt hn (blurRecip32_ne_zero h).1,
      blurRecip32_exact (divisor_pos r) hn h⟩

/-- A row of three pixels. -/
def sampleRow : AxlGfxBuffer :=
  ⟨3, 1, #[⟨0, 0, 0, 255⟩, ⟨0, 255, 0, 255⟩, ⟨255, 0, 7, 1⟩], rfl⟩

theorem buffer_blur_exact_row : axlGfxBufferBlur ⟨some .sse41, some fun _ => ⟨0, 0, 0, 0⟩,
    some fun _ _ => 0⟩ sampleRow 1 = some (.ok, (blurred 1 3 1 sampleRow.image).pixels 3 1) :=
  (buffer_blur_exact _ sampleRow 1 (by decide) (by decide)).1

example : axlGfxBufferBlur ⟨some .sse41, some fun _ => ⟨0, 0, 0, 0⟩, some fun _ _ => 0⟩
    sampleRow 1 = some (.ok, #[⟨0, 64, 0, 255⟩, ⟨64, 128, 2, 192⟩, ⟨191, 64, 5, 65⟩]) := by
  decide +kernel

end Blur

end AxlSdk
