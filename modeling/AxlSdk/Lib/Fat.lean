import Mathlib

/-!
# FAT volumes

A volume as the file system specification reads it: the boot sector says where the file
allocation tables, the root directory and the data are, and the number of data clusters
says of what kind the volume is.

- `Op`, `run`: a disk and what is done to it.
- `countOfClusters`, `entry`: what a reader makes of the boot sector and the table.
- `Valid`: the volume keeps the rules of the specification.
-/

namespace AxlSdk

namespace Fat

/-- The bytes of a disk, by their offset. -/
abbrev Disk := Nat → UInt8

/-! ## Writing -/

/-- A write of `len` bytes at `off`, or a copy inside the disk. -/
inductive Op
  | put (off len : Nat) (bytes : Nat → UInt8)
  | copy (dst src len : Nat)

def Op.off : Op → Nat
  | .put off _ _ => off
  | .copy dst _ _ => dst

def Op.len : Op → Nat
  | .put _ len _ => len
  | .copy _ _ len => len

def Op.run (d : Disk) : Op → Disk
  | .put off len bytes => fun i => if off ≤ i ∧ i < off + len then bytes (i - off) else d i
  | .copy dst src len => fun i => if dst ≤ i ∧ i < dst + len then d (src + (i - dst)) else d i

def run (d : Disk) (ops : List Op) : Disk := ops.foldl Op.run d

/-- The operation writes nothing in a range. -/
def Op.Misses (op : Op) (lo hi : Nat) : Prop := op.off + op.len ≤ lo ∨ hi ≤ op.off

theorem run_append (d : Disk) (a b : List Op) : run d (a ++ b) = run (run d a) b := List.foldl_append

theorem run_cons (d : Disk) (op : Op) (ops : List Op) : run d (op :: ops) = run (op.run d) ops := rfl

theorem Op.run_of_misses {d : Disk} {op : Op} {lo hi i : Nat} (h : op.Misses lo hi) (hlo : lo ≤ i)
    (hhi : i < hi) : op.run d i = d i := by
  unfold Op.Misses at h
  cases op with
  | put off len bytes =>
    simp only [Op.off, Op.len] at h
    exact if_neg (by omega)
  | copy dst src len =>
    simp only [Op.off, Op.len] at h
    exact if_neg (by omega)

/-- Operations elsewhere leave a byte alone. -/
theorem run_of_misses {d : Disk} {ops : List Op} {lo hi i : Nat}
    (h : ∀ op ∈ ops, op.Misses lo hi) (hlo : lo ≤ i) (hhi : i < hi) : run d ops i = d i := by
  induction ops generalizing d with
  | nil => rfl
  | cons op ops ih =>
    rw [run_cons, ih fun o ho => h o (List.mem_cons_of_mem _ ho),
      Op.run_of_misses (h op List.mem_cons_self) hlo hhi]

theorem put_congr {d d' : Disk} {ops : List Op} (hputs : ∀ op ∈ ops, ∀ a b c, op ≠ .copy a b c)
    {i : Nat} (h : d i = d' i) : run d ops i = run d' ops i := by
  induction ops generalizing d d' with
  | nil => exact h
  | cons op ops ih =>
    refine ih (fun o ho => hputs o (List.mem_cons_of_mem _ ho)) ?_
    cases op with
    | copy a b c => exact absurd rfl (hputs _ List.mem_cons_self a b c)
    | put off len bytes =>
      simp only [Op.run]
      split
      · rfl
      · exact h

/-! ## Numbers -/

def le16 (d : Disk) (o : Nat) : Nat := (d o).toNat + 256 * (d (o + 1)).toNat

def le32 (d : Disk) (o : Nat) : Nat := le16 d o + 65536 * le16 d (o + 2)

/-- The bytes of a number, the lowest first. -/
def bytesOf (n : Nat) : Nat → UInt8 := fun i => UInt8.ofNat (n / 256 ^ i)

theorem le16_of {d : Disk} {o n : Nat} (h0 : d o = bytesOf n 0) (h1 : d (o + 1) = bytesOf n 1)
    (hn : n < 65536) : le16 d o = n := by
  simp only [le16, h0, h1, bytesOf, UInt8.toNat_ofNat', pow_zero, pow_one]
  omega

theorem le32_of {d : Disk} {o n : Nat} (h : ∀ i < 4, d (o + i) = bytesOf n i)
    (hn : n < 2 ^ 32) : le32 d o = n := by
  have h0 := h 0 (by decide)
  have h1 := h 1 (by decide)
  have h2 := h 2 (by decide)
  have h3 := h 3 (by decide)
  rw [Nat.add_zero] at h0
  simp only [le32, le16, h0, h1, h2, show o + 2 + 1 = o + 3 from rfl, h3, bytesOf,
    UInt8.toNat_ofNat']
  norm_num
  omega

/-! ## Reading a volume -/

/-- The kinds of volume that have 16 and 32 bits in an entry of the table. -/
inductive Kind
  | fat16
  | fat32
  deriving DecidableEq

section
variable (d : Disk)

def bytsPerSec : Nat := le16 d 11
def secPerClus : Nat := (d 13).toNat
def rsvdSecCnt : Nat := le16 d 14
def numFATs : Nat := (d 16).toNat
def rootEntCnt : Nat := le16 d 17
def totSec16 : Nat := le16 d 19
def fatSz16 : Nat := le16 d 22
def totSec32 : Nat := le32 d 32
def fatSz32 : Nat := le32 d 36
def rootClus : Nat := le32 d 44
def fsInfo : Nat := le16 d 48

/-- The layout that is written: only FAT32 has its table size in the 32-bit field. -/
def kind : Kind := if fatSz16 d = 0 then .fat32 else .fat16

def fatSz : Nat := if fatSz16 d ≠ 0 then fatSz16 d else fatSz32 d
def totSec : Nat := if totSec16 d ≠ 0 then totSec16 d else totSec32 d
def rootDirSectors : Nat := (rootEntCnt d * 32 + (bytsPerSec d - 1)) / bytsPerSec d
def firstRootSector : Nat := rsvdSecCnt d + numFATs d * fatSz d
def firstDataSector : Nat := firstRootSector d + rootDirSectors d
def countOfClusters : Nat := (totSec d - firstDataSector d) / secPerClus d

/-- The entry of a cluster in the table that starts at a byte offset. -/
def entry (table c : Nat) : Nat :=
  match kind d with
  | .fat16 => le16 d (table + 2 * c)
  | .fat32 => le32 d (table + 4 * c) % 2 ^ 28

/-- How many entries a table has. -/
def entries : Nat :=
  match kind d with
  | .fat16 => fatSz d * bytsPerSec d / 2
  | .fat32 => fatSz d * bytsPerSec d / 4

/-- The offset of a table. -/
def table (k : Nat) : Nat := (rsvdSecCnt d + k * fatSz d) * bytsPerSec d

/-- The clusters are numbered from 2 on. -/
def clusters : Finset Nat := Finset.Ico 2 (countOfClusters d + 2)

/-- The parts of the volume, each from a sector on: the reserved sectors, the tables, the
root directory and the data. -/
def parts : List (Nat × Nat) :=
  [(0, rsvdSecCnt d), (rsvdSecCnt d, fatSz d), (rsvdSecCnt d + fatSz d, fatSz d),
    (firstRootSector d, rootDirSectors d),
    (firstDataSector d, countOfClusters d * secPerClus d)]

/-- The counts that the specification has for a kind of volume. -/
def Kind.Range (n : Nat) : Kind → Prop
  | .fat16 => 4085 ≤ n ∧ n ≤ 65524
  | .fat32 => 65525 ≤ n

/-- The rules of the specification for a volume of `bytes` bytes that holds no file. -/
structure Valid (bytes : Nat) : Prop where
  signature : le16 d 510 = 0xAA55
  sector : bytsPerSec d = 512
  cluster : ∃ k ≤ 7, secPerClus d = 2 ^ k
  reserved : 0 < rsvdSecCnt d
  fats : numFATs d = 2
  size : totSec d * 512 = bytes
  disjoint : (parts d).Pairwise fun a b => a.1 + a.2 ≤ b.1
  fits : ∀ p ∈ parts d, p.1 + p.2 ≤ totSec d
  entries : countOfClusters d + 2 ≤ entries d
  range : (kind d).Range (countOfClusters d)
  copies : ∀ i < fatSz d * bytsPerSec d, d (table d 0 + i) = d (table d 1 + i)
  free : ∀ c ∈ clusters d, entry d (table d 0) c = 0 ↔ ¬ (kind d = .fat32 ∧ c = rootClus d)
  root : kind d = .fat32 → rootClus d ∈ clusters d ∧ 0x0FFFFFF8 ≤ entry d (table d 0) (rootClus d)
  info : kind d = .fat32 →
    le32 d (fsInfo d * 512) = 0x41615252 ∧ le32 d (fsInfo d * 512 + 484) = 0x61417272 ∧
    le32 d (fsInfo d * 512 + 508) = 0xAA550000 ∧
    le32 d (fsInfo d * 512 + 488) = ((clusters d).filter fun c => entry d (table d 0) c = 0).card

end

end Fat

end AxlSdk
