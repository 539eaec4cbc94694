import Mathlib

/-!
# Tar archives (`src/util/axl-tar.c`)

The ustar writer and reader over a stream that writes and reads fully. A header is
the concatenation of its fields, in the order of the layout in the source; the
reader takes the fields out again by their offsets.

- `decodeHeader_encodeHeader`: what the reader makes of any header that the writer
  wrote. A size loses the bits that its eleven octal digits do not hold, and a name
  of 101 bytes with a leading slash is split there, with an empty prefix, and loses
  the slash.
- `roundTrips_iff`: an archive of calls that all succeeded is read back as it was
  written, whatever part of the data is read, exactly when no call is of these two
  kinds. The writer counts its output modulo `2 ^ 64`, so the padding of the archive
  is also off when the count has wrapped, except for every fifth time.
-/

namespace AxlSdk

namespace Tar

open List

/-! ## Fields -/

def tarBlock : Nat := 512

def tarRecord : Nat := 20 * tarBlock

def tarNameMax : Nat := 257

def typeFile : UInt8 := 0x30

def typeDir : UInt8 := 0x35

def slash : UInt8 := 0x2f

/-- `k` octal digits of a value. -/
def octalDigits : Nat → Nat → List UInt8
  | 0, _ => []
  | k + 1, val => octalDigits k (val / 8) ++ [UInt8.ofNat (0x30 + val % 8)]

/-- `put_octal` -/
def putOctal (fieldlen val : Nat) : List UInt8 := octalDigits (fieldlen - 1) val ++ [0]

def isOctal (b : UInt8) : Bool := 0x30 ≤ b && b ≤ 0x37

/-- `get_octal` -/
def getOctal (field : List UInt8) : Nat :=
  ((field.dropWhile (· == 0x20)).takeWhile isOctal).foldl (fun v b => v * 8 + (b.toNat - 0x30)) 0

/-- A string of C: no byte of it is NUL. -/
abbrev CString : Type := { bytes : List UInt8 // 0 ∉ bytes }

/-- `axl_strlen` and the bytes before the NUL of a field that is copied out. -/
def cString (field : List UInt8) : List UInt8 := field.takeWhile (· != 0)

/-- The loop of `split_name`: the earliest slash at which both parts fit. -/
def splitIndex (path : List UInt8) : Option Nat :=
  (List.range (path.length - 1)).find? fun i =>
    path[i]? == some slash && decide (i ≤ 155 ∧ 0 < path.length - i - 1 ∧ path.length - i - 1 ≤ 100)

/-- `split_name`: the parts for the name and for the prefix. -/
def splitName (path : List UInt8) : Option (List UInt8 × List UInt8) :=
  if path.length = 0 then none
  else if path.length ≤ 100 then some (path, [])
  else (splitIndex path).map fun i => (path.drop (i + 1), path.take i)

/-- A part in a zeroed field. -/
def padTo (n : Nat) (bytes : List UInt8) : List UInt8 :=
  bytes ++ List.replicate (n - bytes.length) 0

/-! ## Headers -/

/-- The sum of the bytes of a header, with spaces for the checksum. -/
def checksum (hdr : List UInt8) : Nat :=
  ((hdr.take 148 ++ (List.replicate 8 0x20 ++ hdr.drop 156)).map UInt8.toNat).sum

/-- The fields of a header before the checksum. -/
def headerFront (name : List UInt8) (mode size : Nat) : List UInt8 :=
  padTo 100 name ++ (putOctal 8 mode ++ (putOctal 8 0 ++ (putOctal 8 0 ++
    (putOctal 12 size ++ putOctal 12 0))))

/-- The fields behind it: type, link name, magic, version, names, devices, prefix. -/
def headerBack (type : UInt8) (pfx : List UInt8) : List UInt8 :=
  type :: (List.replicate 100 0 ++ ([0x75, 0x73, 0x74, 0x61, 0x72, 0, 0x30, 0x30] ++
    (List.replicate 80 0 ++ (padTo 155 pfx ++ List.replicate 12 0))))

/-- The header that `write_header` writes for a path that was split. -/
def encodeHeader (name pfx : List UInt8) (mode size : Nat) (type : UInt8) : List UInt8 :=
  let front := headerFront name (mode % 0o10000) size
  let back := headerBack type pfx
  let sum := checksum (front ++ (List.replicate 8 0x20 ++ back))
  front ++ ((putOctal 7 sum ++ [0x20]) ++ back)

/-- `AxlTarEntry` -/
structure AxlTarEntry where
  name : List UInt8
  size : Nat
  mode : Nat
  type : UInt8
  deriving DecidableEq, Repr

/-- The bytes of a field. -/
def field (offset len : Nat) (hdr : List UInt8) : List UInt8 := (hdr.drop offset).take len

/-- The name of an entry: the prefix joined with the name. -/
def joinName (name pfx : List UInt8) : Option (List UInt8) :=
  if pfx ≠ [] then
    if tarNameMax ≤ pfx.length + 1 + name.length then none else some (pfx ++ slash :: name)
  else if tarNameMax ≤ name.length then none else some name

/-- `axl_tar_reader_next` on a block; `none` is the end of the archive or an error. -/
def decodeHeader (hdr : List UInt8) : Option AxlTarEntry :=
  if hdr.length ≠ tarBlock then none
  else if hdr.all (· == 0) then none
  else if checksum hdr ≠ getOctal (field 148 8 hdr) then none
  else
    match joinName (cString (field 0 100 hdr)) (cString (field 345 155 hdr)) with
    | none => none
    | some name =>
      let type := hdr.getD 156 0
      some ⟨name, getOctal (field 124 12 hdr), getOctal (field 100 8 hdr),
        if type = 0 then typeFile else type⟩

/-! ## The writer -/

/-- The bytes of padding behind `len` bytes of data. -/
def padding (len : Nat) : Nat := (tarBlock - len % tarBlock) % tarBlock

/-- `AxlTarWriter` with the bytes that its stream took. -/
structure AxlTarWriter where
  out : List UInt8
  written : Nat
  deriving DecidableEq, Repr

def AxlTarWriter.new : AxlTarWriter := ⟨[], 0⟩

/-- `uint64_t` addition to the count. -/
def AxlTarWriter.write (w : AxlTarWriter) (bytes : List UInt8) : AxlTarWriter :=
  ⟨w.out ++ bytes, (w.written + bytes.length) % 2 ^ 64⟩

def writeHeader (w : AxlTarWriter) (path : List UInt8) (mode size : Nat) (type : UInt8) :
    Option AxlTarWriter :=
  match splitName path with
  | none => none
  | some (name, pfx) => some (w.write (encodeHeader name pfx mode size type))

/-- `axl_tar_writer_add` -/
def AxlTarWriter.add (w : AxlTarWriter) (name : CString) (mode : UInt32) (data : List UInt8) :
    Option AxlTarWriter :=
  match writeHeader w name.1 mode.toNat data.length typeFile with
  | none => none
  | some w =>
    if 0 < data.length then
      some (w.write (data ++ List.replicate (padding data.length) 0))
    else some w

/-- The name of a directory, with a slash at its end. -/
def dirName (name : List UInt8) : List UInt8 :=
  if name.getLast? = some slash then name else name ++ [slash]

/-- `axl_tar_writer_add_dir` -/
def AxlTarWriter.addDir (w : AxlTarWriter) (name : CString) (mode : UInt32) :
    Option AxlTarWriter :=
  if tarNameMax < name.1.length + 2 then none
  else writeHeader w (dirName name.1) mode.toNat 0 typeDir

/-- The last loop of `axl_tar_writer_finish`. -/
def padRecord : Nat → Nat → AxlTarWriter → AxlTarWriter
  | 0, _, w => w
  | fuel + 1, recpad, w =>
    if 0 < recpad then
      let chunk := if recpad < tarBlock then recpad else tarBlock
      padRecord fuel (recpad - chunk) (w.write (List.replicate chunk 0))
    else w

/-- `axl_tar_writer_finish` -/
def AxlTarWriter.finish (w : AxlTarWriter) : AxlTarWriter :=
  let w := (w.write (List.replicate tarBlock 0)).write (List.replicate tarBlock 0)
  let rem := w.written % tarRecord
  let recpad := if rem = 0 then 0 else tarRecord - rem
  padRecord recpad recpad w

inductive Call where
  | add (name : CString) (mode : UInt32) (data : List UInt8)
  | addDir (name : CString) (mode : UInt32)

def AxlTarWriter.call (w : AxlTarWriter) : Call → Option AxlTarWriter
  | .add name mode data => w.add name mode data
  | .addDir name mode => w.addDir name mode

/-- The archive of some calls, if all of them succeed. -/
def archive (calls : List Call) : Option (List UInt8) :=
  (calls.foldlM AxlTarWriter.call AxlTarWriter.new).map fun w => w.finish.out

/-! ## The reader -/

/-- `AxlTarReader` with the bytes left in its stream. -/
structure AxlTarReader where
  input : List UInt8
  remaining : Nat
  pad : Nat
  deriving DecidableEq, Repr

/-- The loop that skips what is left of an entry. -/
def skipLoop : Nat → Nat → List UInt8 → List UInt8
  | 0, _, input => input
  | fuel + 1, skip, input =>
    if 0 < skip then
      let chunk := if tarBlock < skip then tarBlock else skip
      let n := (input.take chunk).length
      if n = 0 then input else skipLoop fuel (skip - n) (input.drop n)
    else input

/-- `axl_tar_reader_next` -/
def AxlTarReader.next (r : AxlTarReader) : Option (AxlTarEntry × AxlTarReader) :=
  let skip := r.remaining + r.pad
  let input := skipLoop skip skip r.input
  match decodeHeader (input.take tarBlock) with
  | none => none
  | some entry => some (entry, ⟨input.drop tarBlock, entry.size, padding entry.size⟩)

/-- `axl_tar_reader_read` -/
def AxlTarReader.read (r : AxlTarReader) (len : Nat) : List UInt8 × AxlTarReader :=
  if r.remaining = 0 then ([], r)
  else
    let want := if r.remaining < len then r.remaining else len
    let bytes := r.input.take want
    (bytes, { r with input := r.input.drop want, remaining := r.remaining - bytes.length })

/-- Reads of the given lengths. -/
def AxlTarReader.reads : AxlTarReader → List Nat → List UInt8 × AxlTarReader
  | r, [] => ([], r)
  | r, len :: lens =>
    let (bytes, r) := r.read len
    let (more, r) := r.reads lens
    (bytes ++ more, r)

/-- The entries of an archive with what was read of their data, where `plan` gives the
lengths of the reads of each entry. -/
def readAll (plan : Nat → List Nat) : Nat → Nat → AxlTarReader → List (AxlTarEntry × List UInt8)
  | 0, _, _ => []
  | fuel + 1, i, r =>
    match r.next with
    | none => []
    | some (entry, r) =>
      let (bytes, r) := r.reads (plan i)
      (entry, bytes) :: readAll plan fuel (i + 1) r

/-! ## What a call asks for -/

/-- The path of the entry a call asks for. -/
def Call.path : Call → List UInt8
  | .add name _ _ => name.1
  | .addDir name _ => dirName name.1

def Call.data : Call → List UInt8
  | .add _ _ data => data
  | .addDir _ _ => []

def Call.mode : Call → Nat
  | .add _ mode _ => mode.toNat
  | .addDir _ mode => mode.toNat

def Call.type : Call → UInt8
  | .add _ _ _ => typeFile
  | .addDir _ _ => typeDir

/-- The entry a call asks for. -/
def Call.entry (c : Call) : AxlTarEntry := ⟨c.path, c.data.length, c.mode % 0o10000, c.type⟩

/-- The entries the calls ask for, with what is read of their data. -/
def asked (plan : Nat → List Nat) : Nat → List Call → List (AxlTarEntry × List UInt8)
  | _, [] => []
  | i, c :: cs => (c.entry, c.data.take (plan i).sum) :: asked plan (i + 1) cs

/-- The archive has whole records and is read back as it was asked for. -/
def RoundTrips (calls : List Call) (bytes : List UInt8) : Prop :=
  bytes.length % tarRecord = 0 ∧
    ∀ plan fuel, calls.length < fuel → readAll plan fuel 0 ⟨bytes, 0, 0⟩ = asked plan 0 calls

/-- A call whose entry the format as written can hold. -/
def Call.Kept (c : Call) : Prop :=
  c.data.length < 8 ^ 11 ∧ ¬ (c.path.length = 101 ∧ c.path.head? = some slash)

/-- The bytes of an entry with its padding. -/
def Call.blocks (c : Call) : Nat := tarBlock + (c.data.length + padding c.data.length)

/-- The bytes of an archive up to its end marker. -/
def archiveSize (calls : List Call) : Nat := (calls.map Call.blocks).sum + 2 * tarBlock

/-! ## Fields are read back -/

theorem length_octalDigits (k val : Nat) : (octalDigits k val).length = k := by
  induction k generalizing val with
  | zero => rfl
  | succ k ih => rw [octalDigits, length_append, ih, length_singleton]

theorem octalDigit_toNat (val : Nat) : (UInt8.ofNat (0x30 + val % 8)).toNat = 0x30 + val % 8 := by
  rw [UInt8.toNat_ofNat']
  omega

theorem isOctal_digit (val : Nat) : isOctal (UInt8.ofNat (0x30 + val % 8)) = true := by
  simp only [isOctal, Bool.and_eq_true, decide_eq_true_eq, UInt8.le_iff_toNat_le, octalDigit_toNat]
  simp only [UInt8.reduceToNat]
  omega

theorem isOctal_of_mem {k val : Nat} {b : UInt8} (h : b ∈ octalDigits k val) :
    isOctal b = true := by
  induction k generalizing val with
  | zero => cases h
  | succ k ih =>
    rw [octalDigits, mem_append, mem_singleton] at h
    rcases h with h | rfl
    · exact ih h
    · exact isOctal_digit val

theorem foldl_octalDigits (k val : Nat) :
    (octalDigits k val).foldl (fun v b => v * 8 + (b.toNat - 0x30)) 0 = val % 8 ^ k := by
  induction k generalizing val with
  | zero => rw [octalDigits, foldl_nil, Nat.pow_zero, Nat.mod_one]
  | succ k ih =>
    rw [octalDigits, foldl_append, ih, foldl_cons, foldl_nil, octalDigit_toNat,
      Nat.pow_succ, Nat.mul_comm (8 ^ k) 8, Nat.mod_mul]
    omega

/-- A field holds the low digits of what was put. -/
theorem getOctal_digits (k val : Nat) (rest : List UInt8) :
    getOctal (octalDigits k val ++ 0 :: rest) = val % 8 ^ k := by
  have hdrop : (octalDigits k val ++ 0 :: rest).dropWhile (· == 0x20)
      = octalDigits k val ++ 0 :: rest := by
    cases hd : octalDigits k val with
    | nil => rfl
    | cons b bs =>
      have hb : isOctal b = true := isOctal_of_mem (hd ▸ mem_cons_self)
      simp only [isOctal, Bool.and_eq_true, decide_eq_true_eq, UInt8.le_iff_toNat_le] at hb
      have hne : b ≠ 0x20 := by
        rintro rfl
        exact absurd hb.1 (by decide)
      rw [cons_append, dropWhile_cons_of_neg (by simpa using hne)]
  have htake : (octalDigits k val ++ 0 :: rest).takeWhile isOctal = octalDigits k val := by
    rw [takeWhile_append_of_pos fun b hb => isOctal_of_mem hb,
      takeWhile_cons_of_neg (by decide), append_nil]
  rw [getOctal, hdrop, htake, foldl_octalDigits]

theorem length_putOctal {n : Nat} (hn : 0 < n) (val : Nat) : (putOctal n val).length = n := by
  rw [putOctal, length_append, length_octalDigits, length_singleton]
  omega

theorem getOctal_putOctal (n val : Nat) (rest : List UInt8) :
    getOctal (putOctal n val ++ rest) = val % 8 ^ (n - 1) := by
  rw [putOctal, append_assoc]
  exact getOctal_digits _ _ _

theorem length_padTo {n : Nat} {bytes : List UInt8} (h : bytes.length ≤ n) :
    (padTo n bytes).length = n := by
  rw [padTo, length_append, length_replicate]
  omega

theorem cString_padTo (n : Nat) {bytes : List UInt8} (h : 0 ∉ bytes) :
    cString (padTo n bytes) = bytes := by
  have hall : ∀ b ∈ bytes, (b != 0) = true := by
    intro b hb
    rw [bne_iff_ne]
    rintro rfl
    exact h hb
  rw [cString, padTo, takeWhile_append_of_pos hall]
  cases n - bytes.length with
  | zero => rw [replicate_zero, takeWhile_nil, append_nil]
  | succ k => rw [replicate_succ, takeWhile_cons_of_neg (by decide), append_nil]

/-! ## Names -/

/-- The parts fit their fields, and join to the path unless the prefix is empty. -/
theorem splitName_spec {path name pfx : List UInt8} (h : splitName path = some (name, pfx)) :
    name.length ≤ 100 ∧ pfx.length ≤ 155 ∧
      ((pfx = [] ∧ path = name) ∨ (path = pfx ++ slash :: name ∧ 100 < path.length)) := by
  unfold splitName at h
  split at h
  · cases h
  · split at h
    · rename_i hlen
      cases h
      exact ⟨hlen, Nat.zero_le _, .inl ⟨rfl, rfl⟩⟩
    · rename_i hlen
      obtain ⟨i, hi, hparts⟩ := Option.map_eq_some_iff.mp h
      cases hparts
      have hfound := find?_some hi
      rw [Bool.and_eq_true, beq_iff_eq, decide_eq_true_eq] at hfound
      obtain ⟨hslash, h155, hpos, h100⟩ := hfound
      refine ⟨?_, ?_, .inr ⟨?_, by omega⟩⟩
      · rw [length_drop]
        omega
      · rw [length_take]
        omega
      · obtain ⟨hlt, hget⟩ := List.getElem?_eq_some_iff.mp hslash
        rw [← hget, ← drop_eq_getElem_cons hlt, take_append_drop]

/-- The name that the reader finds for a path. -/
def readName (path : List UInt8) : List UInt8 :=
  if path.length = 101 ∧ path.head? = some slash then path.tail else path

theorem splitIndex_lead {path : List UInt8} (h101 : path.length = 101)
    (hlead : path.head? = some slash) : splitIndex path = some 0 := by
  have hzero : path[0]? = some slash := by
    rw [← head?_eq_getElem?]
    exact hlead
  unfold splitIndex
  rw [h101, show (101 - 1) = 99 + 1 from rfl, range_succ_eq_map, find?_cons_of_pos]
  simp [hzero]

theorem joinName_splitName {path name pfx : List UInt8} (h : splitName path = some (name, pfx)) :
    joinName name pfx = some (readName path) := by
  obtain ⟨hname, hpfx, hsplit⟩ := splitName_spec h
  unfold joinName readName
  rcases hsplit with ⟨rfl, rfl⟩ | ⟨rfl, hlong⟩
  · rw [if_neg (by simp), if_neg (by simp only [tarNameMax]; omega), if_neg (by omega)]
  · by_cases hnil : pfx = []
    · subst hnil
      rw [if_neg (by simp), if_neg (by simp only [tarNameMax]; omega), if_pos]
      · rfl
      · simp only [nil_append, length_cons] at hlong ⊢
        refine ⟨by omega, rfl⟩
    · rw [if_pos hnil, if_neg (by simp only [tarNameMax]; omega), if_neg]
      rintro ⟨h101, hlead⟩
      -- a leading slash of a path of 101 bytes is where it is split
      apply hnil
      unfold splitName at h
      rw [if_neg (by omega), if_neg (by omega), splitIndex_lead h101 hlead, Option.map_some] at h
      have hpfx := congrArg Prod.snd (Option.some.inj h)
      exact hpfx.symm

/-! ## Headers are read back -/

theorem field_eq {offset len : Nat} {hdr bytes post : List UInt8} (pre : List UInt8)
    (h : hdr = pre ++ (bytes ++ post)) (hpre : pre.length = offset) (hbytes : bytes.length = len) :
    field offset len hdr = bytes := by
  rw [field, h, drop_left' hpre, take_left' hbytes]

theorem sum_bytes_le (bytes : List UInt8) : (bytes.map UInt8.toNat).sum ≤ bytes.length * 255 := by
  induction bytes with
  | nil => exact Nat.le_refl _
  | cons b bs ih =>
    have hb := b.toNat_lt
    rw [map_cons, sum_cons, length_cons, Nat.succ_mul]
    omega

section

variable {name pfx : List UInt8} (hname : name.length ≤ 100) (hpfx : pfx.length ≤ 155)

include hname in
theorem length_headerFront (mode size : Nat) : (headerFront name mode size).length = 148 := by
  simp only [headerFront, length_append, length_padTo hname,
    length_putOctal (show 0 < 8 by decide), length_putOctal (show 0 < 12 by decide)]

include hpfx in
theorem length_headerBack (type : UInt8) : (headerBack type pfx).length = 356 := by
  simp only [headerBack, length_cons, length_append, length_replicate,
    length_padTo hpfx, length_nil]

include hname in
/-- The checksum does not depend on the bytes of its own field. -/
theorem checksum_header (mode size : Nat) {sum : List UInt8} (hsum : sum.length = 8)
    (back : List UInt8) :
    checksum (headerFront name mode size ++ (sum ++ back))
      = ((headerFront name mode size ++ (List.replicate 8 0x20 ++ back)).map UInt8.toNat).sum := by
  have hfront := length_headerFront hname mode size
  rw [checksum, take_left' hfront, show (156 : Nat) = 148 + 8 from rfl, ← drop_drop,
    drop_left' hfront, drop_left' hsum]

include hname hpfx in
theorem length_encodeHeader (mode size : Nat) (type : UInt8) :
    (encodeHeader name pfx mode size type).length = tarBlock := by
  simp only [encodeHeader, length_append, length_headerFront hname, length_headerBack hpfx,
    length_putOctal (show 0 < 7 by decide), length_singleton, tarBlock]

include hname hpfx in
theorem checksum_encodeHeader (mode size : Nat) (type : UInt8) :
    checksum (encodeHeader name pfx mode size type)
      = getOctal (field 148 8 (encodeHeader name pfx mode size type)) := by
  have hfront := length_headerFront hname (mode % 0o10000) size
  have hback := length_headerBack hpfx type
  unfold encodeHeader
  dsimp only
  have hspaces : (List.replicate 8 (0x20 : UInt8)).length = 8 := length_replicate
  have hlen : ∀ v, (putOctal 7 v ++ [(0x20 : UInt8)]).length = 8 := by
    intro v
    rw [length_append, length_putOctal (by decide), length_singleton]
  rw [checksum_header hname _ _ hspaces, checksum_header hname _ _ (hlen _),
    field_eq _ rfl hfront (hlen _), getOctal_putOctal]
  refine (Nat.mod_eq_of_lt (Nat.lt_of_le_of_lt (sum_bytes_le _) ?_)).symm
  rw [length_append, length_append, hfront, hback, hspaces]
  decide

end

/-- What the reader makes of a header that the writer wrote. -/
theorem decodeHeader_encodeHeader {path name pfx : List UInt8}
    (hsplit : splitName path = some (name, pfx)) (hnul : 0 ∉ path) (mode size : Nat)
    {type : UInt8} (htype : type ≠ 0) :
    decodeHeader (encodeHeader name pfx mode size type)
      = some ⟨readName path, size % 8 ^ 11, mode % 0o10000, type⟩ := by
  obtain ⟨hname, hpfx, hparts⟩ := splitName_spec hsplit
  have hnuls : 0 ∉ name ∧ 0 ∉ pfx := by
    rcases hparts with ⟨rfl, rfl⟩ | ⟨rfl, -⟩
    · exact ⟨hnul, by simp⟩
    · rw [mem_append, mem_cons, not_or, not_or] at hnul
      exact ⟨hnul.2.2, hnul.1⟩
  have hlen := length_encodeHeader hname hpfx mode size type
  have hsum := checksum_encodeHeader hname hpfx mode size type
  have h8 : ∀ v, (putOctal 8 v).length = 8 := length_putOctal (by decide)
  have h12 : ∀ v, (putOctal 12 v).length = 12 := length_putOctal (by decide)
  have hfront := length_headerFront hname (mode % 0o10000) size
  obtain ⟨sum, hsum8, hdr⟩ : ∃ sum : List UInt8, sum.length = 8 ∧
      encodeHeader name pfx mode size type
        = headerFront name (mode % 0o10000) size ++ (sum ++ headerBack type pfx) := by
    refine ⟨_, ?_, rfl⟩
    rw [length_append, length_putOctal (by decide), length_singleton]
  have hfname : field 0 100 (encodeHeader name pfx mode size type) = padTo 100 name :=
    field_eq [] (by rw [hdr, headerFront]; simp only [nil_append, append_assoc]; rfl)
      rfl (length_padTo hname)
  have hfmode : field 100 8 (encodeHeader name pfx mode size type)
      = putOctal 8 (mode % 0o10000) :=
    field_eq (padTo 100 name) (by rw [hdr, headerFront]; simp only [append_assoc]; rfl)
      (length_padTo hname) (h8 _)
  have hfsize : field 124 12 (encodeHeader name pfx mode size type) = putOctal 12 size :=
    field_eq (padTo 100 name ++ (putOctal 8 (mode % 0o10000) ++ (putOctal 8 0 ++ putOctal 8 0)))
      (by rw [hdr, headerFront]; simp only [append_assoc]; rfl)
      (by simp only [length_append, length_padTo hname, h8]) (h12 _)
  have hftype : (encodeHeader name pfx mode size type).getD 156 0 = type := by
    have hpre : (headerFront name (mode % 0o10000) size ++ sum).length = 156 := by
      rw [length_append, hfront, hsum8]
    rw [hdr, ← append_assoc, getD_eq_getElem?_getD,
      getElem?_append_right (Nat.le_of_eq hpre), hpre]
    rfl
  have hfpfx : field 345 155 (encodeHeader name pfx mode size type) = padTo 155 pfx :=
    field_eq (headerFront name (mode % 0o10000) size ++ (sum ++ (type ::
        (List.replicate 100 0 ++ ([0x75, 0x73, 0x74, 0x61, 0x72, 0, 0x30, 0x30] ++
          List.replicate 80 0)))))
      (by rw [hdr, headerBack]; simp only [append_assoc, cons_append]; rfl)
      (by simp only [length_append, length_cons, length_replicate, hfront, hsum8,
        length_nil]) (length_padTo hpfx)
  have hzero : (encodeHeader name pfx mode size type).all (· == 0) = false := by
    rw [Bool.eq_false_iff, ne_eq, all_eq_true]
    intro hall
    have hmem : type ∈ encodeHeader name pfx mode size type := by
      rw [hdr]
      exact mem_append_right _ (mem_append_right _ mem_cons_self)
    exact htype (by simpa using hall type hmem)
  unfold decodeHeader
  rw [if_neg (by rw [hlen]; simp), hzero, if_neg (by decide), if_neg (by rw [hsum]; simp), hfname,
    hfpfx, cString_padTo _ hnuls.1, cString_padTo _ hnuls.2, joinName_splitName hsplit]
  dsimp only
  rw [hftype, hfsize, hfmode, if_neg htype]
  have hsize := getOctal_putOctal 12 size []
  have hmode := getOctal_putOctal 8 (mode % 0o10000) []
  rw [append_nil] at hsize hmode
  rw [hsize, hmode, Nat.mod_eq_of_lt (a := mode % 0o10000)]
  exact Nat.lt_trans (Nat.mod_lt _ (by decide)) (by decide)

/-! ## The bytes of an archive -/

/-- The bytes of an entry whose path was split. -/
def Call.bytes (c : Call) (name pfx : List UInt8) : List UInt8 :=
  encodeHeader name pfx c.mode c.data.length c.type ++
    (c.data ++ List.replicate (padding c.data.length) 0)

/-- The entries of some calls, one behind the other. -/
inductive Body : List Call → List UInt8 → Prop where
  | nil : Body [] []
  | cons {c cs name pfx body} : splitName c.path = some (name, pfx) → Body cs body →
    Body (c :: cs) (c.bytes name pfx ++ body)

theorem Call.type_ne (c : Call) : c.type ≠ 0 := by
  cases c with
  | add name mode data => exact (by decide : typeFile ≠ 0)
  | addDir name mode => exact (by decide : typeDir ≠ 0)

theorem padding_zero : padding 0 = 0 := by decide

/-- An entry without data is its header. -/
theorem Call.bytes_of_nil {c : Call} (h : c.data = []) (name pfx : List UInt8) :
    c.bytes name pfx = encodeHeader name pfx c.mode 0 c.type ∧ c.blocks = tarBlock := by
  constructor
  · rw [Call.bytes, h, length_nil, padding_zero, replicate_zero, append_nil,
      append_nil]
  · rw [Call.blocks, h, length_nil, padding_zero, Nat.add_zero]

theorem Call.path_nul (c : Call) : 0 ∉ c.path := by
  cases c with
  | add name mode data => exact name.2
  | addDir name mode =>
    unfold Call.path dirName
    dsimp only
    split
    · exact name.2
    · rw [mem_append, not_or]
      exact ⟨name.2, by decide⟩

theorem Call.length_bytes {c : Call} {name pfx : List UInt8}
    (h : splitName c.path = some (name, pfx)) : (c.bytes name pfx).length = c.blocks := by
  obtain ⟨hname, hpfx, -⟩ := splitName_spec h
  rw [Call.bytes, length_append, length_encodeHeader hname hpfx, length_append,
    length_replicate, Call.blocks]

theorem Body.length {calls : List Call} {body : List UInt8} (h : Body calls body) :
    body.length = (calls.map Call.blocks).sum := by
  induction h with
  | nil => rfl
  | cons hsplit _ ih =>
    rw [length_append, Call.length_bytes hsplit, ih, map_cons, sum_cons]

/-- A call that succeeds writes the bytes of its entry. -/
theorem call_spec {w w' : AxlTarWriter} {c : Call} (h : w.call c = some w') :
    ∃ name pfx, splitName c.path = some (name, pfx) ∧ w'.out = w.out ++ c.bytes name pfx ∧
      w'.written = (w.written + c.blocks) % 2 ^ 64 := by
  have hheader : ∀ {path mode size type v}, writeHeader w path mode size type = some v →
      ∃ name pfx, splitName path = some (name, pfx) ∧
        v = w.write (encodeHeader name pfx mode size type) := by
    intro path mode size type v hv
    unfold writeHeader at hv
    split at hv
    · cases hv
    · rename_i name pfx hsplit
      cases hv
      exact ⟨name, pfx, hsplit, rfl⟩
  cases c with
  | addDir name mode =>
    unfold AxlTarWriter.call AxlTarWriter.addDir at h
    dsimp only at h
    split at h
    · cases h
    · obtain ⟨n, pfx, hsplit, rfl⟩ := hheader h
      obtain ⟨hn, hpfx, -⟩ := splitName_spec hsplit
      obtain ⟨hbytes, hblocks⟩ := Call.bytes_of_nil (c := .addDir name mode) rfl n pfx
      refine ⟨n, pfx, hsplit, ?_, ?_⟩
      · rw [hbytes]
        rfl
      · rw [hblocks, AxlTarWriter.write, length_encodeHeader hn hpfx]
  | add name mode data =>
    unfold AxlTarWriter.call AxlTarWriter.add at h
    dsimp only at h
    split at h
    · cases h
    · rename_i v hv
      obtain ⟨n, pfx, hsplit, rfl⟩ := hheader hv
      obtain ⟨hn, hpfx, -⟩ := splitName_spec hsplit
      have hlen := length_encodeHeader hn hpfx mode.toNat data.length typeFile
      split at h
      · cases h
        refine ⟨n, pfx, hsplit, append_assoc _ _ _, ?_⟩
        unfold AxlTarWriter.write Call.blocks
        dsimp only
        rw [hlen, length_append, length_replicate, Nat.mod_add_mod, Nat.add_assoc]
        rfl
      · rename_i hempty
        cases h
        have hnil : data = [] := length_eq_zero_iff.mp (by omega)
        subst hnil
        obtain ⟨hbytes, hblocks⟩ := Call.bytes_of_nil (c := .add name mode []) rfl n pfx
        refine ⟨n, pfx, hsplit, ?_, ?_⟩
        · rw [hbytes]
          rfl
        · rw [hblocks, AxlTarWriter.write, hlen]

theorem calls_spec {w w' : AxlTarWriter} {calls : List Call}
    (h : calls.foldlM AxlTarWriter.call w = some w') (hw : w.written < 2 ^ 64) :
    ∃ body, Body calls body ∧ w'.out = w.out ++ body ∧
      w'.written = (w.written + (calls.map Call.blocks).sum) % 2 ^ 64 := by
  induction calls generalizing w with
  | nil =>
    cases h
    refine ⟨[], .nil, (append_nil _).symm, ?_⟩
    rw [map_nil, sum_nil, Nat.add_zero, Nat.mod_eq_of_lt hw]
  | cons c cs ih =>
    rw [foldlM_cons] at h
    obtain ⟨v, hv, hrest⟩ := Option.bind_eq_some_iff.mp h
    obtain ⟨name, pfx, hsplit, hout, hwritten⟩ := call_spec hv
    obtain ⟨body, hbody, hout', hwritten'⟩ := ih hrest (by
      rw [hwritten]
      exact Nat.mod_lt _ (by decide))
    refine ⟨_, .cons hsplit hbody, ?_, ?_⟩
    · rw [hout', hout, append_assoc]
    · rw [hwritten', hwritten, Nat.mod_add_mod, map_cons, sum_cons, Nat.add_assoc]

theorem padRecord_out {fuel recpad : Nat} (h : recpad ≤ fuel) (w : AxlTarWriter) :
    (padRecord fuel recpad w).out = w.out ++ List.replicate recpad 0 := by
  induction fuel generalizing recpad w with
  | zero =>
    have : recpad = 0 := by omega
    subst this
    exact (append_nil _).symm
  | succ fuel ih =>
    unfold padRecord
    split
    · rename_i hpos
      dsimp only
      have hchunk : (if recpad < tarBlock then recpad else tarBlock) ≤ recpad ∧
          0 < (if recpad < tarBlock then recpad else tarBlock) := by
        split
        · omega
        · simp only [tarBlock] at *
          omega
      rw [ih (by omega), AxlTarWriter.write, append_assoc, replicate_append_replicate,
        Nat.add_sub_cancel' hchunk.1]
    · have : recpad = 0 := by omega
      subst this
      exact (append_nil _).symm

/-- The calls that are not refused: the path can be split, and that of a directory fits
the buffer in which it gets its slash. -/
def Call.Fits : Call → Prop
  | .add name _ _ => splitName name.1 ≠ none
  | .addDir name _ => name.1.length + 2 ≤ tarNameMax ∧ splitName (dirName name.1) ≠ none

theorem call_isSome_iff (w : AxlTarWriter) (c : Call) : (w.call c).isSome = true ↔ c.Fits := by
  have hheader : ∀ path mode size type, (writeHeader w path mode size type).isSome = true ↔
      splitName path ≠ none := by
    intro path mode size type
    unfold writeHeader
    cases splitName path with
    | none => simp
    | some parts => simp
  cases c with
  | add name mode data =>
    unfold Call.Fits AxlTarWriter.call AxlTarWriter.add
    dsimp only
    rw [← hheader name.1 mode.toNat data.length typeFile]
    cases writeHeader w name.1 mode.toNat data.length typeFile with
    | none => rfl
    | some v =>
      dsimp only
      split
      · rfl
      · rfl
  | addDir name mode =>
    unfold Call.Fits AxlTarWriter.call AxlTarWriter.addDir
    dsimp only
    split
    · rename_i hlong
      constructor
      · intro h
        cases h
      · rintro ⟨hshort, -⟩
        omega
    · rename_i hshort
      rw [hheader]
      exact ⟨fun h => ⟨by omega, h⟩, fun h => h.2⟩

theorem exists_archive {calls : List Call} (h : ∀ c ∈ calls, c.Fits) :
    ∃ bytes, archive calls = some bytes := by
  have hrun : ∀ w : AxlTarWriter, ∃ w', calls.foldlM AxlTarWriter.call w = some w' := by
    induction calls with
    | nil => exact fun w => ⟨w, rfl⟩
    | cons c cs ih =>
      intro w
      obtain ⟨v, hv⟩ := Option.isSome_iff_exists.mp
        ((call_isSome_iff w c).mpr (h c mem_cons_self))
      obtain ⟨w', hw'⟩ := ih (fun c' hc' => h c' (mem_cons_of_mem _ hc')) v
      refine ⟨w', ?_⟩
      rw [foldlM_cons, hv]
      exact hw'
  obtain ⟨w, hw⟩ := hrun AxlTarWriter.new
  exact ⟨w.finish.out, by rw [archive, hw]; rfl⟩

/-- The zeros that follow the entries of an archive of `size` bytes. -/
def recordPad (size : Nat) : Nat :=
  if size % 2 ^ 64 % tarRecord = 0 then 0 else tarRecord - size % 2 ^ 64 % tarRecord

theorem archive_spec {calls : List Call} {bytes : List UInt8} (h : archive calls = some bytes) :
    ∃ body, Body calls body ∧
      bytes = body ++ (List.replicate tarBlock 0 ++
        List.replicate (tarBlock + recordPad (archiveSize calls)) 0) := by
  unfold archive at h
  obtain ⟨w, hw, rfl⟩ := Option.map_eq_some_iff.mp h
  obtain ⟨body, hbody, hout, hwritten⟩ := calls_spec hw (by decide)
  refine ⟨body, hbody, ?_⟩
  unfold AxlTarWriter.finish
  dsimp only
  rw [padRecord_out (Nat.le_refl _)]
  simp only [AxlTarWriter.write, length_replicate]
  have hcount : ((w.written + tarBlock) % 2 ^ 64 + tarBlock) % 2 ^ 64
      = archiveSize calls % 2 ^ 64 := by
    rw [hwritten, archiveSize, Nat.mod_add_mod, Nat.add_assoc, Nat.mod_add_mod,
      AxlTarWriter.new, Nat.zero_add, Nat.two_mul]
  rw [hcount, hout, ← recordPad]
  simp only [AxlTarWriter.new, nil_append, append_assoc, replicate_append_replicate,
    Nat.add_assoc]

/-! ## Reading -/

theorem skipLoop_eq {fuel skip : Nat} (hfuel : skip ≤ fuel) {input : List UInt8}
    (hlen : skip ≤ input.length) : skipLoop fuel skip input = input.drop skip := by
  induction fuel generalizing skip input with
  | zero =>
    have : skip = 0 := by omega
    subst this
    rfl
  | succ fuel ih =>
    unfold skipLoop
    split
    · rename_i hpos
      dsimp only
      have hchunk : (if tarBlock < skip then tarBlock else skip) ≤ skip ∧
          0 < (if tarBlock < skip then tarBlock else skip) := by
        split
        · simp only [tarBlock] at *
          omega
        · omega
      have hn : (input.take (if tarBlock < skip then tarBlock else skip)).length
          = if tarBlock < skip then tarBlock else skip := by
        rw [length_take]
        omega
      rw [hn, if_neg (by omega), ih (by omega) (by rw [length_drop]; omega), drop_drop,
        Nat.add_sub_cancel' hchunk.1]
    · have : skip = 0 := by omega
      subst this
      rfl

/-- The reader is done with the bytes `skip` and the archive goes on with `rest`. -/
def AxlTarReader.At (r : AxlTarReader) (rest : List UInt8) : Prop :=
  ∃ skip, r.input = skip ++ rest ∧ skip.length = r.remaining + r.pad

theorem next_at {r : AxlTarReader} {rest : List UInt8} (h : r.At rest) :
    r.next = match decodeHeader (rest.take tarBlock) with
      | none => none
      | some entry => some (entry, ⟨rest.drop tarBlock, entry.size, padding entry.size⟩) := by
  obtain ⟨skip, hinput, hlen⟩ := h
  have hle : r.remaining + r.pad ≤ r.input.length := by
    rw [hinput, length_append]
    omega
  have hskip : skipLoop (r.remaining + r.pad) (r.remaining + r.pad) r.input = rest := by
    rw [skipLoop_eq (Nat.le_refl _) hle, hinput, drop_left' hlen]
  unfold AxlTarReader.next
  dsimp only
  rw [hskip]

/-- One read takes the next bytes of the data. -/
theorem read_spec (data pad rest : List UInt8) (len : Nat) :
    (⟨data ++ (pad ++ rest), data.length, pad.length⟩ : AxlTarReader).read len
      = (data.take len, ⟨data.drop len ++ (pad ++ rest), (data.drop len).length, pad.length⟩) := by
  unfold AxlTarReader.read
  dsimp only
  by_cases hempty : data.length = 0
  · have hnil : data = [] := length_eq_zero_iff.mp hempty
    subst hnil
    rw [if_pos hempty, take_nil, drop_nil]
  rw [if_neg hempty]
  split
  · rename_i hlt
    rw [take_left' rfl, drop_left' rfl, Nat.sub_self,
      take_of_length_le (Nat.le_of_lt hlt), drop_eq_nil_of_le (Nat.le_of_lt hlt)]
    rfl
  · rename_i hlt
    rw [take_append_of_le_length (by omega), drop_append_of_le_length (by omega),
      length_take, length_drop, Nat.min_eq_left (by omega)]

theorem reads_spec (data pad rest : List UInt8) (lens : List Nat) :
    (⟨data ++ (pad ++ rest), data.length, pad.length⟩ : AxlTarReader).reads lens
      = (data.take lens.sum,
        ⟨data.drop lens.sum ++ (pad ++ rest), (data.drop lens.sum).length, pad.length⟩) := by
  induction lens generalizing data with
  | nil => rw [AxlTarReader.reads, sum_nil, take_zero, drop_zero]
  | cons len lens ih =>
    unfold AxlTarReader.reads
    rw [read_spec]
    dsimp only
    rw [ih]
    dsimp only
    rw [sum_cons, drop_drop, take_add]

/-- The entry that the reader finds for a call. -/
def Call.found (c : Call) : AxlTarEntry :=
  ⟨readName c.path, c.data.length % 8 ^ 11, c.mode % 0o10000, c.type⟩

theorem found_eq_entry_iff (c : Call) : c.found = c.entry ↔ c.Kept := by
  unfold Call.found Call.entry Call.Kept readName
  rw [AxlTarEntry.mk.injEq]
  constructor
  · rintro ⟨hname, hsize, -, -⟩
    refine ⟨?_, fun hlead => ?_⟩
    · rw [← hsize]
      exact Nat.mod_lt _ (by decide)
    · rw [if_pos hlead] at hname
      have hlen := congrArg List.length hname
      rw [length_tail, hlead.1] at hlen
      omega
  · rintro ⟨hsize, hlead⟩
    exact ⟨if_neg hlead, Nat.mod_eq_of_lt hsize, rfl, rfl⟩

/-- The reader finds the header of the next call. -/
theorem next_call {r : AxlTarReader} {c : Call} {name pfx rest : List UInt8}
    (hsplit : splitName c.path = some (name, pfx)) (hat : r.At (c.bytes name pfx ++ rest)) :
    r.next = some (c.found,
      ⟨c.data ++ (List.replicate (padding c.data.length) 0 ++ rest), c.data.length % 8 ^ 11,
        padding (c.data.length % 8 ^ 11)⟩) := by
  obtain ⟨hname, hpfx, -⟩ := splitName_spec hsplit
  have hlen := length_encodeHeader hname hpfx c.mode c.data.length c.type
  rw [next_at hat, Call.bytes, append_assoc, take_left' hlen, drop_left' hlen,
    decodeHeader_encodeHeader hsplit c.path_nul _ _ c.type_ne]
  dsimp only [Call.found]
  rw [append_assoc]

/-- The calls that are kept are read back, whatever is read of them. -/
theorem readAll_kept {plan : Nat → List Nat} {calls : List Call} {body : List UInt8}
    (hbody : Body calls body) (hkept : ∀ c ∈ calls, c.Kept) {zeros : List UInt8}
    {fuel i : Nat} {r : AxlTarReader} (hfuel : calls.length < fuel)
    (hat : r.At (body ++ (List.replicate tarBlock 0 ++ zeros))) :
    readAll plan fuel i r = asked plan i calls := by
  induction hbody generalizing fuel i r with
  | nil =>
    obtain _ | fuel := fuel
    · omega
    have hend : decodeHeader (List.replicate tarBlock 0) = none := by
      unfold decodeHeader
      rw [if_neg (by rw [length_replicate]; simp), if_pos]
      rw [all_eq_true]
      intro b hb
      rw [eq_of_mem_replicate hb]
      rfl
    rw [readAll, next_at hat, nil_append, take_left' length_replicate, hend]
    rfl
  | @cons c cs name pfx body hsplit hrest ih =>
    obtain _ | fuel := fuel
    · omega
    have hc := hkept c mem_cons_self
    rw [append_assoc] at hat
    have hnext := next_call hsplit hat
    rw [Nat.mod_eq_of_lt hc.1] at hnext
    have hreads := reads_spec c.data (List.replicate (padding c.data.length) 0)
      (body ++ (List.replicate tarBlock 0 ++ zeros)) (plan i)
    rw [length_replicate] at hreads
    rw [readAll, hnext]
    dsimp only
    rw [hreads, (found_eq_entry_iff c).mpr hc, asked]
    refine congrArg _ (ih (fun c' hc' => hkept c' (mem_cons_of_mem _ hc'))
      (by rw [length_cons] at hfuel; omega) ?_)
    refine ⟨c.data.drop (plan i).sum ++ List.replicate (padding c.data.length) 0, ?_, ?_⟩
    · rw [append_assoc]
    · rw [length_append, length_replicate]

/-- A call that is not kept is found changed. -/
theorem readAll_lost {calls : List Call} {body : List UInt8} (hbody : Body calls body)
    (hlost : ∃ c ∈ calls, ¬ c.Kept) {rest : List UInt8} {fuel i : Nat} {r : AxlTarReader}
    (hfuel : calls.length < fuel) (hat : r.At (body ++ rest)) :
    readAll (fun _ => []) fuel i r ≠ asked (fun _ => []) i calls := by
  induction hbody generalizing fuel i r with
  | nil =>
    obtain ⟨c, hc, -⟩ := hlost
    cases hc
  | @cons c cs name pfx body hsplit hrest ih =>
    obtain _ | fuel := fuel
    · omega
    rw [append_assoc] at hat
    have hnext := next_call hsplit hat
    rw [readAll, hnext]
    dsimp only [AxlTarReader.reads]
    rw [asked, ne_eq, List.cons.injEq, Prod.mk.injEq, found_eq_entry_iff]
    rintro ⟨⟨hc, -⟩, htail⟩
    obtain ⟨c', hc', hnot⟩ := hlost
    have hlater : ∃ c' ∈ cs, ¬ c'.Kept := by
      rcases mem_cons.mp hc' with rfl | hmem
      · exact absurd hc hnot
      · exact ⟨c', hmem, hnot⟩
    refine ih hlater (by rw [length_cons] at hfuel; omega) ?_ htail
    refine ⟨c.data ++ List.replicate (padding c.data.length) 0, ?_, ?_⟩
    · rw [append_assoc]
    · rw [Nat.mod_eq_of_lt hc.1, length_append, length_replicate]

theorem recordPad_spec (size : Nat) : ∃ k, size % 2 ^ 64 + recordPad size = tarRecord * k := by
  unfold recordPad
  generalize size % 2 ^ 64 = count
  have hdiv := Nat.div_add_mod count tarRecord
  split
  · rename_i hzero
    exact ⟨count / tarRecord, by omega⟩
  · have hlt : count % tarRecord < tarRecord := Nat.mod_lt _ (by decide)
    refine ⟨count / tarRecord + 1, ?_⟩
    rw [Nat.mul_succ]
    omega

/-- Whole records: the count is taken modulo `2 ^ 64`, which is no multiple of a record. -/
theorem record_iff (size : Nat) :
    (size + recordPad size) % tarRecord = 0 ↔ size / 2 ^ 64 % 5 = 0 := by
  obtain ⟨k, hk⟩ := recordPad_spec size
  have hdiv := Nat.div_add_mod size (2 ^ 64)
  have hwrap : 2 ^ 64 = tarRecord * 1801439850948198 + 4096 := by decide
  generalize size / 2 ^ 64 = q at hdiv ⊢
  have hsum : size + recordPad size = 4096 * q + tarRecord * (1801439850948198 * q + k) := by
    rw [Nat.mul_add, ← hk, ← Nat.mul_assoc]
    rw [hwrap, Nat.add_mul] at hdiv
    rw [← hwrap] at hdiv
    omega
  rw [hsum, Nat.add_mul_mod_self_left, show tarRecord = 10240 from rfl]
  omega

/-- An archive with a call that is not kept is not read back as it was asked for. -/
theorem not_roundTrips {calls : List Call} {bytes : List UInt8} (h : archive calls = some bytes)
    (hlost : ∃ c ∈ calls, ¬ c.Kept) : ¬ RoundTrips calls bytes := by
  rintro ⟨-, hread⟩
  obtain ⟨body, hbody, rfl⟩ := archive_spec h
  exact readAll_lost hbody hlost (Nat.lt_succ_self _) ⟨[], rfl, rfl⟩
    (hread (fun _ => []) _ (Nat.lt_succ_self _))

/-- An archive is read back as it was asked for if and only if every entry has fewer
than `8 ^ 11` bytes, no path of 101 bytes starts with a slash, and the count of the
bytes written was right up to a multiple of a record. -/
theorem roundTrips_iff (calls : List Call) (bytes : List UInt8) (h : archive calls = some bytes) :
    RoundTrips calls bytes ↔
      (∀ c ∈ calls, c.Kept) ∧ archiveSize calls / 2 ^ 64 % 5 = 0 := by
  have hlost := not_roundTrips h
  obtain ⟨body, hbody, rfl⟩ := archive_spec h
  have hlen : (body ++ (List.replicate tarBlock 0 ++
      List.replicate (tarBlock + recordPad (archiveSize calls)) 0)).length
        = archiveSize calls + recordPad (archiveSize calls) := by
    rw [length_append, length_append, length_replicate, length_replicate,
      hbody.length, archiveSize]
    omega
  have hstart : ∀ rest, (⟨rest, 0, 0⟩ : AxlTarReader).At rest := fun rest => ⟨[], rfl, rfl⟩
  constructor
  · intro hround
    refine ⟨fun c hc => ?_, ?_⟩
    · by_contra hnot
      exact hlost ⟨c, hc, hnot⟩ hround
    · rw [← record_iff, ← hlen]
      exact hround.1
  · rintro ⟨hkept, hrecord⟩
    refine ⟨?_, fun plan fuel hfuel => readAll_kept hbody hkept hfuel (hstart _)⟩
    rw [hlen, record_iff]
    exact hrecord

/-- A file and a directory. -/
def sampleCalls : List Call :=
  [.add ⟨[0x61, 0x2f, 0x62], by decide⟩ 0o644 [1, 2, 3], .addDir ⟨[0x61], by decide⟩ 0o755]

theorem roundTrips_sample : ∃ bytes, archive sampleCalls = some bytes ∧
    RoundTrips sampleCalls bytes := by
  have hfits : ∀ c ∈ sampleCalls, c.Fits := by
    intro c hc
    rcases mem_cons.mp hc with rfl | hc
    · exact (by decide : splitName [0x61, 0x2f, 0x62] ≠ none)
    · rw [mem_singleton.mp hc]
      exact ⟨by decide, (by decide : splitName [0x61, 0x2f] ≠ none)⟩
  obtain ⟨bytes, h⟩ := exists_archive hfits
  refine ⟨bytes, h, (roundTrips_iff sampleCalls bytes h).mpr ⟨?_, by decide⟩⟩
  unfold Call.Kept
  decide

/-- A path of 101 bytes with a leading slash. -/
def slashPath : CString :=
  ⟨slash :: List.replicate 100 0x61, by
    rw [mem_cons, mem_replicate]
    decide⟩

def slashCall : Call := .add slashPath 0o644 []

theorem slashPath_lead : slashPath.1.length = 101 ∧ slashPath.1.head? = some slash := by
  unfold slashPath
  refine ⟨?_, head?_cons⟩
  rw [length_cons, length_replicate]

theorem slashCall_fits : slashCall.Fits := by
  unfold slashCall Call.Fits
  dsimp only
  rw [splitName, if_neg (by rw [slashPath_lead.1]; decide), if_neg (by rw [slashPath_lead.1]; decide),
    splitIndex_lead slashPath_lead.1 slashPath_lead.2]
  exact Option.some_ne_none _

theorem slashCall_not_kept : ¬ slashCall.Kept := by
  rintro ⟨-, hkept⟩
  exact hkept slashPath_lead

/-- The call succeeds, and its entry has lost the slash. -/
theorem leading_slash_lost : ∃ bytes, archive [slashCall] = some bytes ∧
    ¬ RoundTrips [slashCall] bytes := by
  have hfits : ∀ c ∈ [slashCall], c.Fits := by
    intro c hc
    rw [mem_singleton.mp hc]
    exact slashCall_fits
  obtain ⟨bytes, h⟩ := exists_archive hfits
  exact ⟨bytes, h, not_roundTrips h ⟨slashCall, mem_singleton_self _, slashCall_not_kept⟩⟩

end Tar

end AxlSdk
