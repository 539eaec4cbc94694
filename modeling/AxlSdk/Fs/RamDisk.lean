import AxlSdk.Lib.Fat

/-!
# Formatting a RAM disk (`axl-ramdisk.c`)

- `formatDisk`: the stores into the disk, in the order the source makes them.
- `format_disk_iff`: for which sizes the disk becomes a FAT volume.

The disk has zeros before. Its size is given in sectors of 512 bytes.
-/

namespace AxlSdk

namespace RamDisk

open Fat List

/-- The bytes of a text or a field. -/
def bytes (l : List UInt8) : Nat → UInt8 := fun i => l.getD i 0

/-- `"MKRD    "` -/
def oemName : List UInt8 := [0x4D, 0x4B, 0x52, 0x44, 0x20, 0x20, 0x20, 0x20]

/-- The thresholds of `fat16_sec_per_clus`, without the terminator. -/
def secPerClusTable : List (Nat × Nat) :=
  [(0x800, 1), (0x1000, 1), (0x1800, 1), (0x7FA8, 2), (0x40000, 4), (0x80000, 8), (0x100000, 16)]

/-- `fat16_sec_per_clus` -/
def fat16SecPerClus (totalSectors : Nat) : Nat :=
  match secPerClusTable.find? fun e => totalSectors ≤ e.1 with
  | some e => e.2
  | none => 0

/-- A difference of `uint32_t`. -/
def sub32 (a b : Nat) : Nat := (a + 2 ^ 32 - b) % 2 ^ 32

/-- `fat_sz` of `format_fat16`, in its widths. -/
def fat16FatSz (totalSec : Nat) : Nat :=
  let tmp1 := sub32 totalSec 33
  let tmp2 := 256 * fat16SecPerClus totalSec + 2
  (tmp1 + tmp2 - 1) % 2 ^ 32 / tmp2 % 2 ^ 16

/-- `format_fat16`: the boot sector. -/
def boot16 (totalSec : Nat) (label : Nat → UInt8) : List Op :=
  [.put 0 3 (bytes [0xEB, 0x00, 0x90]),
    .put 3 8 (bytes oemName),
    -- bytes_per_sec, sec_per_clus, rsvd_sec_cnt, num_fats, root_ent_cnt, media, fat_sz16
    .put 11 2 (bytesOf 512),
    .put 13 1 (bytesOf (fat16SecPerClus totalSec)),
    .put 14 2 (bytesOf 1),
    .put 16 1 (bytesOf 2),
    .put 17 2 (bytesOf 512),
    .put 21 1 (bytesOf 0xF8),
    .put 22 2 (bytesOf (fat16FatSz totalSec)),
    -- tot_sec16 or tot_sec32
    if totalSec ≤ 0xFFFF then .put 19 2 (bytesOf totalSec) else .put 32 4 (bytesOf totalSec),
    .put 36 3 (bytes [0x80, 0, 0x29]),
    .put 39 4 (bytes [0x4D, 0x4B, 0x52, 0x44]),
    .put 43 11 label,
    .put 54 8 (bytes [0x46, 0x41, 0x54, 0x31, 0x36, 0x20, 0x20, 0x20]),
    .put 510 2 (bytes [0x55, 0xAA])]

/-- The offset of a sector. -/
def off16 (sector : Nat) : Nat := sector * 512

/-- `format_fat16`: the tables and the root directory. -/
def area16 (fatSz : Nat) (label : Nat → UInt8) : List Op :=
  [.put (off16 1) 4 (bytes [0xF8, 0xFF, 0xFF, 0xFF]),
    .put (off16 (1 + fatSz)) 4 (bytes [0xF8, 0xFF, 0xFF, 0xFF]),
    .put (off16 (1 + 2 * fatSz)) 11 label,
    .put (off16 (1 + 2 * fatSz) + 11) 1 (bytesOf 0x08)]

/-- `format_fat16` -/
def formatFat16 (diskBytes : Nat) (label : Nat → UInt8) : List Op :=
  let totalSec := diskBytes / 512 % 2 ^ 32
  boot16 totalSec label ++ area16 (fat16FatSz totalSec) label

/-- `spc` of `format_fat32`. -/
def fat32SecPerClus (totalSec : Nat) : Nat :=
  let diskMb := totalSec * 512 / (1024 * 1024)
  if diskMb ≤ 260 then 1 else if diskMb ≤ 8192 then 8 else 16

/-- `fat_sz` of `format_fat32`. -/
def fat32FatSz (totalSec : Nat) : Nat :=
  let tmp1 := sub32 totalSec 32
  let tmp2 := (256 * fat32SecPerClus totalSec + 2) / 2
  (tmp1 + tmp2 - 1) % 2 ^ 32 / tmp2

/-- `format_fat32`: the boot sector. -/
def boot32 (totalSec : Nat) (label : Nat → UInt8) : List Op :=
  [.put 0 3 (bytes [0xEB, 0x58, 0x90]),
    .put 3 8 (bytes oemName),
    -- bytes_per_sec, sec_per_clus, rsvd_sec_cnt, num_fats, media, sec_per_trk, num_heads
    .put 11 2 (bytesOf 512),
    .put 13 1 (bytesOf (fat32SecPerClus totalSec)),
    .put 14 2 (bytesOf 32),
    .put 16 1 (bytesOf 2),
    .put 21 1 (bytesOf 0xF8),
    .put 24 2 (bytesOf 63),
    .put 26 2 (bytesOf 255),
    -- tot_sec32, fat_sz32, root_clus, fs_info, bk_boot_sec
    .put 32 4 (bytesOf totalSec),
    .put 36 4 (bytesOf (fat32FatSz totalSec)),
    .put 44 4 (bytesOf 2),
    .put 48 2 (bytesOf 1),
    .put 50 2 (bytesOf 6),
    -- drv_num, boot_sig, vol_id, vol_lab, fil_sys_type, signature
    .put 64 1 (bytesOf 0x80),
    .put 66 1 (bytesOf 0x29),
    .put 67 4 (bytesOf 0x4D4B5244),
    .put 71 11 label,
    .put 82 8 (bytes [0x46, 0x41, 0x54, 0x33, 0x32, 0x20, 0x20, 0x20]),
    .put 510 2 (bytesOf 0xAA55)]

/-- `free_count` -/
def freeCount (totalSec : Nat) : Nat :=
  sub32 (sub32 totalSec (32 + 2 * fat32FatSz totalSec) / fat32SecPerClus totalSec) 1

/-- `format_fat32`: the `FSInfo` sector. -/
def info32 (totalSec : Nat) : List Op :=
  [.put 512 4 (bytesOf 0x41615252),
    .put 996 4 (bytesOf 0x61417272),
    .put 1000 4 (bytesOf (freeCount totalSec)),
    .put 1004 4 (bytesOf 3),
    .put 1020 4 (bytesOf 0xAA550000)]

/-- The first three entries of a table. -/
def head32 (off : Nat) : List Op :=
  [.put off 4 (bytesOf 0x0FFFFFF8), .put (off + 4) 4 (bytesOf 0x0FFFFFFF),
    .put (off + 8) 4 (bytesOf 0x0FFFFFFF)]

/-- The offset of a sector, in 32 bits. -/
def off32 (sector : Nat) : Nat := sector * 512 % 2 ^ 32

/-- `format_fat32`: the tables and the root directory. -/
def area32 (fatSz : Nat) (label : Nat → UInt8) : List Op :=
  head32 (off32 32) ++ head32 (off32 (32 + fatSz)) ++
    [.put (off32 (32 + 2 * fatSz)) 11 label, .put (off32 (32 + 2 * fatSz) + 11) 1 (bytesOf 0x08)]

/-- `format_fat32` -/
def formatFat32 (diskBytes : Nat) (label : Nat → UInt8) : List Op :=
  let totalSec := diskBytes / 512 % 2 ^ 32
  boot32 totalSec label ++ .copy (6 * 512) 0 512 :: info32 totalSec ++
    .copy (7 * 512) 512 512 :: area32 (fat32FatSz totalSec) label

/-- `format_disk` -/
def formatDisk (diskBytes : Nat) (label : Nat → UInt8) : List Op :=
  if diskBytes / (1024 * 1024) ≤ 512 then formatFat16 diskBytes label
  else formatFat32 diskBytes label

/-- The disk after it was formatted. -/
def formatted (totalSec : Nat) (label : Nat → UInt8) : Disk :=
  run (fun _ => 0) (formatDisk (totalSec * 512) label)

/-! ## The boot sector of FAT16 -/

/-- Where a field of the boot sector has a value. -/
def Field (d : Disk) (off len n : Nat) : Prop := ∀ i < len, d (off + i) = bytesOf n i

theorem Field.le16 {d : Disk} {off n : Nat} (h : Field d off 2 n) (hn : n < 65536) :
    le16 d off = n :=
  le16_of (h 0 (by decide)) (h 1 (by decide)) hn

theorem Field.le32 {d : Disk} {off n : Nat} (h : Field d off 4 n) (hn : n < 2 ^ 32) :
    le32 d off = n :=
  le32_of h hn

theorem Field.byte {d : Disk} {off n : Nat} (h : Field d off 1 n) (hn : n < 256) :
    (d off).toNat = n := by
  have := h 0 (by decide)
  rw [Nat.add_zero] at this
  rw [this, bytesOf, pow_zero, Nat.div_one, UInt8.toNat_ofNat']
  omega

theorem Field.of_eq {d d' : Disk} {off len n : Nat} (h : Field d off len n)
    (he : ∀ i, off ≤ i → i < off + len → d' i = d i) : Field d' off len n := fun i hi => by
  rw [he _ (Nat.le_add_right off i) (by omega), h i hi]

theorem Field.congr {d d' : Disk} {off len n : Nat} (h : Field d off len n)
    (he : ∀ i < 512, d' i = d i) (hoff : off + len ≤ 512) : Field d' off len n :=
  h.of_eq fun i _ hi => he i (by omega)

/-- The fields of `format_fat16`. -/
theorem boot16_put (totalSec : Nat) (label : Nat → UInt8) :
    let d := run (fun _ => 0) (boot16 totalSec label)
    Field d 11 2 512 ∧ Field d 13 1 (fat16SecPerClus totalSec) ∧ Field d 14 2 1 ∧ Field d 16 1 2 ∧
      Field d 17 2 512 ∧ Field d 22 2 (fat16FatSz totalSec) ∧ Field d 510 2 0xAA55 ∧
      (totalSec ≤ 0xFFFF → Field d 19 2 totalSec) ∧
      (¬ totalSec ≤ 0xFFFF → Field d 19 2 0 ∧ Field d 32 4 totalSec) := by
  by_cases hT : totalSec ≤ 0xFFFF
  · simp only [boot16, if_pos hT]
    refine ⟨?_, ?_, ?_, ?_, ?_, ?_, ?_, fun _ => ?_, fun h => absurd hT h⟩ <;> intro i hi <;>
      interval_cases i <;> rfl
  · simp only [boot16, if_neg hT]
    refine ⟨?_, ?_, ?_, ?_, ?_, ?_, ?_, fun h => absurd h hT, fun _ => ⟨?_, ?_⟩⟩ <;> intro i hi <;>
      interval_cases i <;> rfl

theorem zero_field {d : Disk} {o : Nat} (h0 : d o = 0) (h1 : d (o + 1) = 0) : le16 d o = 0 := by
  simp [le16, h0, h1]

/-! ## The tables of FAT16 -/

/-- The disk from the first table to the root directory. -/
theorem area16_byte {fatSz : Nat} (label : Nat → UInt8) (d : Disk) {i : Nat}
    (hi : i < off16 (1 + 2 * fatSz)) :
    run d (area16 fatSz label) i =
      if off16 (1 + fatSz) ≤ i ∧ i < off16 (1 + fatSz) + 4 then
        bytes [0xF8, 0xFF, 0xFF, 0xFF] (i - off16 (1 + fatSz))
      else if off16 1 ≤ i ∧ i < off16 1 + 4 then bytes [0xF8, 0xFF, 0xFF, 0xFF] (i - off16 1)
      else d i := by
  simp only [area16, run, foldl_cons, foldl_nil, Op.run]
  rw [if_neg (by omega), if_neg (by omega)]

/-- Either table is its first four bytes. -/
theorem area16_tables {fatSz : Nat} (label : Nat → UInt8) {i : Nat} (hi : i < fatSz * 512) :
    run (fun _ => 0) (area16 fatSz label) (off16 1 + i) =
        (if i < 4 then bytes [0xF8, 0xFF, 0xFF, 0xFF] i else 0) ∧
      run (fun _ => 0) (area16 fatSz label) (off16 (1 + fatSz) + i) =
        (if i < 4 then bytes [0xF8, 0xFF, 0xFF, 0xFF] i else 0) := by
  have hroot : off16 (1 + 2 * fatSz) = off16 (1 + fatSz) + fatSz * 512 := by
    unfold off16
    ring
  have h2 : off16 (1 + fatSz) = off16 1 + fatSz * 512 := by
    unfold off16
    ring
  rw [area16_byte label _ (by omega), area16_byte label _ (by omega)]
  constructor
  · rw [if_neg (by omega), Nat.add_sub_cancel_left]
    by_cases h4 : i < 4
    · rw [if_pos ⟨Nat.le_add_right _ i, by omega⟩, if_pos h4]
    · rw [if_neg (by omega), if_neg h4]
  · rw [Nat.add_sub_cancel_left]
    by_cases h4 : i < 4
    · rw [if_pos ⟨Nat.le_add_right _ i, by omega⟩, if_pos h4]
    · rw [if_neg (by omega), if_neg (by omega), if_neg h4]

/-- What `format_fat16` leaves, as a reader sees it. -/
structure Written16 (totalSec : Nat) (d : Disk) : Prop where
  signature : le16 d 510 = 0xAA55
  sector : bytsPerSec d = 512
  cluster : secPerClus d = fat16SecPerClus totalSec
  reserved : rsvdSecCnt d = 1
  fats : numFATs d = 2
  rootEnt : rootEntCnt d = 512
  fatSz : fatSz16 d = fat16FatSz totalSec
  size : totSec d = totalSec

theorem fat16SecPerClus_eq (totalSec : Nat) : fat16SecPerClus totalSec =
    if totalSec ≤ 0x1800 then 1 else if totalSec ≤ 0x7FA8 then 2 else if totalSec ≤ 0x40000 then 4
    else if totalSec ≤ 0x80000 then 8 else if totalSec ≤ 0x100000 then 16 else 0 := by
  simp only [fat16SecPerClus, secPerClusTable, find?_cons, find?_nil]
  by_cases h0 : totalSec ≤ 0x800
  · simp [h0, show totalSec ≤ 0x1800 by omega]
  by_cases h1 : totalSec ≤ 0x1000
  · simp [h0, h1, show totalSec ≤ 0x1800 by omega]
  by_cases h2 : totalSec ≤ 0x1800
  · simp [h0, h1, h2]
  by_cases h3 : totalSec ≤ 0x7FA8
  · simp [h0, h1, h2, h3]
  by_cases h4 : totalSec ≤ 0x40000
  · simp [h0, h1, h2, h3, h4]
  by_cases h5 : totalSec ≤ 0x80000
  · simp [h0, h1, h2, h3, h4, h5]
  by_cases h6 : totalSec ≤ 0x100000
  · simp [h0, h1, h2, h3, h4, h5, h6]
  · simp [h0, h1, h2, h3, h4, h5, h6]

theorem fat16SecPerClus_lt (totalSec : Nat) : fat16SecPerClus totalSec < 256 := by
  rw [fat16SecPerClus_eq]
  split_ifs <;> decide

theorem written16 {totalSec : Nat} {d : Disk} {label : Nat → UInt8} (h0 : 0 < totalSec)
    (hlt : totalSec < 2 ^ 32)
    (hd : ∀ i < 512, d i = run (fun _ => 0) (boot16 totalSec label) i) : Written16 totalSec d := by
  obtain ⟨h11, h13, h14, h16, h17, h22, h510, hsmall, hbig⟩ := boot16_put totalSec label
  refine ⟨(h510.congr hd (by decide)).le16 (by decide), (h11.congr hd (by decide)).le16 (by decide),
    (h13.congr hd (by decide)).byte (fat16SecPerClus_lt totalSec),
    (h14.congr hd (by decide)).le16 (by decide), (h16.congr hd (by decide)).byte (by decide),
    (h17.congr hd (by decide)).le16 (by decide),
    (h22.congr hd (by decide)).le16 (Nat.mod_lt _ (by decide)), ?_⟩
  unfold totSec totSec16 totSec32
  by_cases hT : totalSec ≤ 0xFFFF
  · rw [((hsmall hT).congr hd (by decide)).le16 (by omega), if_pos (by omega)]
  · rw [((hbig hT).1.congr hd (by decide)).le16 (by decide), if_neg (not_not.mpr rfl),
      ((hbig hT).2.congr hd (by decide)).le32 hlt]

section
variable {totalSec : Nat} {d : Disk} (w : Written16 totalSec d)
include w

theorem Written16.firstData : firstRootSector d = 1 + 2 * Fat.fatSz d ∧ rootDirSectors d = 32 ∧
    firstDataSector d = 33 + 2 * Fat.fatSz d := by
  have hroot : firstRootSector d = 1 + 2 * Fat.fatSz d := by
    rw [firstRootSector, w.reserved, w.fats]
  have hsec : rootDirSectors d = 32 := by rw [rootDirSectors, w.rootEnt, w.sector]
  refine ⟨hroot, hsec, ?_⟩
  rw [firstDataSector, hroot, hsec]
  omega

theorem Written16.kind (hf : 0 < fat16FatSz totalSec) :
    Fat.kind d = .fat16 ∧ Fat.fatSz d = fat16FatSz totalSec := by
  have hne : fatSz16 d ≠ 0 := by
    rw [w.fatSz]
    omega
  exact ⟨if_neg hne, (if_pos hne).trans w.fatSz⟩

/-- The volume keeps the rules when the counts do. -/
theorem Written16.valid_iff {label : Nat → UInt8} (hf : 0 < fat16FatSz totalSec)
    (hd : ∀ i, 512 ≤ i → d i = run (fun _ => 0) (area16 (fat16FatSz totalSec) label) i) :
    Valid d (totalSec * 512) ↔
      (∃ k ≤ 7, fat16SecPerClus totalSec = 2 ^ k) ∧ 33 + 2 * fat16FatSz totalSec ≤ totalSec ∧
      4085 ≤ countOfClusters d ∧ countOfClusters d ≤ 65524 ∧
      countOfClusters d + 2 ≤ fat16FatSz totalSec * 256 := by
  obtain ⟨hroot, hsec, hdata⟩ := w.firstData
  obtain ⟨hkind, hsz⟩ := w.kind hf
  rw [hsz] at hroot hdata
  have hentries : Fat.entries d = fat16FatSz totalSec * 256 := by
    rw [Fat.entries, hkind, hsz, w.sector]
    dsimp only
    omega
  have hparts : parts d = [(0, 1), (1, fat16FatSz totalSec),
      (1 + fat16FatSz totalSec, fat16FatSz totalSec), (1 + 2 * fat16FatSz totalSec, 32),
      (33 + 2 * fat16FatSz totalSec, countOfClusters d * fat16SecPerClus totalSec)] := by
    rw [parts, w.reserved, hsz, hroot, hsec, hdata, w.cluster]
  have htable : table d 0 = off16 1 ∧ table d 1 = off16 (1 + fat16FatSz totalSec) := by
    simp only [table, w.reserved, w.sector, hsz, Nat.zero_mul, Nat.one_mul, off16, Nat.add_zero,
      and_self]
  have h512 : ∀ i, 512 ≤ off16 1 + i ∧ 512 ≤ off16 (1 + fat16FatSz totalSec) + i := fun i => by
    unfold off16
    omega
  have hcount : countOfClusters d * fat16SecPerClus totalSec ≤
      totalSec - (33 + 2 * fat16FatSz totalSec) := by
    rw [countOfClusters, w.size, hdata, w.cluster]
    exact Nat.div_mul_le_self _ _
  constructor
  · intro hv
    have hfit := hv.fits (33 + 2 * fat16FatSz totalSec, countOfClusters d * fat16SecPerClus totalSec)
      (by rw [hparts]; simp)
    have hrange := hv.range
    rw [hkind] at hrange
    have hent := hv.entries
    rw [hentries] at hent
    rw [w.size] at hfit
    exact ⟨by simpa [w.cluster] using hv.cluster, by omega, hrange.1, hrange.2, hent⟩
  · rintro ⟨hspc, hfit, hlo, hhi, hent⟩
    refine ⟨w.signature, w.sector, by rwa [w.cluster], ?_, w.fats, by rw [w.size], ?_, ?_, ?_, ?_,
      ?_, ?_, ?_, ?_⟩
    · rw [w.reserved]
      decide
    · rw [hparts]
      simp
      omega
    · rw [hparts, w.size]
      intro p hp
      simp only [mem_cons, not_mem_nil, or_false] at hp
      rcases hp with rfl | rfl | rfl | rfl | rfl <;> dsimp only <;> omega
    · rwa [hentries]
    · rw [hkind]
      exact ⟨hlo, hhi⟩
    · intro i hi
      rw [hsz, w.sector] at hi
      obtain ⟨h1, h2⟩ := area16_tables label hi
      rw [htable.1, htable.2, hd _ (h512 i).1, hd _ (h512 i).2, h1, h2]
    · intro c hc
      obtain ⟨hc2, hcn⟩ := Finset.mem_Ico.mp hc
      have hzero : ∀ i, 4 ≤ i → i < fat16FatSz totalSec * 512 → d (off16 1 + i) = 0 :=
        fun i h h' => by rw [hd _ (h512 i).1, (area16_tables label h').1, if_neg (by omega)]
      refine ⟨fun _ => by simp [hkind], fun _ => ?_⟩
      rw [entry, hkind, htable.1]
      have h0 := hzero (2 * c) (by omega) (by omega)
      have h1 := hzero (2 * c + 1) (by omega) (by omega)
      exact zero_field h0 h1
    · simp [hkind]
    · simp [hkind]

end

/-! ## The counts of FAT16 -/

/-- The sizes whose format is a valid volume, by the rows of the table: the data clusters are
as many as FAT16 has, and the table has an entry for each. Above 512 MiB there is no
condition. -/
def Formattable (totalSec : Nat) : Prop :=
  (4150 ≤ totalSec ∧ totalSec ≤ 6144 ∧ (totalSec - 34) % 258 < 256) ∨
  (8235 ≤ totalSec ∧ totalSec ≤ 32680 ∧ (totalSec - 34) % 514 < 511) ∨
  (32681 ≤ totalSec ∧ totalSec ≤ 262144 ∧ (totalSec - 34) % 1026 < 1021) ∨
  (262145 ≤ totalSec ∧ totalSec ≤ 524288 ∧ (totalSec - 34) % 2050 < 2041) ∨
  (524289 ≤ totalSec ∧ totalSec ≤ 1048576 ∧ (totalSec - 34) % 4098 < 4081) ∨
  1050624 ≤ totalSec

instance (totalSec : Nat) : Decidable (Formattable totalSec) := by
  unfold Formattable
  infer_instance

/-- The conditions on the counts, for a cluster of `spc` sectors and a table of `f`. -/
def Counts (totalSec spc f : Nat) : Prop :=
  33 + 2 * f ≤ totalSec ∧ 4085 ≤ (totalSec - (33 + 2 * f)) / spc ∧
    (totalSec - (33 + 2 * f)) / spc ≤ 65524 ∧ (totalSec - (33 + 2 * f)) / spc + 2 ≤ f * 256

theorem fat16FatSz_eq {totalSec s : Nat} (h : 2048 ≤ totalSec) (h' : totalSec ≤ 0x100000)
    (hs : fat16SecPerClus totalSec = s) (hpos : 0 < s) (hle : s ≤ 16) :
    fat16FatSz totalSec = (totalSec - 33 + (256 * s + 1)) / (256 * s + 2) := by
  have h1 : sub32 totalSec 33 = totalSec - 33 := by
    unfold sub32
    omega
  have h2 : (totalSec - 33 + (256 * s + 2) - 1) % 2 ^ 32 = totalSec - 33 + (256 * s + 1) := by
    omega
  have h3 : (totalSec - 33 + (256 * s + 1)) / (256 * s + 2) < 2 ^ 16 := by
    rw [Nat.div_lt_iff_lt_mul (by omega)]
    omega
  simp only [fat16FatSz, hs]
  rw [h1, h2, Nat.mod_eq_of_lt h3]

theorem fat16FatSz_pos {totalSec s : Nat} (h : 2048 ≤ totalSec) (h' : totalSec ≤ 0x100000)
    (hs : fat16SecPerClus totalSec = s) (hpos : 0 < s) (hle : s ≤ 16) :
    0 < fat16FatSz totalSec := by
  rw [fat16FatSz_eq h h' hs hpos hle]
  exact Nat.div_pos (by omega) (by omega)

theorem counts_one {t : Nat} (h : 2048 ≤ t) (h' : t ≤ 6144) :
    Counts t 1 ((t - 33 + (256 * 1 + 1)) / (256 * 1 + 2)) ↔ Formattable t := by
  unfold Counts Formattable
  omega

theorem counts_two {t : Nat} (h : 6145 ≤ t) (h' : t ≤ 32680) :
    Counts t 2 ((t - 33 + (256 * 2 + 1)) / (256 * 2 + 2)) ↔ Formattable t := by
  unfold Counts Formattable
  omega

theorem counts_four {t : Nat} (h : 32681 ≤ t) (h' : t ≤ 262144) :
    Counts t 4 ((t - 33 + (256 * 4 + 1)) / (256 * 4 + 2)) ↔ Formattable t := by
  unfold Counts Formattable
  omega

theorem counts_eight {t : Nat} (h : 262145 ≤ t) (h' : t ≤ 524288) :
    Counts t 8 ((t - 33 + (256 * 8 + 1)) / (256 * 8 + 2)) ↔ Formattable t := by
  unfold Counts Formattable
  omega

theorem counts_sixteen {t : Nat} (h : 524289 ≤ t) (h' : t ≤ 1048576) :
    Counts t 16 ((t - 33 + (256 * 16 + 1)) / (256 * 16 + 2)) ↔ Formattable t := by
  unfold Counts Formattable
  omega

/-- The counts of `format_fat16` are right for the sizes that are formattable. -/
theorem counts_iff {totalSec s : Nat} (h : 2048 ≤ totalSec) (h' : totalSec ≤ 0x100000)
    (hs : fat16SecPerClus totalSec = s) : 0 < s ∧ s ≤ 16 ∧ (∃ k ≤ 7, s = 2 ^ k) ∧
      (Counts totalSec s (fat16FatSz totalSec) ↔ Formattable totalSec) := by
  have hsz : 0 < s → s ≤ 16 →
      fat16FatSz totalSec = (totalSec - 33 + (256 * s + 1)) / (256 * s + 2) :=
    fat16FatSz_eq h h' hs
  rw [fat16SecPerClus_eq] at hs
  split_ifs at hs with h1 h2 h4 h8
  · subst hs
    rw [hsz (by decide) (by decide)]
    exact ⟨by decide, by decide, ⟨0, by decide, rfl⟩, counts_one h h1⟩
  · subst hs
    rw [hsz (by decide) (by decide)]
    exact ⟨by decide, by decide, ⟨1, by decide, rfl⟩, counts_two (by omega) h2⟩
  · subst hs
    rw [hsz (by decide) (by decide)]
    exact ⟨by decide, by decide, ⟨2, by decide, rfl⟩, counts_four (by omega) h4⟩
  · subst hs
    rw [hsz (by decide) (by decide)]
    exact ⟨by decide, by decide, ⟨3, by decide, rfl⟩, counts_eight (by omega) h8⟩
  · subst hs
    rw [hsz (by decide) (by decide)]
    exact ⟨by decide, by decide, ⟨4, by decide, rfl⟩, counts_sixteen (by omega) h'⟩

/-- Every store is inside the disk. -/
def Inside (size : Nat) (ops : List Op) : Prop := ∀ op ∈ ops, op.off + op.len ≤ size

theorem Inside.append {size : Nat} {a b : List Op} (ha : Inside size a) (hb : Inside size b) :
    Inside size (a ++ b) := fun op hop =>
  (mem_append.mp hop).elim (ha op) (hb op)

theorem boot16_inside (totalSec : Nat) (label : Nat → UInt8) :
    Inside 512 (boot16 totalSec label) := by
  unfold Inside
  by_cases hT : totalSec ≤ 0xFFFF <;> simp [boot16, hT, Op.off, Op.len]

theorem area16_bounds {fatSz : Nat} {label : Nat → UInt8} {op : Op}
    (hop : op ∈ area16 fatSz label) : 512 ≤ op.off ∧ op.off + op.len ≤ off16 (33 + 2 * fatSz) := by
  simp only [area16, mem_cons, not_mem_nil, or_false] at hop
  rcases hop with rfl | rfl | rfl | rfl <;> simp only [Op.off, Op.len, off16] <;> omega

theorem Inside.misses {size : Nat} {ops : List Op} (h : Inside size ops) (hi : Nat) :
    ∀ op ∈ ops, op.Misses size hi := fun op hop => .inl (h op hop)

theorem formatted_fat16 {totalSec : Nat} (h : totalSec < 1050624) (label : Nat → UInt8) :
    formatDisk (totalSec * 512) label =
      boot16 totalSec label ++ area16 (fat16FatSz totalSec) label := by
  have hmb : totalSec * 512 / (1024 * 1024) ≤ 512 := by omega
  have hsec : totalSec * 512 / 512 % 2 ^ 32 = totalSec := by omega
  simp only [formatDisk, if_pos hmb, formatFat16, hsec]

theorem format_fat16_iff {totalSec : Nat} (hlo : 2048 ≤ totalSec) (h : totalSec < 1050624)
    (label : Nat → UInt8) :
    Inside (totalSec * 512) (formatDisk (totalSec * 512) label) ∧
      Valid (formatted totalSec label) (totalSec * 512) ↔ Formattable totalSec := by
  have hhead : ∀ i < 512, formatted totalSec label i =
      run (fun _ => 0) (boot16 totalSec label) i := fun i hi => by
    rw [formatted, formatted_fat16 h, run_append]
    exact run_of_misses (fun op hop => .inr (area16_bounds hop).1) (Nat.zero_le i) hi
  have hw : Written16 totalSec (formatted totalSec label) :=
    written16 (by omega) (by omega) hhead
  by_cases hbig : totalSec ≤ 0x100000
  · obtain ⟨hpos, hle, hpow, hcounts⟩ := counts_iff hlo hbig rfl
    have hf : 0 < fat16FatSz totalSec := fat16FatSz_pos hlo hbig rfl hpos hle
    have htail : ∀ i, 512 ≤ i → formatted totalSec label i =
        run (fun _ => 0) (area16 (fat16FatSz totalSec) label) i := fun i hi => by
      have hzero : ∀ i, 512 ≤ i → run (fun _ => 0) (boot16 totalSec label) i = 0 := fun i hi =>
        run_of_misses ((boot16_inside totalSec label).misses (i + 1)) hi (Nat.lt_succ_self i)
      rw [formatted, formatted_fat16 h, run_append]
      refine put_congr (fun op hop a b c => ?_) (hzero i hi)
      simp only [area16, mem_cons, not_mem_nil, or_false] at hop
      rcases hop with rfl | rfl | rfl | rfl <;> exact Op.noConfusion
    have hcount : countOfClusters (formatted totalSec label) =
        (totalSec - (33 + 2 * fat16FatSz totalSec)) / fat16SecPerClus totalSec := by
      rw [countOfClusters, hw.size, hw.firstData.2.2, (hw.kind hf).2, hw.cluster]
    rw [hw.valid_iff hf htail, hcount, ← hcounts]
    constructor
    · rintro ⟨-, -, hc⟩
      exact hc
    · intro hc
      refine ⟨?_, hpow, hc⟩
      rw [formatted_fat16 h]
      refine Inside.append (fun op hop => ?_) fun op hop => ?_
      · have := boot16_inside totalSec label op hop
        omega
      · exact (area16_bounds hop).2.trans (Nat.mul_le_mul_right 512 hc.1)
  · -- the table has no row for these sizes
    constructor
    · rintro ⟨-, hv⟩
      obtain ⟨k, -, hk⟩ := hv.cluster
      rw [hw.cluster, fat16SecPerClus_eq] at hk
      rw [if_neg (by omega), if_neg (by omega), if_neg (by omega), if_neg (by omega),
        if_neg hbig] at hk
      exact absurd hk.symm (pow_ne_zero k two_ne_zero)
    · intro hF
      unfold Formattable at hF
      omega

/-! ## FAT32 -/

/-- The fields of `format_fat32`. -/
theorem boot32_put (totalSec : Nat) (label : Nat → UInt8) :
    let d := run (fun _ => 0) (boot32 totalSec label)
    Field d 11 2 512 ∧ Field d 13 1 (fat32SecPerClus totalSec) ∧ Field d 14 2 32 ∧ Field d 16 1 2 ∧
      Field d 17 2 0 ∧ Field d 19 2 0 ∧ Field d 22 2 0 ∧ Field d 32 4 totalSec ∧
      Field d 36 4 (fat32FatSz totalSec) ∧ Field d 44 4 2 ∧ Field d 48 2 1 ∧
      Field d 510 2 0xAA55 := by
  refine ⟨?_, ?_, ?_, ?_, ?_, ?_, ?_, ?_, ?_, ?_, ?_, ?_⟩ <;> intro i hi <;>
    interval_cases i <;> rfl

/-- The fields of the `FSInfo` sector, whatever is in the rest of the disk. -/
theorem info32_put (totalSec : Nat) (d : Disk) :
    Field (run d (info32 totalSec)) 512 4 0x41615252 ∧
      Field (run d (info32 totalSec)) 996 4 0x61417272 ∧
      Field (run d (info32 totalSec)) 1000 4 (freeCount totalSec) ∧
      Field (run d (info32 totalSec)) 1020 4 0xAA550000 := by
  refine ⟨?_, ?_, ?_, ?_⟩ <;> intro i hi <;> interval_cases i <;> rfl

/-- The first bytes of a table. -/
def headByte (i : Nat) : UInt8 :=
  if i < 4 then bytesOf 0x0FFFFFF8 i else if i < 8 then bytesOf 0x0FFFFFFF (i - 4)
  else if i < 12 then bytesOf 0x0FFFFFFF (i - 8) else 0

theorem head32_byte (d : Disk) (off i : Nat) : run d (head32 off) i =
    if off ≤ i ∧ i < off + 12 then headByte (i - off) else d i := by
  simp only [head32, run, foldl_cons, foldl_nil, Op.run]
  by_cases h : off ≤ i ∧ i < off + 12
  · obtain ⟨j, rfl⟩ := Nat.exists_eq_add_of_le h.1
    rw [if_pos h, Nat.add_sub_cancel_left]
    unfold headByte
    by_cases h4 : j < 4
    · rw [if_neg (by omega), if_neg (by omega), if_pos (by omega), if_pos h4]
    · by_cases h8 : j < 8
      · rw [if_neg (by omega), if_pos (by omega), if_neg h4, if_pos h8,
          show off + j - (off + 4) = j - 4 by omega]
      · rw [if_pos (by omega), if_neg h4, if_neg h8, if_pos (by omega),
          show off + j - (off + 8) = j - 8 by omega]
  · rw [if_neg h, if_neg (by omega), if_neg (by omega), if_neg (by omega)]

theorem area32_tables {fatSz : Nat} (label : Nat → UInt8) {d : Disk}
    (hd : ∀ i, 16384 ≤ i → d i = 0) (hf : 32 + 2 * fatSz < 2 ^ 23) {i : Nat}
    (hi : i < fatSz * 512) :
    run d (area32 fatSz label) (off16 32 + i) = headByte i ∧
      run d (area32 fatSz label) (off16 (32 + fatSz) + i) = headByte i := by
  have hoff : ∀ n ≤ 32 + 2 * fatSz, off32 n = off16 n := fun n hn => by
    unfold off32 off16
    exact Nat.mod_eq_of_lt (by omega)
  have h0 : off16 32 = 16384 := rfl
  have h1 : off16 (32 + fatSz) = off16 32 + fatSz * 512 := by
    unfold off16
    ring
  have h2 : off16 (32 + 2 * fatSz) = off16 (32 + fatSz) + fatSz * 512 := by
    unfold off16
    ring
  have hbeyond : ∀ j, 12 ≤ j → headByte j = 0 := fun j hj => by
    unfold headByte
    rw [if_neg (by omega), if_neg (by omega), if_neg (by omega)]
  have hroot : ∀ {d' : Disk} {j : Nat}, j < off16 (32 + 2 * fatSz) →
      run d' [.put (off16 (32 + 2 * fatSz)) 11 label,
        .put (off16 (32 + 2 * fatSz) + 11) 1 (bytesOf 0x08)] j = d' j := fun hj => by
    simp only [run, foldl_cons, foldl_nil, Op.run]
    rw [if_neg (by omega), if_neg (by omega)]
  simp only [area32, run_append, hoff 32 (by omega), hoff (32 + fatSz) (by omega),
    hoff (32 + 2 * fatSz) le_rfl]
  rw [hroot (by omega), hroot (by omega), head32_byte, head32_byte, head32_byte, head32_byte]
  generalize off16 (32 + 2 * fatSz) = root at *
  generalize off16 (32 + fatSz) = fat2 at *
  constructor
  · rw [if_neg (by omega), Nat.add_sub_cancel_left]
    by_cases h12 : i < 12
    · rw [if_pos ⟨Nat.le_add_right _ i, by omega⟩]
    · rw [if_neg (by omega), hd _ (by omega), hbeyond i (by omega)]
  · rw [Nat.add_sub_cancel_left]
    by_cases h12 : i < 12
    · rw [if_pos ⟨Nat.le_add_right _ i, by omega⟩]
    · rw [if_neg (by omega), if_neg (by omega), hd _ (by omega), hbeyond i (by omega)]

/-- What `format_fat32` leaves, as a reader sees it. -/
structure Written32 (totalSec : Nat) (d : Disk) : Prop where
  signature : le16 d 510 = 0xAA55
  sector : bytsPerSec d = 512
  cluster : secPerClus d = fat32SecPerClus totalSec
  reserved : rsvdSecCnt d = 32
  fats : numFATs d = 2
  rootEnt : rootEntCnt d = 0
  kind : Fat.kind d = .fat32
  fatSz : Fat.fatSz d = fat32FatSz totalSec
  size : totSec d = totalSec
  rootClus : Fat.rootClus d = 2
  fsInfo : Fat.fsInfo d = 1

theorem fat32SecPerClus_lt (totalSec : Nat) : fat32SecPerClus totalSec < 256 := by
  unfold fat32SecPerClus
  dsimp only
  split_ifs <;> decide

theorem fat32FatSz_lt (totalSec : Nat) : fat32FatSz totalSec < 2 ^ 32 :=
  lt_of_le_of_lt (Nat.div_le_self _ _) (Nat.mod_lt _ (by decide))

theorem written32 {totalSec : Nat} {d : Disk} {label : Nat → UInt8} (hlt : totalSec < 2 ^ 32)
    (hd : ∀ i < 512, d i = run (fun _ => 0) (boot32 totalSec label) i) : Written32 totalSec d := by
  obtain ⟨h11, h13, h14, h16, h17, h19, h22, h32, h36, h44, h48, h510⟩ := boot32_put totalSec label
  have hfat16 : fatSz16 d = 0 := (h22.congr hd (by decide)).le16 (by decide)
  have htot16 : totSec16 d = 0 := (h19.congr hd (by decide)).le16 (by decide)
  refine ⟨(h510.congr hd (by decide)).le16 (by decide), (h11.congr hd (by decide)).le16 (by decide),
    (h13.congr hd (by decide)).byte (fat32SecPerClus_lt totalSec),
    (h14.congr hd (by decide)).le16 (by decide), (h16.congr hd (by decide)).byte (by decide),
    (h17.congr hd (by decide)).le16 (by decide), if_pos hfat16, ?_, ?_,
    (h44.congr hd (by decide)).le32 (by decide), (h48.congr hd (by decide)).le16 (by decide)⟩
  · rw [Fat.fatSz, if_neg (not_not.mpr hfat16)]
    exact (h36.congr hd (by decide)).le32 (fat32FatSz_lt totalSec)
  · rw [totSec, if_neg (not_not.mpr htot16)]
    exact (h32.congr hd (by decide)).le32 hlt

/-- The counts of `format_fat32`. -/
structure Counts32 (totalSec s f : Nat) : Prop where
  pow : ∃ k ≤ 7, s = 2 ^ k
  pos : 0 < f
  fits : 33 + 2 * f ≤ totalSec
  off : 32 + 2 * f < 2 ^ 23
  many : 65525 ≤ (totalSec - (32 + 2 * f)) / s
  entries : (totalSec - (32 + 2 * f)) / s + 2 ≤ f * 128
  freeCount : freeCount totalSec = (totalSec - (32 + 2 * f)) / s - 1

theorem counts32 {totalSec : Nat} (hlo : 1050624 ≤ totalSec) (hhi : totalSec ≤ 67108864) :
    Counts32 totalSec (fat32SecPerClus totalSec) (fat32FatSz totalSec) := by
  have hsub : sub32 totalSec 32 = totalSec - 32 := by
    unfold sub32
    omega
  by_cases h8 : totalSec * 512 / (1024 * 1024) ≤ 8192
  · have hs : fat32SecPerClus totalSec = 8 := by
      simp only [fat32SecPerClus]
      rw [if_neg (by omega), if_pos h8]
    have hf : fat32FatSz totalSec = (totalSec - 32 + 1024) / 1025 := by
      simp only [fat32FatSz, hs, hsub]
      omega
    rw [hs]
    refine ⟨⟨3, by decide, rfl⟩, by omega, by omega, by omega, by omega, by omega, ?_⟩
    rw [freeCount, hs]
    unfold sub32
    omega
  · have hs : fat32SecPerClus totalSec = 16 := by
      simp only [fat32SecPerClus]
      rw [if_neg (by omega), if_neg h8]
    have hf : fat32FatSz totalSec = (totalSec - 32 + 2048) / 2049 := by
      simp only [fat32FatSz, hs, hsub]
      omega
    rw [hs]
    refine ⟨⟨4, by decide, rfl⟩, by omega, by omega, by omega, by omega, by omega, ?_⟩
    rw [freeCount, hs]
    unfold sub32
    omega

theorem boot32_inside (totalSec : Nat) (label : Nat → UInt8) :
    Inside 512 (boot32 totalSec label) := by
  unfold Inside
  simp [boot32, Op.off, Op.len]

theorem info32_bounds {totalSec : Nat} {op : Op} (hop : op ∈ info32 totalSec) :
    512 ≤ op.off ∧ op.off + op.len ≤ 1024 := by
  simp only [info32, mem_cons, not_mem_nil, or_false] at hop
  rcases hop with rfl | rfl | rfl | rfl | rfl <;> simp only [Op.off, Op.len] <;> omega

theorem area32_bounds {fatSz : Nat} {label : Nat → UInt8} (hf : 32 + 2 * fatSz < 2 ^ 23) {op : Op}
    (hop : op ∈ area32 fatSz label) :
    16384 ≤ op.off ∧ op.off + op.len ≤ off16 (33 + 2 * fatSz) := by
  have hoff : ∀ n ≤ 32 + 2 * fatSz, off32 n = off16 n := fun n hn => by
    unfold off32 off16
    exact Nat.mod_eq_of_lt (by omega)
  simp only [area32, head32, hoff 32 (by omega), hoff (32 + fatSz) (by omega),
    hoff (32 + 2 * fatSz) le_rfl, cons_append, nil_append, mem_cons,
    not_mem_nil, or_false] at hop
  rcases hop with rfl | rfl | rfl | rfl | rfl | rfl | rfl | rfl <;>
    simp only [Op.off, Op.len, off16] <;> omega

section
variable {totalSec : Nat} (label : Nat → UInt8)

/-- The stores of `format_fat32` before those into the tables. -/
def front32 (totalSec : Nat) (label : Nat → UInt8) : List Op :=
  boot32 totalSec label ++ [.copy (6 * 512) 0 512] ++ info32 totalSec ++ [.copy (7 * 512) 512 512]

theorem formatted_fat32 (hlo : 1050624 ≤ totalSec) (hhi : totalSec ≤ 67108864) :
    formatDisk (totalSec * 512) label =
      front32 totalSec label ++ area32 (fat32FatSz totalSec) label := by
  have hmb : ¬ totalSec * 512 / (1024 * 1024) ≤ 512 := by omega
  have hsec : totalSec * 512 / 512 % 2 ^ 32 = totalSec := by omega
  simp only [formatDisk, if_neg hmb, formatFat32, hsec, front32, append_assoc,
    cons_append, nil_append]

theorem front32_off {op : Op} (hop : op ∈ front32 totalSec label) : op.off + op.len ≤ 4096 := by
  simp only [front32, mem_append, mem_singleton] at hop
  rcases hop with ((hop | rfl) | hop) | rfl
  · have := boot32_inside totalSec label op hop
    omega
  · decide
  · have := (info32_bounds hop).2
    omega
  · decide

/-- The boot sector stays as it was written. -/
theorem formatted_boot32 (hlo : 1050624 ≤ totalSec) (hhi : totalSec ≤ 67108864) {i : Nat}
    (hi : i < 512) : formatted totalSec label i = run (fun _ => 0) (boot32 totalSec label) i := by
  have hoff := (counts32 hlo hhi).off
  rw [formatted, formatted_fat32 label hlo hhi, front32, run_append, run_append, run_append,
    run_append]
  have harea : ∀ op ∈ area32 (fat32FatSz totalSec) label, op.Misses 0 512 := fun op hop =>
    .inr ((by decide : 512 ≤ 16384).trans (area32_bounds hoff hop).1)
  have hcopy : ∀ op ∈ [Op.copy (7 * 512) 512 512], op.Misses 0 512 := by
    simp [Op.Misses, Op.off]
  have hback : ∀ op ∈ [Op.copy (6 * 512) 0 512], op.Misses 0 512 := by
    simp [Op.Misses, Op.off]
  rw [run_of_misses harea (Nat.zero_le i) hi, run_of_misses hcopy (Nat.zero_le i) hi,
    run_of_misses (fun op hop => .inr (info32_bounds hop).1) (Nat.zero_le i) hi,
    run_of_misses hback (Nat.zero_le i) hi]

/-- So does the `FSInfo` sector. -/
theorem formatted_info32 (hlo : 1050624 ≤ totalSec) (hhi : totalSec ≤ 67108864) :
    ∃ d, ∀ i, 512 ≤ i → i < 1024 → formatted totalSec label i = run d (info32 totalSec) i := by
  have hoff := (counts32 hlo hhi).off
  refine ⟨run (fun _ => 0) (boot32 totalSec label ++ [.copy (6 * 512) 0 512]), fun i hi hi' => ?_⟩
  rw [formatted, formatted_fat32 label hlo hhi, front32, run_append, run_append, run_append]
  have harea : ∀ op ∈ area32 (fat32FatSz totalSec) label, op.Misses 512 1024 := fun op hop =>
    .inr ((by decide : 1024 ≤ 16384).trans (area32_bounds hoff hop).1)
  have hcopy : ∀ op ∈ [Op.copy (7 * 512) 512 512], op.Misses 512 1024 := by
    simp [Op.Misses, Op.off]
  rw [run_of_misses harea hi hi', run_of_misses hcopy hi hi']

/-- Nothing before the tables is written behind them. -/
theorem formatted_tables32 (hlo : 1050624 ≤ totalSec) (hhi : totalSec ≤ 67108864) {i : Nat}
    (hi : i < fat32FatSz totalSec * 512) :
    formatted totalSec label (off16 32 + i) = headByte i ∧
      formatted totalSec label (off16 (32 + fat32FatSz totalSec) + i) = headByte i := by
  have hfront : ∀ j, 16384 ≤ j → run (fun _ => 0) (front32 totalSec label) j = 0 := fun j hj =>
    run_of_misses (fun op hop => .inl (front32_off label hop)) ((by decide : 4096 ≤ 16384).trans hj)
      (Nat.lt_succ_self j)
  rw [formatted, formatted_fat32 label hlo hhi, run_append]
  exact area32_tables label hfront (counts32 hlo hhi).off hi

theorem head_entries {d : Disk} {o : Nat} (h : ∀ i < 12, d (o + i) = headByte i) :
    le32 d o = 0x0FFFFFF8 ∧ le32 d (o + 4) = 0x0FFFFFFF ∧ le32 d (o + 8) = 0x0FFFFFFF := by
  refine ⟨le32_of (fun i hi => ?_) (by decide), le32_of (fun i hi => ?_) (by decide),
    le32_of (fun i hi => ?_) (by decide)⟩
  · rw [h i (by omega)]
    interval_cases i <;> rfl
  · rw [Nat.add_assoc, h (4 + i) (by omega)]
    interval_cases i <;> rfl
  · rw [Nat.add_assoc, h (8 + i) (by omega)]
    interval_cases i <;> rfl

end

/-- What a reader finds behind the boot sector. -/
structure Tables32 (totalSec : Nat) (d : Disk) : Prop where
  tables : ∀ i < fat32FatSz totalSec * 512, d (off16 32 + i) = headByte i ∧
    d (off16 (32 + fat32FatSz totalSec) + i) = headByte i
  lead : le32 d 512 = 0x41615252
  struc : le32 d 996 = 0x61417272
  free : le32 d 1000 = freeCount totalSec
  trail : le32 d 1020 = 0xAA550000

theorem tables32 {totalSec : Nat} (label : Nat → UInt8) (hlo : 1050624 ≤ totalSec)
    (hhi : totalSec ≤ 67108864) : Tables32 totalSec (formatted totalSec label) := by
  obtain ⟨d₀, hinfo⟩ := formatted_info32 label hlo hhi
  obtain ⟨hlead, hstruc, hfree, htrail⟩ := info32_put totalSec d₀
  have hcount : freeCount totalSec < 2 ^ 32 := Nat.mod_lt _ (by decide)
  exact ⟨fun i hi => formatted_tables32 label hlo hhi hi,
    (hlead.of_eq fun i h h' => hinfo i (by omega) (by omega)).le32 (by decide),
    (hstruc.of_eq fun i h h' => hinfo i (by omega) (by omega)).le32 (by decide),
    (hfree.of_eq fun i h h' => hinfo i (by omega) (by omega)).le32 hcount,
    (htrail.of_eq fun i h h' => hinfo i (by omega) (by omega)).le32 (by decide)⟩

section
variable {totalSec : Nat} {d : Disk} (w : Written32 totalSec d) (t : Tables32 totalSec d)
  (c : Counts32 totalSec (fat32SecPerClus totalSec) (fat32FatSz totalSec))
include w

theorem Written32.table : Fat.table d 0 = off16 32 ∧
    Fat.table d 1 = off16 (32 + fat32FatSz totalSec) := by
  simp only [Fat.table, w.reserved, w.sector, w.fatSz, Nat.zero_mul, Nat.one_mul, off16,
    Nat.add_zero, and_self]

theorem Written32.sectors : firstRootSector d = 32 + 2 * fat32FatSz totalSec ∧
    rootDirSectors d = 0 ∧ firstDataSector d = 32 + 2 * fat32FatSz totalSec ∧
    countOfClusters d =
      (totalSec - (32 + 2 * fat32FatSz totalSec)) / fat32SecPerClus totalSec := by
  have hroot : firstRootSector d = 32 + 2 * fat32FatSz totalSec := by
    rw [firstRootSector, w.reserved, w.fats, w.fatSz]
  have hsec : rootDirSectors d = 0 := by rw [rootDirSectors, w.rootEnt, w.sector]
  have hdata : firstDataSector d = 32 + 2 * fat32FatSz totalSec := by
    rw [firstDataSector, hroot, hsec, Nat.add_zero]
  exact ⟨hroot, hsec, hdata, by rw [countOfClusters, w.size, hdata, w.cluster]⟩

include t c

/-- The entry of the root directory ends its chain, and the others are free. -/
theorem Written32.entry {n : Nat} (hn : n ∈ clusters d) : Fat.entry d (Fat.table d 0) n =
    if n = 2 then 0x0FFFFFFF else 0 := by
  obtain ⟨h2, hlt⟩ := Finset.mem_Ico.mp hn
  have hent := c.entries
  rw [w.sectors.2.2.2] at hlt
  rw [Fat.entry, w.kind, w.table.1]
  dsimp only
  split
  case isTrue h =>
    have hhead := head_entries fun i hi => (t.tables i (by have := c.pos; omega)).1
    rw [h, hhead.2.2]
    decide
  case isFalse h =>
    have hzero : ∀ j, 12 ≤ j → j < fat32FatSz totalSec * 512 → d (off16 32 + j) = 0 :=
      fun j hj hj' => by
        rw [(t.tables j hj').1]
        unfold headByte
        rw [if_neg (by omega), if_neg (by omega), if_neg (by omega)]
    have h0 := hzero (4 * n) (by omega) (by omega)
    have h1 := hzero (4 * n + 1) (by omega) (by omega)
    have h3 := hzero (4 * n + 2) (by omega) (by omega)
    have h4 := hzero (4 * n + 3) (by omega) (by omega)
    have hlo : le16 d (off16 32 + 4 * n) = 0 := zero_field h0 h1
    have hhi : le16 d (off16 32 + 4 * n + 2) = 0 := zero_field h3 h4
    rw [le32, hlo, hhi]
    decide

theorem Written32.freeClusters :
    ((clusters d).filter fun n => Fat.entry d (Fat.table d 0) n = 0).card = freeCount totalSec := by
  have hset : (clusters d).filter (fun n => Fat.entry d (Fat.table d 0) n = 0) =
      Finset.Ico 3 (countOfClusters d + 2) := by
    ext n
    rw [Finset.mem_filter, Finset.mem_Ico]
    constructor
    · rintro ⟨hn, h0⟩
      rw [w.entry t c hn] at h0
      obtain ⟨h2, hlt⟩ := Finset.mem_Ico.mp hn
      split at h0
      · exact absurd h0 (by decide)
      · omega
    · rintro ⟨h3, hlt⟩
      have hn : n ∈ clusters d := Finset.mem_Ico.mpr ⟨by omega, hlt⟩
      exact ⟨hn, by rw [w.entry t c hn, if_neg (by omega)]⟩
  rw [hset, Nat.card_Ico, c.freeCount, w.sectors.2.2.2]
  omega

theorem Written32.valid : Valid d (totalSec * 512) := by
  obtain ⟨hroot, hsec, hdata, hcount⟩ := w.sectors
  have hparts : parts d = [(0, 32), (32, fat32FatSz totalSec),
      (32 + fat32FatSz totalSec, fat32FatSz totalSec), (32 + 2 * fat32FatSz totalSec, 0),
      (32 + 2 * fat32FatSz totalSec, countOfClusters d * fat32SecPerClus totalSec)] := by
    rw [parts, w.reserved, w.fatSz, hroot, hsec, hdata, w.cluster]
  have hmul : countOfClusters d * fat32SecPerClus totalSec ≤
      totalSec - (32 + 2 * fat32FatSz totalSec) := by
    rw [hcount]
    exact Nat.div_mul_le_self _ _
  have hfits := c.fits
  have hmany := c.many
  have hent := c.entries
  rw [← hcount] at hmany hent
  have hmem2 : 2 ∈ clusters d := Finset.mem_Ico.mpr ⟨le_rfl, by omega⟩
  refine ⟨w.signature, w.sector, by rw [w.cluster]; exact c.pow, by rw [w.reserved]; decide, w.fats,
    by rw [w.size], ?_, ?_, ?_, by rw [w.kind]; exact hmany, ?_, ?_, ?_, ?_⟩
  · rw [hparts]
    simp
    omega
  · rw [hparts, w.size]
    intro p hp
    simp only [mem_cons, not_mem_nil, or_false] at hp
    rcases hp with rfl | rfl | rfl | rfl | rfl <;> dsimp only <;> omega
  · rw [Fat.entries, w.kind, w.fatSz, w.sector]
    dsimp only
    omega
  · intro i hi
    rw [w.fatSz, w.sector] at hi
    rw [w.table.1, w.table.2, (t.tables i hi).1, (t.tables i hi).2]
  · intro n hn
    rw [w.entry t c hn, w.kind, w.rootClus]
    by_cases h2 : n = 2
    · simp [h2]
    · simp [h2]
  · intro _
    rw [w.rootClus, w.entry t c hmem2]
    exact ⟨hmem2, by decide⟩
  · intro _
    rw [w.fsInfo, w.freeClusters t c]
    exact ⟨t.lead, t.struc, t.trail, t.free⟩

end

/-- Above 512 MiB every disk becomes a valid volume. -/
theorem format_fat32_valid {totalSec : Nat} (label : Nat → UInt8) (hlo : 1050624 ≤ totalSec)
    (hhi : totalSec ≤ 67108864) : Inside (totalSec * 512) (formatDisk (totalSec * 512) label) ∧
      Valid (formatted totalSec label) (totalSec * 512) := by
  have c := counts32 hlo hhi
  have w : Written32 totalSec (formatted totalSec label) :=
    written32 (by omega) fun i hi => formatted_boot32 label hlo hhi hi
  refine ⟨?_, w.valid (tables32 label hlo hhi) c⟩
  rw [formatted_fat32 label hlo hhi]
  refine Inside.append (fun op hop => ?_) fun op hop => ?_
  · have := front32_off label hop
    omega
  · exact (area32_bounds c.off hop).2.trans (Nat.mul_le_mul_right 512 c.fits)

/-- A disk of 1 MiB to 32 GiB becomes a valid FAT volume exactly when its size is formattable. -/
theorem format_disk_iff (totalSec : Nat) (hlo : 2048 ≤ totalSec) (hhi : totalSec ≤ 67108864)
    (label : Nat → UInt8) :
    Inside (totalSec * 512) (formatDisk (totalSec * 512) label) ∧
      Valid (formatted totalSec label) (totalSec * 512) ↔ Formattable totalSec := by
  by_cases h : totalSec < 1050624
  · exact format_fat16_iff hlo h label
  · have h := Nat.not_lt.mp h
    exact ⟨fun _ => .inr (.inr (.inr (.inr (.inr h)))), fun _ => format_fat32_valid label h hhi⟩

/-- 8 MiB. -/
theorem format_disk_iff_eight :
    Inside (16384 * 512) (formatDisk (16384 * 512) fun _ => 0x20) ∧
      Valid (formatted 16384 fun _ => 0x20) (16384 * 512) :=
  (format_disk_iff 16384 (by decide) (by decide) _).mpr (by decide)

/-- At 1 MiB there are 1999 clusters, which makes the volume a FAT12 one. -/
theorem one_mib_invalid : ¬ (Inside (2048 * 512) (formatDisk (2048 * 512) fun _ => 0x20) ∧
    Valid (formatted 2048 fun _ => 0x20) (2048 * 512)) := fun h =>
  absurd ((format_fat16_iff (by decide) (by decide) _).mp h) (by decide)

end RamDisk

end AxlSdk
