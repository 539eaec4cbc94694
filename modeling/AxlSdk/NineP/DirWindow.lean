import AxlSdk.NineP.Readdir

/-!
# The window of a directory reply (`axl_9p_parse_readdir`)

A reply says how many bytes of records it holds, and may be longer or shorter than
that.

- `Record`: a record on the wire. Its bytes can be told from what is behind them
  (`Record.bytes_cancel`), so a window is taken apart in one way only.
- `direntLoop_bytes`, `direntLoop_none`: a turn of the loop at a record, and at anything
  else.
- `Straddles`: a record that starts in the window and ends outside it. It is read all
  the same, being looked for in the message and not in the window; nothing else comes
  between the parser and its purpose (`parse_readdir_exact_iff`).
-/

namespace AxlSdk

namespace NineP

namespace DirWindow

open List

/-! ## The code -/

/-- The fields of an `AxlFsEntry` that are set from a record. -/
structure Entry where
  name : Paths.Path
  isDirectory : Bool
deriving DecidableEq

/-- The array that is appended to, and the offset of the last record. -/
structure Found where
  arr : List Entry
  lastOff : Nat
deriving DecidableEq

/-- What a turn of the loop reads: the offset, the type, the name and the reader. -/
def readRecord (r : Axl9pReader) : Nat × Nat × Paths.Path × Axl9pReader :=
  let offset := rU64 { r with rest := r.rest.drop 13 }
  let dtype := rU8 offset.2
  let name := rStr 256 dtype.2
  (offset.1, dtype.1, name.1.1.bytes, name.2)

/-- The loop of `axl_9p_parse_readdir`, with `left` bytes of the window to go: whether it
ended without an error. -/
def direntLoop : Nat → Nat → Axl9pReader → Found → Bool × Found
  | 0, _, _, found => (true, found)
  | n + 1, left, r, found =>
    if left = 0 then (true, found)
    else
      let (nextOff, dtype, name, r') := readRecord r
      let e : Entry := ⟨name, dtype == 4⟩
      if r'.error then (false, found)
      else
        direntLoop n (left - (r.rest.length - r'.rest.length)) r'
          { arr := if isDotName e.name then found.arr else found.arr ++ [e]
            lastOff := nextOff }

/-- What a call returns and writes. -/
structure Parsed where
  ok : Bool
  arr : List Entry
  dcount : Option Nat
  lastOff : Option Nat
deriving DecidableEq

/-- `axl_9p_parse_readdir` -/
def parseReaddir (body : List UInt8) (arr : List Entry) : Parsed :=
  let dcount := rU32 ⟨body, false⟩
  if dcount.2.error then ⟨false, arr, none, none⟩
  else if dcount.1 = 0 then ⟨true, arr, some 0, none⟩
  else if dcount.2.rest.length < dcount.1 then ⟨false, arr, none, none⟩
  else
    let (ok, found) := direntLoop body.length dcount.1 dcount.2 ⟨arr, 0⟩
    if ok then ⟨true, found.arr, some dcount.1, some found.lastOff⟩
    else ⟨false, found.arr, none, none⟩

/-! ## Records -/

/-- A record as it stands on the wire. -/
structure Record where
  qid : List UInt8
  offset : Nat
  dtype : UInt8
  name : List UInt8
  qidLen : qid.length = 13
  offsetLt : offset < 2 ^ 64
  nameLt : name.length < 2 ^ 16

/-- `qid[13] offset[8] type[1] name[s]` -/
def Record.bytes (d : Record) : List UInt8 :=
  d.qid ++ (le 8 d.offset ++ (d.dtype :: wStr d.name))

/-- The entry of a record: the name up to a NUL, and no more of it than there is room for. -/
def Record.entry (d : Record) : Entry := ⟨(cstring (d.name.take 255)).bytes, d.dtype == 4⟩

/-- Records one after the other. -/
def wire (ds : List Record) : List UInt8 := ds.flatMap Record.bytes

/-- The entries of the records that are listed. -/
def listed (ds : List Record) : List Entry :=
  (ds.map Record.entry).filter fun e => !isDotName e.name

variable {d d' : Record} {ds ds' : List Record} {data data' rest rest' : List UInt8}

theorem Record.length_bytes (d : Record) : d.bytes.length = 24 + d.name.length := by
  rw [bytes, length_append, length_append, length_cons, wStr, length_append,
    le_length, le_length, d.qidLen]
  omega

theorem le_leNat (bs : List UInt8) : le bs.length (leNat bs) = bs := by
  induction bs with
  | nil => rfl
  | cons b bs ih =>
    have hb := b.toNat_lt
    have hlow : (b.toNat + 256 * leNat bs) % 256 = b.toNat := by omega
    have hhigh : (b.toNat + 256 * leNat bs) / 256 = leNat bs := by omega
    rw [leNat, length_cons, le, hlow, hhigh, ih, UInt8.ofNat_toNat]

/-- A number is read, or the bytes do not suffice. -/
theorem rUint_cases (k : Nat) (r : Axl9pReader) :
    (∃ n rest, n < 256 ^ k ∧ r.rest = le k n ++ rest ∧ rUint k r = (n, ⟨rest, r.error⟩)) ∨
      (rUint k r).2.error = true := by
  by_cases h : r.rest.length < k
  · right
    rw [rUint, if_pos h]
  · left
    have hlen : (r.rest.take k).length = k := by
      rw [length_take]
      omega
    have hle := le_leNat (r.rest.take k)
    have hlt := leNat_lt (r.rest.take k)
    rw [hlen] at hle hlt
    refine ⟨_, r.rest.drop k, hlt, ?_, ?_⟩
    · rw [hle, take_append_drop]
    · rw [rUint, if_neg h]

variable {r : Axl9pReader}

theorem rUint_error {k : Nat} (h : r.error = true) :
    (rUint k r).2.error = true := by
  rw [rUint]
  split
  · rfl
  · exact h

theorem rStr_error {cap : Nat} (h : r.error = true) :
    (rStr cap r).2.error = true := by
  have hcount : (rU16 r).2.error = true := rUint_error h
  rw [rStr]
  dsimp only
  split
  · rfl
  · exact hcount

theorem readRecord_bytes (d : Record) (rest : List UInt8) :
    readRecord ⟨d.bytes ++ rest, false⟩ =
      (d.offset, d.dtype.toNat, (cstring (d.name.take 255)).bytes, ⟨rest, false⟩) := by
  have hdrop : (d.bytes ++ rest).drop 13 = le 8 d.offset ++ (d.dtype :: (wStr d.name ++ rest)) := by
    rw [Record.bytes, append_assoc, append_assoc]
    exact drop_left' d.qidLen
  have hbyte : [d.dtype] = le 1 d.dtype.toNat := by
    rw [le, le, Nat.mod_eq_of_lt d.dtype.toNat_lt, UInt8.ofNat_toNat]
  have hdtype : rU8 ⟨d.dtype :: (wStr d.name ++ rest), false⟩ =
      (d.dtype.toNat, ⟨wStr d.name ++ rest, false⟩) := by
    rw [← singleton_append, hbyte]
    exact rUint_le 1 d.dtype.toNat_lt _ false
  have hcount : rU16 ⟨wStr d.name ++ rest, false⟩ = (d.name.length, ⟨d.name ++ rest, false⟩) := by
    rw [rU16, wStr, append_assoc]
    exact rUint_le 2 d.nameLt _ _
  have hroom : ¬ (d.name ++ rest).length < d.name.length := by
    rw [length_append]
    omega
  simp only [readRecord, hdrop, rU64_le d.offsetLt, hdtype, rStr, hcount, if_neg hroom,
    take_left, drop_left]

/-- Without an error a record was read. -/
theorem readRecord_whole (h : (readRecord ⟨rest, false⟩).2.2.2.error = false) :
    ∃ d tail, rest = Record.bytes d ++ tail := by
  rw [readRecord] at h
  dsimp only at h
  -- the first read that fails leaves an error for good
  have hu8 : (rU64 ⟨rest.drop 13, false⟩).2.error ≠ true := fun he =>
    Bool.false_ne_true (h.symm.trans (rStr_error (rUint_error he)))
  have hlo : (rU32 ⟨rest.drop 13, false⟩).2.error ≠ true := fun he => hu8 (rUint_error he)
  obtain ⟨lo, t0, hlt0, heq0, hr0⟩ := (rUint_cases 4 ⟨rest.drop 13, false⟩).resolve_right hlo
  have hread0 : rU32 ⟨rest.drop 13, false⟩ = (lo, ⟨t0, false⟩) := hr0
  have hhi : (rU32 ⟨t0, false⟩).2.error ≠ true := by
    intro he
    rw [rU64, hread0] at hu8
    exact hu8 he
  obtain ⟨hi, t1, hlt1, heq1, hr1⟩ := (rUint_cases 4 ⟨t0, false⟩).resolve_right hhi
  have hread1 : rU64 ⟨rest.drop 13, false⟩ = (lo + 2 ^ 32 * hi, ⟨t1, false⟩) := by
    have : rU32 ⟨t0, false⟩ = (hi, ⟨t1, false⟩) := hr1
    rw [rU64, hread0]
    dsimp only
    rw [this]
  rw [hread1] at h
  have hdt : (rU8 ⟨t1, false⟩).2.error ≠ true := fun he =>
    Bool.false_ne_true (h.symm.trans (rStr_error he))
  obtain ⟨ty, t2, hlt2, heq2, hr2⟩ := (rUint_cases 1 ⟨t1, false⟩).resolve_right hdt
  have hread2 : rU8 ⟨t1, false⟩ = (ty, ⟨t2, false⟩) := hr2
  rw [hread2, rStr] at h
  dsimp only at h
  have hcount : (rU16 ⟨t2, false⟩).2.error ≠ true := by
    intro he
    split at h
    · exact Bool.false_ne_true h.symm
    · exact Bool.false_ne_true (h.symm.trans he)
  obtain ⟨n, t3, hlt3, heq3, hr3⟩ := (rUint_cases 2 ⟨t2, false⟩).resolve_right hcount
  have hread3 : rU16 ⟨t2, false⟩ = (n, ⟨t3, false⟩) := hr3
  rw [hread3] at h
  dsimp only at heq0 heq1 heq2 heq3 h
  have hroom : n ≤ t3.length := by
    by_contra hno
    rw [if_pos (Nat.lt_of_not_le hno)] at h
    exact Bool.false_ne_true h.symm
  have hname : (t3.take n).length = n := by
    rw [length_take]
    omega
  have hqid : (rest.take 13).length = 13 := by
    have hlen := congrArg List.length heq0
    rw [length_drop, length_append, le_length] at hlen
    rw [length_take]
    omega
  have hnum : le 8 (lo + 2 ^ 32 * hi) = le 4 lo ++ le 4 hi := by
    have hlow : (lo + 2 ^ 32 * hi) % 256 ^ 4 = lo := by omega
    have hhigh : (lo + 2 ^ 32 * hi) / 256 ^ 4 = hi := by omega
    rw [show (8 : Nat) = 4 + 4 from rfl, le_add, hhigh, ← le_mod 4 (lo + _), hlow]
  have htype : le 1 ty = [UInt8.ofNat ty] := by
    rw [le, le, Nat.mod_eq_of_lt (show ty < 256 from hlt2)]
  have hbytes : rest = rest.take 13 ++ (le 8 (lo + 2 ^ 32 * hi) ++
      (UInt8.ofNat ty :: wStr (t3.take n))) ++ t3.drop n := by
    rw [wStr, hname, hnum, ← singleton_append, ← htype]
    simp only [append_assoc, take_append_drop]
    rw [← heq3, ← heq2, ← heq1, ← heq0, take_append_drop]
  exact ⟨⟨rest.take 13, lo + 2 ^ 32 * hi, UInt8.ofNat ty, t3.take n, hqid, by omega, by omega⟩,
    t3.drop n, hbytes⟩

theorem readRecord_none (h : ¬ ∃ d tail, rest = Record.bytes d ++ tail) :
    (readRecord ⟨rest, false⟩).2.2.2.error = true := by
  by_contra hne
  exact h (readRecord_whole (Bool.eq_false_of_not_eq_true hne))

/-- Where a record ends does not depend on what is behind it. -/
theorem Record.bytes_cancel (h : d.bytes ++ data = d'.bytes ++ data') : data = data' := by
  have hread := readRecord_bytes d data
  rw [h, readRecord_bytes] at hread
  have hreader := congrArg (fun x => x.2.2.2.rest) hread
  exact hreader.symm

theorem dtype_eq (b : UInt8) : (b.toNat == 4) = (b == 4) := by
  rw [Bool.eq_iff_iff, beq_iff_eq, beq_iff_eq, ← UInt8.toNat_inj]
  rfl

theorem wire_cons (d : Record) (ds : List Record) : wire (d :: ds) = d.bytes ++ wire ds := rfl

theorem length_le_wire (ds : List Record) : ds.length ≤ (wire ds).length := by
  induction ds with
  | nil => exact le_rfl
  | cons d ds ih =>
    have := d.length_bytes
    rw [wire_cons, length_append, length_cons]
    omega

theorem listed_cons (d : Record) (ds : List Record) :
    listed (d :: ds) = (if isDotName d.entry.name then [] else [d.entry]) ++ listed ds := by
  rw [listed, listed, map_cons, filter_cons]
  split
  · rename_i h
    rw [if_neg (by simpa using h)]
    rfl
  · rename_i h
    rw [if_pos (by simpa using h), nil_append]

/-! ## The loop -/

attribute [local irreducible] readRecord in
/-- A turn of the loop. -/
theorem direntLoop_succ (n left : Nat) (r : Axl9pReader) (found : Found) :
    direntLoop (n + 1) left r found =
      if left = 0 then (true, found)
      else if (readRecord r).2.2.2.error then (false, found)
      else
        direntLoop n (left - (r.rest.length - (readRecord r).2.2.2.rest.length))
          (readRecord r).2.2.2
          { arr := if isDotName (readRecord r).2.2.1 then found.arr
              else found.arr ++ [⟨(readRecord r).2.2.1, (readRecord r).2.1 == 4⟩]
            lastOff := (readRecord r).1 } :=
  rfl

variable {n : Nat} {found : Found}

/-- A turn at a record. -/
theorem direntLoop_bytes {left : Nat} (hleft : left ≠ 0) (d : Record) (rest : List UInt8) :
    direntLoop (n + 1) left ⟨d.bytes ++ rest, false⟩ found =
      direntLoop n (left - d.bytes.length) ⟨rest, false⟩
        { arr := if isDotName d.entry.name then found.arr else found.arr ++ [d.entry]
          lastOff := d.offset } := by
  rw [direntLoop_succ, if_neg hleft, readRecord_bytes]
  dsimp only
  rw [if_neg Bool.false_ne_true, length_append, Nat.add_sub_cancel, dtype_eq]
  rfl

/-- A turn at anything else. -/
theorem direntLoop_none {left : Nat} (hleft : left ≠ 0)
    (h : ¬ ∃ d tail, rest = Record.bytes d ++ tail) :
    direntLoop (n + 1) left ⟨rest, false⟩ found = (false, found) := by
  rw [direntLoop_succ, if_neg hleft]
  exact if_pos (readRecord_none h)

/-- The offset of the last record. -/
def lastOffset (init : Nat) (ds : List Record) : Nat := (ds.getLast?.map Record.offset).getD init

theorem lastOffset_cons (init : Nat) (d : Record) (ds : List Record) :
    lastOffset init (d :: ds) = lastOffset d.offset ds := by
  rw [lastOffset, lastOffset, getLast?_cons]
  cases ds.getLast? <;> rfl

/-- Whole records are read, and those in the window are all that is looked for. -/
theorem direntLoop_records (hn : (wire ds).length < n) (left : Nat) :
    direntLoop n ((wire ds).length + left) ⟨wire ds ++ rest, false⟩ found =
      direntLoop (n - ds.length) left ⟨rest, false⟩
        { arr := found.arr ++ listed ds, lastOff := lastOffset found.lastOff ds } := by
  induction ds generalizing n found with
  | nil =>
    rw [show listed [] = [] from rfl, append_nil, show wire [] = [] from rfl, length_nil,
      Nat.zero_add, nil_append]
    rfl
  | cons d ds ih =>
    have hlen := d.length_bytes
    rw [wire_cons, length_append] at hn ⊢
    obtain ⟨n, rfl⟩ : ∃ m, n = m + 1 := Nat.exists_eq_succ_of_ne_zero (by omega)
    rw [append_assoc, direntLoop_bytes (by omega), Nat.add_assoc, Nat.add_sub_cancel_left,
      ih (by omega), listed_cons, lastOffset_cons, length_cons, Nat.add_sub_add_right]
    congr 2
    split <;> simp

theorem direntLoop_done :
    direntLoop n 0 r found = (true, found) := by
  cases n <;> rfl

/-! ## The window -/

/-- The bytes of the window and what the message holds behind it. -/
structure Window (body data rest : List UInt8) : Prop where
  eq : body = le 4 data.length ++ (data ++ rest)
  lt : data.length < 2 ^ 32

/-- The window lies in the message and holds whole records. -/
def WellFormed (body : List UInt8) (ds : List Record) : Prop := ∃ rest, Window body (wire ds) rest

/-- A record starts in the first `left` bytes and ends behind them. -/
def StraddlesAt (left : Nat) (rest : List UInt8) : Prop :=
  ∃ ds d tail, rest = wire ds ++ (Record.bytes d ++ tail) ∧ (wire ds).length < left ∧
    left < (wire ds).length + d.bytes.length

/-- A record starts in the window and ends in the message, but behind the window. -/
def Straddles (body : List UInt8) : Prop :=
  ∃ data rest, Window body data rest ∧ StraddlesAt data.length (data ++ rest)

variable {body : List UInt8} {arr : List Entry}

theorem parseReaddir_window (h : Window body data rest) :
    parseReaddir body arr =
      if data.length = 0 then ⟨true, arr, some 0, none⟩
      else
        let (ok, found) := direntLoop body.length data.length ⟨data ++ rest, false⟩ ⟨arr, 0⟩
        if ok then ⟨true, found.arr, some data.length, some found.lastOff⟩
        else ⟨false, found.arr, none, none⟩ := by
  have hcount : rU32 ⟨body, false⟩ = (data.length, ⟨data ++ rest, false⟩) := by
    rw [h.eq]
    exact rUint_le 4 h.lt _ _
  have hroom : ¬ (data ++ rest).length < data.length := by
    rw [length_append]
    omega
  rw [parseReaddir, hcount]
  dsimp only
  rw [if_neg Bool.false_ne_true, if_neg hroom]

/-- A message without its window is refused. -/
theorem window_of_ok (h : (parseReaddir body arr).ok = true) :
    ∃ data rest, Window body data rest := by
  rw [parseReaddir] at h
  have hcount : (rU32 ⟨body, false⟩).2.error ≠ true := by
    intro he
    rw [if_pos he] at h
    exact Bool.false_ne_true h
  obtain ⟨n, rest, hlt, heq, hread⟩ := (rUint_cases 4 ⟨body, false⟩).resolve_right hcount
  have hread' : rU32 ⟨body, false⟩ = (n, ⟨rest, false⟩) := hread
  have heq' : body = le 4 n ++ rest := heq
  rw [hread'] at h
  dsimp only at h
  have hroom : n ≤ rest.length := by
    by_contra hno
    rw [if_neg Bool.false_ne_true, if_neg (by omega), if_pos (Nat.lt_of_not_le hno)] at h
    exact Bool.false_ne_true h
  have hlen : (rest.take n).length = n := by
    rw [length_take]
    omega
  refine ⟨rest.take n, rest.drop n, ?_, ?_⟩
  · rw [take_append_drop, hlen]
    exact heq'
  · rw [hlen]
    exact hlt

/-- The result for a well-formed window. -/
theorem parseReaddir_wellFormed (h : WellFormed body ds) :
    parseReaddir body arr = ⟨true, arr ++ listed ds, some (wire ds).length,
      ds.getLast?.map Record.offset⟩ := by
  obtain ⟨rest, h⟩ := h
  rw [parseReaddir_window h]
  cases ds with
  | nil =>
    have hzero : (wire []).length = 0 := rfl
    rw [if_pos hzero, show listed [] = [] from rfl, append_nil]
    rfl
  | cons d ds =>
    have hpos : (wire (d :: ds)).length ≠ 0 := by
      rw [wire_cons, length_append, d.length_bytes]
      omega
    have hfuel : (wire (d :: ds)).length < body.length := by
      rw [h.eq, length_append, le_length, length_append]
      omega
    have hloop : direntLoop body.length ((wire (d :: ds)).length + 0)
        ⟨wire (d :: ds) ++ rest, false⟩ ⟨arr, 0⟩ = _ := direntLoop_records hfuel 0
    rw [Nat.add_zero, direntLoop_done] at hloop
    rw [if_neg hpos, hloop, lastOffset_cons]
    dsimp only
    rw [if_pos rfl]
    congr 1
    rw [lastOffset, getLast?_cons]
    cases ds.getLast? <;> rfl

/-- Records to the end of the window leave no room for one that straddles it. -/
theorem not_straddlesAt_wire : ¬ StraddlesAt (wire ds).length (wire ds ++ rest) := by
  induction ds with
  | nil =>
    rintro ⟨ds, d, tail, -, hlt, -⟩
    exact Nat.not_lt_zero _ hlt
  | cons e es ih =>
    rintro ⟨ds, d, tail, heq, hlt, hgt⟩
    rw [wire_cons, append_assoc] at heq
    rw [wire_cons, length_append] at hlt hgt
    cases ds with
    | nil =>
      have hlen := congrArg List.length heq
      have htail : wire es ++ rest = tail := Record.bytes_cancel heq
      rw [← htail] at hlen
      simp only [length_append] at hlen
      rw [show wire [] = [] from rfl, length_nil] at hgt hlen
      omega
    | cons f fs =>
      rw [wire_cons, append_assoc] at heq
      have htail := Record.bytes_cancel heq
      have hlen := congrArg List.length heq
      rw [htail] at hlen
      simp only [length_append] at hlen
      rw [wire_cons, length_append] at hlt hgt
      exact ih ⟨fs, d, tail, htail, by omega, by omega⟩

theorem StraddlesAt.cons {left : Nat} (h : StraddlesAt left rest) (d : Record) :
    StraddlesAt (d.bytes.length + left) (d.bytes ++ rest) := by
  obtain ⟨ds, e, tail, rfl, hlt, hgt⟩ := h
  refine ⟨d :: ds, e, tail, ?_, ?_, ?_⟩
  · rw [wire_cons, append_assoc]
  · rw [wire_cons, length_append]
    omega
  · rw [wire_cons, length_append]
    omega

/-- Unless a record straddles its end, what is behind the window is not looked at. -/
theorem direntLoop_inside {m : Nat} (hn : data.length < n) (hm : data.length < m)
    (h : ¬ StraddlesAt data.length (data ++ rest)) :
    direntLoop n data.length ⟨data ++ rest, false⟩ found =
      direntLoop m data.length ⟨data, false⟩ found := by
  induction n generalizing m data found with
  | zero => cases hn
  | succ n ih =>
    obtain ⟨m, rfl⟩ : ∃ k, m = k + 1 := Nat.exists_eq_succ_of_ne_zero (by omega)
    by_cases hnil : data.length = 0
    · rw [hnil, direntLoop_done, direntLoop_done]
    by_cases hrec : ∃ d tail, data ++ rest = Record.bytes d ++ tail
    · obtain ⟨d, tail, heq⟩ := hrec
      have hpos := d.length_bytes
      have hle : d.bytes.length ≤ data.length := by
        by_contra hgt
        exact h ⟨[], d, tail, heq, Nat.pos_of_ne_zero hnil, by
          rw [show wire [] = [] from rfl, length_nil]
          omega⟩
      have htake := congrArg (List.take d.bytes.length) heq
      rw [take_append_of_le_length hle, take_left] at htake
      obtain ⟨data, rfl⟩ : ∃ data', data = d.bytes ++ data' :=
        ⟨data.drop d.bytes.length, by
          conv => lhs; rw [← take_append_drop d.bytes.length data]
          rw [htake]⟩
      rw [length_append] at hn hm hnil
      rw [append_assoc, length_append] at h ⊢
      rw [direntLoop_bytes hnil, direntLoop_bytes hnil, Nat.add_sub_cancel_left]
      exact ih (by omega) (by omega) fun hs => h (hs.cons d)
    · rw [direntLoop_none hnil hrec, direntLoop_none hnil]
      rintro ⟨d, tail, rfl⟩
      exact hrec ⟨d, tail ++ rest, append_assoc _ _ _⟩

/-- A loop that reads to the end of the window has read whole records. -/
theorem wire_of_direntLoop (hn : data.length < n)
    (h : (direntLoop n data.length ⟨data, false⟩ found).1 = true) : ∃ ds, data = wire ds := by
  induction n generalizing data found with
  | zero => cases hn
  | succ n ih =>
    by_cases hnil : data.length = 0
    · exact ⟨[], length_eq_zero_iff.mp hnil⟩
    by_cases hrec : ∃ d tail, data = Record.bytes d ++ tail
    · obtain ⟨d, tail, rfl⟩ := hrec
      have hpos := d.length_bytes
      rw [direntLoop_bytes hnil, length_append, Nat.add_sub_cancel_left] at h
      rw [length_append] at hn
      obtain ⟨ds, rfl⟩ := ih (by omega) h
      exact ⟨d :: ds, rfl⟩
    · rw [direntLoop_none hnil hrec] at h
      exact absurd h Bool.false_ne_true

theorem Window.length_lt (h : Window body data rest) : data.length < body.length := by
  rw [h.eq, length_append, le_length, length_append]
  omega

/-- A message has one window. -/
theorem Window.unique (h : Window body data rest) (h' : Window body data' rest') :
    data = data' ∧ rest = rest' := by
  have heq := h.eq.symm.trans h'.eq
  have hcount := (append_inj heq (by rw [le_length, le_length])).1
  have hlen : data.length = data'.length := by
    have hnum := congrArg leNat hcount
    have hlt := h.lt
    have hlt' := h'.lt
    rw [leNat_le, leNat_le] at hnum
    omega
  exact append_inj (append_inj heq (by rw [le_length, le_length])).2 hlen

/-! ## The claim on a message -/

/-- The parser accepts the message just when its window is well formed, lists its records,
and makes the same of the message when it ends with the window. -/
structure Exact (body : List UInt8) : Prop where
  accepts : ∀ arr, (parseReaddir body arr).ok = true ↔ ∃ ds, WellFormed body ds
  yields : ∀ arr ds, WellFormed body ds →
    parseReaddir body arr = ⟨true, arr ++ listed ds, some (wire ds).length, ds.getLast?.map Record.offset⟩
  inside : ∀ data rest, Window body data rest → ∀ arr,
    parseReaddir body arr = parseReaddir (le 4 data.length ++ data) arr

theorem parseReaddir_inside (h : Window body data rest) (hno : ¬ StraddlesAt data.length (data ++ rest)) :
    parseReaddir body arr = parseReaddir (le 4 data.length ++ data) arr := by
  have h' : Window (le 4 data.length ++ data) data [] := ⟨by rw [append_nil], h.lt⟩
  rw [parseReaddir_window h, parseReaddir_window h', append_nil,
    direntLoop_inside h.length_lt h'.length_lt hno]

theorem exact_of_not_straddles (h : ¬ Straddles body) : Exact body := by
  constructor
  · intro arr
    constructor
    · intro hok
      obtain ⟨data, rest, hwin⟩ := window_of_ok hok
      have hno : ¬ StraddlesAt data.length (data ++ rest) := fun hs => h ⟨data, rest, hwin, hs⟩
      rw [parseReaddir_window hwin, direntLoop_inside hwin.length_lt (Nat.lt_succ_self _) hno] at hok
      by_cases hzero : data.length = 0
      · cases length_eq_zero_iff.mp hzero
        exact ⟨[], rest, hwin⟩
      · rw [if_neg hzero] at hok
        have hloop : (direntLoop (data.length + 1) data.length ⟨data, false⟩ ⟨arr, 0⟩).1 = true := by
          by_contra hfail
          dsimp only at hok
          rw [if_neg hfail] at hok
          exact Bool.false_ne_true hok
        obtain ⟨ds, rfl⟩ := wire_of_direntLoop (Nat.lt_succ_self _) hloop
        exact ⟨ds, rest, hwin⟩
    · rintro ⟨ds, hds⟩
      rw [parseReaddir_wellFormed hds]
  · exact fun arr ds => parseReaddir_wellFormed
  · exact fun data rest hwin arr => parseReaddir_inside hwin fun hs => h ⟨data, rest, hwin, hs⟩

/-- A record that straddles the end of the window is read, and the message accepted. -/
theorem ok_of_straddles (h : Straddles body) : (parseReaddir body []).ok = true := by
  obtain ⟨data, rest, hwin, ds, d, tail, heq, hlt, hgt⟩ := h
  have hfuel := hwin.length_lt
  have hzero : data.length ≠ 0 := by omega
  obtain ⟨left, hleft⟩ := Nat.exists_eq_add_of_lt hlt
  have hds := length_le_wire ds
  obtain ⟨m, hm⟩ : ∃ m, body.length - ds.length = m + 1 := Nat.exists_eq_succ_of_ne_zero (by omega)
  have hloop : direntLoop body.length ((wire ds).length + (left + 1))
      ⟨wire ds ++ (d.bytes ++ tail), false⟩ ⟨[], 0⟩ = _ :=
    direntLoop_records (hlt.trans hfuel) (left + 1)
  rw [hm, direntLoop_bytes (Nat.succ_ne_zero left), Nat.sub_eq_zero_of_le (by omega),
    direntLoop_done] at hloop
  rw [parseReaddir_window hwin, if_neg hzero, heq, hleft, Nat.add_assoc, hloop]
  rfl

theorem exact_iff : Exact body ↔ ¬ Straddles body := by
  refine ⟨fun hexact hs => ?_, exact_of_not_straddles⟩
  obtain ⟨ds, rest, hwin⟩ := (hexact.accepts []).mp (ok_of_straddles hs)
  obtain ⟨data, rest', hwin', hat⟩ := hs
  obtain ⟨rfl, rfl⟩ := hwin.unique hwin'
  exact not_straddlesAt_wire hat

/-! ## What the server packs -/

/-- Records put into a reply one after the other, each of which has room. -/
def putAll (room cap : UInt32) : List Record → List UInt8 → Option (List UInt8)
  | [], data => some data
  | d :: ds, data =>
    match s9pDirentPut (room.toNat - data.length) (cap.toNat - data.length) d.qid d.offset
        d.dtype.toNat d.name with
    | none => none
    | some bytes => putAll room cap ds (data ++ bytes)

theorem putAll_spec {room cap : UInt32} {out : List UInt8} (hle : data.length ≤ cap.toNat)
    (h : putAll room cap ds data = some out) : out = data ++ wire ds ∧ out.length ≤ cap.toNat := by
  induction ds generalizing data with
  | nil =>
    cases h
    exact ⟨(append_nil _).symm, hle⟩
  | cons d ds ih =>
    have hbyte : le 1 d.dtype.toNat = [d.dtype] := by
      rw [le, le, Nat.mod_eq_of_lt d.dtype.toNat_lt, UInt8.ofNat_toNat]
    rw [putAll, s9pDirentPut, hbyte] at h
    split at h
    · cases h
    · rename_i bytes hput
      split at hput
      · cases hput
      · rename_i hroom
        cases hput
        have hd : d.qid ++ le 8 d.offset ++ [d.dtype] ++ wStr d.name = d.bytes := by
          simp only [Record.bytes, append_assoc, singleton_append]
        have hlen := d.length_bytes
        rw [hd] at h
        obtain ⟨rfl, hcap⟩ := ih (by rw [length_append]; omega) h
        exact ⟨by rw [wire_cons, append_assoc], hcap⟩

/-- The records of a packed reply come back. -/
theorem parseReaddir_putAll {room cap : UInt32} (h : putAll room cap ds [] = some data) :
    parseReaddir (le 4 data.length ++ data) arr =
      ⟨true, arr ++ listed ds, some data.length, ds.getLast?.map Record.offset⟩ := by
  obtain ⟨rfl, hcap⟩ := putAll_spec (Nat.zero_le _) h
  have hlt := cap.toNat_lt
  rw [nil_append] at hcap ⊢
  exact parseReaddir_wellFormed ⟨[], by rw [append_nil], by omega⟩

/-- The parser is exact on a message unless a record straddles the end of its window; what
the server packs comes back, and a name that has room is kept. -/
theorem parse_readdir_exact_iff (body : List UInt8) :
    (Exact body ↔ ¬ Straddles body) ∧
      (∀ room cap ds data arr, putAll room cap ds [] = some data →
        parseReaddir (le 4 data.length ++ data) arr =
          ⟨true, arr ++ listed ds, some data.length, ds.getLast?.map Record.offset⟩) ∧
      ∀ d : Record, d.name.length < 256 → 0 ∉ d.name → d.entry = ⟨d.name, d.dtype == 4⟩ := by
  refine ⟨exact_iff, fun room cap ds data arr => parseReaddir_putAll, fun d hlen hnul => ?_⟩
  rw [Record.entry, take_of_length_le (by omega), cstring_of_noNul hnul]

/-- A record of 25 bytes in a window of one byte. -/
theorem record_straddles :
    (parseReaddir (le 4 1 ++ (List.replicate 22 0 ++ [1, 0, 0x61])) []).ok = true ∧
      ¬ ∃ ds, WellFormed (le 4 1 ++ (List.replicate 22 0 ++ [1, 0, 0x61])) ds := by
  constructor
  · decide +kernel
  · rintro ⟨ds, rest, hwin⟩
    have hwin' : Window (le 4 1 ++ (List.replicate 22 0 ++ [1, 0, 0x61])) [0]
        (List.replicate 21 0 ++ [1, 0, 0x61]) := ⟨rfl, by decide⟩
    have hlen := congrArg List.length (hwin.unique hwin').1
    cases ds with
    | nil => cases hlen
    | cons d ds =>
      rw [wire_cons, length_append, d.length_bytes] at hlen
      exact absurd hlen (by simp only [length_singleton]; omega)

end DirWindow

end NineP

end AxlSdk
