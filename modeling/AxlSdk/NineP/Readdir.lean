import AxlSdk.NineP.Export

/-!
# Reading a directory over 9P (`s9p_handle_treaddir`, `axl_9p_parse_readdir`)

An iterator of the file system cannot seek, a cursor of the protocol can be anything. What
a request gets is nevertheless decided by its cursor alone.

- `Dirent`, `dirents`: the records of a directory, `.` and `..` first.
- `axl9pParseReaddir`: the records the client finds in a reply.
- `Replays`: a file system in which a directory does not change. `Iterating`: a fid that is
  open on it, with its iterator anywhere.
- `treaddir_gives`: from any such state a request gets the records behind its cursor, as
  many of them as fit, and leaves such a state.
- `enumerate`: requests one after the other, each from the last record of the one before.
-/

namespace AxlSdk

namespace NineP

open Paths List

/-! ## Records -/

structure Dirent where
  /-- The cursor of what follows the record. -/
  offset : Nat
  isDir : Bool
  name : Path
deriving DecidableEq, Repr

/-- `qid[13] offset[8] type[1] namelen[2] name` -/
def Dirent.size (d : Dirent) : Nat := 24 + d.name.length

def Dirent.bytes (qid : List UInt8) (d : Dirent) : List UInt8 :=
  qid ++ le 8 d.offset ++ le 1 (if d.isDir then 4 else 8) ++ wStr d.name

/-- The records of the entries an iterator has ahead, the first entry at the cursor `k`.
The entries that `.` and `..` stand for and those whose path has no room in a fid have
none. -/
def realDirents (dir : Path) (k : Nat) : List AxlFsEntry → List Dirent
  | [] => []
  | e :: es =>
    if isDotName e.name ∨ pathMax ≤ (axlPathJoin dir e.name).length then
      realDirents dir (k + 1) es
    else ⟨k, e.isDir, e.name⟩ :: realDirents dir (k + 1) es

/-- The records of a directory. -/
def dirents (dir : Path) (entries : List AxlFsEntry) : List Dirent :=
  ⟨1, true, [46]⟩ :: ⟨2, true, [46, 46]⟩ :: realDirents dir 3 entries

/-- The records behind a cursor. -/
def following (dir : Path) (entries : List AxlFsEntry) (cursor : Nat) : List Dirent :=
  (dirents dir entries).filter (cursor < ·.offset)

/-- As many records as fit, from the first one on. -/
def fitting (room : Nat) : List Dirent → List Dirent
  | [] => []
  | d :: ds => if room < d.size then [] else d :: fitting (room - d.size) ds

/-- The loop of `axl_9p_parse_readdir`, with `left` bytes of the records to go; the records
it drops from the listing (`.` and `..`) are kept. -/
def parseReaddirLoop : Nat → Nat → Axl9pReader → Option (List Dirent)
  | 0, _, _ => some []
  | n + 1, left, r =>
    if left = 0 then some []
    else
      let offset := rU64 { r with rest := r.rest.drop 13 }
      let dtype := rU8 offset.2
      let name := rStr 256 dtype.2
      if name.2.error then none
      else
        (parseReaddirLoop n (left - (r.rest.length - name.2.rest.length)) name.2).map
          (⟨offset.1, dtype.1 == 4, name.1.1.bytes⟩ :: ·)

/-- `axl_9p_parse_readdir` -/
def axl9pParseReaddir (body : List UInt8) : Option (List Dirent) :=
  let dcount := rU32 ⟨body, false⟩
  if dcount.2.error then none
  else if dcount.1 = 0 then some []
  else if dcount.2.rest.length < dcount.1 then none
  else parseReaddirLoop body.length dcount.1 dcount.2

/-- The bytes of some records, whatever their qids. -/
inductive Wire : List UInt8 → List Dirent → Prop where
  | nil : Wire [] []
  | cons {qid data : List UInt8} {d : Dirent} {ds : List Dirent} (hqid : qid.length = 13)
      (h : Wire data ds) : Wire (d.bytes qid ++ data) (d :: ds)

/-- A record that the wire carries as it is. -/
structure Dirent.Sound (d : Dirent) : Prop where
  offset : d.offset < 2 ^ 64
  short : d.name.length < 256
  noNul : 0 ∉ d.name

theorem Dirent.length_bytes {qid : List UInt8} (hqid : qid.length = 13) (d : Dirent) :
    (d.bytes qid).length = d.size := by
  simp only [Dirent.bytes, Dirent.size, wStr, length_append, le_length, hqid]
  omega

variable {data : List UInt8} {ds : List Dirent}

theorem Wire.append {data' : List UInt8} {ds' : List Dirent} (h : Wire data ds)
    (h' : Wire data' ds') : Wire (data ++ data') (ds ++ ds') := by
  induction h with
  | nil => exact h'
  | cons hqid _ ih =>
    rw [append_assoc]
    exact .cons hqid ih

theorem Wire.single {qid : List UInt8} (hqid : qid.length = 13) (d : Dirent) :
    Wire (d.bytes qid) [d] := by
  have h := Wire.cons (d := d) hqid .nil
  rwa [append_nil] at h

/-- The client takes the records apart again. -/
theorem parseReaddirLoop_wire (h : Wire data ds) (hsound : ∀ d ∈ ds, d.Sound) (n : Nat)
    (hn : data.length ≤ n) :
    parseReaddirLoop n data.length ⟨data, false⟩ = some ds := by
  induction h generalizing n with
  | nil => cases n <;> rfl
  | @cons qid data d ds hqid h ih =>
    obtain ⟨hoffset, hshort, hnul⟩ := hsound d mem_cons_self
    have hlen : (d.bytes qid ++ data).length = d.size + data.length := by
      rw [length_append, Dirent.length_bytes hqid]
    have hpos : 0 < d.size := by
      rw [Dirent.size]
      omega
    obtain ⟨n, rfl⟩ : ∃ m, n = m + 1 := Nat.exists_eq_succ_of_ne_zero (by omega)
    have hdrop : (d.bytes qid ++ data).drop 13 = le 8 d.offset ++
        (le 1 (if d.isDir then 4 else 8) ++ (wStr d.name ++ data)) := by
      simp only [Dirent.bytes, append_assoc]
      exact drop_left' hqid
    have hcode : (if d.isDir then 4 else 8) < 256 ^ 1 := by split <;> decide
    have hdtype : ∀ rest, rU8 ⟨le 1 (if d.isDir then 4 else 8) ++ rest, false⟩ =
        (if d.isDir then 4 else 8, ⟨rest, false⟩) := fun rest => rUint_le 1 hcode rest false
    obtain ⟨c, hname, hc⟩ := rStr_wStr hnul hshort (by omega) data false
    have hleft : d.size + data.length - (d.size + data.length - data.length) = data.length := by
      omega
    have hkind : ((if d.isDir then 4 else 8 : Nat) == 4) = d.isDir := by
      cases d.isDir <;> rfl
    rw [parseReaddirLoop, if_neg (by omega)]
    simp only [hdrop, rU64_le hoffset, hdtype, hname, hlen, hleft, hkind, hc]
    rw [if_neg Bool.false_ne_true, ih (fun x hx => hsound x (mem_cons_of_mem d hx)) n (by omega)]
    rfl

theorem parseReaddir_wire (h : Wire data ds) (hsound : ∀ d ∈ ds, d.Sound)
    (hlen : data.length < 2 ^ 32) :
    axl9pParseReaddir (le 4 data.length ++ data) = some ds := by
  have hcount : rU32 ⟨le 4 data.length ++ data, false⟩ = (data.length, ⟨data, false⟩) :=
    rUint_le 4 (by omega) _ _
  rw [axl9pParseReaddir]
  simp only [hcount]
  rw [if_neg Bool.false_ne_true]
  split
  · next hzero =>
    cases h with
    | nil => rfl
    | @cons qid data d ds hqid h =>
      rw [length_append, Dirent.length_bytes hqid, Dirent.size] at hzero
      omega
  · rw [if_neg (Nat.lt_irrefl _)]
    refine parseReaddirLoop_wire h hsound _ ?_
    rw [length_append]
    omega

/-! ## The records behind a cursor -/

theorem realDirents_offset {dir : Path} {es : List AxlFsEntry} {k : Nat} :
    ∀ d ∈ realDirents dir k es, k ≤ d.offset ∧ d.offset < k + es.length := by
  induction es generalizing k with
  | nil => simp [realDirents]
  | cons e es ih =>
    intro d hd
    rw [length_cons]
    rw [realDirents] at hd
    split at hd
    · have := ih d hd
      omega
    · rcases List.mem_cons.1 hd with rfl | hd
      · exact ⟨le_refl _, by show k < _; omega⟩
      · have := ih d hd
        omega

/-- A cursor drops the entries before it. -/
theorem realDirents_filter {dir : Path} {es : List AxlFsEntry} {k c : Nat} :
    (realDirents dir k es).filter (c < ·.offset) =
      realDirents dir (k + (c + 1 - k)) (es.drop (c + 1 - k)) := by
  induction es generalizing k with
  | nil => simp [realDirents]
  | cons e es ih =>
    by_cases hk : k ≤ c
    · have hstep : c + 1 - k = (c + 1 - (k + 1)) + 1 := by omega
      have hpos : k + (c + 1 - k) = k + 1 + (c + 1 - (k + 1)) := by omega
      rw [hpos, hstep, drop_succ_cons, ← ih, realDirents]
      split
      · rfl
      · rw [filter_cons_of_neg (by simpa using hk)]
    · have hzero : c + 1 - k = 0 := by omega
      rw [hzero, Nat.add_zero, drop_zero, filter_eq_self]
      intro d hd
      have := (realDirents_offset d hd).1
      simp only [decide_eq_true_eq]
      omega

theorem following_real (dir : Path) (entries : List AxlFsEntry) {cursor : Nat} (h : 2 ≤ cursor) :
    following dir entries cursor = realDirents dir (cursor - 2 + 3) (entries.drop (cursor - 2)) := by
  have hskip : cursor + 1 - 3 = cursor - 2 := by omega
  rw [following, dirents, filter_cons_of_neg (by simp; omega),
    filter_cons_of_neg (by simp; omega), realDirents_filter, hskip, Nat.add_comm 3]

theorem following_one (dir : Path) (entries : List AxlFsEntry) :
    following dir entries 1 = ⟨2, true, [46, 46]⟩ :: realDirents dir 3 entries := by
  rw [following, dirents, filter_cons_of_neg (by simp), filter_cons_of_pos (by simp),
    realDirents_filter]
  rfl

theorem following_zero (dir : Path) (entries : List AxlFsEntry) :
    following dir entries 0 = dirents dir entries := by
  rw [following, filter_eq_self]
  intro d hd
  simp only [dirents, mem_cons] at hd
  rcases hd with rfl | rfl | hd
  · rfl
  · rfl
  · have := (realDirents_offset d hd).1
    simp only [decide_eq_true_eq]
    omega

/-- `s9p_readdir_resume` -/
theorem following_eq (dir : Path) (entries : List AxlFsEntry) (cursor : Nat) :
    following dir entries cursor =
      (if cursor < 1 then [⟨1, true, [46]⟩] else []) ++
        ((if cursor < 2 then [⟨2, true, [46, 46]⟩] else []) ++
          realDirents dir ((if cursor < 2 then 0 else cursor - 2) + 3)
            (entries.drop (if cursor < 2 then 0 else cursor - 2))) := by
  match cursor with
  | 0 => exact following_zero dir entries
  | 1 => exact following_one dir entries
  | c + 2 => rw [following_real dir entries (by omega), if_neg (by omega), if_neg (by omega)]; rfl

theorem dirents_pairwise (dir : Path) (entries : List AxlFsEntry) :
    (dirents dir entries).Pairwise (·.offset < ·.offset) := by
  have hreal : ∀ (es : List AxlFsEntry) (k : Nat),
      (realDirents dir k es).Pairwise (·.offset < ·.offset) := by
    intro es
    induction es with
    | nil => exact fun _ => .nil
    | cons e es ih =>
      intro k
      rw [realDirents]
      split
      · exact ih (k + 1)
      · exact .cons (fun d hd => (realDirents_offset d hd).1) (ih (k + 1))
  have hlow : ∀ d ∈ realDirents dir 3 entries, 3 ≤ d.offset := fun d hd =>
    (realDirents_offset d hd).1
  refine .cons (fun d hd => ?_) (.cons (fun d hd => hlow d hd) (hreal entries 3))
  rcases List.mem_cons.1 hd with rfl | hd
  · exact Nat.lt_succ_self 1
  · exact Nat.lt_of_succ_lt (hlow d hd)

/-- After the records up to `d` come those behind its cursor. -/
theorem following_next {dir : Path} {entries : List AxlFsEntry} {cursor : Nat} {rest : List Dirent}
    {d : Dirent} (h : following dir entries cursor = ds ++ [d] ++ rest) :
    following dir entries d.offset = rest := by
  have hsorted : (ds ++ [d] ++ rest).Pairwise (·.offset < ·.offset) := by
    rw [← h]
    exact (dirents_pairwise dir entries).filter _
  have hcursor : cursor < d.offset := by
    have hd : d ∈ following dir entries cursor := by
      rw [h]
      simp
    simpa using (mem_filter.mp hd).2
  have htwice : following dir entries d.offset =
      (following dir entries cursor).filter (d.offset < ·.offset) := by
    rw [following, following, filter_filter]
    refine filter_congr fun x _ => ?_
    rw [Bool.eq_iff_iff, Bool.and_eq_true]
    simp only [decide_eq_true_eq]
    omega
  rw [append_assoc, pairwise_append, singleton_append, pairwise_cons] at hsorted
  obtain ⟨-, ⟨hrest, -⟩, hbefore⟩ := hsorted
  rw [htwice, h, append_assoc, filter_append, singleton_append,
    filter_cons_of_neg (by simp)]
  have hnone : ds.filter (d.offset < ·.offset) = [] := by
    rw [filter_eq_nil_iff]
    intro x hx
    have := hbefore x hx d mem_cons_self
    simp only [decide_eq_true_eq]
    omega
  have hall : rest.filter (d.offset < ·.offset) = rest := by
    rw [filter_eq_self]
    exact fun x hx => by simpa using hrest x hx
  rw [hnone, hall]
  rfl

theorem fitting_append (room : Nat) (ds : List Dirent) : ∃ rest, ds = fitting room ds ++ rest := by
  induction ds generalizing room with
  | nil => exact ⟨[], rfl⟩
  | cons d ds ih =>
    rw [fitting]
    split
    · exact ⟨d :: ds, rfl⟩
    · obtain ⟨rest, hrest⟩ := ih (room - d.size)
      exact ⟨rest, by rw [cons_append, ← hrest]⟩

/-- A reply with room for any record is empty only if there is none left. -/
theorem fitting_eq_nil {room : Nat} (hroom : ∀ d ∈ ds, d.size ≤ room) (h : fitting room ds = []) :
    ds = [] := by
  cases ds with
  | nil => rfl
  | cons d ds =>
    have := hroom d mem_cons_self
    rw [fitting, if_neg (by omega)] at h
    cases h

theorem Wire.length_le {room : Nat} (h : Wire data (fitting room ds)) : data.length ≤ room := by
  induction ds generalizing data room with
  | nil =>
    cases h
    exact Nat.zero_le _
  | cons d ds ih =>
    rw [fitting] at h
    split at h
    · cases h
      exact Nat.zero_le _
    · next hfit =>
      cases h with
      | cons hqid h =>
        have := ih h
        rw [length_append, Dirent.length_bytes hqid]
        omega

/-- What is put into a reply with `room` bytes: all of some records, or too much. -/
def Placed (room : Nat) (ds : List Dirent) : Option (List UInt8) → Prop
  | none => ∀ rest, fitting room (ds ++ rest) = []
  | some data => Wire data ds ∧ data.length ≤ room ∧
      ∀ rest, fitting room (ds ++ rest) = ds ++ fitting (room - data.length) rest

theorem Placed.nothing (room : Nat) : Placed room [] (some []) :=
  ⟨.nil, Nat.zero_le _, fun _ => rfl⟩

theorem direntPut_eq (d : Dirent) (room space : Nat) (qid : List UInt8) :
    s9pDirentPut room space qid d.offset (if d.isDir then 4 else 8) d.name =
      if room < d.size ∨ space < d.size then none else some (d.bytes qid) :=
  rfl

theorem Placed.put {room space : Nat} (hspace : room ≤ space) {qid : List UInt8}
    (hqid : qid.length = 13) (d : Dirent) :
    Placed room [d] (s9pDirentPut room space qid d.offset (if d.isDir then 4 else 8) d.name) := by
  rw [direntPut_eq]
  by_cases hfull : room < d.size
  · rw [if_pos (.inl hfull)]
    intro rest
    rw [singleton_append, fitting, if_pos hfull]
  · rw [if_neg (by omega)]
    refine ⟨Wire.single hqid d, ?_, fun rest => ?_⟩
    · rw [Dirent.length_bytes hqid]
      omega
    · rw [singleton_append, fitting, if_neg hfull, Dirent.length_bytes hqid]
      rfl

/-! ## A directory that does not change -/

section

variable {φ σ : Type} {world : (o : FsOp) → φ → σ → o.Answer × σ}

/-- A file system in which the directory stays as it is: every iterator on it starts with
the same entries ahead. -/
structure Replays (world : (o : FsOp) → φ → σ → o.Answer × σ) (dir : Path)
    (entries : List AxlFsEntry) (ahead : Handle → σ → Option (List AxlFsEntry)) : Prop where
  opens : ∀ c s, ∃ h, (world (.dirOpen dir) c s).1 = some h ∧
    ahead h (world (.dirOpen dir) c s).2 = some entries
  reads : ∀ c s h es, ahead h s = some es →
    (world (.dirRead h) c s).1 = es.head? ∧ ahead h (world (.dirRead h) c s).2 = some es.tail
  infos : ∀ p c s h, ahead h (world (.fileInfo p) c s).2 = ahead h s
  mallocs : ∀ c s h, ahead h (world .malloc c s).2 = ahead h s

/-- Memory is there when it is asked for. -/
def Granting (world : (o : FsOp) → φ → σ → o.Answer × σ) : Prop :=
  ∀ c s, (world .malloc c s).1 = true

/-- What the names of a file system are, and as many as a cursor can count. -/
structure Listing (entries : List AxlFsEntry) : Prop where
  names : ∀ e ∈ entries, e.name.length < 256 ∧ 0 ∉ e.name
  count : entries.length + 3 < 2 ^ 64

theorem Listing.sound {entries : List AxlFsEntry} (h : Listing entries) (dir : Path) :
    ∀ d ∈ dirents dir entries, d.Sound := by
  have hreal : ∀ (es : List AxlFsEntry) (k : Nat), k + es.length < 2 ^ 64 →
      (∀ e ∈ es, e.name.length < 256 ∧ 0 ∉ e.name) → ∀ d ∈ realDirents dir k es, d.Sound := by
    intro es
    induction es with
    | nil => exact fun _ _ _ => by simp [realDirents]
    | cons e es ih =>
      intro k hk hnames
      rw [length_cons] at hk
      have hrest := ih (k + 1) (by omega) fun x hx => hnames x (mem_cons_of_mem e hx)
      rw [realDirents]
      split
      · exact hrest
      · intro d hd
        rcases List.mem_cons.1 hd with rfl | hd
        · obtain ⟨hshort, hnul⟩ := hnames e mem_cons_self
          exact ⟨by show k < _; omega, hshort, hnul⟩
        · exact hrest d hd
  intro d hd
  simp only [dirents, mem_cons] at hd
  rcases hd with rfl | rfl | hd
  · exact ⟨by decide, by decide, by decide⟩
  · exact ⟨by decide, by decide, by decide⟩
  · exact hreal entries 3 (by have := h.count; omega) h.names d hd

variable {dir : Path} {entries es : List AxlFsEntry}
  {ahead : Handle → σ → Option (List AxlFsEntry)} {h : Handle} {s : σ}

theorem pathAppend_gives (hw : Replays world dir entries ahead) (hm : Granting world)
    (hs : ahead h s = some es)
    (base name : Path) :
    Prog.Gives world (s9pPathAppend base name) s fun full t => ahead h t = some es ∧
      full = if pathMax ≤ (axlPathJoin base name).length then none
        else some (axlPathJoin base name) := by
  refine (Prog.Gives.perform fun c => ⟨hm c s, hw.mallocs c s h⟩).bind (Q := fun ok t =>
    ok = true ∧ ahead h t = ahead h s) fun ok t ht => Prog.Gives.done ⟨ht.2.trans hs, ?_⟩
  rw [ht.1]
  split <;> split <;> simp_all <;> omega

theorem dirRead_gives (hw : Replays world dir entries ahead) (hs : ahead h s = some es) :
    Prog.Gives world (axlDirRead h) s fun e t => e = es.head? ∧ ahead h t = some es.tail :=
  Prog.Gives.perform fun c => hw.reads c s h es hs

theorem fileInfo_gives (hw : Replays world dir entries ahead) (hs : ahead h s = some es)
    (path : Path) : Prog.Gives world (axlFileInfo path) s fun _ t => ahead h t = some es :=
  Prog.Gives.perform fun c => (hw.infos path c s h).trans hs

/-- Skipping stops at the end of the directory. -/
theorem skipLoop_gives (hw : Replays world dir entries ahead) (n : Nat) :
    ∀ (dirPos : Nat) (es : List AxlFsEntry) (s : σ), ahead h s = some es →
      Prog.Gives world (skipLoop h n dirPos) s fun pos t =>
        pos = dirPos + min n es.length ∧ ahead h t = some (es.drop (min n es.length)) := by
  induction n with
  | zero =>
    intro dirPos es s hs
    refine Prog.Gives.done ⟨by simp, by simpa using hs⟩
  | succ n ih =>
    intro dirPos es s hs
    refine (dirRead_gives hw hs).bind fun e t ht => ?_
    obtain ⟨rfl, ht⟩ := ht
    cases es with
    | nil => exact Prog.Gives.done ⟨rfl, ht⟩
    | cons e es =>
      refine (ih (dirPos + 1) es t ht).mono fun pos u hu => ?_
      rw [length_cons, Nat.succ_min_succ, drop_succ_cons]
      exact ⟨by omega, hu.2⟩

variable {room space : Nat}

/-- The real entries: the records that fit, the iterator past the last one it read. -/
theorem entryLoop_gives (hw : Replays world dir entries ahead) (hm : Granting world)
    (hspace : room ≤ space) (es : List AxlFsEntry) :
    ∀ (n dirPos : Nat) (data : List UInt8) (s : σ), ahead h s = some es → es.length < n →
      data.length ≤ room →
      Prog.Gives world (entryLoop dir h room space n dirPos data) s fun res t =>
        ∃ j new, j ≤ es.length ∧ res = (dirPos + j, data ++ new) ∧
          Wire new (fitting (room - data.length) (realDirents dir (dirPos + 3) es)) ∧
          ahead h t = some (es.drop j) := by
  induction es with
  | nil =>
    intro n dirPos data s hs hn _
    obtain ⟨n, rfl⟩ : ∃ m, n = m + 1 := Nat.exists_eq_succ_of_ne_zero (by omega)
    refine (dirRead_gives hw hs).bind fun e t ht => ?_
    obtain ⟨rfl, ht⟩ := ht
    exact Prog.Gives.done ⟨0, [], le_refl _, by simp, .nil, ht⟩
  | cons e es ih =>
    intro n dirPos data s hs hn hroom
    rw [length_cons] at hn
    obtain ⟨n, rfl⟩ : ∃ m, n = m + 1 := Nat.exists_eq_succ_of_ne_zero (by omega)
    refine (dirRead_gives hw hs).bind fun e' t ht => ?_
    obtain ⟨rfl, ht⟩ := ht
    -- an entry without a record
    have hskip : isDotName e.name = true ∨ pathMax ≤ (axlPathJoin dir e.name).length →
        ∀ u, ahead h u = some es →
        Prog.Gives world (entryLoop dir h room space n (dirPos + 1) data) u fun res t =>
          ∃ j new, j ≤ es.length + 1 ∧ res = (dirPos + j, data ++ new) ∧
            Wire new (fitting (room - data.length) (realDirents dir (dirPos + 3) (e :: es))) ∧
            ahead h t = some ((e :: es).drop j) := by
      intro hnone u hu
      refine (ih n (dirPos + 1) data u hu (by omega) hroom).mono fun res t hres => ?_
      obtain ⟨j, new, hj, rfl, hwire, ht⟩ := hres
      refine ⟨j + 1, new, by omega, by rw [show dirPos + 1 + j = dirPos + (j + 1) by omega], ?_, ht⟩
      rw [realDirents, if_pos hnone, show dirPos + 3 + 1 = dirPos + 1 + 3 by omega]
      exact hwire
    simp only [head?_cons, length_cons]
    split
    · next hdot => exact hskip (.inl hdot) t ht
    next hdot =>
    refine (pathAppend_gives hw hm ht _ _).bind fun full u hu => ?_
    obtain ⟨hu, rfl⟩ := hu
    by_cases hlong : pathMax ≤ (axlPathJoin dir e.name).length
    · rw [if_pos hlong]
      exact hskip (.inr hlong) u hu
    · rw [if_neg hlong]
      simp only []
      have hrecs : realDirents dir (dirPos + 3) (e :: es) =
          ⟨dirPos + 3, e.isDir, e.name⟩ :: realDirents dir (dirPos + 3 + 1) es := by
        rw [realDirents, if_neg (by simp [hdot, hlong])]
      have hqid : (s9pQid e (axlPathJoin dir e.name)).length = 13 := by simp [s9pQid]
      rw [hrecs, fitting, direntPut_eq ⟨dirPos + 3, e.isDir, e.name⟩]
      generalize hd : (⟨dirPos + 3, e.isDir, e.name⟩ : Dirent) = d
      have hlen := Dirent.length_bytes hqid d
      by_cases hfull : room - data.length < d.size
      · -- the record does not fit: the entry is read, but not sent
        rw [if_pos (.inl hfull), if_pos hfull]
        exact Prog.Gives.done ⟨1, [], by omega, by simp, .nil, hu⟩
      · rw [if_neg (by omega), if_neg hfull]
        refine (ih n (dirPos + 1) _ u hu (by omega) ?_).mono fun res t hres => ?_
        · rw [length_append, hlen]
          omega
        obtain ⟨j, new, hj, rfl, hwire, ht⟩ := hres
        refine ⟨j + 1, d.bytes (s9pQid e (axlPathJoin dir e.name)) ++ new, by omega, ?_, ?_, ht⟩
        · rw [append_assoc, show dirPos + 1 + j = dirPos + (j + 1) by omega]
        rw [length_append, hlen, ← Nat.sub_sub,
          show dirPos + 1 + 3 = dirPos + 3 + 1 by omega] at hwire
        exact Wire.cons hqid hwire

theorem length_qid (e : AxlFsEntry) (path : Path) : (s9pQid e path).length = 13 := by
  simp [s9pQid]

theorem dotRecord_gives (hw : Replays world dir entries ahead) (hs : ahead h s = some es)
    (hspace : room ≤ space) :
    Prog.Gives world (dotRecord dir room space) s fun dot t =>
      Placed room [⟨1, true, [46]⟩] dot ∧ ahead h t = some es :=
  (fileInfo_gives hw hs dir).bind fun _ _ ht =>
    Prog.Gives.done ⟨Placed.put hspace (length_qid _ _) ⟨1, true, [46]⟩, ht⟩

theorem dotdotRecord_gives (hw : Replays world dir entries ahead) (hs : ahead h s = some es)
    (root : Path) (hspace : room ≤ space) (data : List UInt8) :
    Prog.Gives world (dotdotRecord root dir room space data) s fun dotdot t =>
      Placed (room - data.length) [⟨2, true, [46, 46]⟩] dotdot ∧ ahead h t = some es := by
  have hup : Prog.Gives world (s9pPathUp root dir) s fun _ t => ahead h t = some es := by
    rw [s9pPathUp]
    split
    · exact Prog.Gives.done hs
    · exact (Prog.Gives.perform fun c => (hw.mallocs c s h).trans hs).bind fun _ _ ht => Prog.Gives.done ht
  refine hup.bind fun up t ht => ?_
  refine (fileInfo_gives hw ht (up.getD dir)).bind fun info u hu => ?_
  exact Prog.Gives.done ⟨Placed.put (by omega) (length_qid _ _) ⟨2, true, [46, 46]⟩, hu⟩

/-- The reply of an iterator that is at the cursor. -/
theorem readdirFill_gives (hw : Replays world dir entries ahead) (hm : Granting world)
    (hl : es.length < 2 ^ 64) (hs : ahead h s = some es) (root : Path) (cursor dirPos : Nat)
    (hspace : room ≤ space) :
    Prog.Gives world (readdirFill root dir h cursor dirPos room space) s fun res t =>
      ∃ j, j ≤ es.length ∧ res.1 = dirPos + j ∧ ahead h t = some (es.drop j) ∧
        Wire res.2 (fitting room ((if cursor < 1 then [⟨1, true, [46]⟩] else []) ++
          ((if cursor < 2 then [⟨2, true, [46, 46]⟩] else []) ++
            realDirents dir (dirPos + 3) es))) := by
  generalize hdots : (if cursor < 1 then [⟨1, true, [46]⟩] else [] : List Dirent) = dots
  generalize hdotdots : (if cursor < 2 then [⟨2, true, [46, 46]⟩] else [] : List Dirent) = dotdots
  have hdot : Prog.Gives world (if cursor < 1 then dotRecord dir room space else pure (some [])) s
      fun dot t => Placed room dots dot ∧ ahead h t = some es := by
    rw [← hdots]
    split
    · exact dotRecord_gives hw hs hspace
    · exact Prog.Gives.done ⟨Placed.nothing _, hs⟩
  refine hdot.bind fun dot t ht => ?_
  obtain ⟨hplaced, ht⟩ := ht
  cases dot with
  | none => exact Prog.Gives.done ⟨0, Nat.zero_le _, rfl, ht, by rw [hplaced]; exact .nil⟩
  | some data =>
    obtain ⟨hwire, hroom, hfit⟩ := hplaced
    rw [hfit]
    have hdotdot : Prog.Gives world (if cursor < 2 then dotdotRecord root dir room space data
        else pure (some [])) t fun dotdot u =>
          Placed (room - data.length) dotdots dotdot ∧ ahead h u = some es := by
      rw [← hdotdots]
      split
      · exact dotdotRecord_gives hw ht root hspace data
      · exact Prog.Gives.done ⟨Placed.nothing _, ht⟩
    refine hdotdot.bind fun dotdot u hu => ?_
    obtain ⟨hplaced, hu⟩ := hu
    cases dotdot with
    | none =>
      rw [hplaced, append_nil]
      exact Prog.Gives.done ⟨0, Nat.zero_le _, rfl, hu, hwire⟩
    | some record =>
      obtain ⟨hwire', hroom', hfit'⟩ := hplaced
      rw [hfit', ← append_assoc]
      refine (entryLoop_gives hw hm hspace es dirFuel dirPos (data ++ record) u hu hl ?_).mono
        fun res v hv => ?_
      · rw [length_append]
        omega
      obtain ⟨j, new, hj, rfl, hnew, hv⟩ := hv
      rw [length_append, ← Nat.sub_sub] at hnew
      exact ⟨j, hj, rfl, hv, (hwire.append hwire').append hnew⟩

/-- A fid that is open on the directory, with its iterator anywhere. -/
structure Iterating (dir : Path) (entries : List AxlFsEntry)
    (ahead : Handle → σ → Option (List AxlFsEntry)) (fid : Nat) (conn : S9pConn) (s : σ) :
    Prop where
  number : fid < 2 ^ 32
  msize : MsizeOk conn
  place : ∃ i f h, s9pFidGet conn fid = some (i, f) ∧ f.isOpen = true ∧ f.path = dir ∧
    f.dir = some h ∧ f.dirPos ≤ entries.length ∧ ahead h s = some (entries.drop f.dirPos)

variable {conn : S9pConn} {fid : Nat}

/-- The slot of a fid that is written back. -/
theorem fidGet_setFid {i : Nat} {f g : S9pFid} (h : s9pFidGet conn fid = some (i, f))
    (hused : g.used = f.used) (hfid : g.fid = f.fid) :
    s9pFidGet (conn.setFid i g) fid = some (i, g) := by
  have hfind : ∀ (fids : List S9pFid) (k j : Nat), findFid fid k fids = some (k + j, f) →
      findFid fid k (fids.set j g) = some (k + j, g) := by
    intro fids
    induction fids with
    | nil =>
      intro k j hj
      cases hj
    | cons x fids ih =>
      intro k j hj
      rw [findFid] at hj
      split at hj
      · next hx =>
        obtain ⟨hjk, rfl⟩ := Prod.mk.inj (Option.some.inj hj)
        obtain rfl : j = 0 := by omega
        rw [set_cons_zero, findFid, if_pos ⟨hused.trans hx.1, hfid.trans hx.2⟩]
        rfl
      · next hx =>
        obtain ⟨m, hm, -⟩ := findFid_some hj
        obtain ⟨l, rfl⟩ : ∃ l, j = l + 1 := ⟨m, by omega⟩
        rw [set_cons_succ, findFid, if_neg hx]
        rw [show k + (l + 1) = k + 1 + l by omega] at hj ⊢
        exact ih _ _ hj
  have := hfind conn.fids 0 i (by rw [Nat.zero_add]; exact h)
  rw [Nat.zero_add] at this
  exact this

/-- The body of a `Treaddir`. -/
def treaddirBody (fid cursor count : Nat) : List UInt8 := le 4 fid ++ (le 8 cursor ++ le 4 count)

/-- What a reply has for a cursor. -/
structure Served (dir : Path) (entries : List AxlFsEntry)
    (ahead : Handle → σ → Option (List AxlFsEntry)) (fid : Nat) (conn : S9pConn)
    (cursor count : Nat) (res : Reply × S9pConn) (t : σ) : Prop where
  reply : ∃ data, res.1 = ⟨41, le 4 data.length ++ data⟩ ∧
    Wire data (fitting (min count (conn.msize - 11)) (following dir entries cursor))
  msize : res.2.msize = conn.msize
  iterating : Iterating dir entries ahead fid res.2 t

theorem readdirFrom_gives (hw : Replays world dir entries ahead) (hm : Granting world)
    (hl : Listing entries) {i : Nat} {f g : S9pFid} (hnumber : fid < 2 ^ 32) (hmsize : MsizeOk conn)
    (hget : s9pFidGet conn fid = some (i, g)) (hused : f.used = g.used) (hfid : f.fid = g.fid)
    (hopen : f.isOpen = true) (hpath : f.path = dir) (hdir : f.dir = some h)
    (hpos : f.dirPos ≤ entries.length) (hs : ahead h s = some (entries.drop f.dirPos))
    (srv : Axl9pServer) (cursor count : Nat)
    (hbehind : f.dirPos ≤ if cursor < 2 then 0 else cursor - 2) :
    Prog.Gives world (s9pHandleTreaddir.readdirFrom srv conn i f h cursor
      (if cursor < 2 then 0 else cursor - 2) count) s
      (Served dir entries ahead fid conn cursor count) := by
  subst hpath
  rw [s9pHandleTreaddir.readdirFrom]
  have hfollow := following_eq f.path entries cursor
  generalize hskip : (if cursor < 2 then 0 else cursor - 2) = skip at hbehind hfollow ⊢
  refine (skipLoop_gives hw _ _ _ s hs).bind fun dirPos t ht => ?_
  obtain ⟨rfl, ht⟩ := ht
  rw [length_drop, drop_drop] at ht
  rw [length_drop]
  generalize hat : f.dirPos + min (skip - f.dirPos) (entries.length - f.dirPos) = dirPos at ht ⊢
  have hroom : (if conn.txcap - 11 < if count < conn.msize - 11 then count else conn.msize - 11
      then conn.txcap - 11 else if count < conn.msize - 11 then count else conn.msize - 11) =
        min count (conn.msize - 11) := by
    obtain ⟨-, -, htx⟩ := hmsize
    split <;> split <;> omega
  have hback : ∀ (pos : Nat) (u : σ), pos ≤ entries.length → ahead h u = some (entries.drop pos) →
      Iterating f.path entries ahead fid (conn.setFid i { f with dirPos := pos }) u :=
    fun pos u hp hu =>
      ⟨hnumber, hmsize, i, _, h, fidGet_setFid hget hused hfid, hopen, rfl, hdir, hp, hu⟩
  simp only [hroom]
  split
  · next hend =>
    -- the cursor is past the end
    have hnone : following f.path entries cursor = [] := by
      have hlong : entries.drop skip = [] := drop_eq_nil_of_le (by omega)
      have hcursor : 2 ≤ cursor := by
        by_contra hlow
        rw [if_pos (by omega)] at hskip
        omega
      rw [hfollow, hlong, if_neg (by omega), if_neg (by omega)]
      rfl
    refine Prog.Gives.done ⟨⟨[], rfl, ?_⟩, rfl, hback _ _ (by omega) ht⟩
    rw [hnone]
    exact .nil
  · next hthere =>
    obtain rfl : dirPos = skip := by omega
    have hlen : (entries.drop dirPos).length < 2 ^ 64 := by
      have := hl.count
      rw [length_drop]
      omega
    have hspace : min count (conn.msize - 11) ≤ conn.txcap - 11 := by
      obtain ⟨-, -, htx⟩ := hmsize
      omega
    refine (readdirFill_gives hw hm hlen ht srv.root cursor dirPos hspace).bind fun res u hu => ?_
    obtain ⟨j, hj, hpos', hu, hwire⟩ := hu
    rw [length_drop] at hj
    rw [drop_drop] at hu
    refine Prog.Gives.done ⟨⟨res.2, rfl, ?_⟩, rfl, ?_⟩
    · rw [hfollow]
      exact hwire
    · rw [hpos']
      exact hback _ _ (by omega) hu

attribute [local irreducible] Prog.Gives in
/-- **One request**: whatever the iterator has been through, its reply has the records
behind the cursor, as many of them as fit. -/
theorem treaddir_gives (hw : Replays world dir entries ahead) (hm : Granting world)
    (hl : Listing entries) (hi : Iterating dir entries ahead fid conn s) (srv : Axl9pServer)
    {cursor count : Nat} (hcursor : cursor < 2 ^ 64) (hcount : count < 2 ^ 32) :
    Prog.Gives world (s9pHandleTreaddir srv conn ⟨treaddirBody fid cursor count, false⟩) s
      (Served dir entries ahead fid conn cursor count) := by
  obtain ⟨hnumber, hmsize, i, f, h, hget, hopen, rfl, hdir, hpos, hs⟩ := hi
  have hfid : rU32 ⟨treaddirBody fid cursor count, false⟩ =
      (fid, ⟨le 8 cursor ++ le 4 count, false⟩) := rUint_le 4 hnumber _ _
  have hlast : rU32 ⟨le 4 count, false⟩ = (count, ⟨[], false⟩) := by
    have := rUint_le 4 hcount [] false
    rwa [append_nil] at this
  rw [s9pHandleTreaddir]
  simp only [hfid, rU64_le hcursor, hlast, hget, hopen, hdir, Bool.false_eq_true, if_false,
    Bool.not_true]
  by_cases hbehind : (if cursor < 2 then 0 else cursor - 2) < f.dirPos
  · -- a cursor behind the iterator: the directory is opened again
    rw [if_pos hbehind]
    refine (Prog.Gives.perform (o := FsOp.dirClose h) (Q := fun _ _ => True) fun _ => trivial).bind
      fun _ t _ => ?_
    refine (Prog.Gives.perform (o := FsOp.dirOpen f.path) (Q := fun r u => ∃ d, r = some d ∧
      ahead d u = some entries) fun c => hw.opens c t).bind fun reopened u hu => ?_
    obtain ⟨d, rfl, hu⟩ := hu
    exact readdirFrom_gives hw hm hl (f := { f with isOpen := true, dir := some d, dirPos := 0 }) hnumber hmsize hget
      rfl rfl rfl rfl rfl (Nat.zero_le _) hu srv cursor count (Nat.zero_le _)
  · rw [if_neg hbehind]
    exact readdirFrom_gives hw hm hl hnumber hmsize hget rfl rfl hopen rfl hdir hpos hs srv cursor
      count (by omega)

/-! ## Sequences of requests -/

/-- A request, and what is chosen while it is served. -/
structure Treaddir (φ : Type) where
  cursor : Nat
  count : Nat
  choices : Stream' φ

/-- The records the client finds in the reply, and what the request leaves. -/
def Treaddir.serve (world : (o : FsOp) → φ → σ → o.Answer × σ) (srv : Axl9pServer) (fid : Nat)
    (q : Treaddir φ) (st : S9pConn × σ) : Option (List Dirent) × (S9pConn × σ) :=
  let res := (s9pHandleTreaddir srv st.1 ⟨treaddirBody fid q.cursor q.count, false⟩).run world
    q.choices st.2
  (if res.1.1.type = 41 then axl9pParseReaddir res.1.1.body else none, (res.1.2, res.2))

/-- What some requests leave. -/
def serveAll (world : (o : FsOp) → φ → σ → o.Answer × σ) (srv : Axl9pServer) (fid : Nat)
    (history : List (Treaddir φ)) (st : S9pConn × σ) : S9pConn × σ :=
  history.foldl (fun st q => (q.serve world srv fid st).2) st

/-- Requests from a cursor on, each with the cursor of the last record received, until a
reply is empty: the records of them all. -/
def enumerate (world : (o : FsOp) → φ → σ → o.Answer × σ) (srv : Axl9pServer) (fid : Nat) :
    Nat → Nat → Stream' (Nat × Stream' φ) → S9pConn × σ → Option (List Dirent)
  | 0, _, _, _ => none
  | n + 1, cursor, reqs, st =>
    let q : Treaddir φ := ⟨cursor, reqs.head.1, reqs.head.2⟩
    let served := q.serve world srv fid st
    match served.1 with
    | none => none
    | some ds =>
      match ds.getLast? with
      | none => some []
      | some d => (enumerate world srv fid n d.offset reqs.tail served.2).map (ds ++ ·)

theorem Treaddir.serve_snd (world : (o : FsOp) → φ → σ → o.Answer × σ) (srv : Axl9pServer)
    (fid : Nat) (q : Treaddir φ) (st : S9pConn × σ) :
    (q.serve world srv fid st).2 =
      (((s9pHandleTreaddir srv st.1 ⟨treaddirBody fid q.cursor q.count, false⟩).run world
          q.choices st.2).1.2,
        ((s9pHandleTreaddir srv st.1 ⟨treaddirBody fid q.cursor q.count, false⟩).run world
          q.choices st.2).2) :=
  rfl

theorem serveAll_cons (world : (o : FsOp) → φ → σ → o.Answer × σ) (srv : Axl9pServer) (fid : Nat)
    (q : Treaddir φ) (history : List (Treaddir φ)) (st : S9pConn × σ) :
    serveAll world srv fid (q :: history) st =
      serveAll world srv fid history (q.serve world srv fid st).2 :=
  rfl

/-- What a client can send. -/
structure Treaddir.Ok (q : Treaddir φ) : Prop where
  cursor : q.cursor < 2 ^ 64
  count : q.count < 2 ^ 32

theorem serve_fits (hw : Replays world dir entries ahead) (hm : Granting world)
    (hl : Listing entries) {st : S9pConn × σ} (hi : Iterating dir entries ahead fid st.1 st.2)
    (srv : Axl9pServer) {q : Treaddir φ} (hq : q.Ok) :
    (q.serve world srv fid st).1 =
        some (fitting (min q.count (st.1.msize - 11)) (following dir entries q.cursor)) ∧
      (q.serve world srv fid st).2.1.msize = st.1.msize ∧
      Iterating dir entries ahead fid (q.serve world srv fid st).2.1
        (q.serve world srv fid st).2.2 := by
  obtain ⟨⟨data, hreply, hwire⟩, hmsize, hback⟩ :=
    (treaddir_gives hw hm hl hi srv hq.cursor hq.count).run q.choices
  rw [Treaddir.serve_snd]
  dsimp only
  refine ⟨?_, hmsize, hback⟩
  simp only [Treaddir.serve, hreply, if_true]
  have hroom := hwire.length_le
  have hcount := hq.count
  refine parseReaddir_wire hwire (fun d hd => ?_) (by omega)
  obtain ⟨rest, hrest⟩ := fitting_append (min q.count (st.1.msize - 11))
    (following dir entries q.cursor)
  have hin : d ∈ following dir entries q.cursor := by
    rw [hrest]
    exact mem_append_left _ hd
  exact hl.sound dir d (mem_filter.mp hin).1

theorem serveAll_iterating (hw : Replays world dir entries ahead) (hm : Granting world)
    (hl : Listing entries) (srv : Axl9pServer) (history : List (Treaddir φ))
    (hok : ∀ q ∈ history, q.Ok) {st : S9pConn × σ} (hi : Iterating dir entries ahead fid st.1 st.2)
    :
    (serveAll world srv fid history st).1.msize = st.1.msize ∧
      Iterating dir entries ahead fid (serveAll world srv fid history st).1
        (serveAll world srv fid history st).2 := by
  induction history generalizing st with
  | nil => exact ⟨rfl, hi⟩
  | cons q history ih =>
    obtain ⟨-, hmsize, hback⟩ := serve_fits hw hm hl hi srv (hok q mem_cons_self)
    have hrest := ih (fun x hx => hok x (mem_cons_of_mem q hx)) hback
    rw [serveAll_cons]
    exact ⟨hrest.1.trans hmsize, hrest.2⟩

/-- A record fits the smallest reply there is. -/
theorem size_le_msize (hl : Listing entries) (h : MsizeOk conn) :
    ∀ d ∈ dirents dir entries, d.size ≤ conn.msize - 11 := by
  intro d hd
  have hshort := (hl.sound dir d hd).short
  have hmin : 512 ≤ conn.msize := h.1
  rw [Dirent.size]
  omega

theorem enumerate_following (hw : Replays world dir entries ahead) (hm : Granting world)
    (hl : Listing entries) (srv : Axl9pServer) (n : Nat) :
    ∀ (cursor : Nat) (reqs : Stream' (Nat × Stream' φ)) (st : S9pConn × σ),
      (following dir entries cursor).length < n → cursor < 2 ^ 64 →
      (∀ i, (reqs.get i).1 < 2 ^ 32 ∧ ∀ d ∈ dirents dir entries, d.size ≤ (reqs.get i).1) →
      Iterating dir entries ahead fid st.1 st.2 →
      enumerate world srv fid n cursor reqs st = some (following dir entries cursor) := by
  induction n with
  | zero => exact fun _ _ _ hn => absurd hn (Nat.not_lt_zero _)
  | succ n ih =>
    intro cursor reqs st hn hcursor hreqs hi
    obtain ⟨hcount, hlarge⟩ := hreqs 0
    obtain ⟨hrecs, -, hback⟩ := serve_fits hw hm hl hi srv
      (q := ⟨cursor, reqs.head.1, reqs.head.2⟩) ⟨hcursor, hcount⟩
    rw [enumerate]
    simp only [hrecs]
    have hmsize : ∀ d ∈ dirents dir entries, d.size ≤ st.1.msize - 11 :=
      size_le_msize hl hi.msize
    have hroom : ∀ d ∈ following dir entries cursor,
        d.size ≤ min reqs.head.1 (st.1.msize - 11) := fun d hd => by
      have hd := (mem_filter.mp hd).1
      exact le_min (hlarge d hd) (hmsize d hd)
    obtain ⟨rest, hrest⟩ := fitting_append (min reqs.head.1 (st.1.msize - 11))
      (following dir entries cursor)
    cases hlast : (fitting (min reqs.head.1 (st.1.msize - 11))
      (following dir entries cursor)).getLast? with
    | none =>
      have hnil := fitting_eq_nil hroom (getLast?_eq_none_iff.mp hlast)
      rw [hnil]
    | some d =>
      obtain ⟨ds, hds⟩ := getLast?_eq_some_iff.mp hlast
      rw [hds] at hrest ⊢
      have hnext := following_next hrest
      have hd : d ∈ following dir entries cursor := by
        rw [hrest]
        simp
      have hoffset := (hl.sound dir d (mem_filter.mp hd).1).offset
      have hshort : (following dir entries d.offset).length < n := by
        have hlen := congrArg List.length hrest
        rw [length_append, length_append, length_singleton] at hlen
        rw [hnext]
        omega
      simp only [ih d.offset reqs.tail _ hshort hoffset (fun i => hreqs (i + 1)) hback]
      rw [hnext, hrest]
      rfl

/-- Counts with room for every record. -/
def Large (dir : Path) (entries : List AxlFsEntry) (reqs : Stream' (Nat × Stream' φ)) : Prop :=
  ∀ i, (reqs.get i).1 < 2 ^ 32 ∧ ∀ d ∈ dirents dir entries, d.size ≤ (reqs.get i).1

/-- What a client gets from a state. -/
structure Enumerates (world : (o : FsOp) → φ → σ → o.Answer × σ) (srv : Axl9pServer) (fid : Nat)
    (dir : Path) (entries : List AxlFsEntry) (st : S9pConn × σ) : Prop where
  /-- From the start: every record, once, in order. -/
  all : ∀ reqs : Stream' (Nat × Stream' φ), Large dir entries reqs →
    ∀ n, (dirents dir entries).length < n →
      enumerate world srv fid n 0 reqs st = some (dirents dir entries)
  /-- From any other cursor: the records behind it. -/
  rewound : ∀ reqs : Stream' (Nat × Stream' φ), Large dir entries reqs →
    ∀ cursor, cursor < 2 ^ 64 → ∀ n, (following dir entries cursor).length < n →
      enumerate world srv fid n cursor reqs st = some (following dir entries cursor)
  /-- One request: as many of them as fit. -/
  reply : ∀ q : Treaddir φ, q.Ok → (q.serve world srv fid st).1 =
    some (fitting (min q.count (st.1.msize - 11)) (following dir entries q.cursor))

/-- **A listing is complete**: after any requests, at any cursors, a directory that does not
change is listed from the start without a gap or a repetition, and from any cursor on with
exactly the records behind it. -/
theorem readdir_complete (hw : Replays world dir entries ahead) (hm : Granting world)
    (hl : Listing entries) (srv : Axl9pServer) {fid : Nat} {conn : S9pConn}
    (hi : Iterating dir entries ahead fid conn s) (history : List (Treaddir φ))
    (hok : ∀ q ∈ history, q.Ok) :
    Enumerates world srv fid dir entries (serveAll world srv fid history (conn, s)) := by
  have hi' : Iterating dir entries ahead fid (conn, s).1 (conn, s).2 := hi
  obtain ⟨-, hback⟩ := serveAll_iterating hw hm hl srv history hok hi'
  constructor
  · intro reqs hreqs n hn
    rw [← following_zero] at hn ⊢
    exact enumerate_following hw hm hl srv n 0 reqs _ hn (by decide) hreqs hback
  · intro reqs hreqs cursor hcursor n hn
    exact enumerate_following hw hm hl srv n cursor reqs _ hn hcursor hreqs hback
  · intro q hq
    exact (serve_fits hw hm hl hback srv hq).1

end

/-! ## A directory with one file -/

/-- A file system with one directory; its state is what the iterators have ahead. -/
def oneDir (entries : List AxlFsEntry) (memory : Bool) :
    (o : FsOp) → Unit → List (List AxlFsEntry) → o.Answer × List (List AxlFsEntry)
  | .dirOpen _, _, s => (some s.length, s ++ [entries])
  | .dirRead h, _, s => ((s.getD h []).head?, s.modify h List.tail)
  | .malloc, _, s => (memory, s)
  | o, _, s => (generous o, s)

/-- What an iterator of `oneDir` has ahead. -/
def oneDirAhead (h : Handle) (s : List (List AxlFsEntry)) : Option (List AxlFsEntry) := s[h]?

theorem oneDir_replays (entries : List AxlFsEntry) (memory : Bool) (dir : Path) :
    Replays (oneDir entries memory) dir entries oneDirAhead where
  opens _ s := ⟨s.length, rfl, by simp [oneDir, oneDirAhead]⟩
  reads _ s h es hes := by
    have hes : s[h]? = some es := hes
    constructor
    · show (s.getD h []).head? = es.head?
      rw [getD_eq_getElem?_getD, hes]
      rfl
    · show (s.modify h List.tail)[h]? = some es.tail
      rw [getElem?_modify_eq, hes]
      rfl
  infos _ _ _ _ := rfl
  mallocs _ _ _ := rfl

/-- The entries `.` and `a`. -/
def dotAndA : List AxlFsEntry :=
  [⟨[46], 0, 0, true, false⟩, ⟨[97], 3, 0, false, false⟩]

/-- A connection whose fid 0 has just been opened on `/x`. -/
def openedConn : S9pConn :=
  { S9pConn.accepted with
    fids := { S9pFid.zero with used := true, isDir := true, isOpen := true, path := [47, 120],
                               dir := some 0 } :: List.replicate 127 .zero }

theorem dotAndA_listing : Listing dotAndA := by
  constructor
  · intro e he
    rcases List.mem_pair.1 he with rfl | rfl <;> decide
  · decide

theorem openedConn_iterating :
    Iterating [47, 120] dotAndA oneDirAhead 0 openedConn [dotAndA] :=
  ⟨by decide, ⟨by decide, by decide, by decide⟩, 0, _, 0, rfl, rfl, rfl, rfl, Nat.zero_le _, rfl⟩

/-- `/x` with `.` and `a` in it. -/
theorem readdir_complete_oneDir :
    Enumerates (oneDir dotAndA true) ⟨[47, 120], false⟩ 0 [47, 120] dotAndA
      (serveAll (oneDir dotAndA true) ⟨[47, 120], false⟩ 0 [] (openedConn, [dotAndA])) :=
  readdir_complete (oneDir_replays dotAndA true _) (fun _ _ => rfl) dotAndA_listing _
    openedConn_iterating [] (by simp)

/-- Requests for 1000 bytes. -/
def largeReqs : Stream' (Nat × Stream' Unit) := fun _ => (1000, fun _ => ())

/-- Without memory for its path, `a` is passed over. -/
theorem readdir_drops : Replays (oneDir dotAndA false) [47, 120] dotAndA oneDirAhead ∧
    Listing dotAndA ∧ Iterating [47, 120] dotAndA oneDirAhead 0 openedConn [dotAndA] ∧
    Large [47, 120] dotAndA largeReqs ∧
    enumerate (oneDir dotAndA false) ⟨[47, 120], false⟩ 0 4 0 largeReqs (openedConn, [dotAndA]) =
      some [⟨1, true, [46]⟩, ⟨2, true, [46, 46]⟩] ∧
    dirents [47, 120] dotAndA = [⟨1, true, [46]⟩, ⟨2, true, [46, 46]⟩, ⟨4, false, [97]⟩] := by
  refine ⟨oneDir_replays _ _ _, dotAndA_listing, openedConn_iterating, ?_, ?_, ?_⟩
  · intro i
    refine ⟨by show 1000 < 2 ^ 32; decide, fun d hd => ?_⟩
    have hshort := (dotAndA_listing.sound [47, 120] d hd).short
    show 24 + d.name.length ≤ 1000
    omega
  · decide +kernel
  · decide

end NineP

end AxlSdk
