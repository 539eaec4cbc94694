import AxlSdk.Data.Ucs2

/-!
# Reading a provider's directory as firmware does (`src/fs/axl-fs-provider.c`)

`thunk_read` asks the provider for its next entry and then looks whether the caller
has room for it.

- `efi_info_fits`: the size that is asked for suffices, the name being converted once
  for the size and once for the buffer.
- `upToEnd_reads`: an entry that found no room is not given again.
- `directory_read_iff`: a listing is complete when every call that an entry was the
  answer to had room for it.
-/

namespace AxlSdk

namespace FsProvider

open Ucs2 (CString utf8ToUcs2 utf8ToUcs2Buf utf8ToUcs2Buf_eq)

/-! ## The code -/

inductive AxlFsStatus where
  | ok
  | errNotFound
  | errAccessDenied
  | errWriteProtected
  | errNoSpace
  | errNotDir
  | errIsDir
  | errInvalid
  | errNoMemory
  | errIo
  | errUnsupported
  | errEndOfFile
  | errVolumeCorrupted
deriving DecidableEq, Repr

inductive EfiStatus where
  | success
  | bufferTooSmall
  | notFound
  | accessDenied
  | writeProtected
  | volumeFull
  | invalidParameter
  | outOfResources
  | deviceError
  | unsupported
  | endOfFile
  | volumeCorrupted
deriving DecidableEq, Repr

/-- `status_to_efi` -/
def statusToEfi : AxlFsStatus → EfiStatus
  | .ok => .success
  | .errNotFound => .notFound
  | .errAccessDenied => .accessDenied
  | .errWriteProtected => .writeProtected
  | .errNoSpace => .volumeFull
  | .errNotDir | .errIsDir | .errInvalid => .invalidParameter
  | .errNoMemory => .outOfResources
  | .errIo => .deviceError
  | .errUnsupported => .unsupported
  | .errEndOfFile => .endOfFile
  | .errVolumeCorrupted => .volumeCorrupted

/-- `AxlFsEntry`. The name is a string in an array of 256 bytes. -/
structure AxlFsEntry where
  name : CString
  size : UInt64
  allocSize : UInt64
  attributes : UInt32
  fits : name.bytes.length < 256

/-- `EFI_FILE_INFO`, without its times, which are left zero. -/
structure EfiFileInfo where
  size : Nat
  fileSize : UInt64
  physicalSize : UInt64
  attr : UInt64
  fileName : List UInt16
deriving DecidableEq, Repr

/-- `SIZE_OF_EFI_FILE_INFO` -/
def sizeOfEfiFileInfo : Nat := 80

/-- `axl_strlcpy` into an array of this size. -/
def strlcpy (s : CString) (size : Nat) : CString :=
  ⟨s.bytes.take (size - 1), fun h => s.noNul (List.mem_of_mem_take h)⟩

/-- `efi_file_info_size` -/
def efiFileInfoSize (utf8Name : CString) : Nat :=
  let bounded := strlcpy utf8Name 256
  let cells := (utf8ToUcs2Buf bounded 256).length
  sizeOfEfiFileInfo + (cells + 1) * 2

/-- `attr_axl_to_efi` -/
def attrAxlToEfi (attr : UInt32) : UInt64 := (attr &&& 0x37).toUInt64

/-- `write_efi_file_info`: the status, the size and what is in the buffer. -/
def writeEfiFileInfo (info : AxlFsEntry) (size : Nat) (buf : Bool) :
    EfiStatus × Nat × Option EfiFileInfo :=
  let needed := efiFileInfoSize info.name
  if !buf || size < needed then (.bufferTooSmall, needed, none)
  else
    let cellsCap := (needed - sizeOfEfiFileInfo) / 2
    (.success, needed, some
      { size := needed
        fileSize := info.size
        physicalSize := if info.allocSize ≠ 0 then info.allocSize else info.size
        attr := attrAxlToEfi info.attributes
        fileName := utf8ToUcs2Buf info.name cellsCap })

/-- The two readers of a provider: the next entry, or that there is none; and bytes. -/
structure Provider (σ : Type) where
  readDir : σ → AxlFsStatus × Option AxlFsEntry × σ
  read : σ → Nat → AxlFsStatus × List UInt8 × σ

/-- `FileThunk`; `mounted` is that its volume is there. -/
structure FileThunk (σ : Type) where
  dead : Bool
  mounted : Bool
  isDir : Bool
  backing : σ

/-- What a call leaves in the caller's variables. -/
structure Answer where
  status : EfiStatus
  bufferSize : Option Nat
  info : Option EfiFileInfo
  bytes : List UInt8
deriving DecidableEq, Repr

/-- `thunk_read`. `buffer` is that the caller has one. -/
def thunkRead {σ : Type} (p : Provider σ) (self : FileThunk σ) (bufferSize : Option Nat)
    (buffer : Bool) : Answer × FileThunk σ :=
  if self.dead || !self.mounted then (⟨.deviceError, bufferSize, none, []⟩, self)
  else
    match bufferSize with
    | none => (⟨.invalidParameter, none, none, []⟩, self)
    | some size =>
      if self.isDir then
        match p.readDir self.backing with
        | (.ok, none, s) => (⟨.success, some 0, none, []⟩, { self with backing := s })
        | (.ok, some info, s) =>
          let (status, size, fi) := writeEfiFileInfo info size buffer
          (⟨status, some size, fi, []⟩, { self with backing := s })
        | (st, _, s) => (⟨statusToEfi st, some size, none, []⟩, { self with backing := s })
      else if !buffer && 0 < size then (⟨.invalidParameter, some size, none, []⟩, self)
      else
        match p.read self.backing size with
        | (.ok, data, s) => (⟨.success, some data.length, none, data⟩, { self with backing := s })
        | (.errEndOfFile, _, s) => (⟨.success, some 0, none, []⟩, { self with backing := s })
        | (st, _, s) => (⟨statusToEfi st, some 0, none, []⟩, { self with backing := s })

/-! ## A listing -/

structure Call where
  size : Nat
  buffer : Bool
deriving DecidableEq, Repr

/-- The answers to calls one after the other. -/
def reads {σ : Type} (p : Provider σ) : FileThunk σ → List Call → List Answer
  | _, [] => []
  | t, c :: calls =>
    let (a, t) := thunkRead p t (some c.size) c.buffer
    a :: reads p t calls

/-- The records up to the end marker, if that is reached. -/
def upToEnd : List Answer → Option (List EfiFileInfo)
  | [] => none
  | a :: answers =>
    if a.status = .success ∧ a.bufferSize = some 0 then some []
    else (upToEnd answers).map (a.info.toList ++ ·)

/-- The record that stands for an entry. -/
def infoOf (e : AxlFsEntry) : EfiFileInfo :=
  { size := sizeOfEfiFileInfo + 2 * ((utf8ToUcs2 e.name).length + 1)
    fileSize := e.size
    physicalSize := if e.allocSize = 0 then e.size else e.allocSize
    attr := attrAxlToEfi e.attributes
    fileName := utf8ToUcs2 e.name }

/-- From this state a provider gives these entries and then the end. -/
inductive Enumerates {σ : Type} (p : Provider σ) : σ → List AxlFsEntry → Prop
  | nil {s s'} (h : p.readDir s = (.ok, none, s')) : Enumerates p s []
  | cons {s s' e es} (h : p.readDir s = (.ok, some e, s')) (hrest : Enumerates p s' es) :
    Enumerates p s (e :: es)

/-- A call with room for the record of an entry. -/
def Call.Ample (c : Call) (e : AxlFsEntry) : Prop :=
  c.buffer = true ∧ sizeOfEfiFileInfo + 2 * ((utf8ToUcs2 e.name).length + 1) ≤ c.size

instance (c : Call) (e : AxlFsEntry) : Decidable (c.Ample e) := inferInstanceAs (Decidable (_ ∧ _))

/-- Each entry has its call, and the call has room. -/
def Ample (entries : List AxlFsEntry) (calls : List Call) : Prop :=
  ∀ c e, (c, e) ∈ calls.zip entries → c.Ample e

/-! ## Sizes -/

theorem decodeLoop_length_le (skip : Nat) (s : List UInt8) :
    (Ucs2.decodeLoop skip s).length ≤ s.length := by
  induction s generalizing skip with
  | nil => exact le_rfl
  | cons b s ih =>
    cases skip with
    | succ k => exact (ih k).trans (Nat.le_succ _)
    | zero =>
      have hone : (Ucs2.turn (b :: s)).1.toList.length ≤ 1 := by
        cases (Ucs2.turn (b :: s)).1 <;> simp
      have := ih ((Ucs2.turn (b :: s)).2 - 1)
      rw [Ucs2.decodeLoop, List.length_append, List.length_cons]
      omega

/-- A name has no more code units than bytes, so it fits the array it is measured with. -/
theorem efiFileInfoSize_eq (e : AxlFsEntry) :
    efiFileInfoSize e.name = sizeOfEfiFileInfo + 2 * ((utf8ToUcs2 e.name).length + 1) := by
  have hfits := e.fits
  have hle : (utf8ToUcs2 e.name).length ≤ e.name.bytes.length := decodeLoop_length_le 0 _
  have hbounded : strlcpy e.name 256 = e.name := by
    rw [strlcpy]
    congr 1
    exact List.take_of_length_le (by omega)
  rw [efiFileInfoSize, hbounded, utf8ToUcs2Buf_eq, List.take_of_length_le (by omega), Nat.mul_comm]

theorem writeEfiFileInfo_eq (e : AxlFsEntry) (size : Nat) (buf : Bool) :
    writeEfiFileInfo e size buf =
      if (Call.mk size buf).Ample e then (.success, (infoOf e).size, some (infoOf e))
      else (.bufferTooSmall, (infoOf e).size, none) := by
  have hcells : (sizeOfEfiFileInfo + 2 * ((utf8ToUcs2 e.name).length + 1) - sizeOfEfiFileInfo) / 2 =
      (utf8ToUcs2 e.name).length + 1 := by omega
  have hphysical : (if e.allocSize ≠ 0 then e.allocSize else e.size) = (infoOf e).physicalSize :=
    ite_not ..
  rw [writeEfiFileInfo, efiFileInfoSize_eq]
  dsimp only
  rw [hcells, utf8ToUcs2Buf_eq, Nat.add_sub_cancel, List.take_length, hphysical]
  by_cases h : (Call.mk size buf).Ample e
  · have hroom : ¬ (!buf || decide (size < sizeOfEfiFileInfo +
        2 * ((utf8ToUcs2 e.name).length + 1))) = true := by
      have hbuf : buf = true := h.1
      have hsize := h.2
      simpa [hbuf] using hsize
    rw [if_neg hroom, if_pos h]
    rfl
  · have hroom : (!buf || decide (size < sizeOfEfiFileInfo +
        2 * ((utf8ToUcs2 e.name).length + 1))) = true := by
      by_contra hno
      rw [Bool.or_eq_true, not_or, decide_eq_true_iff, Nat.not_lt, Bool.not_eq_true,
        Bool.not_eq_false'] at hno
      exact h hno
    rw [if_pos hroom, if_neg h]
    rfl

/-- The size that is asked for suffices, and no smaller one. -/
theorem efi_info_fits {e : AxlFsEntry} {size n : Nat} {buf : Bool}
    (h : writeEfiFileInfo e size buf = (.bufferTooSmall, n, none)) (size' : Nat) :
    writeEfiFileInfo e size' true =
      if n ≤ size' then (.success, n, some (infoOf e)) else (.bufferTooSmall, n, none) := by
  have hn : n = (infoOf e).size := by
    rw [writeEfiFileInfo_eq] at h
    split at h
    · cases h
    · exact (congrArg (fun x => x.2.1) h).symm
  have hample : (Call.mk size' true).Ample e ↔ n ≤ size' := by
    rw [hn]
    exact and_iff_right rfl
  rw [writeEfiFileInfo_eq, ← hn]
  simp only [hample]

/-! ## Calls -/

variable {σ : Type} {p : Provider σ} {s : σ} {entries : List AxlFsEntry} {calls : List Call}

/-- A thunk on a directory of a volume that is there. -/
def onDir (s : σ) : FileThunk σ := ⟨false, true, true, s⟩

/-- The records that calls get: those of the entries that find room. -/
def given (entries : List AxlFsEntry) (calls : List Call) : List EfiFileInfo :=
  ((calls.zip entries).filter fun x => x.1.Ample x.2).map fun x => infoOf x.2

theorem thunkRead_entry {s' : σ} {e : AxlFsEntry} (h : p.readDir s = (.ok, some e, s')) (c : Call) :
    thunkRead p (onDir s) (some c.size) c.buffer =
      (if c.Ample e then ⟨.success, some (infoOf e).size, some (infoOf e), []⟩
        else ⟨.bufferTooSmall, some (infoOf e).size, none, []⟩, onDir s') := by
  rw [thunkRead, onDir]
  dsimp only
  rw [h]
  dsimp only
  rw [writeEfiFileInfo_eq]
  by_cases hc : c.Ample e
  · rw [if_pos hc, if_pos hc]
    rfl
  · rw [if_neg hc, if_neg hc]
    rfl

theorem given_cons (e : AxlFsEntry) (es : List AxlFsEntry) (c : Call) (cs : List Call) :
    given (e :: es) (c :: cs) = (if c.Ample e then [infoOf e] else []) ++ given es cs := by
  by_cases hc : c.Ample e
  · rw [given, List.zip_cons_cons, List.filter_cons_of_pos (by simpa using hc), if_pos hc]
    rfl
  · rw [given, List.zip_cons_cons, List.filter_cons_of_neg (by simpa using hc), if_neg hc]
    rfl

/-- Each call takes an entry off the directory, and what has found no room is not given. -/
theorem upToEnd_reads (h : Enumerates p s entries) :
    upToEnd (reads p (onDir s) calls) =
      if calls.length ≤ entries.length then none else some (given entries calls) := by
  induction h generalizing calls with
  | nil hend =>
    cases calls with
    | nil => rfl
    | cons c calls =>
      rw [reads, thunkRead, onDir]
      dsimp only
      rw [hend]
      rfl
  | @cons s s' e es hnext hrest ih =>
    cases calls with
    | nil => rfl
    | cons c calls =>
      have hsize : some (infoOf e).size ≠ some 0 := fun h => by
        have hzero : sizeOfEfiFileInfo + 2 * ((utf8ToUcs2 e.name).length + 1) = 0 := Option.some.inj h
        omega
      rw [reads, thunkRead_entry hnext, given_cons]
      by_cases hc : c.Ample e
      · rw [if_pos hc, if_pos hc, upToEnd, if_neg fun h => hsize h.2, ih]
        simp only [List.length_cons, Nat.add_le_add_iff_right]
        split <;> rfl
      · rw [if_neg hc, if_neg hc, upToEnd, if_neg fun h => hsize h.2, ih]
        simp only [List.length_cons, Nat.add_le_add_iff_right]
        split <;> rfl

theorem given_eq_iff (h : entries.length < calls.length) :
    given entries calls = entries.map infoOf ↔ Ample entries calls := by
  have hzip : (calls.zip entries).map Prod.snd = entries := List.map_snd_zip h.le
  have hall : ((calls.zip entries).map fun x => infoOf x.2) = entries.map infoOf := by
    conv => rhs; rw [← hzip]
    rw [List.map_map]
    rfl
  rw [← hall, given]
  constructor
  · intro heq c e hmem
    have hlen := congrArg List.length heq
    rw [List.length_map, List.length_map, List.length_filter_eq_length_iff] at hlen
    exact of_decide_eq_true (hlen (c, e) hmem)
  · intro hample
    rw [List.filter_eq_self.mpr fun x hx => decide_eq_true (hample x.1 x.2 hx)]

/-- The records up to the end marker are the entries just when each call that took one had
room for it; and the size that is reported suffices. -/
theorem directory_read_iff (h : Enumerates p s entries) (calls : List Call) :
    ((∀ infos, upToEnd (reads p (onDir s) calls) = some infos → infos = entries.map infoOf) ↔
      calls.length ≤ entries.length ∨ Ample entries calls) ∧
    ∀ e size buf n, writeEfiFileInfo e size buf = (.bufferTooSmall, n, none) →
      ∀ size', n ≤ size' → writeEfiFileInfo e size' true = (.success, n, some (infoOf e)) := by
  refine ⟨?_, fun e size buf n hsmall size' hle => ?_⟩
  · rw [upToEnd_reads h]
    by_cases hlen : calls.length ≤ entries.length
    · rw [if_pos hlen]
      refine iff_of_true (fun infos h => ?_) (.inl hlen)
      cases h
    · rw [if_neg hlen, or_iff_right hlen, ← given_eq_iff (Nat.lt_of_not_le hlen)]
      constructor
      · exact fun hexact => hexact _ rfl
      · rintro heq infos h
        cases h
        exact heq
  · rw [efi_info_fits hsmall, if_pos hle]

/-- A provider that goes through a list. -/
def listProvider : Provider (List AxlFsEntry) where
  readDir es := (.ok, es.head?, es.tail)
  read es _ := (.errIsDir, [], es)

theorem listProvider_enumerates (es : List AxlFsEntry) : Enumerates listProvider es es := by
  induction es with
  | nil => exact .nil rfl
  | cons e es ih => exact .cons rfl ih

/-- An empty file `A`. -/
def fileA : AxlFsEntry := ⟨⟨[0x41], by decide⟩, 0, 0, 0, by decide⟩

theorem directory_read_iff_fileA :
    Ample [fileA] [⟨84, true⟩, ⟨84, true⟩] ∧
      ∀ infos, upToEnd (reads listProvider (onDir [fileA]) [⟨84, true⟩, ⟨84, true⟩]) = some infos →
        infos = [infoOf fileA] := by
  have hample : Ample [fileA] [⟨84, true⟩, ⟨84, true⟩] := by
    intro c e hmem
    rw [List.zip_cons_cons, List.zip_nil_right, List.mem_singleton] at hmem
    cases hmem
    decide +kernel
  exact ⟨hample, (directory_read_iff (listProvider_enumerates [fileA])
    [⟨84, true⟩, ⟨84, true⟩]).1.mpr (.inr hample)⟩

/-- The caller asks for the size, gets it, and gets the end marker. -/
theorem probe_loses_entry :
    upToEnd (reads listProvider (onDir [fileA]) [⟨0, true⟩, ⟨84, true⟩]) ≠ some [infoOf fileA] ∧
      (reads listProvider (onDir [fileA]) [⟨0, true⟩, ⟨84, true⟩]).map (fun a => (a.status, a.bufferSize)) =
        [(.bufferTooSmall, some 84), (.success, some 0)] := by
  decide +kernel

end FsProvider

end AxlSdk
