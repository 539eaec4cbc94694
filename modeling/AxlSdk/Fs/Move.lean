import AxlSdk.Fs.WriteAtomic

/-!
# Moving a file (`axl_file_move`)

Two path strings may denote one file, so files are named by their place on the volume and
a `FileSystem` says what a path denotes. Every step may fail, as the `Choice` says: a read
gives any positive part of what it is asked for, a write that fails has stored a part, and
a flush that fails has lost a part.

- `axlFileDelete`, `axlFileRename`, `axlFopen`, `copyLoop`, `axlFileMove`: the code, as
  programs over these steps, one specification each.
- `move_keeps`: when the paths are `Movable` the contents are never lost.
- `move_keeps_iff`: when they are not, some run loses them.
-/

namespace AxlSdk

namespace Fs

namespace Move

open List

/-! ## The code -/

/-- The file that a path denotes, and the file of a given name in the directory of a file. -/
structure FileSystem (Loc : Type) where
  resolve : Path → Loc
  sibling : Loc → Path → Loc

/-- The contents of the files of a volume; `none` where there is no file. -/
abbrev Files (Loc : Type) := Loc → Option (List UInt8)

/-- The steps. An open file is its place; its position is the caller's. -/
inductive Op (Loc : Type) where
  | malloc
  | utf8ToUcs2 (path : Path)
  | fileOpen (path : Path) (create : Bool)
  | fileClose (file : Loc)
  | fileRead (file : Loc) (pos size : Nat)
  | fileWrite (file : Loc) (pos : Nat) (buf : List UInt8)
  | fileFlush (file : Loc)
  | fileDelete (path : Path)
  | fileRename (oldPath newName : Path)
deriving DecidableEq, Repr

abbrev Op.Answer {Loc : Type} : Op Loc → Type
  | .fileOpen _ _ => Option Loc
  | .fileRead _ _ _ => Option (List UInt8)
  | .fileWrite _ _ _ => Option Nat
  | .malloc | .utf8ToUcs2 _ | .fileClose _ | .fileFlush _ | .fileDelete _ | .fileRename _ _ => Rc

/-- A program over the steps. -/
abbrev MoveProg (Loc α : Type) := Prog (Op Loc) Op.Answer α

/-- Contents with `buf` at the position `pos`. -/
def overwrite (old : List UInt8) (pos : Nat) (buf : List UInt8) : List UInt8 :=
  old.take pos ++ List.replicate (pos - old.length) 0 ++ buf ++ old.drop (pos + buf.length)

section Steps

variable {Loc : Type} [DecidableEq Loc]

def Files.set (v : Files Loc) (l : Loc) (c : Option (List UInt8)) : Files Loc :=
  fun k => if k = l then c else v k

/-- What a step answers and what becomes of the volume. -/
def world (fs : FileSystem Loc) (o : Op Loc) (c : Choice) (v : Files Loc) : o.Answer × Files Loc :=
  match o with
  | .malloc | .utf8ToUcs2 _ => (if c.ok then .ok else .err, v)
  | .fileOpen path create =>
    let l := fs.resolve path
    if c.ok = false then (none, v)
    else if v l = none then if create then (some l, v.set l (some [])) else (none, v)
    else (some l, v)
  | .fileClose _ => (.ok, v)
  | .fileRead l pos size =>
    if c.ok then ((v l).map fun old => (old.drop pos).take (min size (c.stored + 1)), v)
    else (none, v)
  | .fileWrite l pos buf =>
    match v l with
    | none => (none, v)
    | some old =>
      let part := buf.take c.stored
      (if c.ok then some part.length else none, v.set l (some (overwrite old pos part)))
  | .fileFlush l =>
    if c.ok then (.ok, v) else (.err, v.set l ((v l).map (List.take c.stored)))
  | .fileDelete path =>
    let l := fs.resolve path
    if v l = none then (.notFound, v) else if c.ok then (.ok, v.set l none) else (.err, v)
  | .fileRename oldPath newName =>
    let l := fs.resolve oldPath
    match v l with
    | none => (.err, v)
    | some old =>
      if c.ok then (.ok, (v.set l none).set (fs.sibling l newName) (some old)) else (.err, v)

end Steps

section Code

variable {Loc : Type}

def axlMalloc : MoveProg Loc Rc := Prog.perform (Op.malloc : Op Loc)

def axlUtf8ToUcs2 (path : Path) : MoveProg Loc Rc := Prog.perform (Op.utf8ToUcs2 path : Op Loc)

def fileOpen (path : Path) (create : Bool) : MoveProg Loc (Option Loc) :=
  Prog.perform (Op.fileOpen path create : Op Loc)

def fileClose (file : Loc) : MoveProg Loc Rc := Prog.perform (Op.fileClose file : Op Loc)

def fileRead (file : Loc) (pos size : Nat) : MoveProg Loc (Option (List UInt8)) :=
  Prog.perform (Op.fileRead file pos size : Op Loc)

def fileWrite (file : Loc) (pos : Nat) (buf : List UInt8) : MoveProg Loc (Option Nat) :=
  Prog.perform (Op.fileWrite file pos buf : Op Loc)

def fileFlush (file : Loc) : MoveProg Loc Rc := Prog.perform (Op.fileFlush file : Op Loc)

def fileDelete (path : Path) : MoveProg Loc Rc := Prog.perform (Op.fileDelete path : Op Loc)

def fileRename (oldPath newName : Path) : MoveProg Loc Rc :=
  Prog.perform (Op.fileRename oldPath newName : Op Loc)

/-- `axl_file_delete` -/
def axlFileDelete (path : Path) : MoveProg Loc Rc := do
  let rc ← axlUtf8ToUcs2 path
  if rc ≠ .ok then
    return .err
  else
    fileDelete path

/-- The two paths have the same directory part, or the new one has none. -/
def sameDir (oldPath newPath : Path) : Prop :=
  ¬ (0 < dirLen newPath ∧ (dirLen newPath ≠ dirLen oldPath ∨
    oldPath.take (dirLen oldPath) ≠ newPath.take (dirLen oldPath)))

instance (oldPath newPath : Path) : Decidable (sameDir oldPath newPath) :=
  inferInstanceAs (Decidable (¬ _))

/-- `axl_file_rename` -/
def axlFileRename (oldPath newPath : Path) : MoveProg Loc Rc := do
  let newBase := pathBasename newPath
  if newBase = [] then
    return .err
  else if ¬ sameDir oldPath newPath then
    return .err
  else
    let rc ← axlUtf8ToUcs2 oldPath
    if rc ≠ .ok then
      return .err
    else
      let rc ← axlUtf8ToUcs2 newBase
      if rc ≠ .ok then
        return .err
      else
        fileRename oldPath newBase

/-- `axl_stream_open_custom`: the stream and the copy of its name -/
def axlStreamOpenCustom : MoveProg Loc Rc := do
  let rc ← axlMalloc
  if rc ≠ .ok then
    return .err
  else
    axlMalloc

/-- `axl_fopen`, with mode `"w"` or `"r"` -/
def axlFopen (path : Path) (writable : Bool) : MoveProg Loc (Option Loc) := do
  let rc ← axlUtf8ToUcs2 path
  if rc ≠ .ok then
    return none
  else
    let handle ← fileOpen path writable
    match handle with
    | none => return none
    | some file =>
      let rc ← axlMalloc
      let rc ← (if rc = .ok then axlStreamOpenCustom else pure rc)
      if rc ≠ .ok then
        let _ ← fileClose file
        return none
      else
        return some file

/-- The loop of `axl_file_move`, and whether it came to the end of the source; both streams
are at `pos`. -/
def copyLoop (src dst : Loc) : Nat → Nat → MoveProg Loc (Option Bool)
  | 0, _ => pure none
  | fuel + 1, pos => do
    let n ← fileRead src pos 4096
    match n with
    | none => return some false
    | some buf =>
      if buf.length = 0 then
        return some true
      else
        let written ← fileWrite dst pos buf
        if written ≠ some buf.length then
          return some false
        else
          copyLoop src dst fuel (pos + buf.length)

/-- `axl_file_move`; no result when the fuel is too little for the loop. -/
def axlFileMove (fuel : Nat) (oldPath newPath : Path) : MoveProg Loc (Option Rc) := do
  let _ ← axlFileDelete newPath
  let rc ← axlFileRename oldPath newPath
  if rc = .ok then
    return some .ok
  else
    let src ← axlFopen oldPath false
    match src with
    | none => return some .err
    | some src =>
      let dst ← axlFopen newPath true
      match dst with
      | none =>
        let _ ← fileClose src
        return some .err
      | some dst =>
        let copied ← copyLoop src dst fuel 0
        match copied with
        | none => return none
        | some ok =>
          let _ ← fileClose src
          -- the source goes only when its copy is on the volume
          let rc ← (if ok then fileFlush dst else pure .err)
          let _ ← fileClose dst
          if rc ≠ .ok then
            return some .err
          else
            let rc ← axlFileDelete oldPath
            return some rc

end Code

variable {Loc : Type} [DecidableEq Loc] {fs : FileSystem Loc} {v u : Files Loc}

@[simp] theorem Files.set_self (v : Files Loc) (l : Loc) (c : Option (List UInt8)) :
    v.set l c l = c :=
  if_pos rfl

theorem Files.set_other (v : Files Loc) {l k : Loc} (c : Option (List UInt8)) (h : k ≠ l) :
    v.set l c k = v k :=
  if_neg h

/-- The paths are ones that `axl_file_rename` accepts. -/
def Renames (oldPath newPath : Path) : Prop := pathBasename newPath ≠ [] ∧ sameDir oldPath newPath

/-! ## What each function does -/

theorem gives_malloc : Prog.Gives (world fs) axlMalloc v fun _ u => u = v :=
  Prog.Gives.perform fun _ => rfl

theorem gives_utf8 (path : Path) : Prog.Gives (world fs) (axlUtf8ToUcs2 path) v fun _ u => u = v :=
  Prog.Gives.perform fun _ => rfl

theorem gives_close (file : Loc) : Prog.Gives (world fs) (fileClose file) v fun _ u => u = v :=
  Prog.Gives.perform fun _ => rfl

/-- A flush changes nothing, or fails and has changed one file. -/
theorem gives_flush (file : Loc) :
    Prog.Gives (world fs) (fileFlush file) v fun rc u =>
      (∀ l, l ≠ file → u l = v l) ∧ (rc = .ok → u = v) := by
  refine Prog.Gives.perform fun c => ?_
  show _ ∧ _
  simp only [world]
  by_cases hc : c.ok
  · rw [if_pos hc]
    exact ⟨fun _ _ => rfl, fun _ => rfl⟩
  · rw [if_neg hc]
    exact ⟨fun l hl => v.set_other _ hl, nofun⟩

/-- A deleted file is gone or is as it was. -/
theorem gives_delete (path : Path) :
    Prog.Gives (world fs) (axlFileDelete path) v fun _ u =>
      u = v ∨ u = v.set (fs.resolve path) none := by
  refine (gives_utf8 path).bind fun rc u hu => ?_
  subst hu
  split
  · exact Prog.Gives.done (.inl rfl)
  refine Prog.Gives.perform fun c => ?_
  show _ ∨ _
  simp only [world]
  split
  · exact .inl rfl
  · split
    · exact .inr rfl
    · exact .inl rfl

/-- A rename that succeeds has moved the contents within the directory. -/
theorem gives_rename {oldPath newPath : Path} {content : List UInt8}
    (hv : v (fs.resolve oldPath) = some content) :
    Prog.Gives (world fs) (axlFileRename oldPath newPath) v fun rc u =>
      (rc = .ok → Renames oldPath newPath ∧
        u (fs.sibling (fs.resolve oldPath) (pathBasename newPath)) = some content) ∧
      (rc ≠ .ok → u = v) := by
  rw [axlFileRename]
  split
  · exact Prog.Gives.done ⟨nofun, fun _ => rfl⟩
  next hbase =>
  split
  · exact Prog.Gives.done ⟨nofun, fun _ => rfl⟩
  next hdir =>
  refine (gives_utf8 oldPath).bind fun rc u hu => ?_
  subst hu
  split
  · exact Prog.Gives.done ⟨nofun, fun _ => rfl⟩
  refine (gives_utf8 _).bind fun rc u hu => ?_
  subst hu
  split
  · exact Prog.Gives.done ⟨nofun, fun _ => rfl⟩
  refine Prog.Gives.perform fun c => ?_
  show _ ∧ _
  simp only [world, hv]
  by_cases hc : c.ok
  · rw [if_pos hc]
    exact ⟨fun _ => ⟨⟨hbase, not_not.mp hdir⟩, Files.set_self _ _ _⟩, fun h => absurd rfl h⟩
  · rw [if_neg hc]
    exact ⟨nofun, fun _ => rfl⟩

theorem gives_open_custom :
    Prog.Gives (world fs) axlStreamOpenCustom v fun _ u => u = v := by
  refine gives_malloc.bind fun rc u hu => ?_
  subst hu
  split
  · exact Prog.Gives.done rfl
  · exact gives_malloc

/-- An open file exists; opening it created it or changed nothing. -/
def Opened (fs : FileSystem Loc) (path : Path) (writable : Bool) (v : Files Loc)
    (handle : Option Loc) (u : Files Loc) : Prop :=
  (∀ file, handle = some file → file = fs.resolve path ∧ u file ≠ none) ∧
    (u = v ∨ writable = true ∧ v (fs.resolve path) = none ∧ u = v.set (fs.resolve path) (some []))

theorem Opened.failed {path : Path} {writable : Bool} {handle : Option Loc}
    (h : Opened fs path writable v handle u) : Opened fs path writable v none u :=
  ⟨nofun, h.2⟩

theorem gives_fileOpen (path : Path) (create : Bool) :
    Prog.Gives (world fs) (fileOpen path create) v (Opened fs path create v) := by
  refine Prog.Gives.perform fun c => ?_
  show Opened fs path create v _ _
  simp only [world]
  split
  · exact ⟨nofun, .inl rfl⟩
  split
  · next hnone =>
    split
    · next hcreate =>
      refine ⟨?_, .inr ⟨hcreate, hnone, rfl⟩⟩
      rintro file ⟨⟩
      exact ⟨rfl, by simp⟩
    · exact ⟨nofun, .inl rfl⟩
  · next hsome =>
    refine ⟨?_, .inl rfl⟩
    rintro file ⟨⟩
    exact ⟨rfl, hsome⟩

theorem gives_fopen (path : Path) (writable : Bool) :
    Prog.Gives (world fs) (axlFopen path writable) v (Opened fs path writable v) := by
  refine (gives_utf8 path).bind fun rc u hu => ?_
  subst hu
  split
  · exact Prog.Gives.done ⟨nofun, .inl rfl⟩
  refine (gives_fileOpen path writable).bind fun handle w hopen => ?_
  split
  · exact Prog.Gives.done hopen
  refine gives_malloc.bind fun rc w hw => ?_
  subst hw
  have hcustom : Prog.Gives (world fs) (if rc = .ok then axlStreamOpenCustom else pure rc) w
      fun _ u => u = w := by
    split
    · exact gives_open_custom
    · exact Prog.Gives.done rfl
  refine hcustom.bind fun rc w hw => ?_
  subst hw
  split
  · exact (gives_close _).bind fun _ x hx => Prog.Gives.done (hx ▸ hopen.failed)
  · exact Prog.Gives.done hopen

/-! ## The copy -/

/-- The destination holds the first `pos` bytes of the source, and no more bytes behind them
than the source has. -/
structure Copying (src dst : Loc) (content : List UInt8) (pos : Nat) (u : Files Loc) : Prop where
  source : u src = some content
  dest : ∃ rest, u dst = some (content.take pos ++ rest) ∧ pos + rest.length ≤ content.length

/-- One piece of the source, written where the last one ended. -/
theorem overwrite_next {content rest : List UInt8} {pos n : Nat} (hn : pos + n ≤ content.length) :
    overwrite (content.take pos ++ rest) pos ((content.drop pos).take n) =
      content.take (pos + n) ++ rest.drop n := by
  have hpos : (content.take pos).length = pos := length_take_of_le (by omega)
  have hbuf : ((content.drop pos).take n).length = n := by
    rw [length_take_of_le]
    rw [length_drop]
    omega
  have hfill : pos - (content.take pos ++ rest).length = 0 := by
    rw [length_append]
    omega
  have htake : (content.take pos ++ rest).take pos = content.take pos := take_left' hpos
  have hdrop : (content.take pos ++ rest).drop (pos + n) = rest.drop n := by
    rw [drop_append, hpos, drop_eq_nil_of_le (by omega), nil_append]
    congr 1
    omega
  rw [overwrite, hfill, hbuf, htake, hdrop, replicate_zero, append_nil, take_add]

theorem gives_read {src : Loc} {content : List UInt8} {pos size : Nat} (hsize : 0 < size)
    (hv : v src = some content) :
    Prog.Gives (world fs) (fileRead src pos size) v fun n u =>
      u = v ∧ ∀ buf, n = some buf → ∃ k, buf = (content.drop pos).take k ∧ 0 < k := by
  refine Prog.Gives.perform fun c => ?_
  show _ ∧ _
  simp only [world]
  by_cases hc : c.ok
  · rw [if_pos hc, hv]
    refine ⟨rfl, ?_⟩
    rintro buf ⟨⟩
    exact ⟨min size (c.stored + 1), rfl, by omega⟩
  · rw [if_neg hc]
    exact ⟨rfl, nofun⟩

/-- A write leaves the source alone; one that has written all it was given has gone on. -/
theorem gives_write {src dst : Loc} {content rest : List UInt8} {pos n : Nat} (hne : src ≠ dst)
    (hsrc : v src = some content) (hdst : v dst = some (content.take pos ++ rest))
    (hlen : pos + rest.length ≤ content.length) (hn : pos + n ≤ content.length) :
    Prog.Gives (world fs) (fileWrite dst pos ((content.drop pos).take n)) v fun written u =>
      u src = some content ∧ (written = some n → Copying src dst content (pos + n) u) := by
  refine Prog.Gives.perform fun c => ?_
  show _ ∧ _
  simp only [world, hdst]
  have hkept : v.set dst (some (overwrite (content.take pos ++ rest) pos
      (((content.drop pos).take n).take c.stored))) src = some content := by
    rw [Files.set_other _ _ hne, hsrc]
  refine ⟨hkept, fun hwritten => ⟨hkept, rest.drop n, ?_, ?_⟩⟩
  · have hall : ((content.drop pos).take n).take c.stored = (content.drop pos).take n := by
      split at hwritten
      · refine take_of_length_le ?_
        have hstored := Option.some.inj hwritten
        have hbuf : ((content.drop pos).take n).length ≤ n := length_take_le _ _
        rw [length_take] at hstored
        omega
      · cases hwritten
    rw [hall, Files.set_self, overwrite_next hn]
  · rw [length_drop]
    omega

theorem gives_copyLoop {src dst : Loc} {content : List UInt8} (hne : src ≠ dst) (fuel : Nat)
    {pos : Nat} {v : Files Loc} (hcopy : Copying src dst content pos v)
    (hfuel : content.length < pos + fuel) :
    Prog.Gives (world fs) (copyLoop src dst fuel pos) v fun copied u =>
      ∃ ok, copied = some ok ∧ u src = some content ∧ (ok = true → u dst = some content) := by
  -- every turn but the last makes progress
  induction fuel generalizing pos v with
  | zero =>
    obtain ⟨rest, -, hlen⟩ := hcopy.dest
    omega
  | succ fuel ih =>
    obtain ⟨rest, hdst, hlen⟩ := hcopy.dest
    refine (gives_read (by omega) hcopy.source).bind fun n u hread => ?_
    obtain ⟨rfl, hbuf⟩ := hread
    split
    · exact Prog.Gives.done ⟨false, rfl, hcopy.source, nofun⟩
    next buf =>
    obtain ⟨k, rfl, hk⟩ := hbuf buf rfl
    split
    · next hend =>
      -- nothing is left of the source
      have hpos : content.length ≤ pos := by
        rw [length_take, length_drop] at hend
        omega
      have hrest : rest = [] := length_eq_zero_iff.mp (by omega)
      refine Prog.Gives.done ⟨true, rfl, hcopy.source, fun _ => ?_⟩
      rw [hdst, hrest, append_nil, take_of_length_le hpos]
    next hpart =>
    obtain ⟨n, hn, htake⟩ : ∃ n, pos + n ≤ content.length ∧
        (content.drop pos).take k = (content.drop pos).take n ∧ 0 < n := by
      rw [length_take, length_drop] at hpart
      refine ⟨min k (content.length - pos), by omega, ?_, by omega⟩
      rw [← length_drop, take_eq_take_min]
    have hbuf : ((content.drop pos).take n).length = n := by
      rw [length_take_of_le]
      rw [length_drop]
      omega
    rw [htake.1, hbuf]
    refine (gives_write hne hcopy.source hdst hlen hn).bind fun written u hwrite => ?_
    split
    · exact Prog.Gives.done ⟨false, rfl, hwrite.1, nofun⟩
    next hall =>
    exact ih (hwrite.2 (not_not.mp hall)) (by omega)

/-! ## Nothing is lost -/

/-- What makes a move safe: the paths denote two files; a name that `axl_file_rename` accepts
is, in the directory of the old file, the new file; and the file that is there is not longer
than the one that is moved. -/
structure Movable (fs : FileSystem Loc) (v : Files Loc) (oldPath newPath : Path)
    (content : List UInt8) : Prop where
  apart : fs.resolve oldPath ≠ fs.resolve newPath
  named : Renames oldPath newPath →
    fs.sibling (fs.resolve oldPath) (pathBasename newPath) = fs.resolve newPath
  short : ∀ c, v (fs.resolve newPath) = some c → c.length ≤ content.length

/-- The contents are at one of the paths, and at the new one after a success. -/
def Kept (fs : FileSystem Loc) (oldPath newPath : Path) (content : List UInt8) (rc : Rc)
    (u : Files Loc) : Prop :=
  (u (fs.resolve oldPath) = some content ∨ u (fs.resolve newPath) = some content) ∧
    (rc = .ok → u (fs.resolve newPath) = some content)

/-- Whatever fails, the move returns and the contents are kept. -/
def Keeps (fs : FileSystem Loc) (v : Files Loc) (oldPath newPath : Path)
    (content : List UInt8) : Prop :=
  ∀ fuel choices, content.length < fuel →
    ∃ rc, ((axlFileMove fuel oldPath newPath).run (world fs) choices v).1 = some rc ∧
      Kept fs oldPath newPath content rc
        ((axlFileMove fuel oldPath newPath).run (world fs) choices v).2

section Safe

variable {oldPath newPath : Path} {content : List UInt8}

theorem Kept.failed (h : u (fs.resolve oldPath) = some content) :
    Kept fs oldPath newPath content .err u :=
  ⟨.inl h, nofun⟩

/-- The copy has begun: the source is whole and the destination is open. -/
theorem Movable.copying (h : Movable fs v oldPath newPath content)
    (hv : v (fs.resolve oldPath) = some content) {handle : Loc}
    (hopen : Opened fs newPath true v (some handle) u) :
    handle = fs.resolve newPath ∧ Copying (fs.resolve oldPath) (fs.resolve newPath) content 0 u := by
  obtain ⟨hfile, hchange⟩ := hopen
  obtain ⟨rfl, hsome⟩ := hfile handle rfl
  obtain ⟨old, hold⟩ := Option.ne_none_iff_exists'.mp hsome
  have hlen : old.length ≤ content.length := by
    rcases hchange with rfl | ⟨-, -, rfl⟩
    · exact h.short old hold
    · rw [Files.set_self] at hold
      cases hold
      exact Nat.zero_le _
  refine ⟨rfl, ?_, old, hold, by omega⟩
  rcases hchange with rfl | ⟨-, -, rfl⟩
  · exact hv
  · rw [Files.set_other _ _ h.apart, hv]

theorem gives_move (h : Movable fs v oldPath newPath content)
    (hv : v (fs.resolve oldPath) = some content) {fuel : Nat} (hfuel : content.length < fuel) :
    Prog.Gives (world fs) (axlFileMove fuel oldPath newPath) v fun r u =>
      ∃ rc, r = some rc ∧ Kept fs oldPath newPath content rc u := by
  -- the destination is gone or as it was
  refine (gives_delete newPath).bind fun _ v₁ hdelete => ?_
  obtain ⟨hv₁, h₁⟩ : v₁ (fs.resolve oldPath) = some content ∧
      Movable fs v₁ oldPath newPath content := by
    rcases hdelete with rfl | rfl
    · exact ⟨hv, h⟩
    · refine ⟨by rw [Files.set_other _ _ h.apart, hv], h.apart, h.named, fun c hc => ?_⟩
      rw [Files.set_self] at hc
      cases hc
  refine (gives_rename hv₁).bind fun rc v₂ hrename => ?_
  split
  · next hok =>
    obtain ⟨hrenames, hmoved⟩ := hrename.1 hok
    rw [h.named hrenames] at hmoved
    exact Prog.Gives.done ⟨.ok, rfl, .inr hmoved, fun _ => hmoved⟩
  next hrefused =>
  obtain rfl := hrename.2 hrefused
  refine (gives_fopen oldPath false).bind fun src v₃ hsrc => ?_
  obtain rfl : v₃ = v₂ := by
    rcases hsrc.2 with heq | ⟨hfalse, -⟩
    · exact heq
    · cases hfalse
  split
  · exact Prog.Gives.done ⟨.err, rfl, .failed hv₁⟩
  next src =>
  obtain rfl := (hsrc.1 src rfl).1
  refine (gives_fopen newPath true).bind fun dst v₄ hdst => ?_
  split
  · refine (gives_close _).bind fun _ w hw => Prog.Gives.done ⟨.err, rfl, .failed ?_⟩
    subst hw
    rcases hdst.2 with rfl | ⟨-, -, rfl⟩
    · exact hv₁
    · rw [Files.set_other _ _ h.apart, hv₁]
  next dst =>
  obtain ⟨rfl, hcopying⟩ := h₁.copying hv₁ hdst
  refine (gives_copyLoop h.apart fuel hcopying (by omega)).bind fun copied v₅ hcopied => ?_
  obtain ⟨ok, rfl, hsource, hcopy⟩ := hcopied
  refine (gives_close _).bind fun _ w hw => ?_
  subst hw
  have hflush : Prog.Gives (world fs) (if ok = true then fileFlush (fs.resolve newPath) else pure .err)
      w fun rc u => u (fs.resolve oldPath) = some content ∧
        (rc = .ok → u (fs.resolve newPath) = some content) := by
    split
    · next hok =>
      refine (gives_flush _).mono fun rc u hu => ⟨?_, fun hrc => ?_⟩
      · rw [hu.1 _ h.apart, hsource]
      · rw [hu.2 hrc, hcopy hok]
    · exact Prog.Gives.done ⟨hsource, nofun⟩
  refine hflush.bind fun rc v₆ hflushed => ?_
  refine (gives_close _).bind fun _ w hw => ?_
  subst hw
  split
  · exact Prog.Gives.done ⟨.err, rfl, .failed hflushed.1⟩
  next hlanded =>
  -- the copy is on the volume; what is deleted is another file
  have hmoved := hflushed.2 (not_not.mp hlanded)
  refine (gives_delete oldPath).bind fun rc v₇ hgone => Prog.Gives.done ?_
  have hthere : v₇ (fs.resolve newPath) = some content := by
    rcases hgone with rfl | rfl
    · exact hmoved
    · rw [Files.set_other _ _ h.apart.symm, hmoved]
  exact ⟨rc, rfl, .inr hthere, fun _ => hthere⟩

/-- **A move between two names never loses the contents.** -/
theorem move_keeps (h : Movable fs v oldPath newPath content)
    (hv : v (fs.resolve oldPath) = some content) : Keeps fs v oldPath newPath content :=
  fun _ choices hfuel => (gives_move h hv hfuel).run choices

end Safe

/-! ## When something is lost -/

/-- All goes well, or the step fails. -/
def good : Choice := ⟨true, 4096⟩

instance : Inhabited Choice := ⟨good⟩

def bad : Choice := ⟨false, 0⟩

theorem may_malloc :
    Prog.May (world fs) (fun rc u => rc = .ok ∧ u = v) axlMalloc v :=
  ⟨Stream'.const good, rfl, rfl⟩

theorem may_utf8 (path : Path) :
    Prog.May (world fs) (fun rc u => rc = .ok ∧ u = v) (axlUtf8ToUcs2 path) v :=
  ⟨Stream'.const good, rfl, rfl⟩

theorem may_utf8_refused (path : Path) :
    Prog.May (world fs) (fun rc u => rc = .err ∧ u = v) (axlUtf8ToUcs2 path) v :=
  ⟨Stream'.const bad, rfl, rfl⟩

theorem may_close (file : Loc) : Prog.May (world fs) (fun _ u => u = v) (fileClose file) v :=
  ⟨Stream'.const good, rfl⟩

theorem may_flush (file : Loc) :
    Prog.May (world fs) (fun rc u => rc = .ok ∧ u = v) (fileFlush file) v :=
  ⟨Stream'.const good, rfl, rfl⟩

theorem may_delete (path : Path) :
    Prog.May (world fs) (fun _ u => u = v.set (fs.resolve path) none) (axlFileDelete path) v := by
  refine Prog.May.bind (may_utf8 path) fun rc u hu => ?_
  obtain ⟨rfl, rfl⟩ := hu
  rw [if_neg (not_not.mpr rfl)]
  refine ⟨Stream'.const good, ?_⟩
  show (world fs (.fileDelete path) good u).2 = _
  simp only [world]
  split
  · next hnone =>
    -- there was nothing to delete
    show u = u.set (fs.resolve path) none
    funext l
    by_cases hl : l = fs.resolve path
    · rw [hl, Files.set_self, hnone]
    · rw [Files.set_other _ _ hl]
  · rfl

theorem may_delete_refused (path : Path) :
    Prog.May (world fs) (fun _ u => u = v) (axlFileDelete path) v := by
  refine Prog.May.bind (may_utf8_refused path) fun rc u hu => ?_
  obtain ⟨rfl, rfl⟩ := hu
  rw [if_pos (by decide)]
  exact Prog.May.pure rfl

theorem may_rename {oldPath newPath : Path} {content : List UInt8}
    (hv : v (fs.resolve oldPath) = some content) (hrenames : Renames oldPath newPath) :
    Prog.May (world fs) (fun rc u => rc = .ok ∧ u = (v.set (fs.resolve oldPath) none).set
        (fs.sibling (fs.resolve oldPath) (pathBasename newPath)) (some content))
      (axlFileRename oldPath newPath) v := by
  rw [axlFileRename, if_neg hrenames.1, if_neg (not_not.mpr hrenames.2)]
  refine Prog.May.bind (may_utf8 oldPath) fun rc u hu => ?_
  obtain ⟨rfl, rfl⟩ := hu
  rw [if_neg (not_not.mpr rfl)]
  refine Prog.May.bind (may_utf8 _) fun rc w hw => ?_
  obtain ⟨rfl, rfl⟩ := hw
  rw [if_neg (not_not.mpr rfl)]
  refine ⟨Stream'.const good, ?_⟩
  show (world fs (.fileRename oldPath (pathBasename newPath)) good w).1 = _ ∧
    (world fs (.fileRename oldPath (pathBasename newPath)) good w).2 = _
  simp only [world, hv]
  exact ⟨rfl, rfl⟩

theorem may_rename_refused (oldPath newPath : Path) :
    Prog.May (world fs) (fun rc u => rc ≠ .ok ∧ u = v) (axlFileRename oldPath newPath) v := by
  rw [axlFileRename]
  split
  · exact Prog.May.pure ⟨nofun, rfl⟩
  split
  · exact Prog.May.pure ⟨nofun, rfl⟩
  refine Prog.May.bind (may_utf8_refused oldPath) fun rc u hu => ?_
  obtain ⟨rfl, rfl⟩ := hu
  rw [if_pos (by decide)]
  exact Prog.May.pure ⟨nofun, rfl⟩

theorem may_fopen {path : Path} (hv : v (fs.resolve path) ≠ none) (writable : Bool) :
    Prog.May (world fs) (fun handle u => handle = some (fs.resolve path) ∧ u = v)
      (axlFopen path writable) v := by
  refine Prog.May.bind (may_utf8 path) fun rc u hu => ?_
  obtain ⟨rfl, rfl⟩ := hu
  rw [if_neg (not_not.mpr rfl)]
  have hopen : Prog.May (world fs) (fun handle w => handle = some (fs.resolve path) ∧ w = u)
      (fileOpen path writable) u := by
    refine ⟨Stream'.const good, ?_⟩
    show (world fs (.fileOpen path writable) good u).1 = _ ∧
      (world fs (.fileOpen path writable) good u).2 = _
    simp only [world, if_neg hv]
    exact ⟨rfl, rfl⟩
  refine Prog.May.bind hopen fun handle w hw => ?_
  obtain ⟨rfl, rfl⟩ := hw
  refine Prog.May.bind may_malloc fun rc w hw => ?_
  obtain ⟨rfl, rfl⟩ := hw
  have hcustom : Prog.May (world fs) (fun rc u => rc = .ok ∧ u = w) axlStreamOpenCustom w := by
    refine Prog.May.bind may_malloc fun rc u hu => ?_
    obtain ⟨rfl, rfl⟩ := hu
    exact may_malloc
  refine Prog.May.bind hcustom fun rc u hu => ?_
  obtain ⟨rfl, rfl⟩ := hu
  exact Prog.May.pure ⟨rfl, rfl⟩

theorem may_fopen_refused (path : Path) (writable : Bool) :
    Prog.May (world fs) (fun handle u => handle = none ∧ u = v) (axlFopen path writable) v := by
  refine Prog.May.bind (may_utf8_refused path) fun rc u hu => ?_
  obtain ⟨rfl, rfl⟩ := hu
  rw [if_pos (by decide)]
  exact Prog.May.pure ⟨rfl, rfl⟩

/-- A copy that goes well leaves what was behind it in a longer file. -/
theorem may_copyLoop {src dst : Loc} {content : List UInt8} (hne : src ≠ dst) (fuel : Nat)
    {pos : Nat} {rest : List UInt8} {v : Files Loc} (hsrc : v src = some content)
    (hdst : v dst = some (content.take pos ++ rest)) (hpos : pos ≤ content.length)
    (hfuel : content.length < pos + fuel) :
    Prog.May (world fs) (fun copied u => copied = some true ∧ (∀ l, l ≠ dst → u l = v l) ∧
        u dst = some (content ++ rest.drop (content.length - pos)))
      (copyLoop src dst fuel pos) v := by
  induction fuel generalizing pos rest v with
  | zero => omega
  | succ fuel ih =>
    have hread : Prog.May (world fs)
        (fun n u => n = some ((content.drop pos).take 4096) ∧ u = v) (fileRead src pos 4096) v := by
      refine ⟨Stream'.const good, ?_⟩
      show (world fs (.fileRead src pos 4096) good v).1 = _ ∧
        (world fs (.fileRead src pos 4096) good v).2 = _
      simp only [world, good, hsrc]
      exact ⟨rfl, rfl⟩
    refine Prog.May.bind hread fun n u hu => ?_
    obtain ⟨rfl, rfl⟩ := hu
    have hbuf : ((content.drop pos).take 4096).length = min 4096 (content.length - pos) := by
      rw [length_take, length_drop]
    by_cases hend : ((content.drop pos).take 4096).length = 0
    · simp only [if_pos hend]
      obtain rfl : pos = content.length := by omega
      refine Prog.May.pure ⟨rfl, fun _ _ => rfl, ?_⟩
      rw [hdst, Nat.sub_self, drop_zero, take_length]
    simp only [if_neg hend]
    generalize hn : min 4096 (content.length - pos) = n at hbuf
    have hpart : 0 < n := by omega
    have htake : (content.drop pos).take 4096 = (content.drop pos).take n := by
      rw [← hn, ← length_drop, take_eq_take_min]
    rw [htake] at hbuf ⊢
    have hwrite : Prog.May (world fs) (fun written w => written = some n ∧
        w = u.set dst (some (content.take (pos + n) ++ rest.drop n)))
        (fileWrite dst pos ((content.drop pos).take n)) u := by
      have hall : ((content.drop pos).take n).take good.stored = (content.drop pos).take n :=
        take_of_length_le (by rw [hbuf, ← hn]; exact Nat.min_le_left _ _)
      refine ⟨Stream'.const good, ?_⟩
      show (world fs (.fileWrite dst pos ((content.drop pos).take n)) good u).1 = _ ∧
        (world fs (.fileWrite dst pos ((content.drop pos).take n)) good u).2 = _
      simp only [world, hdst, hall, hbuf]
      rw [overwrite_next (by omega)]
      exact ⟨rfl, rfl⟩
    refine Prog.May.bind hwrite fun written w hw => ?_
    obtain ⟨rfl, rfl⟩ := hw
    rw [hbuf, if_neg (not_not.mpr rfl)]
    have hnext := ih (v := u.set dst (some (content.take (pos + n) ++ rest.drop n)))
      (by rw [Files.set_other _ _ hne, hsrc]) (Files.set_self _ _ _) (by omega) (by omega)
    obtain ⟨choices, hcopied, hother, hcopy⟩ := hnext
    refine ⟨choices, hcopied, fun l hl => ?_, ?_⟩
    · rw [hother l hl, Files.set_other _ _ hl]
    · rw [hcopy, drop_drop]
      congr 3
      omega

section Loses

variable {oldPath newPath : Path} {content : List UInt8}

/-- A run of the move that does not keep the contents. -/
abbrev MayLose (fs : FileSystem Loc) (v : Files Loc) (oldPath newPath : Path)
    (content : List UInt8) : Prop :=
  Prog.May (world fs) (fun r u => ∀ rc, r = some rc → ¬ Kept fs oldPath newPath content rc u)
    (axlFileMove (content.length + 1) oldPath newPath) v

theorem MayLose.not_keeps (h : MayLose fs v oldPath newPath content) :
    ¬ Keeps fs v oldPath newPath content := by
  intro hkeeps
  obtain ⟨choices, hlose⟩ := h
  obtain ⟨rc, hrc, hkept⟩ := hkeeps _ choices (Nat.lt_succ_self _)
  exact hlose rc hrc hkept

/-- One file under two names: it is deleted first. -/
theorem loses_alias (halias : fs.resolve oldPath = fs.resolve newPath) :
    MayLose fs v oldPath newPath content := by
  refine Prog.May.bind (may_delete newPath) fun _ u hu => ?_
  subst hu
  refine Prog.May.bind (may_rename_refused _ _) fun rc u hu => ?_
  obtain ⟨hrc, rfl⟩ := hu
  rw [if_neg hrc]
  refine Prog.May.bind (may_fopen_refused _ _) fun src u hu => ?_
  obtain ⟨rfl, rfl⟩ := hu
  refine Prog.May.pure fun rc _ hkept => ?_
  rcases hkept.1 with hthere | hthere
  · rw [halias, Files.set_self] at hthere
    cases hthere
  · rw [Files.set_self] at hthere
    cases hthere

/-- A bare name is one in the directory of the old file, and in the current directory. -/
theorem loses_name (hne : fs.resolve oldPath ≠ fs.resolve newPath)
    (hv : v (fs.resolve oldPath) = some content) (hrenames : Renames oldPath newPath)
    (hname : fs.sibling (fs.resolve oldPath) (pathBasename newPath) ≠ fs.resolve newPath) :
    MayLose fs v oldPath newPath content := by
  refine Prog.May.bind (may_delete newPath) fun _ u hu => ?_
  subst hu
  have hsource : v.set (fs.resolve newPath) none (fs.resolve oldPath) = some content := by
    rw [Files.set_other _ _ hne, hv]
  refine Prog.May.bind (may_rename hsource hrenames) fun rc u hu => ?_
  obtain ⟨rfl, rfl⟩ := hu
  rw [if_pos rfl]
  refine Prog.May.pure fun rc hrc hkept => ?_
  have hthere := hkept.2 (Option.some.inj hrc).symm
  rw [Files.set_other _ _ hname.symm, Files.set_other _ _ hne.symm, Files.set_self] at hthere
  cases hthere

/-- The old destination could not be deleted and what is copied over it is shorter. -/
theorem loses_short (hne : fs.resolve oldPath ≠ fs.resolve newPath)
    (hv : v (fs.resolve oldPath) = some content) {c : List UInt8}
    (hc : v (fs.resolve newPath) = some c) (hlong : content.length < c.length) :
    MayLose fs v oldPath newPath content := by
  refine Prog.May.bind (may_delete_refused newPath) fun _ u hu => ?_
  subst hu
  refine Prog.May.bind (may_rename_refused _ _) fun rc u hu => ?_
  obtain ⟨hrc, rfl⟩ := hu
  rw [if_neg hrc]
  refine Prog.May.bind (may_fopen (by rw [hv]; nofun) false) fun src u hu => ?_
  obtain ⟨rfl, rfl⟩ := hu
  refine Prog.May.bind (may_fopen (by rw [hc]; nofun) true) fun dst u hu => ?_
  obtain ⟨rfl, rfl⟩ := hu
  refine Prog.May.bind (may_copyLoop hne _ hv (hc.trans (by rw [take_zero, nil_append]))
    (Nat.zero_le _) (by omega)) fun copied u hu => ?_
  obtain ⟨rfl, -, hcopy⟩ := hu
  refine Prog.May.bind (may_close _) fun _ w hw => ?_
  subst hw
  refine Prog.May.bind (may_flush _) fun rc w hw => ?_
  obtain ⟨rfl, rfl⟩ := hw
  refine Prog.May.bind (may_close _) fun _ u hu => ?_
  subst hu
  refine Prog.May.bind (may_delete oldPath) fun rc w hw => ?_
  subst hw
  refine Prog.May.pure fun rc _ hkept => ?_
  rcases hkept.1 with hthere | hthere
  · rw [Files.set_self] at hthere
    cases hthere
  · -- the tail of the old destination is still there
    rw [Files.set_other _ _ hne.symm, hcopy] at hthere
    have hlen := congrArg List.length (Option.some.inj hthere)
    rw [length_append, length_drop] at hlen
    omega

end Loses

/-- A move keeps the contents, whatever fails, just when it is a safe one. -/
theorem move_keeps_iff (fs : FileSystem Loc) {v : Files Loc} (oldPath newPath : Path)
    {content : List UInt8} (hv : v (fs.resolve oldPath) = some content) :
    Keeps fs v oldPath newPath content ↔ Movable fs v oldPath newPath content := by
  constructor
  · intro hkeeps
    have hne : fs.resolve oldPath ≠ fs.resolve newPath :=
      fun halias => (loses_alias halias).not_keeps hkeeps
    refine ⟨hne, fun hrenames => ?_, fun c hc => ?_⟩
    · by_contra hname
      exact (loses_name hne hv hrenames hname).not_keeps hkeeps
    · by_contra hlong
      exact (loses_short hne hv hc (by omega)).not_keeps hkeeps
  · exact fun hmovable => move_keeps hmovable hv

/-- A flat volume: every path is a file of its own. -/
def flat : FileSystem Path := ⟨id, fun _ name => name⟩

/-- A volume on which the file `a` holds one byte. -/
def onlyA : Files Path := fun l => if l = [0x61] then some [1] else none

theorem move_keeps_iff_two : onlyA [0x61] = some [1] ∧ Keeps flat onlyA [0x61] [0x62] [1] := by
  have hmovable : Movable flat onlyA [0x61] [0x62] [1] :=
    ⟨by decide, fun _ => by decide, nofun⟩
  exact ⟨rfl, (move_keeps_iff flat [0x61] [0x62] (rfl : onlyA (flat.resolve [0x61]) = some [1])).mpr
    hmovable⟩

/-- A file moved onto itself, all steps going well as far as they can. -/
theorem move_onto_itself :
    ((axlFileMove 2 [0x61] [0x61]).run (world flat) (Stream'.const good) onlyA).1 = some .err ∧
      ((axlFileMove 2 [0x61] [0x61]).run (world flat) (Stream'.const good) onlyA).2 [0x61] = none ∧
      ¬ Keeps flat onlyA [0x61] [0x61] [1] := by
  have hgone : ((axlFileMove 2 [0x61] [0x61]).run (world flat) (Stream'.const good) onlyA).2 [0x61] =
      none := by
    decide +kernel
  refine ⟨by decide +kernel, hgone, fun hkeeps => ?_⟩
  obtain ⟨rc, -, hkept⟩ := hkeeps 2 (Stream'.const good) (by decide)
  rcases hkept.1 with hthere | hthere
  · cases hgone.symm.trans hthere
  · cases hgone.symm.trans hthere

end Move

end Fs

end AxlSdk
