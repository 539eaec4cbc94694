import AxlSdk.Lib.Calls

/-!
# Replacing a file as a whole (`axl-fs.c`)

`axl_file_write_atomic` writes the new contents to a temporary sibling and then
renames it over the target, deleting the target first where the firmware refuses
to rename over an existing file.

- `Volume`, `Op`, `world`: a volume is a map from paths to contents; every step on
  it may fail, as the `Choice` says, and a write that fails stored a part.
- `axlFileWriteAtomic` and the functions it calls, as programs over these steps. A
  crash is a run that is cut, so the states a crash can leave are those of `trace`.
- `writeAtomic_crash_safe`: at no point is the data lost.

Each function has one specification: which paths it leaves alone at every step and
what its return code says about the end.
-/

namespace AxlSdk

namespace Fs

/-- A path is its UTF-8 bytes. -/
abbrev Path := List UInt8

/-- The contents of the files of a volume; `none` where there is no file. -/
abbrev Volume := Path → Option (List UInt8)

inductive Rc where
  | ok
  | err
  | notFound
deriving DecidableEq, Repr

/-- The steps. A handle is the path it was opened with, at the position `0`. -/
inductive Op where
  | malloc (size : Nat)
  | utf8ToUcs2 (path : Path)
  | fileOpenCreate (path : Path)
  | fileWrite (handle : Path) (buf : List UInt8)
  | fileSetSize (handle : Path) (size : Nat)
  | fileFlush (handle : Path)
  | fileClose (handle : Path)
  | fileStat (path : Path)
  | fileDelete (path : Path)
  | fileRename (oldPath newName : Path)
deriving DecidableEq, Repr

/-- Whether a step succeeds; if it is a write that fails, how much it stored. -/
structure Choice where
  ok : Bool
  stored : Nat
deriving DecidableEq, Repr

/-- `/` or `\` -/
def isSep (c : UInt8) : Bool := c == 47 || c == 92

/-- The loop of `path_basename`: what follows the last separator read, or `base`. -/
def basenameLoop (base : Path) : Path → Path
  | [] => base
  | c :: p => if isSep c then basenameLoop p p else basenameLoop base p

def pathBasename (path : Path) : Path := basenameLoop path path

/-- The length of the directory part of a path, its last separator included. -/
def dirLen (path : Path) : Nat := path.length - (pathBasename path).length

def Volume.set (v : Volume) (p : Path) (c : Option (List UInt8)) : Volume :=
  fun q => if q = p then c else v q

/-- What a step answers and what becomes of the volume. -/
def world (o : Op) (c : Choice) (v : Volume) : Rc × Volume :=
  match o with
  | .malloc _ | .utf8ToUcs2 _ | .fileFlush _ => (if c.ok then .ok else .err, v)
  -- the status of the firmware's Close is unreportable
  | .fileClose _ => (.ok, v)
  | .fileOpenCreate p =>
    if c.ok then (.ok, if v p = none then v.set p (some []) else v) else (.err, v)
  | .fileWrite p buf =>
    match v p with
    | none => (.err, v)
    | some old =>
      if c.ok then (.ok, v.set p (some (buf ++ old.drop buf.length)))
      else (.err, v.set p (some (buf.take c.stored ++ old.drop (buf.take c.stored).length)))
  | .fileSetSize p size =>
    match v p with
    | none => (.err, v)
    | some old =>
      if c.ok then (.ok, v.set p (some (old.take size ++ List.replicate (size - old.length) 0)))
      else (.err, v)
  | .fileStat p => (if c.ok && (v p).isSome then .ok else .err, v)
  | .fileDelete p =>
    if v p = none then (.notFound, v) else if c.ok then (.ok, v.set p none) else (.err, v)
  | .fileRename p name =>
    -- the new name is one in the directory of the old path
    match v p with
    | none => (.err, v)
    | some old =>
      if c.ok then (.ok, (v.set p none).set (p.take (dirLen p) ++ name) (some old))
      else (.err, v)

/-- A program over the steps of a volume. -/
abbrev FsProg (α : Type) := Prog Op (fun _ => Rc) α

/-! ## The functions -/

/-- `axl_file_set_contents` -/
def axlFileSetContents (path : Path) (buf : List UInt8) : FsProg Rc := do
  let rc ← Prog.perform (.utf8ToUcs2 path)
  if rc ≠ .ok then
    return .err
  else
    let rc ← Prog.perform (.fileOpenCreate path)
    if rc ≠ .ok then
      return .err
    else
      let rc ← Prog.perform (.fileWrite path buf)
      -- open with CREATE does not shrink an existing file
      let rc ← (if rc = .ok then Prog.perform (.fileSetSize path buf.length) else pure rc)
      let rc ← (if rc = .ok then Prog.perform (.fileFlush path) else pure rc)
      let _ ← Prog.perform (.fileClose path)
      return if rc = .ok then .ok else .err

/-- `axl_file_delete` -/
def axlFileDelete (path : Path) : FsProg Rc := do
  let rc ← Prog.perform (.utf8ToUcs2 path)
  if rc ≠ .ok then
    return .err
  else
    Prog.perform (.fileDelete path)

/-- `axl_file_info`, its return code only -/
def axlFileInfo (path : Path) : FsProg Rc := do
  let rc ← Prog.perform (.utf8ToUcs2 path)
  if rc ≠ .ok then
    return .err
  else
    Prog.perform (.fileStat path)

/-- `axl_file_rename`: only within a directory. -/
def axlFileRename (oldPath newPath : Path) : FsProg Rc := do
  let newBase := pathBasename newPath
  if newBase = [] then
    return .err
  else if 0 < dirLen newPath ∧ (dirLen newPath ≠ dirLen oldPath ∨
      oldPath.take (dirLen oldPath) ≠ newPath.take (dirLen oldPath)) then
    return .err
  else
    let rc ← Prog.perform (.utf8ToUcs2 oldPath)
    if rc ≠ .ok then
      return .err
    else
      let rc ← Prog.perform (.utf8ToUcs2 newBase)
      if rc ≠ .ok then
        return .err
      else
        Prog.perform (.fileRename oldPath newBase)

/-- `"<path>.tmp"` -/
def tempPath (path : Path) : Path := path ++ [46, 116, 109, 112]

/-- `axl_file_write_atomic` -/
def axlFileWriteAtomic (path : Path) (buf : List UInt8) : FsProg Rc := do
  let temp := tempPath path
  let rc ← Prog.perform (.malloc (path.length + 5))
  if rc ≠ .ok then
    return .err
  else
    let rc ← axlFileSetContents temp buf
    if rc ≠ .ok then
      let _ ← axlFileDelete temp
      return .err
    else
      let rc ← axlFileRename temp path
      -- where the firmware cannot rename over the target, it is removed first
      let rc ← (if rc ≠ .ok then axlFileDelete path >>= fun _ => axlFileRename temp path else pure rc)
      if rc ≠ .ok then
        let info ← axlFileInfo path
        -- the target survived, so the temporary file is litter
        if info = .ok then
          let _ ← axlFileDelete temp
          return .err
        else
          return .err
      else
        return .ok

/-! ## Paths -/

theorem tempPath_ne (path : Path) : path ≠ tempPath path := by
  intro h
  have hlen := congrArg List.length h
  simp [tempPath] at hlen

theorem basenameLoop_append (p ext : Path) (hext : ∀ c ∈ ext, isSep c = false) (base : Path) :
    basenameLoop (base ++ ext) (p ++ ext) = basenameLoop base p ++ ext := by
  induction p generalizing base with
  | nil =>
    -- without a separator the base stays, whatever it is
    have hkeep : ∀ (b e : Path), (∀ c ∈ e, isSep c = false) → basenameLoop b e = b := by
      intro b e he
      induction e with
      | nil => rfl
      | cons c e ih =>
        rw [basenameLoop, he c List.mem_cons_self]
        exact ih fun d hd => he d (List.mem_cons_of_mem c hd)
    exact hkeep _ _ hext
  | cons c p ih =>
    show (if isSep c then basenameLoop (p ++ ext) (p ++ ext) else basenameLoop (base ++ ext) (p ++ ext))
      = (if isSep c then basenameLoop p p else basenameLoop base p) ++ ext
    by_cases hc : isSep c
    · rw [if_pos hc, if_pos hc]
      exact ih p
    · rw [if_neg hc, if_neg hc]
      exact ih base

theorem basenameLoop_suffix (p base q : Path) (h : base <:+ q) (hp : p <:+ q) :
    basenameLoop base p <:+ q := by
  induction p generalizing base with
  | nil => exact h
  | cons c p ih =>
    have hp' : p <:+ q := (List.suffix_cons c p).trans hp
    show (if isSep c then basenameLoop p p else basenameLoop base p) <:+ q
    split
    · exact ih p hp' hp'
    · exact ih base h hp'

/-- A path is its directory part and its base name. -/
theorem take_dirLen_append (path : Path) : path.take (dirLen path) ++ pathBasename path = path := by
  obtain ⟨dir, hdir⟩ := basenameLoop_suffix path path path List.suffix_rfl List.suffix_rfl
  have hlen : dirLen path = dir.length := by
    have := congrArg List.length hdir
    simp only [List.length_append] at this
    show path.length - (basenameLoop path path).length = dir.length
    omega
  have htake : path.take dir.length = dir := by
    conv_lhs => rw [← hdir]
    exact List.take_left
  rw [hlen, htake]
  exact hdir

theorem pathBasename_tempPath (path : Path) :
    pathBasename (tempPath path) = tempPath (pathBasename path) := by
  have hext : ∀ c ∈ ([46, 116, 109, 112] : Path), isSep c = false := by simp [isSep]
  exact basenameLoop_append path _ hext path

/-- The temporary file is in the directory of its target. -/
theorem dirLen_tempPath (path : Path) : dirLen (tempPath path) = dirLen path := by
  rw [dirLen, dirLen, pathBasename_tempPath]
  simp only [tempPath, List.length_append]
  omega

theorem take_dirLen_tempPath (path : Path) :
    (tempPath path).take (dirLen path) = path.take (dirLen path) :=
  List.take_append_of_le_length (Nat.sub_le _ _)

/-! ## The steps and the functions, one specification each -/

@[simp] theorem Volume.set_self (v : Volume) (p : Path) (c : Option (List UInt8)) :
    v.set p c p = c :=
  if_pos rfl

theorem Volume.set_other (v : Volume) {p q : Path} (c : Option (List UInt8)) (h : q ≠ p) :
    v.set p c q = v q :=
  if_neg h

/-- The two volumes differ at most at `p`. -/
def SameBut (p : Path) (v u : Volume) : Prop := ∀ q, q ≠ p → u q = v q

theorem SameBut.refl (p : Path) (v : Volume) : SameBut p v v := fun _ _ => rfl

theorem SameBut.trans {p : Path} {v u w : Volume} (h : SameBut p v u) (h' : SameBut p u w) :
    SameBut p v w :=
  fun q hq => (h' q hq).trans (h q hq)

theorem SameBut.set (p : Path) (v : Volume) (c : Option (List UInt8)) : SameBut p v (v.set p c) :=
  fun _ hq => v.set_other c hq

theorem SameBut.fileOpenCreate (p : Path) (c : Choice) (v : Volume) :
    SameBut p v (world (.fileOpenCreate p) c v).2 := by
  simp only [world]
  split
  · split
    · exact SameBut.set p v _
    · exact SameBut.refl p v
  · exact SameBut.refl p v

theorem SameBut.fileWrite (p : Path) (buf : List UInt8) (c : Choice) (v : Volume) :
    SameBut p v (world (.fileWrite p buf) c v).2 := by
  simp only [world]
  split
  · exact SameBut.refl p v
  · split
    · exact SameBut.set p v _
    · exact SameBut.set p v _

theorem SameBut.fileSetSize (p : Path) (n : Nat) (c : Choice) (v : Volume) :
    SameBut p v (world (.fileSetSize p n) c v).2 := by
  simp only [world]
  split
  · exact SameBut.refl p v
  · split
    · exact SameBut.set p v _
    · exact SameBut.refl p v

theorem fileWrite_ok {p : Path} {buf : List UInt8} {c : Choice} {v : Volume}
    (h : (world (.fileWrite p buf) c v).1 = .ok) :
    ∃ old, (world (.fileWrite p buf) c v).2 p = some (buf ++ old) := by
  simp only [world] at h ⊢
  cases hv : v p with
  | none => simp [hv] at h
  | some old =>
    rw [hv] at h
    by_cases hc : c.ok
    · exact ⟨old.drop buf.length, by simp [hc]⟩
    · simp [hc] at h

/-- The size is set to what was written, so nothing of the old contents stays. -/
theorem fileSetSize_ok {p : Path} {buf old : List UInt8} {c : Choice} {v : Volume}
    (hv : v p = some (buf ++ old)) (h : (world (.fileSetSize p buf.length) c v).1 = .ok) :
    (world (.fileSetSize p buf.length) c v).2 p = some buf := by
  simp only [world, hv] at h ⊢
  by_cases hc : c.ok
  · simp [hc]
  · simp [hc] at h

/-- Only the file itself is touched, and success means that it has the contents. -/
theorem setContents_spec (p : Path) (buf : List UInt8) (v : Volume) :
    (axlFileSetContents p buf).Safe world (SameBut p v) (fun rc u => rc = .ok → u p = some buf)
      v := by
  refine Prog.Safe.call (SameBut.refl p v) fun c => ?_
  split
  · exact Prog.Safe.pure (SameBut.refl p v) nofun
  show Prog.Safe world _ _ _ v
  refine Prog.Safe.call (SameBut.refl p v) fun c₁ => ?_
  have hopen := SameBut.fileOpenCreate p c₁ v
  split
  · exact Prog.Safe.pure hopen nofun
  generalize (world (.fileOpenCreate p) c₁ v).2 = v₁ at hopen
  refine Prog.Safe.call hopen fun c₂ => ?_
  have hwrite := hopen.trans (SameBut.fileWrite p buf c₂ v₁)
  -- after the write: success so far means that the contents begin the file
  have hdone : (world (.fileWrite p buf) c₂ v₁).1 = .ok →
      ∃ old, (world (.fileWrite p buf) c₂ v₁).2 p = some (buf ++ old) := fileWrite_ok
  generalize (world (.fileWrite p buf) c₂ v₁).2 = v₂ at hwrite hdone
  generalize (world (.fileWrite p buf) c₂ v₁).1 = rc₂ at hdone
  have hsize : (if rc₂ = .ok then Prog.perform (.fileSetSize p buf.length) else pure rc₂
      : FsProg Rc).Safe world (SameBut p v) (fun rc u => rc = .ok → u p = some buf) v₂ := by
    split
    · next hrc =>
      obtain ⟨old, hold⟩ := hdone hrc
      exact Prog.Safe.perform hwrite fun c₃ =>
        ⟨hwrite.trans (SameBut.fileSetSize p _ c₃ v₂), fileSetSize_ok hold⟩
    · next hrc => exact Prog.Safe.pure hwrite fun h => absurd h hrc
  refine hsize.bind fun rc₃ v₃ h₃ hbuf => ?_
  have hflush : (if rc₃ = .ok then Prog.perform (.fileFlush p) else pure rc₃
      : FsProg Rc).Safe world (SameBut p v) (fun rc u => rc = .ok → u p = some buf) v₃ := by
    split
    · next hrc => exact Prog.Safe.perform h₃ fun c₄ => ⟨h₃, fun _ => hbuf hrc⟩
    · next hrc => exact Prog.Safe.pure h₃ fun h => absurd h hrc
  refine hflush.bind fun rc₄ v₄ h₄ hbuf => ?_
  refine Prog.Safe.call h₄ fun c₅ => Prog.Safe.pure h₄ fun hrc => hbuf ?_
  by_contra hne
  simp [hne] at hrc

/-- A deleted file is gone or is as it was. -/
theorem fileDelete_spec (p : Path) (v : Volume) :
    (axlFileDelete p).Safe world (fun u => SameBut p v u ∧ (u p = v p ∨ u p = none))
      (fun _ _ => True) v := by
  have hv : SameBut p v v ∧ (v p = v p ∨ v p = none) := ⟨SameBut.refl p v, .inl rfl⟩
  refine Prog.Safe.call hv fun c => ?_
  split
  · exact Prog.Safe.pure hv trivial
  refine Prog.Safe.perform hv fun c₁ => ⟨?_, trivial⟩
  show SameBut p v (world (.fileDelete p) c₁ v).2 ∧
    ((world (.fileDelete p) c₁ v).2 p = v p ∨ (world (.fileDelete p) c₁ v).2 p = none)
  simp only [world]
  split
  · exact hv
  · split
    · exact ⟨SameBut.set p v none, .inr (v.set_self p none)⟩
    · exact hv

/-- A file whose information is found exists. -/
theorem fileInfo_spec (p : Path) (v : Volume) :
    (axlFileInfo p).Safe world (fun u => u = v) (fun rc _ => rc = .ok → v p ≠ none) v := by
  refine Prog.Safe.call rfl fun c => ?_
  split
  · exact Prog.Safe.pure rfl nofun
  refine Prog.Safe.perform rfl fun c₁ => ⟨rfl, ?_⟩
  intro h
  simp only [world] at h
  intro hnone
  simp [hnone] at h

/-- The temporary file replaces its target in one step, or nothing happens. -/
theorem fileRename_spec (path : Path) {v : Volume} {new : List UInt8}
    (hv : v (tempPath path) = some new) :
    (axlFileRename (tempPath path) path).Safe world (fun u => u = v ∨ u path = some new)
      (fun rc u => (rc = .ok → u path = some new) ∧ (rc ≠ .ok → u = v)) v := by
  rw [axlFileRename]
  split
  · exact Prog.Safe.pure (.inl rfl) ⟨nofun, fun _ => rfl⟩
  split
  · exact Prog.Safe.pure (.inl rfl) ⟨nofun, fun _ => rfl⟩
  refine Prog.Safe.call (.inl rfl) fun c => ?_
  split
  · exact Prog.Safe.pure (.inl rfl) ⟨nofun, fun _ => rfl⟩
  refine Prog.Safe.call (.inl rfl) fun c₁ => ?_
  split
  · exact Prog.Safe.pure (.inl rfl) ⟨nofun, fun _ => rfl⟩
  refine Prog.Safe.perform (.inl rfl) fun c₂ => ?_
  have hname : (tempPath path).take (dirLen (tempPath path)) ++ pathBasename path = path := by
    rw [dirLen_tempPath, take_dirLen_tempPath, take_dirLen_append]
  have hstep : world (.fileRename (tempPath path) (pathBasename path)) c₂ v =
      if c₂.ok then (.ok, (v.set (tempPath path) none).set path (some new)) else (.err, v) := by
    simp only [world, hv, hname]
  show _ ∧ _
  simp only [world] at hstep ⊢
  rw [hstep]
  split
  · exact ⟨.inr (Volume.set_self _ _ _), fun _ => Volume.set_self _ _ _, fun h => absurd rfl h⟩
  · exact ⟨.inl rfl, nofun, fun _ => rfl⟩

/-! ## No data is lost -/

/-- The path has the whole of its old contents (or is absent, as it was) or of the
new ones, or is absent with the whole of the new ones in the temporary file. -/
def Whole (path : Path) (old : Option (List UInt8)) (new : List UInt8) (u : Volume) : Prop :=
  u path = old ∨ u path = some new ∨ (u path = none ∧ u (tempPath path) = some new)

section Replace

variable {path : Path} {old : Option (List UInt8)} {new : List UInt8} {v : Volume}

theorem Whole.of_sameBut_temp {u : Volume} (hv : v path = old) (h : SameBut (tempPath path) v u) :
    Whole path old new u :=
  .inl ((h path (tempPath_ne path)).trans hv)

theorem Whole.of_delete {u : Volume} (hold : v path = old) (hnew : v (tempPath path) = some new)
    (h : SameBut path v u ∧ (u path = v path ∨ u path = none)) : Whole path old new u := by
  rcases h.2 with hkept | hgone
  · exact .inl (hkept.trans hold)
  · exact .inr (.inr ⟨hgone, (h.1 _ (tempPath_ne path).symm).trans hnew⟩)

/-- The fallback: the target is removed and the temporary file renamed. Where that
fails too, the temporary file is still there. -/
theorem deleteThenRename_spec (hold : v path = old) (hnew : v (tempPath path) = some new) :
    (axlFileDelete path >>= fun _ => axlFileRename (tempPath path) path).Safe world
      (Whole path old new)
      (fun rc u => (rc = .ok → u path = some new) ∧
        (rc ≠ .ok → u (tempPath path) = some new ∧ (u path = old ∨ u path = none))) v := by
  refine (fileDelete_spec path v).seq (fun u hu => Whole.of_delete hold hnew hu) ?_
  intro _ u hu _
  have htemp : u (tempPath path) = some new := (hu.1 _ (tempPath_ne path).symm).trans hnew
  have hwhole : Whole path old new u := Whole.of_delete hold hnew hu
  refine (fileRename_spec path htemp).mono ?_ ?_
  · rintro w (rfl | hw)
    · exact hwhole
    · exact .inr (.inl hw)
  · intro rc w hw
    refine ⟨hw.1, fun hrc => ?_⟩
    obtain rfl := hw.2 hrc
    rw [← hold]
    exact ⟨htemp, hu.2⟩

/-- Both renames failed: the temporary file goes only if the target is still there. -/
theorem cleanup_spec (hnew : v (tempPath path) = some new) (hpath : v path = old ∨ v path = none) :
    (do let info ← axlFileInfo path
        if info = .ok then axlFileDelete (tempPath path) >>= fun _ => pure Rc.err
        else pure .err : FsProg Rc).Safe world (Whole path old new)
      (fun rc u => rc = .ok → u path = some new) v := by
  have hwhole : Whole path old new v := by
    rcases hpath with h | h
    · exact .inl h
    · exact .inr (.inr ⟨h, hnew⟩)
  refine (fileInfo_spec path v).seq (fun u hu => hu ▸ hwhole) ?_
  rintro info u rfl hinfo
  split
  · next hok =>
    have hold : u path = old := hpath.resolve_right (hinfo hok)
    exact (fileDelete_spec (tempPath path) u).seq (fun w hw => .of_sameBut_temp hold hw.1)
      fun _ w hw _ => Prog.Safe.pure (.of_sameBut_temp hold hw.1) nofun
  · exact Prog.Safe.pure hwhole nofun

theorem writeAtomic_spec (hold : v path = old) :
    (axlFileWriteAtomic path new).Safe world (Whole path old new)
      (fun rc u => rc = .ok → u path = some new) v := by
  refine Prog.Safe.call (.inl hold) fun c => ?_
  split
  · exact Prog.Safe.pure (.inl hold) nofun
  show Prog.Safe world _ _ _ v
  refine (setContents_spec (tempPath path) new v).seq (fun u hu => .of_sameBut_temp hold hu) ?_
  intro rc u hu hnew
  have hpath : u path = old := (hu path (tempPath_ne path)).trans hold
  split
  · exact (fileDelete_spec (tempPath path) u).seq (fun w hw => .of_sameBut_temp hpath hw.1)
      fun _ w hw _ => Prog.Safe.pure (.of_sameBut_temp hpath hw.1) nofun
  next hrc =>
  have htemp : u (tempPath path) = some new := hnew (not_not.mp hrc)
  refine (fileRename_spec path htemp).seq ?_ ?_
  · rintro w (rfl | hw)
    · exact .inl hpath
    · exact .inr (.inl hw)
  intro rc₁ w _ hw
  have hfallback : (if rc₁ ≠ .ok then
        axlFileDelete path >>= fun _ => axlFileRename (tempPath path) path
      else pure rc₁ : FsProg Rc).Safe world (Whole path old new)
      (fun rc u => (rc = .ok → u path = some new) ∧
        (rc ≠ .ok → u (tempPath path) = some new ∧ (u path = old ∨ u path = none))) w := by
    split
    · next hne =>
      obtain rfl := hw.2 hne
      exact deleteThenRename_spec hpath htemp
    · next hok =>
      have hok : rc₁ = .ok := not_not.mp hok
      exact Prog.Safe.pure (.inr (.inl (hw.1 hok))) ⟨fun _ => hw.1 hok, fun h => absurd hok h⟩
  refine hfallback.bind fun rc₂ t ht hq => ?_
  split
  · next hne => exact cleanup_spec (hq.2 hne).1 (hq.2 hne).2
  · next hok => exact Prog.Safe.pure ht fun _ => hq.1 (not_not.mp hok)

end Replace

/-- **No data is lost**: whatever fails, and wherever a crash cuts the run, the path
holds its old contents or the new ones, or is absent while the temporary file holds
the new ones; a success means that the path holds the new contents. -/
theorem writeAtomic_crash_safe (path : Path) (buf : List UInt8) (v : Volume)
    (choices : Stream' Choice) :
    (∀ u ∈ (axlFileWriteAtomic path buf).trace world choices v, Whole path (v path) buf u) ∧
      (((axlFileWriteAtomic path buf).run world choices v).1 = .ok →
        ((axlFileWriteAtomic path buf).run world choices v).2 path = some buf) := by
  have hspec : (axlFileWriteAtomic path buf).Safe world (Whole path (v path) buf)
      (fun rc u => rc = .ok → u path = some buf) v := writeAtomic_spec rfl
  exact ⟨hspec.trace choices, hspec.run choices⟩

-- an existing target that the first rename is refused to replace
example :
    ((axlFileWriteAtomic [97] [1, 2]).run world (fun n => ⟨n ≠ 9, 0⟩)
      fun p => if p = [97] then some [3, 4, 5] else none).2 [97] = some [1, 2] := by
  decide

end Fs

end AxlSdk
