import AxlSdk.NineP.Handlers

/-!
# The dispatch of the 9P server

- The specifications of the handlers that change the namespace (`tlcreate_spec` …
  `tsetattr_spec`), of `Tclunk` and of `Tversion`.
- `Kept`, `handle_kept`: what every handler leaves.
- `Dispatched`, `dispatch_spec`: what a dispatched message leaves, its reply sent or the
  connection reaped.
-/

namespace AxlSdk

namespace NineP

open Ucs2 (CString s9pCompIsSafe)
open Paths

variable {srv : Axl9pServer} {P : Path → Prop} {rest : Multiset Handle} {made : Finset Path}
  {w : Ledger} {conn : S9pConn} {r : Axl9pReader} {f g : S9pFid} {i : Nat} {failed : Reply → Prop}
  {clean : Prop}

/-! ## The namespace -/

variable {owned : Multiset Handle}

theorem emptyLoop_spec (dir : Handle) (n : Nat) :
    ∀ w : Ledger, Books srv P owned made w →
      Ensures (emptyLoop dir n) w fun _ w' => Books srv P owned made w' := by
  induction n with
  | zero => exact fun _ h => Ensures.done h
  | succ n ih =>
    intro w h
    refine (handle_spec h rfl rfl rfl).bind fun e w₁ h₁ => ?_
    cases e with
    | none => exact Ensures.done h₁
    | some e =>
      simp only []
      split
      · exact ih _ h₁
      · exact Ensures.done h₁

/-- The iterator of the check is closed again. -/
theorem dirIsEmpty_spec {path : Path} (hp : P path) (h : Books srv P owned made w) :
    Ensures (s9pDirIsEmpty path) w fun _ w' => Books srv P owned made w' := by
  refine (dirOpen_spec h hp).bind fun dir w₁ h₁ => ?_
  cases dir with
  | none =>
    refine Ensures.done ?_
    rwa [held_none, zero_add] at h₁
  | some d =>
    refine (emptyLoop_spec d _ _ h₁).bind fun empty w₂ h₂ => ?_
    exact (dirClose_spec (d := some d) h₂).bind fun _ w₃ h₃ => Ensures.done h₃

theorem undoCreate_spec {path : Path} (ht : Table srv P conn.fids) (hp : P path)
    (hrw : srv.readOnly = false)
    (hb : Books srv P (handles conn.fids + rest) (insert path made) w) (ecode : Nat) :
    Ensures (undoCreate conn path ecode) w
      (Outcome srv P conn rest made Reply.isError True) :=
  (delete_spec hb hp hrw).bind fun _ _ h => Outcome.fail ht h _

theorem tlcreate_spec (hc : Confine srv P) (hrw : srv.readOnly = false)
    (ht : Table srv P conn.fids) (hb : Books srv P (handles conn.fids + rest) made w) :
    Ensures (s9pHandleTlcreate conn r) w
      (Outcome srv P conn rest made Reply.isError True) := by
  rw [s9pHandleTlcreate]
  generalize rU32 (rU32 (rU32 (rStr 256 (rU32 r).2).2).2).2 = gid
  generalize rU32 (rStr 256 (rU32 r).2).2 = flags
  generalize rStr 256 (rU32 r).2 = name
  generalize rU32 r = dfid
  split
  · exact Outcome.fail ht hb _
  refine (resolveChild_spec hc ht hb _ _ _).bind fun resolved w₁ h₁ => ?_
  cases resolved with
  | error ecode => exact Outcome.fail ht h₁.1 _
  | ok path =>
    obtain ⟨h₁, hfits⟩ := h₁
    obtain ⟨hp, hshort⟩ := hfits path rfl
    refine (fileInfo_spec h₁ hp).bind fun existing w₂ h₂ => ?_
    split
    · exact Outcome.fail ht h₂ _
    refine (fopen_spec h₂ hp hrw).bind fun created w₃ h₃ => ?_
    cases created with
    | none =>
      refine Outcome.fail ht ?_ _
      rwa [held_none, zero_add] at h₃
    | some h =>
      refine (fclose_spec (s := some h) h₃).bind fun _ w₄ h₄ => ?_
      refine (fileInfo_spec h₄ hp).bind fun info w₅ h₅ => ?_
      cases info with
      | none => exact undoCreate_spec ht hp hrw h₅ _
      | some e =>
        cases hd : s9pFidGet conn dfid.1 with
        | none => exact undoCreate_spec ht hp hrw h₅ _
        | some found =>
          obtain ⟨i, d⟩ := found
          simp only []
          generalize (if flags.1 &&& 3 = 0 then 2 else flags.1 &&& 3) = accmode
          have hro : srv.readOnly = true → accmode = 0 :=
            fun hr => absurd (hrw.symm.trans hr) Bool.false_ne_true
          refine (openFile_spec (f := { S9pFid.zero with path := path }) h₅ hp rfl hro).bind
            fun staged w₆ h₆ => ?_
          obtain ⟨hstaged, h₆⟩ := h₆
          have hbooks : Books srv P (staged.2.handles + (handles conn.fids + rest))
              (insert path made) w₆ := by
            simpa using h₆
          split
          · next hrefused =>
            have heq := hstaged.refused (by simpa using hrefused)
            rw [heq] at hbooks
            refine undoCreate_spec ht hp hrw ?_ _
            rw [show ({ S9pFid.zero with path := path } : S9pFid).handles = 0 from rfl,
              zero_add] at hbooks
            exact hbooks
          · next hopened =>
            have hopened : staged.1 = true := by simpa using hopened
            obtain ⟨others, hfocus⟩ := focus hd ht h₅
            have hdir : staged.2.dir = none := by rw [hstaged.same]; rfl
            have hstagedHandles : staged.2.handles = held staged.2.view + held staged.2.wstream := by
              rw [S9pFid.handles, hdir, held_none, add_zero]
            -- the handles of the directory go, those of the scratch fid stay
            have hsplit : Books srv P (d.handles + (others + (staged.2.handles + rest)))
                (insert path made) w₆ := by
              have hall := hfocus.all
              rw [hall] at hbooks
              convert hbooks using 1
              abel
            refine (closeOpen_spec hsplit).bind fun closed w₇ h₇ => ?_
            obtain ⟨hshut, h₇⟩ := h₇
            rw [hshut]
            refine hfocus.outcome (g := { d.shut with path := path, isDir := false,
                                                      view := staged.2.view,
                                                      wstream := staged.2.wstream, isOpen := true })
              (?_ : Books srv P _ (insert path made) _) ⟨fun _ => hp, fun _ => hshort, ?_, ?_, ?_,
                hstaged.readOnly⟩ (fun hu => ⟨hu, rfl⟩) _ ?_ ?_
            · convert h₇ using 1
              rw [hstagedHandles, S9pFid.handles]
              simp only [S9pFid.shut, held_none, add_zero]
              abel
            · exact fun hu => absurd (hfocus.used.symm.trans hu).symm Bool.false_ne_true
            · exact fun ho => absurd ho.symm Bool.false_ne_true
            · exact fun _ => .inr ⟨rfl, hstaged.opened hopened⟩
            · exact fun herr => absurd herr (not_isError (by decide))
            · exact fun _ herr => absurd herr (not_isError (by decide))

theorem tmkdir_spec (hc : Confine srv P) (hrw : srv.readOnly = false)
    (ht : Table srv P conn.fids) (hb : Books srv P (handles conn.fids + rest) made w) :
    Ensures (s9pHandleTmkdir conn r) w
      (Outcome srv P conn rest made Reply.isError True) := by
  rw [s9pHandleTmkdir]
  generalize rU32 (rU32 (rStr 256 (rU32 r).2).2).2 = gid
  generalize rStr 256 (rU32 r).2 = name
  generalize rU32 r = dfid
  split
  · exact Outcome.fail ht hb _
  refine (resolveChild_spec hc ht hb _ _ _).bind fun resolved w₁ h₁ => ?_
  cases resolved with
  | error ecode => exact Outcome.fail ht h₁.1 _
  | ok path =>
    obtain ⟨h₁, hfits⟩ := h₁
    obtain ⟨hp, -⟩ := hfits path rfl
    refine (fileInfo_spec h₁ hp).bind fun existing w₂ h₂ => ?_
    split
    · exact Outcome.fail ht h₂ _
    refine (mutate_spec h₂ rfl (by simpa [FsOp.paths] using hp) hrw).bind fun made w₃ h₃ => ?_
    split
    · exact Outcome.fail ht h₃ _
    refine (fileInfo_spec h₃ hp).bind fun info w₄ h₄ => ?_
    cases info with
    | none => exact Outcome.fail ht h₄ _
    | some e => exact Outcome.unchanged ht h₄ _

/-- A fid is released, flushed or not. -/
theorem clunk_spec {fid : Nat} (hget : s9pFidGet conn fid = some (i, f))
    (ht : Table srv P conn.fids) (hb : Books srv P (handles conn.fids + rest) made w) :
    Ensures (s9pFidClunk conn fid) w fun res w' =>
      res.2 = conn.setFid i .zero ∧ Table srv P (conn.setFid i .zero).fids ∧
        Books srv P (handles (conn.setFid i .zero).fids + rest) made w' ∧
        ∀ h ∈ f.handles, h ∈ w'.closed := by
  obtain ⟨others, hfocus⟩ := focus hget ht hb
  rw [s9pFidClunk, hget]
  refine (hfocus.shut.grow.bind fun closed w₁ h₁ => Ensures.done ⟨rfl, h₁.1.2, h₁.2⟩ :
    Ensures (s9pFidRelease f) w fun res w' =>
      res.2 = .zero ∧ Books srv P (others + rest) made w' ∧ w.Le w').bind fun released w₁ h₁ => ?_
  obtain ⟨hzero, h₁, hle⟩ := h₁
  rw [hzero]
  refine Ensures.done ⟨rfl, ht.set hfocus.slot FidOk.zero fun hu => ?_, ?_,
    fun h hh => Books.closed_of_shut hfocus.books h₁ hle hh⟩
  · exact absurd hu Bool.false_ne_true
  · show Books srv P (handles (conn.fids.set i .zero) + rest) made w₁
    rw [hfocus.set, S9pFid.handles_zero, zero_add]
    exact h₁

/-- Whatever `Tclunk` and `Tremove` answer of a fid that is bound, it is unbound then and
its handles are closed. -/
def Unbinds (conn : S9pConn) (fid : Nat) (res : Reply × S9pConn) (w : Ledger) : Prop :=
  ∀ i f, s9pFidGet conn fid = some (i, f) →
    boundPath res.2 fid = none ∧ ∀ h ∈ f.handles, h ∈ w.closed

theorem boundPath_zero {fid : Nat} (hget : s9pFidGet conn fid = some (i, f))
    (ht : Table srv P conn.fids) : boundPath (conn.setFid i .zero) fid = none := by
  obtain ⟨hslot, hused, hfid⟩ := fidGet_some hget
  rw [boundPath, Option.map_eq_none_iff]
  by_contra hne
  obtain ⟨⟨j, g⟩, hg⟩ := Option.ne_none_iff_exists'.mp hne
  obtain ⟨hj, hgu, hgf⟩ := fidGet_some hg
  have hset : (conn.fids.set i .zero)[j]? = some g := hj
  rw [List.getElem?_set] at hset
  split at hset
  · split at hset
    · obtain rfl := Option.some.inj hset
      exact absurd hgu Bool.false_ne_true
    · cases hset
  · next hij => exact hij (ht.distinct i j f g hslot hset hused hgu (hfid.trans hgf.symm))

theorem tclunk_spec (ht : Table srv P conn.fids)
    (hb : Books srv P (handles conn.fids + rest) made w) :
    Ensures (s9pHandleTclunk conn r) w fun res w' =>
      Outcome srv P conn rest made (fun _ => False) True res w' ∧
        ((rU32 r).2.error = false → Unbinds conn (rU32 r).1 res w') := by
  rw [s9pHandleTclunk]
  generalize rU32 r = fid
  split
  · next herr =>
    refine (Outcome.fail ht hb _).mono fun res w' h => ⟨h, fun hok => ?_⟩
    exact absurd (hok.symm.trans herr) Bool.false_ne_true
  split
  · next hnone =>
    refine (Outcome.fail ht hb _).mono fun res w' h => ⟨h, fun _ i f hf => ?_⟩
    rw [hf] at hnone
    cases hnone
  next hsome =>
  obtain ⟨⟨i, f⟩, hf⟩ : ∃ found, s9pFidGet conn fid.1 = some found :=
    Option.ne_none_iff_exists'.mp fun hn => hsome (by rw [hn]; rfl)
  refine (clunk_spec hf ht hb).bind fun clunked w₁ h₁ => ?_
  obtain ⟨heq, htable, hbooks, hclosed⟩ := h₁
  have hend : ∀ reply, Outcome srv P conn rest made (fun _ => False) True
      (reply, conn.setFid i .zero) w₁ ∧ (fid.2.error = false →
        Unbinds conn fid.1 (reply, conn.setFid i .zero) w₁) := by
    refine fun reply => ⟨⟨⟨made, hbooks, fun _ _ => rfl⟩, htable, rfl, fun hf => hf.elim⟩,
      fun _ j g hg => ⟨boundPath_zero hf ht, ?_⟩⟩
    rw [hf] at hg
    obtain ⟨-, rfl⟩ := Prod.mk.inj (Option.some.inj hg)
    exact hclosed
  rw [heq]
  split
  · exact Ensures.done (hend _)
  · exact Ensures.done (hend _)

theorem removeNode_spec {path : Path} (hp : P path) (hrw : srv.readOnly = false)
    (ht : Table srv P conn.fids) (hb : Books srv P (handles conn.fids + rest) made w)
    (isdir : Bool) :
    Ensures (removeNode conn path isdir) w fun res w' =>
      res.2 = conn ∧ Books srv P (handles conn.fids + rest) made w' := by
  rw [removeNode]
  split
  · refine (dirIsEmpty_spec hp hb).bind fun empty w₁ h₁ => ?_
    split
    · exact Ensures.done ⟨rfl, h₁⟩
    refine (mutate_spec h₁ rfl (by simpa [FsOp.paths] using hp) hrw).bind fun ok w₂ h₂ => ?_
    split
    · exact Ensures.done ⟨rfl, h₂⟩
    · exact Ensures.done ⟨rfl, h₂⟩
  · refine (delete_spec (hb.mono (Finset.subset_insert path made)) hp hrw).bind
      fun ok w₁ h₁ => ?_
    split
    · exact Ensures.done ⟨rfl, h₁⟩
    · exact Ensures.done ⟨rfl, h₁⟩

theorem tremove_spec (hrw : srv.readOnly = false) (ht : Table srv P conn.fids)
    (hb : Books srv P (handles conn.fids + rest) made w) :
    Ensures (s9pHandleTremove srv conn r) w fun res w' =>
      Outcome srv P conn rest made (fun _ => False) True res w' ∧
        ((rU32 r).2.error = false → Unbinds conn (rU32 r).1 res w') := by
  rw [s9pHandleTremove]
  generalize rU32 r = fid
  split
  · next herr =>
    refine (Outcome.fail ht hb _).mono fun res w' h => ⟨h, fun hok => ?_⟩
    exact absurd (hok.symm.trans herr) Bool.false_ne_true
  cases hf : s9pFidGet conn fid.1 with
  | none =>
    refine (Outcome.fail ht hb _).mono fun res w' h => ⟨h, fun _ i f hf' => ?_⟩
    rw [hf] at hf'
    cases hf'
  | some found =>
    obtain ⟨i, f⟩ := found
    have hpath := bound_path ht hf
    -- what follows the release only answers
    have hend : ∀ (reply : Reply) {w' : Ledger}, Table srv P (conn.setFid i .zero).fids →
        Books srv P (handles (conn.setFid i .zero).fids + rest) made w' →
        (∀ h ∈ f.handles, h ∈ w'.closed) →
        Outcome srv P conn rest made (fun _ => False) True (reply, conn.setFid i .zero) w' ∧
          (fid.2.error = false → Unbinds conn fid.1 (reply, conn.setFid i .zero) w') := by
      refine fun reply w' htable hbooks hclosed => ⟨⟨⟨made, hbooks, fun _ _ => rfl⟩, htable, rfl,
        fun hf => hf.elim⟩, fun _ j g hg => ⟨boundPath_zero hf ht, ?_⟩⟩
      rw [hf] at hg
      obtain ⟨-, rfl⟩ := Prod.mk.inj (Option.some.inj hg)
      exact hclosed
    simp only []
    split
    · refine (clunk_spec hf ht hb).bind fun clunked w₁ h₁ => ?_
      obtain ⟨heq, htable, hbooks, hclosed⟩ := h₁
      rw [heq]
      exact Ensures.done (hend _ htable hbooks hclosed)
    · refine (fileInfo_spec hb hpath).bind fun info w₁ h₁ => ?_
      refine (clunk_spec hf ht h₁).bind fun clunked w₂ h₂ => ?_
      obtain ⟨heq, htable, hbooks, hclosed⟩ := h₂
      rw [heq]
      cases info with
      | none => exact Ensures.done (hend _ htable hbooks hclosed)
      | some e =>
        refine (removeNode_spec hpath hrw htable hbooks e.isDir).grow.mono fun res w' h => ?_
        obtain ⟨reply, conn'⟩ := res
        obtain ⟨⟨rfl, hbooks'⟩, hle⟩ := h
        exact hend reply htable hbooks' fun h hh => Multiset.mem_of_le hle.closed (hclosed h hh)

/-- The handles are taken again, as far as they can be. -/
theorem restoreOpen_spec {others : Multiset Handle} {made₀ : Finset Path} {w₀ : Ledger}
    (h : Focus srv P conn rest made₀ w₀ i f others) (hb : Books srv P (others + rest) made w) :
    Ensures (s9pFidRestoreOpen f.shut f.view.isSome f.wstream.isSome f.dir.isSome) w
      fun res w' => FidOk srv P res ∧ res.used = f.used ∧ res.fid = f.fid ∧ res.path = f.path ∧
        ∃ made', Books srv P (res.handles + (others + rest)) made' w' := by
  have hok := h.ok.shut
  have hpath : P f.path := h.ok.path h.used
  rw [s9pFidRestoreOpen]
  split
  · refine (dirOpen_spec hb hpath).bind fun dir w₁ h₁ => ?_
    cases dir with
    | none =>
      rw [held_none, zero_add] at h₁
      exact Ensures.done ⟨hok, rfl, rfl, rfl, made, h₁.none rfl⟩
    | some d =>
      exact Ensures.done ⟨(h.ok.shutAs f.isDir).openedDir h.used d, rfl, rfl, rfl, made,
        openedDir_books f.isDir h₁⟩
  split
  · next hfile =>
    generalize hacc : (if f.view.isSome = true then if f.wstream.isSome = true then 2 else 0
      else 1) = accmode
    have hro : srv.readOnly = true → accmode = 0 := by
      intro hr
      have hstream := h.ok.readOnly hr
      rw [hstream] at hacc hfile
      have hview : f.view.isSome = true := by simpa using hfile
      rw [if_pos hview] at hacc
      exact hacc.symm
    refine (openFile_spec (f := f.shut) hb hpath rfl hro).bind fun opened w₁ h₁ => ?_
    obtain ⟨hres, h₁⟩ := h₁
    have hsame := hres.same
    refine Ensures.done ⟨hok.openedFile h.used rfl hres, ?_, ?_, ?_, _, h₁⟩
    · rw [hsame]; rfl
    · rw [hsame]; rfl
    · rw [hsame]; rfl
  · exact Ensures.done ⟨hok, rfl, rfl, rfl, made, hb.none rfl⟩

theorem renameNode_spec {others : Multiset Handle} {newpath : Path} (hp : Fits P newpath)
    (hrw : srv.readOnly = false) (h : Focus srv P conn rest made w i f others) :
    Ensures (renameNode conn i f newpath) w
      (Outcome srv P conn rest made Reply.isError False) := by
  have hpath : P f.path := h.ok.path h.used
  refine h.shut.bind fun closed w₁ h₁ => ?_
  obtain ⟨hshut, h₁⟩ := h₁
  rw [hshut]
  have hmove : Ensures (if closed.1 then axlFileRename f.path newpath else pure false) w₁
      fun _ w' => Books srv P (others + rest) made w' := by
    split
    · exact mutate_spec h₁ rfl (by simpa [FsOp.paths] using ⟨hpath, hp.1⟩) hrw
    · exact Ensures.done h₁
  refine hmove.bind fun renamed w₂ h₂ => ?_
  split
  · have hok := h.ok.shut
    exact h.outcome (g := { f.shut with path := newpath }) (h₂.none rfl)
      ⟨fun _ => hp.1, fun _ => hp.2, hok.unused, hok.closed, hok.opened, hok.readOnly⟩
      (fun hu => ⟨hu, rfl⟩) _ (fun herr => absurd herr (not_isError (by decide)))
      (fun hc => hc.elim)
  · refine (restoreOpen_spec h h₂).bind fun restored w₃ h₃ => ?_
    obtain ⟨hok, hused, hfid, hpath', made', h₃⟩ := h₃
    exact h.rebound h₃ hok hused hfid hpath' _ (fun hc => hc.elim)

theorem trename_spec (hc : Confine srv P) (hrw : srv.readOnly = false)
    (ht : Table srv P conn.fids) (hb : Books srv P (handles conn.fids + rest) made w) :
    Ensures (s9pHandleTrename srv conn r) w
      (Outcome srv P conn rest made Reply.isError False) := by
  rw [s9pHandleTrename]
  generalize rStr 256 (rU32 (rU32 r).2).2 = name
  generalize rU32 (rU32 r).2 = dfid
  generalize rU32 r = fid
  split
  · exact Outcome.fail ht hb _
  cases hf : s9pFidGet conn fid.1 with
  | none => exact Outcome.fail ht hb _
  | some found =>
    obtain ⟨i, f⟩ := found
    simp only []
    split
    · exact Outcome.fail ht hb _
    refine (resolveChild_spec hc ht hb _ _ _).bind fun resolved w₁ h₁ => ?_
    cases resolved with
    | error ecode => exact Outcome.fail ht h₁.1 _
    | ok newpath =>
      obtain ⟨h₁, hfits⟩ := h₁
      have hp := hfits newpath rfl
      simp only []
      split
      · exact Outcome.unchanged ht h₁ _
      refine (malloc_spec h₁).bind fun src w₂ h₂ => ?_
      refine (malloc_spec h₂).bind fun dst w₃ h₃ => ?_
      split
      · exact Outcome.fail ht h₃ _
      refine (fileInfo_spec h₃ hp.1).bind fun existing w₄ h₄ => ?_
      split
      · exact Outcome.fail ht h₄ _
      obtain ⟨others, hfocus⟩ := focus hf ht h₄
      exact renameNode_spec hp hrw hfocus

theorem tsetattr_spec (hrw : srv.readOnly = false) (ht : Table srv P conn.fids)
    (hb : Books srv P (handles conn.fids + rest) made w) :
    Ensures (s9pHandleTsetattr conn r) w
      (Outcome srv P conn rest made Reply.isError True) := by
  rw [s9pHandleTsetattr]
  generalize rU64 (rU64 (rU64 (rU64 (rU64 (rU32 (rU32 (rU32 (rU32 (rU32 r).2).2).2).2).2).2).2).2).2
    = last
  generalize rU64 (rU32 (rU32 (rU32 (rU32 (rU32 r).2).2).2).2).2 = size
  generalize rU32 (rU32 r).2 = valid
  generalize rU32 r = fid
  split
  · exact Outcome.fail ht hb _
  cases hf : s9pFidGet conn fid.1 with
  | none => exact Outcome.fail ht hb _
  | some found =>
    obtain ⟨i, f⟩ := found
    have hpath := bound_path ht hf
    simp only []
    split
    · exact Outcome.unchanged ht hb _
    refine (fileInfo_spec hb hpath).bind fun info w₁ h₁ => ?_
    cases info with
    | none => exact Outcome.fail ht h₁ _
    | some e =>
      simp only []
      split
      · exact Outcome.fail ht h₁ _
      split
      · exact Outcome.fail ht h₁ _
      split
      · exact Outcome.fail ht h₁ _
      split
      · exact Outcome.unchanged ht h₁ _
      refine (mutate_spec h₁ rfl (by simpa [FsOp.paths] using hpath) hrw).bind fun ok w₂ h₂ => ?_
      split
      · exact Outcome.unchanged ht h₂ _
      · exact Outcome.fail ht h₂ _

/-! ## The buffers -/

/-- The bounds on the negotiated size. -/
def MsizeOk (conn : S9pConn) : Prop :=
  minMsize ≤ conn.msize ∧ conn.msize ≤ conn.rcap ∧ conn.msize ≤ conn.txcap

/-- What a handler leaves of the connection apart from the table. -/
structure Steady (conn conn' : S9pConn) : Prop where
  active : conn'.active = conn.active
  rbuf : conn'.rbuf = conn.rbuf
  txBusy : conn'.txBusy = conn.txBusy
  rxArmed : conn'.rxArmed = conn.rxArmed
  draining : conn'.draining = conn.draining
  rcap : conn.rcap ≤ conn'.rcap
  msize : MsizeOk conn → MsizeOk conn'

variable {res : Reply × S9pConn}

theorem Outcome.steady (h : Outcome srv P conn rest made failed clean res w) :
    Steady conn res.2 := by
  rw [h.link]
  exact ⟨rfl, rfl, rfl, rfl, rfl, le_refl _, id⟩

theorem growBuffers_spec (h : Books srv P owned made w) (n : Nat) :
    Ensures (s9pConnGrowBuffers conn n) w fun res w' =>
      Books srv P owned made w' ∧ conn.rcap ≤ res.rcap ∧ conn.txcap ≤ res.txcap ∧
        res = { conn with rcap := res.rcap, txcap := res.txcap } := by
  rw [s9pConnGrowBuffers]
  split
  · exact Ensures.done ⟨h, le_refl _, le_refl _, rfl⟩
  have hrealloc : ∀ (cap : Nat) {w : Ledger}, Books srv P owned made w →
      Ensures (if cap < n then axlRealloc n else pure false) w fun ok w' =>
        Books srv P owned made w' ∧ (ok = true → cap ≤ n) := by
    intro cap w h
    split
    · next hlt => exact (realloc_spec h n).mono fun _ _ h => ⟨h, fun _ => hlt.le⟩
    · exact Ensures.done ⟨h, fun hf => absurd hf Bool.false_ne_true⟩
  refine (hrealloc conn.rcap h).bind fun rgrown w₁ h₁ => ?_
  have htx : (if rgrown = true then { conn with rcap := n } else conn).txcap = conn.txcap := by
    split <;> rfl
  simp only [htx]
  refine (hrealloc conn.txcap h₁.1).bind fun tgrown w₂ h₂ => ?_
  refine Ensures.done ⟨h₂.1, ?_, ?_, ?_⟩
  · cases rgrown <;> cases tgrown <;> simp [h₁.2]
  · cases rgrown <;> cases tgrown <;> simp [h₂.2]
  · cases rgrown <;> cases tgrown <;> rfl

theorem release_spec (h : Books srv P (f.handles + owned) made w) :
    Ensures (s9pFidRelease f) w fun res w' => res.2 = .zero ∧ Books srv P owned made w' :=
  (closeOpen_spec h).bind fun _ _ h₁ => Ensures.done ⟨rfl, h₁.2⟩

/-- Every slot is let go of. -/
theorem resetAll_spec (fids : List S9pFid) :
    ∀ w : Ledger, Books srv P (handles fids + owned) made w →
      Ensures (s9pFidResetAll fids) w fun res w' =>
        res = List.replicate fids.length .zero ∧ Books srv P owned made w' := by
  induction fids with
  | nil =>
    intro w h
    refine Ensures.done ⟨rfl, ?_⟩
    simpa [handles] using h
  | cons f fids ih =>
    intro w h
    have hsplit : Books srv P (f.handles + (handles fids + owned)) made w := by
      rw [← add_assoc]
      simpa [handles] using h
    refine (release_spec hsplit).bind fun released w₁ h₁ => ?_
    obtain ⟨hzero, h₁⟩ := h₁
    refine (ih w₁ h₁).bind fun others w₂ h₂ => ?_
    obtain ⟨rfl, h₂⟩ := h₂
    rw [hzero]
    exact Ensures.done ⟨rfl, h₂⟩

theorem negotiateMsize_bounds {client cap negotiated : Nat}
    (h : negotiateMsize client cap = some negotiated) : minMsize ≤ negotiated := by
  rw [negotiateMsize] at h
  split at h
  · cases h
  · next hmin =>
    obtain rfl := Option.some.inj h
    rw [not_or, not_lt, not_lt] at hmin
    split
    · exact hmin.1
    · exact hmin.2

/-! ## All handlers -/

/-- What every handler leaves, whatever its type: of the requests that may not be lost
halfway the bindings, of `Tlcreate` the files, and of those that let go of a fid that it
is let go of. -/
structure Kept (srv : Axl9pServer) (P : Path → Prop) (conn : S9pConn) (rest : Multiset Handle)
    (made : Finset Path) (type : Nat) (r : Axl9pReader) (res : Reply × S9pConn) (w : Ledger) :
    Prop where
  books : ∃ made', Books srv P (handles res.2.fids + rest) made' w ∧
    (type = 14 → res.1.isError → made' = made)
  table : Table srv P res.2.fids
  steady : Steady conn res.2
  bound : type ∈ [104, 110, 14, 72, 20, 26, 24, 116, 118] →
    res.1.isError ∨ type = 110 ∧ res.1.isPartial (rU16 (rU32 (rU32 r).2).2).1 →
      bindings res.2.fids = bindings conn.fids
  unbinds : type = 120 ∨ type = 122 → (rU32 r).2.error = false → Unbinds conn (rU32 r).1 res w
  reopens : type = 12 → Reopens conn (rU32 r).1 res w
  reset : type = 100 → res.1.type = 101 → handles res.2.fids = 0

variable {type : Nat}

theorem Outcome.files (h : Outcome srv P conn rest made failed True res w) :
    ∃ made', Books srv P (handles res.2.fids + rest) made' w ∧
      (type = 14 → res.1.isError → made' = made) := by
  obtain ⟨made', hbooks, hmade⟩ := h.books
  exact ⟨made', hbooks, fun _ => hmade trivial⟩

/-- A handler whose errors keep the bindings, and that lets go of no fid. -/
theorem Outcome.kept' (h : Outcome srv P conn rest made Reply.isError True res w)
    (htype : type ∉ [110, 120, 122, 12, 100]) : Kept srv P conn rest made type r res w := by
  simp only [List.mem_cons, List.not_mem_nil, or_false, not_or] at htype
  obtain ⟨hwalk, hclunk, hremove, hopen, hversion⟩ := htype
  refine ⟨h.files, h.table, h.steady, ?_, ?_, fun hty => absurd hty hopen,
    fun hty => absurd hty hversion⟩
  · rintro - (herr | ⟨hty, -⟩)
    · exact h.kept herr
    · exact absurd hty hwalk
  · rintro (hty | hty)
    · exact absurd hty hclunk
    · exact absurd hty hremove

/-- One of the two that release a fid. -/
theorem Outcome.released (h : Outcome srv P conn rest made (fun _ => False) True res w)
    (htype : type = 120 ∨ type = 122)
    (hun : (rU32 r).2.error = false → Unbinds conn (rU32 r).1 res w) :
    Kept srv P conn rest made type r res w := by
  refine ⟨h.files, h.table, h.steady, fun hmem _ => ?_, fun _ => hun, fun hty => ?_, fun hty => ?_⟩
  · rcases htype with rfl | rfl <;> simp at hmem
  · rcases htype with rfl | rfl <;> cases hty
  · rcases htype with rfl | rfl <;> cases hty

theorem tversion_spec (hb : Books srv P (handles conn.fids + rest) made w)
    (ht : Table srv P conn.fids) :
    Ensures (s9pHandleTversion conn r) w (Kept srv P conn rest made 100 r) := by
  rw [s9pHandleTversion]
  generalize rStr 32 (rU32 r).2 = version
  generalize rU32 r = clientMsize
  split
  · exact Ensures.done ⟨⟨made, hb, fun _ _ => rfl⟩, ht, ⟨rfl, rfl, rfl, rfl, rfl, le_refl _, id⟩,
      fun _ _ => rfl, fun htype => absurd htype (by decide), fun htype => absurd htype (by decide),
      fun _ h101 => absurd (show 7 = 101 from h101) (by decide)⟩
  refine (resetAll_spec _ _ hb).bind fun fids w₁ h₁ => ?_
  obtain ⟨rfl, h₁⟩ := h₁
  have hzero : ∀ {w' : Ledger} (res : Reply × S9pConn),
      res.2.fids = List.replicate conn.fids.length .zero → Steady conn res.2 →
      Books srv P rest made w' → Kept srv P conn rest made 100 r res w' := by
    intro w' res hfids hsteady hbooks
    have hnone : handles res.2.fids = 0 := by rw [hfids, handles_replicate]
    refine ⟨⟨made, ?_, fun _ _ => rfl⟩, ?_, hsteady, fun hmem => ?_, fun htype => ?_,
      fun htype => ?_, fun _ _ => hnone⟩
    · rw [hnone, zero_add]
      exact hbooks
    · rw [hfids]
      exact Table.replicate _
    · simp at hmem
    · simp at htype
    · cases htype
  simp only []
  cases hneg : (if versionPrefix9p.isPrefixOf version.1.1.bytes
      then negotiateMsize clientMsize.1 maxMsize else none) with
  | none =>
    exact Ensures.done (hzero _ rfl ⟨rfl, rfl, rfl, rfl, rfl, le_refl _, id⟩ h₁)
  | some negotiated =>
    have hmin : minMsize ≤ negotiated := by
      split at hneg
      · exact negotiateMsize_bounds hneg
      · cases hneg
    simp only []
    have hgrow : ∀ conn₁ : S9pConn, Ensures
        (if conn.rcap < negotiated ∨ conn.txcap < negotiated
          then s9pConnGrowBuffers conn₁ negotiated else pure conn₁) w₁ fun res w' =>
          Books srv P rest made w' ∧ conn₁.rcap ≤ res.rcap ∧ conn₁.txcap ≤ res.txcap ∧
            res = { conn₁ with rcap := res.rcap, txcap := res.txcap } := by
      intro conn₁
      split
      · exact growBuffers_spec h₁ negotiated
      · exact Ensures.done ⟨h₁, le_refl _, le_refl _, rfl⟩
    refine (hgrow _).bind fun grown w₂ h₂ => ?_
    obtain ⟨h₂, hr, ht', hsame⟩ := h₂
    refine Ensures.done (hzero _ ?_ ⟨?_, ?_, ?_, ?_, ?_, hr, ?_⟩ h₂)
    · rw [hsame]
    · rw [hsame]
    · rw [hsame]
    · rw [hsame]
    · rw [hsame]
    · rw [hsame]
    · rintro ⟨hlo, hrc, htc⟩
      simp only [MsizeOk]
      have hr' : conn.rcap ≤ grown.rcap := hr
      have ht'' : conn.txcap ≤ grown.txcap := ht'
      split <;> split <;> omega

theorem handle_kept (hc : Confine srv P) (ht : Table srv P conn.fids)
    (hb : Books srv P (handles conn.fids + rest) made w)
    (hgate : ¬(srv.readOnly = true ∧ s9pTypeIsMutating type = true)) :
    Ensures (s9pHandle srv conn type r) w (Kept srv P conn rest made type r) := by
  have hrw : s9pTypeIsMutating type = true → srv.readOnly = false := by
    intro hmut
    cases hr : srv.readOnly with
    | false => rfl
    | true => exact absurd ⟨hr, hmut⟩ hgate
  rw [s9pHandle]
  by_cases h100 : type = 100
  · rw [if_pos h100]
    subst h100
    exact tversion_spec hb ht
  rw [if_neg h100]
  by_cases h104 : type = 104
  · rw [if_pos h104]
    subst h104
    exact Ensures.mono (tattach_spec hc ht hb) fun _ _ h =>
      h.kept' (by decide)
  rw [if_neg h104]
  by_cases h110 : type = 110
  · rw [if_pos h110]
    subst h110
    refine Ensures.mono (twalk_spec hc ht hb) fun res w' h =>
      ⟨h.files, h.table, h.steady, ?_, ?_, fun htype => ?_, fun htype => ?_⟩
    · rintro - (herr | ⟨-, hpart⟩)
      · exact h.kept (.inl herr)
      · exact h.kept (.inr hpart)
    · rintro (htype | htype) <;> cases htype
    · cases htype
    · cases htype
  rw [if_neg h110]
  by_cases h120 : type = 120
  · rw [if_pos h120]
    subst h120
    exact Ensures.mono (tclunk_spec ht hb) fun _ _ h => h.1.released (.inl rfl) h.2
  rw [if_neg h120]
  by_cases h24 : type = 24
  · rw [if_pos h24]
    subst h24
    exact Ensures.mono (tgetattr_spec ht hb) fun _ _ h => h.kept' (by decide)
  rw [if_neg h24]
  by_cases h12 : type = 12
  · rw [if_pos h12]
    subst h12
    refine Ensures.mono (tlopen_spec ht hb) fun _ _ h => ?_
    obtain ⟨made', hbooks, -⟩ := h.1.books
    exact ⟨⟨made', hbooks, fun htype => absurd htype (by decide)⟩, h.1.table, h.1.steady,
      fun hmem => absurd hmem (by decide), fun htype => absurd htype (by decide), fun _ => h.2,
      fun htype => absurd htype (by decide)⟩
  rw [if_neg h12]
  by_cases h116 : type = 116
  · rw [if_pos h116]
    subst h116
    exact Ensures.mono (tread_spec ht hb) fun _ _ h => h.kept' (by decide)
  rw [if_neg h116]
  by_cases h40 : type = 40
  · rw [if_pos h40]
    subst h40
    exact Ensures.mono (treaddir_spec hc ht hb) fun _ _ h =>
      h.kept' (by decide)
  rw [if_neg h40]
  by_cases h118 : type = 118
  · rw [if_pos h118]
    subst h118
    exact Ensures.mono (twrite_spec ht hb) fun _ _ h => h.kept' (by decide)
  rw [if_neg h118]
  by_cases h50 : type = 50
  · rw [if_pos h50]
    subst h50
    exact Ensures.mono (tfsync_spec ht hb) fun _ _ h => h.kept' (by decide)
  rw [if_neg h50]
  by_cases h14 : type = 14
  · rw [if_pos h14]
    subst h14
    exact Ensures.mono (tlcreate_spec hc (hrw rfl) ht hb) fun _ _ h =>
      h.kept' (by decide)
  rw [if_neg h14]
  by_cases h72 : type = 72
  · rw [if_pos h72]
    subst h72
    exact Ensures.mono (tmkdir_spec hc (hrw rfl) ht hb) fun _ _ h =>
      h.kept' (by decide)
  rw [if_neg h72]
  by_cases h122 : type = 122
  · rw [if_pos h122]
    subst h122
    exact Ensures.mono (tremove_spec (hrw rfl) ht hb) fun _ _ h => h.1.released (.inr rfl) h.2
  rw [if_neg h122]
  by_cases h20 : type = 20
  · rw [if_pos h20]
    subst h20
    refine Ensures.mono (trename_spec hc (hrw rfl) ht hb) fun _ _ h => ?_
    obtain ⟨made', hbooks, -⟩ := h.books
    exact ⟨⟨made', hbooks, fun htype => absurd htype (by decide)⟩, h.table, h.steady,
      fun _ hfail => h.kept (hfail.elim id fun hw => absurd hw.1 (by decide)),
      fun htype => absurd htype (by decide), fun htype => absurd htype (by decide),
      fun htype => absurd htype (by decide)⟩
  rw [if_neg h20]
  by_cases h26 : type = 26
  · rw [if_pos h26]
    subst h26
    exact Ensures.mono (tsetattr_spec (hrw rfl) ht hb) fun _ _ h =>
      h.kept' (by decide)
  rw [if_neg h26]
  have hfail : Ensures (fail conn eProto) w (Outcome srv P conn rest made Reply.isError True) :=
    Outcome.fail ht hb _
  exact hfail.mono fun _ _ h => h.kept' (by simp [h110, h120, h122, h12, h100])

/-! ## Dispatch -/

theorem boundPath_zeroConn (fid : Nat) : boundPath .zero fid = none := by
  rw [boundPath, s9pFidGet, S9pConn.zero, findFid_replicate]
  rfl

theorem reap_spec (conn : S9pConn) (hactive : conn.active = true)
    (hb : Books srv P (handles conn.fids + rest) made w) :
    Ensures (s9pReap conn) w fun res w' => res = .zero ∧ Books srv P rest made w' := by
  rw [s9pReap, if_pos hactive]
  exact (resetAll_spec _ _ hb).bind fun _ _ h => Ensures.done ⟨rfl, h.2⟩

/-- The books of a slot that is free. -/
theorem Books.freed (h : Books srv P owned made w) :
    Books srv P (handles S9pConn.zero.fids + owned) made w := by
  rw [S9pConn.zero, handles_replicate, zero_add]
  exact h

/-- The type of a message. -/
def msgType (msg : List UInt8) : Nat := (rU8 (rU32 ⟨msg, false⟩).2).1

/-- The reader behind the header of a message. -/
def msgBody (msg : List UInt8) : Axl9pReader := (rU16 (rU8 (rU32 ⟨msg, false⟩).2).2).2

/-- The answers after which what a fid held is closed: the connection is reaped or the
session reset, or the fid is clunked, removed or opened again. -/
def LetsGo (msg : List UInt8) (reply : Option Reply) (f : S9pFid) : Prop :=
  reply = none ∨ ∃ answer, reply = some answer ∧
    (msgType msg = 100 ∧ answer.type = 101 ∨
      f.used = true ∧ (rU32 (msgBody msg)).2.error = false ∧ f.fid = (rU32 (msgBody msg)).1 ∧
        (msgType msg = 120 ∨ msgType msg = 122 ∨ msgType msg = 12 ∧ answer.type = 13))

/-- What a message leaves. -/
structure Dispatched (srv : Axl9pServer) (P : Path → Prop) (conn : S9pConn)
    (rest : Multiset Handle) (made : Finset Path) (msg : List UInt8)
    (res : Option Reply × S9pConn) (w : Ledger) : Prop where
  books : ∃ made', Books srv P (handles res.2.fids + rest) made' w ∧
    (msgType msg = 14 → ∀ reply, res.1 = some reply → reply.isError → made' = made)
  table : Table srv P res.2.fids
  reaped : res.1 = none → res.2 = .zero
  sent : ∀ reply, res.1 = some reply →
    res.2.txBusy = true ∧ Steady conn { res.2 with txBusy := false }
  bound : msgType msg ∈ [104, 110, 14, 72, 20, 26, 24, 116, 118] → ∀ reply, res.1 = some reply →
    reply.isError ∨
      msgType msg = 110 ∧ reply.isPartial (rU16 (rU32 (rU32 (msgBody msg)).2).2).1 →
    bindings res.2.fids = bindings conn.fids
  unbinds : msgType msg = 120 ∨ msgType msg = 122 ∧ srv.readOnly = false →
    (rU32 (msgBody msg)).2.error = false →
      (boundPath conn (rU32 (msgBody msg)).1).isSome = true →
        boundPath res.2 (rU32 (msgBody msg)).1 = none
  closes : (msgType msg = 122 → srv.readOnly = false) → ∀ f ∈ conn.fids, LetsGo msg res.1 f →
    ∀ h ∈ f.handles, h ∈ w.closed

theorem mem_handles {fids : List S9pFid} {h : Handle} (hf : f ∈ fids) (hh : h ∈ f.handles) :
    h ∈ handles fids := by
  induction fids with
  | nil => cases hf
  | cons g fids ih =>
    refine Multiset.mem_add.mpr ?_
    rcases List.mem_cons.1 hf with rfl | hf
    · exact .inl hh
    · exact .inr (ih hf)

/-- A fid in use is the one its number leads to. -/
theorem fidGet_of_mem (ht : Table srv P conn.fids) (hf : f ∈ conn.fids) (hused : f.used = true) :
    ∃ i, s9pFidGet conn f.fid = some (i, f) := by
  obtain ⟨j, hj⟩ := List.getElem?_of_mem hf
  cases hget : s9pFidGet conn f.fid with
  | none => exact absurd rfl (findFid_none hget f hf hused)
  | some found =>
    obtain ⟨i, g⟩ := found
    obtain ⟨hi, hgu, hgf⟩ := fidGet_some hget
    obtain rfl := ht.distinct i j g f hi hj hgu hused hgf
    rw [hi] at hj
    exact ⟨i, by rw [Option.some.inj hj]⟩

/-- A message that ends with the connection. -/
theorem Dispatched.dead {made' : Finset Path} {msg : List UInt8} {w₀ : Ledger}
    (hb : Books srv P (handles conn.fids + rest) made w₀) (hle : w₀.Le w)
    (h : Books srv P rest made' w) : Dispatched srv P conn rest made msg (none, .zero) w :=
  ⟨⟨made', h.freed, fun _ _ hreply => nomatch hreply⟩, Table.replicate _, fun _ => rfl,
    fun _ hreply => (nomatch hreply), fun _ _ hreply => (nomatch hreply),
    fun _ _ _ => boundPath_zeroConn _,
    fun _ _ hf _ _ hh => Books.closed_of_shut hb h hle (mem_handles hf hh)⟩

/-- The answer of the gate or of the handler. -/
theorem answer_spec (hc : Confine srv P) (ht : Table srv P conn.fids)
    (hb : Books srv P (handles conn.fids + rest) made w) (type : Nat) :
    Ensures (if srv.readOnly ∧ s9pTypeIsMutating type then fail conn eRofs
      else s9pHandle srv conn type r) w fun res w' =>
        (∃ made', Books srv P (handles res.2.fids + rest) made' w' ∧
          (type = 14 → res.1.isError → made' = made)) ∧
        Table srv P res.2.fids ∧ Steady conn res.2 ∧
        (type ∈ [104, 110, 14, 72, 20, 26, 24, 116, 118] →
          res.1.isError ∨ type = 110 ∧ res.1.isPartial (rU16 (rU32 (rU32 r).2).2).1 →
            bindings res.2.fids = bindings conn.fids) ∧
        (type = 120 ∨ type = 122 ∧ srv.readOnly = false → (rU32 r).2.error = false →
          Unbinds conn (rU32 r).1 res w') ∧
        (type = 12 → Reopens conn (rU32 r).1 res w') ∧
        (type = 100 → res.1.type = 101 → handles res.2.fids = 0) := by
  split
  · next hgate =>
    refine Ensures.done ⟨⟨made, hb, fun _ _ => rfl⟩, ht, ⟨rfl, rfl, rfl, rfl, rfl, le_refl _, id⟩,
      fun _ _ => rfl, ?_, ?_, ?_⟩
    · rintro (rfl | ⟨-, hrw⟩)
      · exact absurd hgate.2 (by decide)
      · exact absurd (hrw.symm.trans hgate.1) Bool.false_ne_true
    · rintro rfl
      exact absurd hgate.2 (by decide)
    · rintro rfl
      exact absurd hgate.2 (by decide)
  · next hgate =>
    refine Ensures.mono (handle_kept hc ht hb hgate) fun res w' h => ?_
    exact ⟨h.books, h.table, h.steady, h.bound, fun htype => h.unbinds (htype.imp_right And.left),
      h.reopens, h.reset⟩

/-- `s9p_send_reply`: the reply is out, or the connection is gone. -/
theorem sendReply_spec (hactive : conn.active = true)
    (hb : Books srv P (handles conn.fids + rest) made w) (tag : Nat) (reply : Reply) :
    Ensures (s9pSendReply conn tag reply) w fun res w' =>
      res = (false, .zero) ∧ Books srv P rest made w' ∨
        res = (true, { conn with txBusy := true }) ∧
          Books srv P (handles conn.fids + rest) made w' := by
  have hreaped : ∀ (conn' : S9pConn) {w' : Ledger}, conn'.active = true →
      Books srv P (handles conn'.fids + rest) made w' →
      Ensures (do let conn ← s9pReap conn'; return (false, conn)) w' fun res w' =>
        res = (false, .zero) ∧ Books srv P rest made w' := by
    intro conn' w' hactive' hb'
    refine (reap_spec _ hactive' hb').bind fun res w₂ h₂ => ?_
    obtain ⟨rfl, h₂⟩ := h₂
    exact Ensures.done ⟨rfl, h₂⟩
  rw [s9pSendReply]
  split
  · exact (hreaped conn hactive hb).mono fun _ _ h => .inl h
  · refine (handle_spec hb rfl rfl rfl).bind fun ok w₁ h₁ => ?_
    split
    · exact Ensures.done (.inr ⟨rfl, h₁⟩)
    · exact (hreaped { conn with txBusy := true } hactive h₁).mono fun _ _ h => .inl h

theorem dispatch_spec (hc : Confine srv P) (ht : Table srv P conn.fids)
    (hb : Books srv P (handles conn.fids + rest) made w) (hactive : conn.active = true)
    (hidle : conn.txBusy = false) (msg : List UInt8) :
    Ensures (s9pDispatch srv conn msg) w (Dispatched srv P conn rest made msg) := by
  rw [s9pDispatch]
  change Ensures (if (msgBody msg).error then _ else _) w _
  split
  · refine (reap_spec _ hactive hb).grow.bind fun res w₁ h₁ => ?_
    obtain ⟨⟨rfl, h₁⟩, hle⟩ := h₁
    exact Ensures.done (Dispatched.dead hb hle h₁)
  refine (answer_spec hc ht hb _).grow.bind fun answer w₁ h₁ => ?_
  obtain ⟨⟨⟨made', h₁, hmade⟩, htable, hsteady, hbound, hun, hre, hreset⟩, hle₁⟩ := h₁
  have hlive : answer.2.active = true := hsteady.active.trans hactive
  refine (sendReply_spec hlive h₁ _ _).grow.bind fun sent w₂ h₂ => ?_
  obtain ⟨⟨rfl, h₂⟩ | ⟨rfl, h₂⟩, hle₂⟩ := h₂
  · exact Ensures.done (Dispatched.dead hb (hle₁.trans hle₂) h₂)
  · have hreply : ∀ {reply : Reply}, some answer.1 = some reply → answer.1 = reply :=
      fun h => Option.some.inj h
    refine Ensures.done ⟨⟨made', h₂, fun htype reply hr herr => ?_⟩, htable,
      fun hnone => (nomatch hnone), fun reply hr => ⟨rfl, ?_⟩, fun htype reply hr hfail => ?_, ?_, ?_⟩
    · obtain rfl := hreply hr
      exact hmade htype herr
    · exact ⟨hsteady.active, hsteady.rbuf, hidle.symm, hsteady.rxArmed, hsteady.draining,
        hsteady.rcap, hsteady.msize⟩
    · obtain rfl := hreply hr
      exact hbound htype hfail
    · intro htype herr hsome
      rw [boundPath, Option.isSome_map] at hsome
      obtain ⟨⟨i, f⟩, hf⟩ := Option.isSome_iff_exists.mp hsome
      exact (hun htype herr i f hf).1
    · intro hro f hf hlets h hh
      rcases hlets with hnone | ⟨reply, hr, hlets⟩
      · cases hnone
      obtain rfl := hreply hr
      refine Multiset.mem_of_le hle₂.closed ?_
      rcases hlets with ⟨htype, h101⟩ | ⟨hused, herr, hfid, htype⟩
      · have hzero := hreset htype h101
        rw [hzero, zero_add] at h₁
        exact Books.closed_of_shut hb h₁ hle₁ (mem_handles hf hh)
      · obtain ⟨i, hget⟩ := fidGet_of_mem ht hf hused
        rw [hfid] at hget
        rcases htype with htype | htype | ⟨htype, h13⟩
        · exact (hun (.inl htype) herr i f hget).2 h hh
        · exact (hun (.inr ⟨htype, hro htype⟩) herr i f hget).2 h hh
        · exact hre htype h13 i f hget h hh

end NineP

end AxlSdk
