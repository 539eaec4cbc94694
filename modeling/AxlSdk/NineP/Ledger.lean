import AxlSdk.NineP.Server

/-!
# A ledger of the calls of the 9P server

The world the handlers run in answers as it likes. It only keeps the books: which
calls were made, which handles were opened and closed, which files were created.

- `Ledger`, `ledgerWorld`: the books and what a call adds to them. The handles are
  numbered in the order they are opened in.
- `Confine srv P`: a set of paths that the steps of a walk do not leave.
- `Books srv P owned made w`: every handle opened so far was closed once or is one of
  `owned`, every call was allowed, and nothing was created that is still there beyond
  `made`.
- `Books.call`, `Books.opened`, `Books.close`, `Books.delete`: the rules for one call, and
  the specifications of the operations on one fid (`closeOpen_spec`, `openFile_spec`).
-/

namespace AxlSdk

namespace NineP

open Ucs2 (CString s9pCompIsSafe)
open Paths

/-- One answer to every call that may come. -/
abbrev Oracle := (o : FsOp) → o.Answer

structure Ledger where
  /-- The calls so far, the last one first. -/
  log : List FsOp
  /-- The number of handles opened so far, and the number of the next one. -/
  next : Handle
  closed : Multiset Handle
  /-- The files that were opened for writing and not deleted since. -/
  created : Finset Path
  deleteFailed : Bool

namespace Ledger

def note (o : FsOp) (w : Ledger) : Ledger := { w with log := o :: w.log }

def opened (o : FsOp) (w : Ledger) : Ledger := { w.note o with next := w.next + 1 }

def close (o : FsOp) (h : Handle) (w : Ledger) : Ledger :=
  { w.note o with closed := h ::ₘ w.closed }

def create (path : Path) (w : Ledger) : Ledger := { w with created := insert path w.created }

def delete (path : Path) (ok : Bool) (w : Ledger) : Ledger :=
  { w.note (.fileDelete path) with
      created := if ok then w.created.erase path else w.created
      deleteFailed := w.deleteFailed || !ok }

end Ledger

/-- A call under an answer of the oracle: of an answer to an opening call, only whether
it is a handle counts. -/
def ledgerWorld : (o : FsOp) → Oracle → Ledger → o.Answer × Ledger
  | .fopen path, c, w =>
    if (c (.fopen path)).isSome then (some w.next, (w.opened (.fopen path)).create path)
    else (none, w.note (.fopen path))
  | .viewOpen path, c, w =>
    if (c (.viewOpen path)).isSome then (some w.next, w.opened (.viewOpen path))
    else (none, w.note (.viewOpen path))
  | .dirOpen path, c, w =>
    if (c (.dirOpen path)).isSome then (some w.next, w.opened (.dirOpen path))
    else (none, w.note (.dirOpen path))
  | .fclose h, _, w => ((), w.close (.fclose h) h)
  | .viewClose h, _, w => ((), w.close (.viewClose h) h)
  | .dirClose h, _, w => ((), w.close (.dirClose h) h)
  | .fileDelete path, c, w => (c (.fileDelete path), w.delete path (c (.fileDelete path)))
  | o, c, w => (c o, w.note o)

namespace FsOp

/-- The calls that neither open nor close a handle nor delete a file. -/
def plain : FsOp → Bool
  | .fopen _ | .viewOpen _ | .dirOpen _ | .fclose _ | .viewClose _ | .dirClose _
  | .fileDelete _ => false
  | _ => true

/-- The paths a call is given. -/
def paths : FsOp → List Path
  | .fileInfo p | .fopen p | .viewOpen p | .dirOpen p | .dirMkdir p | .dirRmdir p
  | .fileTruncate p _ | .fileDelete p => [p]
  | .fileRename p q => [p, q]
  | _ => []

/-- The calls that change the file system. -/
def mutates : FsOp → Bool
  | .fopen _ | .pwrite _ _ _ | .fileTruncate _ _ | .dirMkdir _ | .dirRmdir _ | .fileDelete _
  | .fileRename _ _ => true
  | _ => false

end FsOp

theorem ledgerWorld_plain {o : FsOp} (h : o.plain = true) (c : Oracle) (w : Ledger) :
    ledgerWorld o c w = (c o, w.note o) := by
  cases o <;> first | rfl | exact absurd h Bool.false_ne_true

/-- No handle is closed or opened less than before. -/
structure Ledger.Le (w w' : Ledger) : Prop where
  closed : w.closed ≤ w'.closed
  next : w.next ≤ w'.next

theorem Ledger.Le.refl (w : Ledger) : w.Le w := ⟨le_refl _, le_refl _⟩

theorem Ledger.Le.trans {u v w : Ledger} (h : u.Le v) (h' : v.Le w) : u.Le w :=
  ⟨h.closed.trans h'.closed, h.next.trans h'.next⟩

theorem ledgerWorld_le (o : FsOp) (c : Oracle) (w : Ledger) : w.Le (ledgerWorld o c w).2 := by
  have hopen : ∀ o, w.Le (w.opened o) := fun _ => ⟨le_refl _, Nat.le_succ _⟩
  have hclose : ∀ o h, w.Le (w.close o h) := fun _ h => ⟨Multiset.le_cons_self _ h, le_refl _⟩
  cases o <;> simp only [ledgerWorld] <;> first
    | exact Ledger.Le.refl w
    | exact hclose _ _
    | exact ⟨le_refl _, le_refl _⟩
    | (split <;> first | exact hopen _ | exact ⟨le_refl _, Nat.le_succ _⟩ | exact ⟨le_refl _, le_refl _⟩)

/-- Paths that a walk from the root does not leave. -/
structure Confine (srv : Axl9pServer) (P : Path → Prop) : Prop where
  root : P srv.root
  rootShort : srv.root.length < pathMax
  up : ∀ p, P p → p ≠ srv.root → P (axlPathGetDirname p)
  join : ∀ p name, P p → Component name → P (axlPathJoin p name)

/-- The calls a server may make. -/
structure Allowed (srv : Axl9pServer) (P : Path → Prop) (o : FsOp) : Prop where
  paths : ∀ p ∈ o.paths, P p
  readOnly : srv.readOnly = true → o.mutates = false

/-- The books are in order, with the handles `owned` still open. -/
structure Books (srv : Axl9pServer) (P : Path → Prop) (owned : Multiset Handle)
    (made : Finset Path) (w : Ledger) : Prop where
  balance : w.closed + owned = Multiset.range w.next
  allowed : ∀ o ∈ w.log, Allowed srv P o
  created : w.deleteFailed = true ∨ w.created ⊆ made

variable {srv : Axl9pServer} {P : Path → Prop} {owned : Multiset Handle} {made : Finset Path}
  {w : Ledger}

/-- What a program guarantees to whoever runs it in the world of the ledger. -/
structure Ensures {α : Type} (p : FsProg α) (w : Ledger) (Q : α → Ledger → Prop) : Prop where
  safe : p.Safe ledgerWorld (fun _ => True) Q w

namespace Ensures

variable {α β : Type}

theorem done {a : α} {Q : α → Ledger → Prop} (h : Q a w) : Ensures (pure a) w Q :=
  ⟨Prog.Safe.pure trivial h⟩

theorem bind {p : FsProg α} {f : α → FsProg β} {Q : α → Ledger → Prop} {R : β → Ledger → Prop}
    (h : Ensures p w Q) (hf : ∀ a w', Q a w' → Ensures (f a) w' R) :
    Ensures (p >>= f) w R :=
  ⟨Prog.Safe.bind h.safe fun a w' _ ha => (hf a w' ha).safe⟩

theorem mono {p : FsProg α} {Q R : α → Ledger → Prop} (h : Ensures p w Q)
    (hQ : ∀ a w', Q a w' → R a w') : Ensures p w R :=
  ⟨Prog.Safe.mono h.safe (fun _ => id) hQ⟩

theorem run {p : FsProg α} {Q : α → Ledger → Prop} (h : Ensures p w Q)
    (choices : Stream' Oracle) :
    Q (p.run ledgerWorld choices w).1 (p.run ledgerWorld choices w).2 :=
  Prog.Safe.run h.safe choices

theorem perform {o : FsOp} {Q : o.Answer → Ledger → Prop}
    (h : ∀ c, Q (ledgerWorld o c w).1 (ledgerWorld o c w).2) :
    Ensures (Prog.perform o) w Q :=
  ⟨Prog.Safe.perform trivial fun c => ⟨trivial, h c⟩⟩

/-- Whatever a program does, the books only grow. -/
theorem grow {p : FsProg α} {Q : α → Ledger → Prop} (h : Ensures p w Q) :
    Ensures p w fun a w' => Q a w' ∧ w.Le w' := by
  obtain ⟨h⟩ := h
  have hfrom : ∀ w', w.Le w' → p.Safe ledgerWorld (fun _ => True) Q w' →
      p.Safe ledgerWorld (fun _ => True) (fun a w' => Q a w' ∧ w.Le w') w' := by
    clear h
    induction p with
    | pure a => exact fun w' hle h => ⟨trivial, h.2, hle⟩
    | call o next ih =>
      exact fun w' hle h => ⟨trivial, fun c => ih _ _ (hle.trans (ledgerWorld_le o c w')) (h.2 c)⟩
  exact ⟨hfrom w (Ledger.Le.refl w) h⟩

end Ensures

namespace Books

theorem mono {made' : Finset Path} (h : Books srv P owned made w) (hsub : made ⊆ made') :
    Books srv P owned made' w :=
  ⟨h.balance, h.allowed, h.created.imp_right fun hc => hc.trans hsub⟩

theorem note {o : FsOp} (h : Books srv P owned made w) (ho : Allowed srv P o) :
    Books srv P owned made (w.note o) := by
  refine ⟨h.balance, ?_, h.created⟩
  intro p hp
  rcases List.mem_cons.1 hp with rfl | hp
  · exact ho
  · exact h.allowed p hp

/-- A call that opens and closes nothing. -/
theorem call {o : FsOp} (h : Books srv P owned made w) (hplain : o.plain = true)
    (ho : Allowed srv P o) :
    Ensures (Prog.perform o) w fun _ w' => Books srv P owned made w' := by
  apply Ensures.perform
  intro c
  rw [ledgerWorld_plain hplain]
  exact h.note ho

theorem openHandle {o : FsOp} (h : Books srv P owned made w) (ho : Allowed srv P o) :
    Books srv P (w.next ::ₘ owned) made (w.opened o) := by
  refine ⟨?_, (h.note ho).allowed, h.created⟩
  show w.closed + w.next ::ₘ owned = Multiset.range (w.next + 1)
  rw [Multiset.range_succ, ← h.balance, Multiset.add_cons]

theorem closeHandle {o : FsOp} {x : Handle} (h : Books srv P (x ::ₘ owned) made w)
    (ho : Allowed srv P o) : Books srv P owned made (w.close o x) := by
  refine ⟨?_, (h.note ho).allowed, h.created⟩
  show x ::ₘ w.closed + owned = Multiset.range w.next
  rw [← h.balance, Multiset.cons_add, Multiset.add_cons]

/-- What was open before and is not any more was closed. -/
theorem closed_of_shut {gone : Multiset Handle} {made' : Finset Path} {w' : Ledger}
    (h : Books srv P (gone + owned) made w) (h' : Books srv P owned made' w') (hle : w.Le w')
    {x : Handle} (hx : x ∈ gone) : x ∈ w'.closed := by
  have hnodup : (gone + owned).Nodup :=
    Multiset.nodup_of_le (h.balance ▸ Multiset.le_add_left _ _) (Multiset.nodup_range w.next)
  have hlt : x < w.next := by
    rw [← Multiset.mem_range, ← h.balance]
    exact Multiset.mem_add.mpr (.inr (Multiset.mem_add.mpr (.inl hx)))
  have hmem : x ∈ w'.closed + owned := by
    rw [h'.balance, Multiset.mem_range]
    exact hlt.trans_le hle.next
  rcases Multiset.mem_add.mp hmem with hclosed | howned
  · exact hclosed
  · exact absurd howned (Multiset.disjoint_left.mp (Multiset.nodup_add.mp hnodup).2.2 hx)

end Books

/-- The handles an optional handle stands for. -/
def held (h : Option Handle) : Multiset Handle := h.toList

@[simp] theorem held_none : held none = 0 := rfl

@[simp] theorem held_some (h : Handle) : held (some h) = {h} := rfl

/-! ## The calls that open and close -/

section Calls

variable {p : Path}

theorem malloc_spec (h : Books srv P owned made w) :
    Ensures axlMalloc w fun _ w' => Books srv P owned made w' :=
  h.call rfl ⟨by simp [FsOp.paths], fun _ => rfl⟩

theorem realloc_spec (h : Books srv P owned made w) (n : Nat) :
    Ensures (axlRealloc n) w fun _ w' => Books srv P owned made w' :=
  h.call rfl ⟨by simp [FsOp.paths], fun _ => rfl⟩

theorem fileInfo_spec (h : Books srv P owned made w) (hp : P p) :
    Ensures (axlFileInfo p) w fun _ w' => Books srv P owned made w' :=
  h.call rfl ⟨by simpa [FsOp.paths] using hp, fun _ => rfl⟩

/-- The calls that work on an open handle and write nothing. -/
theorem handle_spec {o : FsOp} (h : Books srv P owned made w) (hplain : o.plain = true)
    (hpaths : o.paths = []) (hro : o.mutates = false) :
    Ensures (Prog.perform o) w fun _ w' => Books srv P owned made w' :=
  h.call hplain ⟨by simp [hpaths], fun _ => hro⟩

/-- The calls that change the node of a path, or write to a stream. -/
theorem mutate_spec {o : FsOp} (h : Books srv P owned made w) (hplain : o.plain = true)
    (hpaths : ∀ q ∈ o.paths, P q) (hro : srv.readOnly = false) :
    Ensures (Prog.perform o) w fun _ w' => Books srv P owned made w' :=
  h.call hplain ⟨hpaths, fun hr => absurd (hro.symm.trans hr) (by decide)⟩

theorem dirOpen_spec (h : Books srv P owned made w) (hp : P p) :
    Ensures (axlDirOpen p) w fun d w' => Books srv P (held d + owned) made w' := by
  have ho : Allowed srv P (.dirOpen p) := ⟨by simpa [FsOp.paths] using hp, fun _ => rfl⟩
  apply Ensures.perform
  intro c
  simp only [ledgerWorld]
  split
  · simpa using h.openHandle ho
  · simpa using h.note ho

theorem viewOpen_spec (h : Books srv P owned made w) (hp : P p) :
    Ensures (axlFileViewOpenCached p) w fun v w' => Books srv P (held v + owned) made w' := by
  have ho : Allowed srv P (.viewOpen p) := ⟨by simpa [FsOp.paths] using hp, fun _ => rfl⟩
  apply Ensures.perform
  intro c
  simp only [ledgerWorld]
  split
  · simpa using h.openHandle ho
  · simpa using h.note ho

/-- A write-mode open may create the file; one that fails does not. -/
theorem fopen_spec (h : Books srv P owned made w) (hp : P p) (hro : srv.readOnly = false) :
    Ensures (axlFopen p) w fun s w' =>
      Books srv P (held s + owned) (if s.isSome then insert p made else made) w' := by
  have ho : Allowed srv P (.fopen p) :=
    ⟨by simpa [FsOp.paths] using hp, fun hr => absurd (hro.symm.trans hr) (by decide)⟩
  apply Ensures.perform
  intro c
  simp only [ledgerWorld]
  split
  · have hopen := h.openHandle ho
    refine ⟨hopen.balance, hopen.allowed, ?_⟩
    exact hopen.created.imp_right fun hc => Finset.insert_subset_insert p hc
  · simpa using h.note ho

theorem delete_spec (h : Books srv P owned (insert p made) w) (hp : P p)
    (hro : srv.readOnly = false) :
    Ensures (axlFileDelete p) w fun _ w' => Books srv P owned made w' := by
  have ho : Allowed srv P (.fileDelete p) :=
    ⟨by simpa [FsOp.paths] using hp, fun hr => absurd (hro.symm.trans hr) (by decide)⟩
  apply Ensures.perform
  intro c
  refine ⟨h.balance, (h.note ho).allowed, ?_⟩
  simp only [ledgerWorld, Ledger.delete]
  cases c (.fileDelete p) with
  | false => simp
  | true =>
    refine h.created.imp (fun hf => by simp [hf]) fun hc => ?_
    exact (Finset.erase_subset_erase p hc).trans (Finset.erase_insert_subset p made)

theorem flush_spec {s : Option Handle} (h : Books srv P owned made w) :
    Ensures (flushStream s) w fun _ w' => Books srv P owned made w' := by
  cases s with
  | none => exact Ensures.done h
  | some s => exact handle_spec h rfl rfl rfl

theorem viewClose_spec {v : Option Handle} (h : Books srv P (held v + owned) made w) :
    Ensures (axlFileViewClose v) w fun _ w' => Books srv P owned made w' := by
  cases v with
  | none => exact Ensures.done (by simpa using h)
  | some v =>
    apply Ensures.perform
    intro c
    exact Books.closeHandle (by simpa using h) ⟨by simp [FsOp.paths], fun _ => rfl⟩

theorem fclose_spec {s : Option Handle} (h : Books srv P (held s + owned) made w) :
    Ensures (axlFclose s) w fun _ w' => Books srv P owned made w' := by
  cases s with
  | none => exact Ensures.done (by simpa using h)
  | some s =>
    apply Ensures.perform
    intro c
    exact Books.closeHandle (by simpa using h) ⟨by simp [FsOp.paths], fun _ => rfl⟩

theorem dirClose_spec {d : Option Handle} (h : Books srv P (held d + owned) made w) :
    Ensures (axlDirClose d) w fun _ w' => Books srv P owned made w' := by
  cases d with
  | none => exact Ensures.done (by simpa using h)
  | some d =>
    apply Ensures.perform
    intro c
    exact Books.closeHandle (by simpa using h) ⟨by simp [FsOp.paths], fun _ => rfl⟩

end Calls

/-! ## One fid -/

/-- The handles a fid holds. -/
def S9pFid.handles (f : S9pFid) : Multiset Handle := held f.view + (held f.wstream + held f.dir)

/-- A fid with its handles let go of. -/
def S9pFid.shut (f : S9pFid) : S9pFid :=
  { f with view := none, wstream := none, dir := none, dirPos := 0, isOpen := false }

@[simp] theorem S9pFid.handles_shut (f : S9pFid) : f.shut.handles = 0 := rfl

@[simp] theorem S9pFid.handles_zero : S9pFid.zero.handles = 0 := rfl

theorem closeOpen_spec {f : S9pFid} (h : Books srv P (f.handles + owned) made w) :
    Ensures (s9pFidCloseOpen f) w fun res w' =>
      res.2 = f.shut ∧ Books srv P owned made w' := by
  rw [S9pFid.handles, add_assoc, add_assoc] at h
  refine (viewClose_spec h).bind fun _ w₁ h₁ => ?_
  refine (flush_spec h₁).bind fun ok w₂ h₂ => ?_
  refine (fclose_spec h₂).bind fun _ w₃ h₃ => ?_
  refine (dirClose_spec h₃).bind fun _ w₄ h₄ => ?_
  exact Ensures.done ⟨rfl, h₄⟩

/-- How a fid comes out of `s9p_fid_open_file`. -/
structure OpenedFrom (srv : Axl9pServer) (f : S9pFid) (res : Bool × S9pFid) : Prop where
  same : res.2 = { f with view := res.2.view, wstream := res.2.wstream, isOpen := res.1 }
  opened : res.1 = true → res.2.view.isSome = true ∨ res.2.wstream.isSome = true
  refused : res.1 = false → res.2 = f
  readOnly : srv.readOnly = true → res.2.wstream = none

/-- From a fid that is shut, `s9p_fid_open_file` opens all that the mode needs or, in
the end, nothing. -/
theorem openFile_spec {f : S9pFid} (h : Books srv P owned made w) (hp : P f.path)
    (hf : f.shut = f) {accmode : Nat} (hro : srv.readOnly = true → accmode = 0) :
    Ensures (s9pFidOpenFile f accmode) w fun res w' =>
      OpenedFrom srv f res ∧ Books srv P (res.2.handles + owned) (insert f.path made) w' := by
  have hview : f.view = none := by rw [← hf]; rfl
  have hwstream : f.wstream = none := by rw [← hf]; rfl
  have hdir : f.dir = none := by rw [← hf]; rfl
  have hopen : f.isOpen = false := by rw [← hf]; rfl
  have hnone : f.handles = 0 := by rw [← hf]; rfl
  have hstream : Ensures (if accmode ≠ 0 then axlFopen f.path else pure none) w fun s w' =>
      (accmode = 0 → s = none) ∧
        Books srv P (held s + owned) (insert f.path made) w' := by
    by_cases hacc : accmode = 0
    · rw [if_neg (not_not.mpr hacc)]
      exact Ensures.done ⟨fun _ => rfl, by simpa using h.mono (Finset.subset_insert _ _)⟩
    · rw [if_pos hacc]
      have hrw : srv.readOnly = false := by
        cases hr : srv.readOnly with
        | false => rfl
        | true => exact absurd (hro hr) hacc
      refine (fopen_spec h hp hrw).mono fun s w' hs => ⟨fun h0 => absurd h0 hacc, hs.mono ?_⟩
      split
      · exact Finset.Subset.refl _
      · exact Finset.subset_insert _ _
  rw [s9pFidOpenFile]
  refine hstream.bind fun s w₁ hs => ?_
  obtain ⟨hs0, hs⟩ := hs
  split
  · next hfail =>
    obtain ⟨-, rfl⟩ := hfail
    refine Ensures.done ⟨⟨?_, ?_, ?_, fun _ => rfl⟩, ?_⟩
    · rw [← hopen]
    · exact fun hf => absurd hf Bool.false_ne_true
    · intro _
      rw [← hwstream]
    · simpa [S9pFid.handles, hview, hdir] using hs
  · next hgot =>
    -- the stream is there exactly when the mode asks for one
    have hform : (if accmode ≠ 0 then { f with wstream := s } else f) = { f with wstream := s } := by
      split
      · rfl
      · next hacc =>
        rw [hs0 (not_not.mp hacc), ← hwstream]
    simp only [hform]
    have hsome : accmode ≠ 0 → s.isSome = true := by
      intro hacc
      cases s with
      | none => exact absurd ⟨hacc, rfl⟩ hgot
      | some s => rfl
    have hro' : srv.readOnly = true → s = none := fun hr => hs0 (hro hr)
    split
    · refine (viewOpen_spec hs hp).bind fun v w₂ hv => ?_
      cases v with
      | none =>
        have hbooks : Books srv P (({ f with wstream := s, view := none } : S9pFid).handles + owned)
            (insert f.path made) w₂ := by
          simpa [S9pFid.handles, hdir] using hv
        refine (closeOpen_spec hbooks).bind fun closed w₃ hclosed => ?_
        obtain ⟨hshut, hb⟩ := hclosed
        have heq : closed.2 = f := by
          rw [hshut]
          exact hf
        refine Ensures.done ⟨⟨?_, ?_, fun _ => heq, fun _ => ?_⟩, ?_⟩
        · show closed.2 = _
          rw [heq, ← hopen]
        · exact fun hf => absurd hf Bool.false_ne_true
        · show closed.2.wstream = none
          rw [heq, hwstream]
        · show Books srv P (closed.2.handles + owned) _ _
          rw [heq, hnone, zero_add]
          exact hb
      | some v =>
        refine Ensures.done ⟨⟨rfl, fun _ => .inl rfl, fun hf => absurd hf Bool.false_ne_true.symm, hro'⟩, ?_⟩
        simpa [S9pFid.handles, hdir, add_assoc] using hv
    · next hacc =>
      refine Ensures.done ⟨⟨?_, fun _ => .inr (hsome ?_), fun hf => absurd hf Bool.false_ne_true.symm, hro'⟩, ?_⟩
      · simp [hview]
      · rw [not_not.mp hacc]
        decide
      · simpa [S9pFid.handles, hview, hdir] using hs

end NineP

end AxlSdk
