import AxlSdk.NineP.Fids

/-!
# What every handler of the 9P server keeps

- `Outcome`: what a handler leaves, whatever its calls answered: a table in order, the
  books balanced by it, and after a failure the bindings of before.
- `Focus`: one slot of the table and what the others hold.
- One specification for each handler of the session and of open files (`tattach_spec` …
  `treaddir_spec`). Each follows the handler from call to call; what differs is which slot
  changes and how.
-/

namespace AxlSdk

namespace NineP

open Ucs2 (CString s9pCompIsSafe)
open Paths

/-- `Rlerror` -/
def Reply.isError (reply : Reply) : Prop := reply.type = 7

theorem not_isError {type : Nat} {body : List UInt8} (h : type ≠ 7) :
    ¬ Reply.isError ⟨type, body⟩ := h

/-- What a handler leaves. After a reply that is `failed` the bindings are those of
before; if `clean`, an error leaves no file that was not there. -/
structure Outcome (srv : Axl9pServer) (P : Path → Prop) (conn : S9pConn) (rest : Multiset Handle)
    (made : Finset Path) (failed : Reply → Prop) (clean : Prop) (res : Reply × S9pConn)
    (w : Ledger) : Prop where
  books : ∃ made', Books srv P (handles res.2.fids + rest) made' w ∧
    (clean → res.1.isError → made' = made)
  table : Table srv P res.2.fids
  link : res.2 = { conn with fids := res.2.fids }
  kept : failed res.1 → bindings res.2.fids = bindings conn.fids

variable {srv : Axl9pServer} {P : Path → Prop} {rest : Multiset Handle} {made : Finset Path}
  {w : Ledger} {conn : S9pConn} {r : Axl9pReader} {f g : S9pFid} {i : Nat} {failed : Reply → Prop}
  {clean : Prop}

/-- The reply leaves the connection as it was. -/
theorem Outcome.unchanged (ht : Table srv P conn.fids)
    (hb : Books srv P (handles conn.fids + rest) made w) (reply : Reply) :
    Ensures (pure (reply, conn)) w (Outcome srv P conn rest made failed clean) :=
  Ensures.done ⟨⟨made, hb, fun _ _ => rfl⟩, ht, rfl, fun _ => rfl⟩

theorem Outcome.fail (ht : Table srv P conn.fids)
    (hb : Books srv P (handles conn.fids + rest) made w) (ecode : Nat) :
    Ensures (fail conn ecode) w (Outcome srv P conn rest made failed clean) :=
  Outcome.unchanged ht hb _

/-! ## Names -/

theorem component_of_safe {comp : CString} {wireN cap : Nat}
    (h : s9pCompIsSafe comp wireN cap = true) (hdot : comp.bytes ≠ [46])
    (hdotdot : comp.bytes ≠ [46, 46]) : Component comp.bytes := by
  simp only [s9pCompIsSafe, Bool.and_eq_true, decide_eq_true_eq, beq_iff_eq,
    Bool.not_eq_true', List.contains_eq_mem, decide_eq_false_iff_not] at h
  obtain ⟨⟨⟨⟨hpos, -⟩, hlen⟩, hslash⟩, hback⟩ := h
  refine ⟨?_, hdot, hdotdot, ?_⟩
  · intro hnil
    rw [hnil] at hlen
    exact absurd hlen.symm (Nat.pos_iff_ne_zero.mp hpos)
  · intro c hc
    have h47 : c ≠ 47 := fun h => hslash (h ▸ hc)
    have h92 : c ≠ 92 := fun h => hback (h ▸ hc)
    simp [isSep, h47, h92]

/-- What a path may be: in the set, and fit for a buffer. -/
def Fits (P : Path → Prop) (p : Path) : Prop := P p ∧ p.length < pathMax

variable {owned : Multiset Handle}

theorem pathAppend_spec (h : Books srv P owned made w) (base name : Path) :
    Ensures (s9pPathAppend base name) w fun res w' =>
      Books srv P owned made w' ∧
        ∀ p, res = some p → p = axlPathJoin base name ∧ p.length < pathMax := by
  refine (malloc_spec h).bind fun ok w₁ h₁ => ?_
  refine Ensures.done ⟨h₁, ?_⟩
  intro p hp
  split at hp
  · next hok =>
    obtain rfl := Option.some.inj hp
    exact ⟨rfl, hok.2⟩
  · cases hp

theorem pathUp_spec (hc : Confine srv P) {path : Path} (hp : P path) (h : Books srv P owned made w)
    :
    Ensures (s9pPathUp srv.root path) w fun res w' =>
      Books srv P owned made w' ∧ ∀ p, res = some p → Fits P p := by
  rw [s9pPathUp]
  split
  · exact Ensures.done ⟨h, fun p hp => nomatch hp⟩
  · next hne =>
    refine (malloc_spec h).bind fun ok w₁ h₁ => ?_
    refine Ensures.done ⟨h₁, ?_⟩
    intro p hp'
    split at hp'
    · next hok =>
      obtain rfl := Option.some.inj hp'
      exact ⟨hc.up path hp hne, hok.2⟩
    · cases hp'

/-- A child resolves to a path of the set, below the directory of the fid. -/
theorem resolveChild_spec (hc : Confine srv P) (ht : Table srv P conn.fids)
    (h : Books srv P owned made w) (dfid : Nat) (name : CString) (nameWireN : Nat) :
    Ensures (s9pResolveChild conn dfid name nameWireN) w fun res w' =>
      Books srv P owned made w' ∧ ∀ p, res = .ok p → Fits P p := by
  rw [s9pResolveChild]
  cases hd : s9pFidGet conn dfid with
  | none => exact Ensures.done ⟨h, fun p hp => nomatch hp⟩
  | some found =>
    obtain ⟨i, d⟩ := found
    obtain ⟨hslot, hused, -⟩ := fidGet_some hd
    have hdok := ht.each d (mem_of_slot hslot)
    refine (fileInfo_spec h (hdok.path hused)).bind fun info w₁ h₁ => ?_
    cases info with
    | none => exact Ensures.done ⟨h₁, fun p hp => nomatch hp⟩
    | some de =>
      simp only []
      split
      · exact Ensures.done ⟨h₁, fun p hp => nomatch hp⟩
      · split
        · exact Ensures.done ⟨h₁, fun p hp => nomatch hp⟩
        · next hsafe =>
          split
          · exact Ensures.done ⟨h₁, fun p hp => nomatch hp⟩
          · next hdots =>
            have hcomp : Component name.bytes := by
              simp only [isDotName, Bool.or_eq_true, beq_iff_eq, not_or] at hdots
              exact component_of_safe (by simpa using hsafe) hdots.1 hdots.2
            refine (pathAppend_spec h₁ _ _).bind fun path w₂ h₂ => ?_
            cases path with
            | none => exact Ensures.done ⟨h₂.1, fun p hp => nomatch hp⟩
            | some path =>
              refine Ensures.done ⟨h₂.1, fun p hp => ?_⟩
              obtain rfl := Except.ok.inj hp
              obtain ⟨rfl, hlen⟩ := h₂.2 path rfl
              exact ⟨hc.join _ _ (hdok.path hused) hcomp, hlen⟩

/-! ## Session and navigation -/

/-- A fresh binding. -/
theorem alloc_spec {fid : Nat} {path : Path} {isDir : Bool} {conn' : S9pConn}
    (h : s9pFidAlloc conn fid path isDir = some conn') (ht : Table srv P conn.fids) (hp : P path) :
    Table srv P conn'.fids ∧ handles conn'.fids = handles conn.fids ∧
      conn' = { conn with fids := conn'.fids } := by
  rw [s9pFidAlloc] at h
  split at h
  · cases h
  · next hnone =>
    have hget : s9pFidGet conn fid = none := by simpa using hnone
    cases hfree : findFree 0 conn.fids with
    | none =>
      rw [hfree] at h
      cases h
    | some i =>
      rw [hfree] at h
      simp only [] at h
      split at h
      · cases h
      · next hshort =>
        obtain rfl := Option.some.inj h
        obtain ⟨j, g, rfl, hslot, hunused⟩ := findFree_some hfree
        rw [Nat.zero_add]
        have hgok := ht.each g (mem_of_slot hslot)
        obtain ⟨hv, hs, hd⟩ := hgok.closed (hgok.unused hunused)
        obtain ⟨others, hall, hset⟩ := handles_focus hslot
        have hnoneHeld : g.handles = 0 := by simp [S9pFid.handles, hv, hs, hd]
        refine ⟨ht.bind (findFid_none hget) ⟨fun _ => hp, fun _ => not_le.mp hshort, ?_, ?_, ?_, ?_⟩,
          ?_, rfl⟩
        · exact fun hu => absurd hu.symm Bool.false_ne_true
        · exact fun _ => ⟨rfl, rfl, rfl⟩
        · exact fun ho => absurd ho Bool.false_ne_true
        · exact fun _ => rfl
        · show handles (conn.fids.set j _) = _
          rw [hset, hall, hnoneHeld]
          rfl

theorem tattach_spec (hc : Confine srv P) (ht : Table srv P conn.fids)
    (hb : Books srv P (handles conn.fids + rest) made w) :
    Ensures (s9pHandleTattach srv conn r) w
      (Outcome srv P conn rest made Reply.isError True) := by
  rw [s9pHandleTattach]
  generalize rU32 (rStr 256 (rStr 64 (rU32 (rU32 r).2).2).2).2 = nUname
  generalize rU32 r = fid
  split
  · exact Outcome.fail ht hb _
  · split
    · exact Outcome.fail ht hb _
    · refine (fileInfo_spec hb hc.root).bind fun info w₁ h₁ => ?_
      simp only []
      split
      · exact Outcome.fail ht h₁ _
      · next conn' halloc =>
        obtain ⟨htable, hsame, hlink⟩ := alloc_spec halloc ht hc.root
        refine Ensures.done ⟨⟨made, ?_, fun _ _ => rfl⟩, htable, hlink, ?_⟩
        · show Books srv P (handles conn'.fids + rest) made w₁
          rw [hsame]
          exact h₁
        · exact fun herr => absurd herr (not_isError (by decide))

theorem walkStep_spec (hc : Confine srv P) {here : WalkState} (hhere : Fits P here.cur)
    {comp : CString} {wireN : Nat} (hsafe : s9pCompIsSafe comp wireN 256 = true)
    (h : Books srv P owned made w) :
    Ensures (walkStep srv here comp.bytes) w fun res w' =>
      Books srv P owned made w' ∧ ∀ p, res = some p → Fits P p := by
  rw [walkStep]
  split
  · exact pathUp_spec hc hhere.1 h
  · next hdotdot =>
    split
    · refine Ensures.done ⟨h, fun p hp => ?_⟩
      obtain rfl := Option.some.inj hp
      exact hhere
    · next hdot =>
      split
      · refine (pathAppend_spec h _ _).mono fun res w' hres => ⟨hres.1, fun p hp => ?_⟩
        obtain ⟨rfl, hlen⟩ := hres.2 p hp
        exact ⟨hc.join _ _ hhere.1 (component_of_safe hsafe hdot hdotdot), hlen⟩
      · exact Ensures.done ⟨h, fun p hp => nomatch hp⟩

/-- A walk stays in the set, wherever it stops. -/
theorem walkLoop_spec (hc : Confine srv P) (n : Nat) :
    ∀ (r : Axl9pReader) (here : WalkState) (w : Ledger), Fits P here.cur →
      Books srv P owned made w → Ensures (walkLoop srv n r here) w fun res w' =>
        Books srv P owned made w' ∧ ∀ stop, res = some stop → Fits P stop.cur := by
  induction n with
  | zero =>
    intro r here w hhere h
    refine Ensures.done ⟨h, fun stop hstop => ?_⟩
    obtain rfl := Option.some.inj hstop
    exact hhere
  | succ n ih =>
    intro r here w hhere h
    have hstay : ∀ {w' : Ledger}, Books srv P owned made w' →
        Ensures (pure (some here)) w' fun res w' =>
          Books srv P owned made w' ∧ ∀ stop, res = some stop → Fits P stop.cur := by
      intro w' h'
      refine Ensures.done ⟨h', fun stop hstop => ?_⟩
      obtain rfl := Option.some.inj hstop
      exact hhere
    rw [walkLoop]
    generalize rStr 256 r = comp
    split
    · exact Ensures.done ⟨h, fun stop hstop => nomatch hstop⟩
    · split
      · exact hstay h
      · next hsafe =>
        refine (walkStep_spec hc hhere (by simpa using hsafe) h).bind fun next w₁ h₁ => ?_
        cases next with
        | none => exact hstay h₁.1
        | some path =>
          have hpath := h₁.2 path rfl
          refine (fileInfo_spec h₁.1 hpath.1).bind fun info w₂ h₂ => ?_
          cases info with
          | none => exact hstay h₂
          | some e => exact ih _ _ _ hpath h₂

/-- An `Rwalk` with fewer qids than there were names. -/
def Reply.isPartial (nwname : Nat) (reply : Reply) : Prop :=
  reply.type = 111 ∧ leNat (reply.body.take 2) < nwname

/-- The answers to a walk that leave the new fid alone. -/
def walkFailed (nwname : Nat) (reply : Reply) : Prop := reply.isError ∨ reply.isPartial nwname

theorem not_walkFailed {nwname : Nat} (hlt : nwname < 2 ^ 16) (qids : List UInt8) :
    ¬ walkFailed nwname ⟨111, le 2 nwname ++ qids⟩ := by
  rintro (herr | ⟨-, hpart⟩)
  · exact not_isError (by decide) herr
  · have htake : (le 2 nwname ++ qids).take 2 = le 2 nwname := List.take_left' (le_length 2 _)
    rw [htake, leNat_le, Nat.mod_eq_of_lt (show nwname < 256 ^ 2 from hlt)] at hpart
    exact Nat.lt_irrefl _ hpart

theorem walkBind_spec {fid newfid nwname : Nat} {stop : WalkState} {conn' : S9pConn}
    (h : walkBind conn fid newfid i f nwname stop = some conn') (ht : Table srv P conn.fids)
    (hi : conn.fids[i]? = some f) (hstop : Fits P stop.cur) :
    Table srv P conn'.fids ∧ handles conn'.fids = handles conn.fids ∧
      conn' = { conn with fids := conn'.fids } := by
  rw [walkBind] at h
  split at h
  · obtain rfl := Option.some.inj h
    have hok := ht.each f (mem_of_slot hi)
    obtain ⟨others, hall, hset⟩ := handles_focus hi
    refine ⟨ht.set hi ⟨fun _ => hstop.1, fun _ => hstop.2, hok.unused, hok.closed, hok.opened,
      hok.readOnly⟩ fun hu => ⟨hu, rfl⟩, ?_, rfl⟩
    show handles (conn.fids.set i _) = _
    rw [hset, hall]
    rfl
  · exact alloc_spec h ht hstop.1

theorem twalk_spec (hc : Confine srv P) (ht : Table srv P conn.fids)
    (hb : Books srv P (handles conn.fids + rest) made w) :
    Ensures (s9pHandleTwalk srv conn r) w
      (Outcome srv P conn rest made (walkFailed (rU16 (rU32 (rU32 r).2).2).1) True) := by
  rw [s9pHandleTwalk]
  have hlt : (rU16 (rU32 (rU32 r).2).2).1 < 2 ^ 16 := rUint_lt 2 _
  generalize rU16 (rU32 (rU32 r).2).2 = nwname at hlt ⊢
  generalize rU32 (rU32 r).2 = newfid
  generalize rU32 r = fid
  split
  · exact Outcome.fail ht hb _
  split
  · exact Outcome.fail ht hb _
  cases hsrc : s9pFidGet conn fid.1 with
  | none => exact Outcome.fail ht hb _
  | some found =>
    obtain ⟨i, src⟩ := found
    obtain ⟨hslot, hused, -⟩ := fidGet_some hsrc
    have hok := ht.each src (mem_of_slot hslot)
    simp only []
    split
    · exact Outcome.fail ht hb _
    split
    · exact Outcome.fail ht hb _
    have hinfo : Ensures (if 0 < nwname.1 then axlFileInfo src.path
        else pure (some { syntheticDir with isDir := false })) w fun _ w' =>
          Books srv P (handles conn.fids + rest) made w' := by
      split
      · exact fileInfo_spec hb (hok.path hused)
      · exact Ensures.done hb
    refine hinfo.bind fun info w₁ h₁ => ?_
    cases info with
    | none => exact Outcome.fail ht h₁ _
    | some e =>
      refine (walkLoop_spec hc _ _ _ _ ⟨hok.path hused, hok.short hused⟩ h₁).bind
        fun walked w₂ h₂ => ?_
      cases walked with
      | none => exact Outcome.fail ht h₂.1 _
      | some stop =>
        simp only []
        split
        · exact Outcome.fail ht h₂.1 _
        split
        · next hall =>
          -- every component was walked
          cases hbind : walkBind conn fid.1 newfid.1 i src nwname.1 stop with
          | none => exact Outcome.fail ht h₂.1 _
          | some conn' =>
            obtain ⟨htable, hsame, hlink⟩ := walkBind_spec hbind ht hslot (h₂.2 stop rfl)
            refine Ensures.done ⟨⟨made, ?_, fun _ _ => rfl⟩, htable, hlink, ?_⟩
            · show Books srv P (handles conn'.fids + rest) made w₂
              rw [hsame]
              exact h₂.1
            · intro hfailed
              rw [hall] at hfailed
              exact absurd hfailed (not_walkFailed hlt _)
        · exact Outcome.unchanged ht h₂.1 _

theorem tgetattr_spec (ht : Table srv P conn.fids)
    (hb : Books srv P (handles conn.fids + rest) made w) :
    Ensures (s9pHandleTgetattr conn r) w
      (Outcome srv P conn rest made Reply.isError True) := by
  rw [s9pHandleTgetattr]
  generalize rU64 (rU32 r).2 = requestMask
  generalize rU32 r = fid
  split
  · exact Outcome.fail ht hb _
  cases hf : s9pFidGet conn fid.1 with
  | none => exact Outcome.fail ht hb _
  | some found =>
    obtain ⟨i, f⟩ := found
    obtain ⟨hslot, hused, -⟩ := fidGet_some hf
    refine (fileInfo_spec hb ((ht.each f (mem_of_slot hslot)).path hused)).bind
      fun info w₁ h₁ => ?_
    cases info with
    | none => exact Outcome.fail ht h₁ _
    | some e => exact Outcome.unchanged ht h₁ _

/-! ## One slot changes -/

/-- A slot in use, with its handles counted apart from those of the others. -/
structure Focus (srv : Axl9pServer) (P : Path → Prop) (conn : S9pConn) (rest : Multiset Handle)
    (made : Finset Path) (w : Ledger) (i : Nat) (f : S9pFid) (others : Multiset Handle) :
    Prop where
  slot : conn.fids[i]? = some f
  used : f.used = true
  ok : FidOk srv P f
  table : Table srv P conn.fids
  all : handles conn.fids = f.handles + others
  set : ∀ g, handles (conn.fids.set i g) = g.handles + others
  books : Books srv P (f.handles + (others + rest)) made w

theorem focus {fid : Nat} (hget : s9pFidGet conn fid = some (i, f)) (ht : Table srv P conn.fids)
    (hb : Books srv P (handles conn.fids + rest) made w) :
    ∃ others, Focus srv P conn rest made w i f others := by
  obtain ⟨hslot, hused, -⟩ := fidGet_some hget
  obtain ⟨others, hall, hset⟩ := handles_focus hslot
  rw [hall, add_assoc] at hb
  exact ⟨others, hslot, hused, ht.each f (mem_of_slot hslot), ht, hall, hset, hb⟩

variable {others : Multiset Handle}

/-- The slot is written back under the same number. -/
theorem Focus.outcome {made₀ made' : Finset Path} {w' : Ledger}
    (h : Focus srv P conn rest made₀ w i f others)
    (hb : Books srv P (g.handles + (others + rest)) made' w') (hg : FidOk srv P g)
    (hkey : g.used = true → f.used = true ∧ g.fid = f.fid) (reply : Reply)
    (hkept : failed reply → g.key = f.key) (hmade : clean → reply.isError → made' = made) :
    Ensures (pure (reply, conn.setFid i g)) w' (Outcome srv P conn rest made failed clean) := by
  refine Ensures.done ⟨⟨made', ?_, hmade⟩, h.table.set h.slot hg hkey, rfl, fun hf => ?_⟩
  · show Books srv P (handles (conn.fids.set i g) + rest) made' w'
    rw [h.set, add_assoc]
    exact hb
  · exact bindings_set h.slot (hkept hf)

/-- The same for a slot that is bound as before. -/
theorem Focus.rebound {made₀ made' : Finset Path} {w' : Ledger}
    (h : Focus srv P conn rest made₀ w i f others)
    (hb : Books srv P (g.handles + (others + rest)) made' w') (hg : FidOk srv P g)
    (hused : g.used = f.used) (hfid : g.fid = f.fid) (hpath : g.path = f.path) (reply : Reply)
    (hmade : clean → reply.isError → made' = made) :
    Ensures (pure (reply, conn.setFid i g)) w'
      (Outcome srv P conn rest made failed clean) :=
  h.outcome hb hg (fun hu => ⟨hused ▸ hu, hfid⟩) reply
    (fun _ => by simp only [S9pFid.key, hused, hfid, hpath]) hmade

theorem Focus.shut (h : Focus srv P conn rest made w i f others) :
    Ensures (s9pFidCloseOpen f) w fun res w' =>
      res.2 = f.shut ∧ Books srv P (others + rest) made w' :=
  closeOpen_spec h.books

/-- A fid that holds no handles adds none. -/
theorem Books.none (h : Books srv P owned made w) (hg : g.handles = 0) :
    Books srv P (g.handles + owned) made w := by
  rw [hg, zero_add]
  exact h

/-- A fid that is shut, and what its node is now. -/
def S9pFid.shutAs (f : S9pFid) (isDir : Bool) : S9pFid := { f.shut with isDir := isDir }

theorem FidOk.shutAs (h : FidOk srv P f) (isDir : Bool) : FidOk srv P (f.shutAs isDir) :=
  ⟨h.path, h.short, h.shut.unused, h.shut.closed, h.shut.opened, h.shut.readOnly⟩

/-- A fid that is shut, open again on a directory. -/
theorem FidOk.openedDir {isDir : Bool} (h : FidOk srv P (f.shutAs isDir)) (hused : f.used = true)
    (d : Handle) : FidOk srv P { f.shutAs isDir with dir := some d, isOpen := true } := by
  refine ⟨h.path, h.short, ?_, fun ho => absurd ho.symm Bool.false_ne_true,
    fun _ => .inl ⟨rfl, rfl, rfl⟩, h.readOnly⟩
  intro hu
  exact absurd (hused.symm.trans hu).symm Bool.false_ne_true

theorem openedDir_books (isDir : Bool) {d : Handle} (h : Books srv P (held (some d) + owned) made w)
    :
    Books srv P (({ f.shutAs isDir with dir := some d, isOpen := true } : S9pFid).handles + owned)
      made w := by
  simpa [S9pFid.handles, S9pFid.shutAs, S9pFid.shut] using h

/-- What `s9p_fid_open_file` makes of a fid that is shut. -/
theorem FidOk.openedFile {res : Bool × S9pFid} (h : FidOk srv P f) (hused : f.used = true)
    (hshut : f.shut = f) (hres : OpenedFrom srv f res) : FidOk srv P res.2 := by
  have hdir : f.dir = none := by rw [← hshut]; rfl
  have hsame := hres.same
  have husedR : res.2.used = f.used := by rw [hsame]
  have hpath : res.2.path = f.path := by rw [hsame]
  have hopenR : res.2.isOpen = res.1 := by rw [hsame]
  have hdirR : res.2.dir = none := by rw [hsame, ← hdir]
  constructor
  · exact fun _ => hpath ▸ h.path hused
  · exact fun _ => hpath ▸ h.short hused
  · intro hu
    rw [husedR, hused] at hu
    exact absurd hu.symm Bool.false_ne_true
  · intro hclosed
    have heq : res.2 = f := hres.refused (hopenR.symm.trans hclosed)
    rw [heq, ← hshut]
    exact ⟨rfl, rfl, rfl⟩
  · exact fun hopen => .inr ⟨hdirR, hres.opened (hopenR.symm.trans hopen)⟩
  · exact hres.readOnly

/-- The path a bound number leads to is one of the set. -/
theorem bound_path {fid : Nat} (ht : Table srv P conn.fids)
    (hget : s9pFidGet conn fid = some (i, f)) : P f.path := by
  obtain ⟨hslot, hused, -⟩ := fidGet_some hget
  exact (ht.each f (mem_of_slot hslot)).path hused

/-! ## Open files -/

/-- The file branch of `Tlopen`, the fid being shut. -/
theorem lopenFile_spec {w₀ : Ledger} (h : Focus srv P conn rest made w₀ i f others)
    (hb : Books srv P (others + rest) made w) {flags accmode : Nat}
    (hro : srv.readOnly = true → accmode = 0) (e : AxlFsEntry) :
    Ensures (s9pHandleTlopen.lopenFile conn i (f.shutAs e.isDir) e flags accmode) w
      (Outcome srv P conn rest made Reply.isError False) := by
  have hok := h.ok.shutAs e.isDir
  have hpath : P f.path := h.ok.path h.used
  have hstat : Ensures (if flags &&& 0x200 ≠ 0 ∧ accmode ≠ 0 ∧ e.size ≠ 0
      then s9pHandleTlopen.truncateAndStat (f.shutAs e.isDir).path else pure (some e)) w fun _ w' =>
        Books srv P (others + rest) made w' := by
    split
    · next htrunc =>
      have hrw : srv.readOnly = false := by
        cases hr : srv.readOnly with
        | false => rfl
        | true => exact absurd (hro hr) htrunc.2.1
      refine (mutate_spec hb rfl (by simpa [FsOp.paths] using hok.path h.used) hrw).bind fun ok w₁ h₁ => ?_
      cases ok with
      | true => exact fileInfo_spec h₁ hpath
      | false => exact Ensures.done h₁
    · exact Ensures.done hb
  rw [s9pHandleTlopen.lopenFile]
  refine hstat.bind fun stat w₁ h₁ => ?_
  cases stat with
  | none =>
    exact h.rebound (h₁.none rfl) hok rfl rfl rfl _ (fun hc => hc.elim)
  | some e' =>
    refine (openFile_spec (f := f.shutAs e.isDir) h₁ hpath rfl hro).bind fun opened w₂ h₂ => ?_
    obtain ⟨hres, h₂⟩ := h₂
    have hres' := hok.openedFile h.used rfl hres
    have hsame := hres.same
    have hused : opened.2.used = f.used := by rw [hsame]; rfl
    have hfid : opened.2.fid = f.fid := by rw [hsame]; rfl
    have hpath' : opened.2.path = f.path := by rw [hsame]; rfl
    split
    · exact h.rebound h₂ hres' hused hfid hpath' _ (fun hc => hc.elim)
    · exact h.rebound h₂ hres' hused hfid hpath' _ (fun hc => hc.elim)

/-- What `Tlopen` closes: the handles of the open before, when it answers `Rlopen`. -/
def Reopens (conn : S9pConn) (fid : Nat) (res : Reply × S9pConn) (w : Ledger) : Prop :=
  res.1.type = 13 → ∀ i f, s9pFidGet conn fid = some (i, f) → ∀ h ∈ f.handles, h ∈ w.closed

/-- `Tlopen` behind the release of what was open. -/
theorem reopen_spec {w₀ : Ledger} (h : Focus srv P conn rest made w₀ i f others)
    (hb : Books srv P (others + rest) made w) {flags accmode : Nat}
    (hro : srv.readOnly = true → accmode = 0) (e : AxlFsEntry) :
    Ensures (if e.isDir = true then
        if accmode ≠ 0 then fail (conn.setFid i (f.shutAs e.isDir)) eIsdir
        else do
          let dir ← axlDirOpen (f.shutAs e.isDir).path
          match dir with
          | none => fail (conn.setFid i (f.shutAs e.isDir)) eIo
          | some d =>
            return (⟨13, s9pQid e (f.shutAs e.isDir).path ++ le 4 0⟩,
              conn.setFid i { f.shutAs e.isDir with dir := some d, isOpen := true })
      else s9pHandleTlopen.lopenFile conn i (f.shutAs e.isDir) e flags accmode) w
      (Outcome srv P conn rest made Reply.isError False) := by
  have hok := h.ok.shutAs e.isDir
  split
  · split
    · exact h.rebound (hb.none rfl) hok rfl rfl rfl _ (fun hc => hc.elim)
    · refine (dirOpen_spec hb (hok.path h.used)).bind fun dir w₁ h₁ => ?_
      cases dir with
      | none =>
        rw [held_none, zero_add] at h₁
        exact h.rebound (h₁.none rfl) hok rfl rfl rfl _ (fun hc => hc.elim)
      | some d =>
        exact h.rebound (openedDir_books _ h₁) (hok.openedDir h.used d) rfl rfl rfl _
          (fun hc => hc.elim)
  · exact lopenFile_spec h hb hro e

theorem tlopen_spec (ht : Table srv P conn.fids)
    (hb : Books srv P (handles conn.fids + rest) made w) :
    Ensures (s9pHandleTlopen srv conn r) w fun res w' =>
      Outcome srv P conn rest made Reply.isError False res w' ∧
        Reopens conn (rU32 r).1 res w' := by
  rw [s9pHandleTlopen]
  generalize rU32 (rU32 r).2 = flags
  generalize rU32 r = fid
  have hfail : ∀ (ecode : Nat) {w' : Ledger},
      Books srv P (handles conn.fids + rest) made w' →
      Ensures (fail conn ecode) w' fun res w' =>
        Outcome srv P conn rest made Reply.isError False res w' ∧ Reopens conn fid.1 res w' :=
    fun ecode w' h => Ensures.done ⟨⟨⟨made, h, fun hc => hc.elim⟩, ht, rfl, fun _ => rfl⟩,
      fun h13 => absurd (show 7 = 13 from h13) (by decide)⟩
  split
  · exact hfail _ hb
  cases hf : s9pFidGet conn fid.1 with
  | none => exact hfail _ hb
  | some found =>
    obtain ⟨i, f⟩ := found
    have hpath : P f.path := bound_path ht hf
    simp only []
    generalize flags.1 &&& 3 = accmode
    split
    · exact hfail _ hb
    next hgate =>
    have hro : srv.readOnly = true → accmode = 0 := by
      intro hr
      by_contra hne
      exact hgate ⟨hr, hne⟩
    refine (fileInfo_spec hb hpath).bind fun info w₁ h₁ => ?_
    cases info with
    | none => exact hfail _ h₁
    | some e =>
      obtain ⟨others, hfocus⟩ := focus hf ht h₁
      refine hfocus.shut.grow.bind fun closed w₂ h₂ => ?_
      obtain ⟨⟨hshut, h₂⟩, hle⟩ := h₂
      -- from here on the handles of before are closed
      have hclosed : ∀ h ∈ f.handles, h ∈ w₂.closed :=
        fun h hh => Books.closed_of_shut hfocus.books h₂ hle hh
      have hlater : ∀ {p : Handler}, Ensures p w₂ (Outcome srv P conn rest made Reply.isError False) →
          Ensures p w₂ fun res w' => Outcome srv P conn rest made Reply.isError False res w' ∧
            Reopens conn fid.1 res w' := by
        intro p hp
        refine hp.grow.mono fun res w' h => ⟨h.1, fun _ j g hg x hx => ?_⟩
        rw [hf] at hg
        obtain ⟨-, rfl⟩ := Prod.mk.inj (Option.some.inj hg)
        exact Multiset.mem_of_le h.2.closed (hclosed x hx)
      simp only [hshut]
      split
      · exact hlater (hfocus.rebound (h₂.none rfl) hfocus.ok.shut rfl rfl rfl _ (fun hc => hc.elim))
      · exact hlater (reopen_spec hfocus h₂ hro e)

theorem tread_spec (ht : Table srv P conn.fids)
    (hb : Books srv P (handles conn.fids + rest) made w) :
    Ensures (s9pHandleTread conn r) w (Outcome srv P conn rest made Reply.isError True) := by
  rw [s9pHandleTread]
  generalize rU32 (rU64 (rU32 r).2).2 = count
  generalize rU64 (rU32 r).2 = offset
  generalize rU32 r = fid
  split
  · exact Outcome.fail ht hb _
  cases hf : s9pFidGet conn fid.1 with
  | none => exact Outcome.fail ht hb _
  | some found =>
    obtain ⟨i, f⟩ := found
    simp only []
    split
    · exact Outcome.fail ht hb _
    split
    · exact Outcome.fail ht hb _
    cases f.view with
    | none => exact Outcome.fail ht hb _
    | some view =>
      refine (handle_spec hb rfl rfl rfl).bind fun fresh w₁ h₁ => ?_
      split
      · exact Outcome.fail ht h₁ _
      refine (handle_spec h₁ rfl rfl rfl).bind fun size w₂ h₂ => ?_
      generalize s9pReadClamp offset.1 count.1 size _ = n
      split
      · refine (handle_spec h₂ rfl rfl rfl).bind fun data w₃ h₃ => ?_
        split
        · exact Outcome.fail ht h₃ _
        · exact Outcome.unchanged ht h₃ _
      · exact Outcome.unchanged ht h₂ _

theorem twrite_spec (ht : Table srv P conn.fids)
    (hb : Books srv P (handles conn.fids + rest) made w) :
    Ensures (s9pHandleTwrite conn r) w (Outcome srv P conn rest made Reply.isError True) := by
  rw [s9pHandleTwrite]
  generalize rU32 (rU64 (rU32 r).2).2 = count
  generalize rU64 (rU32 r).2 = offset
  generalize rU32 r = fid
  split
  · exact Outcome.fail ht hb _
  cases hf : s9pFidGet conn fid.1 with
  | none => exact Outcome.fail ht hb _
  | some found =>
    obtain ⟨i, f⟩ := found
    simp only []
    split
    · exact Outcome.fail ht hb _
    split
    · exact Outcome.fail ht hb _
    cases hstream : f.wstream with
    | none => exact Outcome.fail ht hb _
    | some stream =>
      -- a fid of a read-only export has no stream to write to
      have hrw : srv.readOnly = false := by
        cases hr : srv.readOnly with
        | false => rfl
        | true =>
          have hnone := (ht.each f (mem_of_slot (fidGet_some hf).1)).readOnly hr
          rw [hstream] at hnone
          cases hnone
      simp only []
      split
      · exact Outcome.fail ht hb _
      split
      · exact Outcome.unchanged ht hb _
      have hsize : Ensures (if s9pWriteGrowNeedsSize offset.1 count.1 then s9pWstreamSize stream
          else pure (some 0)) w fun _ w' => Books srv P (handles conn.fids + rest) made w' := by
        split
        · exact handle_spec hb rfl rfl rfl
        · exact Ensures.done hb
      refine hsize.bind fun size w₁ h₁ => ?_
      cases size with
      | none => exact Outcome.fail ht h₁ _
      | some curSize =>
        simp only []
        split
        · exact Outcome.fail ht h₁ _
        refine (mutate_spec h₁ rfl (by simp [FsOp.paths]) hrw).bind fun n w₂ h₂ => ?_
        split
        · exact Outcome.fail ht h₂ _
        · exact Outcome.unchanged ht h₂ _

theorem tfsync_spec (ht : Table srv P conn.fids)
    (hb : Books srv P (handles conn.fids + rest) made w) :
    Ensures (s9pHandleTfsync conn r) w (Outcome srv P conn rest made Reply.isError True) := by
  rw [s9pHandleTfsync]
  generalize rU32 (rU32 r).2 = datasync
  generalize rU32 r = fid
  split
  · exact Outcome.fail ht hb _
  cases hf : s9pFidGet conn fid.1 with
  | none => exact Outcome.fail ht hb _
  | some found =>
    obtain ⟨i, f⟩ := found
    simp only []
    split
    · exact Outcome.fail ht hb _
    refine (flush_spec hb).bind fun ok w₁ h₁ => ?_
    split
    · exact Outcome.unchanged ht h₁ _
    · exact Outcome.fail ht h₁ _

theorem skipLoop_spec (dir : Handle) (n : Nat) :
    ∀ (dirPos : Nat) (w : Ledger), Books srv P owned made w →
      Ensures (skipLoop dir n dirPos) w fun _ w' => Books srv P owned made w' := by
  induction n with
  | zero => exact fun _ _ h => Ensures.done h
  | succ n ih =>
    intro dirPos w h
    refine (handle_spec h rfl rfl rfl).bind fun e w₁ h₁ => ?_
    cases e with
    | none => exact Ensures.done h₁
    | some e => exact ih _ _ h₁

theorem entryLoop_spec (path : Path) (dir : Handle) (room space n : Nat) :
    ∀ (dirPos : Nat) (data : List UInt8) (w : Ledger), Books srv P owned made w →
      Ensures (entryLoop path dir room space n dirPos data) w
        fun _ w' => Books srv P owned made w' := by
  induction n with
  | zero => exact fun _ _ _ h => Ensures.done h
  | succ n ih =>
    intro dirPos data w h
    refine (handle_spec h rfl rfl rfl).bind fun e w₁ h₁ => ?_
    cases e with
    | none => exact Ensures.done h₁
    | some de =>
      simp only []
      split
      · exact ih _ _ _ h₁
      refine (pathAppend_spec h₁ _ _).bind fun full w₂ h₂ => ?_
      cases full with
      | none => exact ih _ _ _ h₂.1
      | some full =>
        simp only []
        split
        · exact Ensures.done h₂.1
        · exact ih _ _ _ h₂.1

theorem readdirFill_spec (hc : Confine srv P) {path : Path} (hp : P path) (dir : Handle)
    (offset dirPos room space : Nat) (h : Books srv P owned made w) :
    Ensures (readdirFill srv.root path dir offset dirPos room space) w
      fun _ w' => Books srv P owned made w' := by
  have hdot : Ensures (if offset < 1 then dotRecord path room space else pure (some [])) w
      fun _ w' => Books srv P owned made w' := by
    split
    · exact (fileInfo_spec h hp).bind fun info w₁ h₁ => Ensures.done h₁
    · exact Ensures.done h
  refine hdot.bind fun dot w₁ h₁ => ?_
  cases dot with
  | none => exact Ensures.done h₁
  | some data =>
    have hdotdot : Ensures (if offset < 2 then dotdotRecord srv.root path room space data
        else pure (some [])) w₁ fun _ w' => Books srv P owned made w' := by
      split
      · refine (pathUp_spec hc hp h₁).bind fun up w₂ h₂ => ?_
        have hparent : P (up.getD path) := by
          cases up with
          | none => exact hp
          | some p => exact (h₂.2 p rfl).1
        exact (fileInfo_spec h₂.1 hparent).bind fun info w₃ h₃ => Ensures.done h₃
      · exact Ensures.done h₁
    refine hdotdot.bind fun dotdot w₂ h₂ => ?_
    cases dotdot with
    | none => exact Ensures.done h₂
    | some record => exact entryLoop_spec _ _ _ _ _ _ _ _ h₂

/-- The position of an iterator has no part in the invariant. -/
theorem FidOk.moved (h : FidOk srv P f) (dirPos : Nat) :
    FidOk srv P { f with dirPos := dirPos } :=
  ⟨h.path, h.short, h.unused, h.closed, h.opened, h.readOnly⟩

/-- `Treaddir` from an iterator that is not past the cursor. -/
theorem readdirFrom_spec {w₀ : Ledger} (hc : Confine srv P)
    (h : Focus srv P conn rest made w₀ i f others) (hg : FidOk srv P g) (hused : g.used = f.used)
    (hfid : g.fid = f.fid) (hpath : g.path = f.path)
    (hb : Books srv P (g.handles + (others + rest)) made w) (dir : Handle) (offset skip count : Nat)
    :
    Ensures (s9pHandleTreaddir.readdirFrom srv conn i g dir offset skip count) w
      (Outcome srv P conn rest made Reply.isError True) := by
  rw [s9pHandleTreaddir.readdirFrom]
  refine (skipLoop_spec dir _ _ _ hb).bind fun dirPos w₁ h₁ => ?_
  simp only []
  split
  · exact h.rebound (g := { g with dirPos := dirPos }) h₁ (hg.moved _) hused hfid hpath _
      fun _ _ => rfl
  · refine (readdirFill_spec hc (hg.path (hused ▸ h.used)) _ _ _ _ _ h₁).bind
      fun filled w₂ h₂ => ?_
    exact h.rebound (g := { g with dirPos := filled.1 }) h₂ (hg.moved _) hused hfid hpath _
      fun _ _ => rfl

theorem treaddir_spec (hc : Confine srv P) (ht : Table srv P conn.fids)
    (hb : Books srv P (handles conn.fids + rest) made w) :
    Ensures (s9pHandleTreaddir srv conn r) w
      (Outcome srv P conn rest made Reply.isError True) := by
  rw [s9pHandleTreaddir]
  generalize rU32 (rU64 (rU32 r).2).2 = count
  generalize rU64 (rU32 r).2 = offset
  generalize rU32 r = fid
  split
  · exact Outcome.fail ht hb _
  cases hf : s9pFidGet conn fid.1 with
  | none => exact Outcome.fail ht hb _
  | some found =>
    obtain ⟨i, f⟩ := found
    obtain ⟨others, hfocus⟩ := focus hf ht hb
    have hok := hfocus.ok
    simp only []
    split
    · exact Outcome.fail ht hb _
    next hopen =>
    cases hdir : f.dir with
    | none => exact Outcome.fail ht hb _
    | some dir =>
      simp only []
      generalize (if offset.1 < 2 then 0 else offset.1 - 2) = skip
      split
      · -- a cursor behind the iterator: the directory is opened again
        have hopen' : f.isOpen = true := by simpa using hopen
        obtain ⟨hview, hstream⟩ : f.view = none ∧ f.wstream = none := by
          rcases hok.opened hopen' with ⟨-, hv, hs⟩ | ⟨hnone, -⟩
          · exact ⟨hv, hs⟩
          · rw [hdir] at hnone
            cases hnone
        have hsplit : Books srv P (held (some dir) + (others + rest)) made w := by
          have hbooks := hfocus.books
          simpa [S9pFid.handles, hview, hstream, hdir] using hbooks
        refine (dirClose_spec hsplit).bind fun _ w₁ h₁ => ?_
        refine (dirOpen_spec h₁ (hok.path hfocus.used)).bind fun reopened w₂ h₂ => ?_
        have hheld : ∀ d, Books srv P (held d + (others + rest)) made w₂ →
            Books srv P (({ f with dir := d, dirPos := 0 } : S9pFid).handles + (others + rest))
              made w₂ := by
          intro d hd
          simpa [S9pFid.handles, hview, hstream] using hd
        cases reopened with
        | none =>
          refine (closeOpen_spec (hheld none h₂)).bind fun closed w₃ h₃ => ?_
          obtain ⟨hshut, h₃⟩ := h₃
          rw [hshut]
          exact hfocus.rebound (g := f.shut) (h₃.none rfl) hok.shut rfl rfl rfl _ fun _ _ => rfl
        | some d =>
          refine readdirFrom_spec (g := { f with dir := some d, dirPos := 0 }) hc hfocus
            ⟨hok.path, hok.short, hok.unused, ?_, fun _ => .inl ⟨rfl, hview, hstream⟩, hok.readOnly⟩
            rfl rfl rfl (hheld (some d) h₂) _ _ _ _
          exact fun hclosed => absurd (hclosed.symm.trans hopen') Bool.false_ne_true
      · exact readdirFrom_spec hc hfocus hok rfl rfl rfl hfocus.books _ _ _ _

end NineP

end AxlSdk
