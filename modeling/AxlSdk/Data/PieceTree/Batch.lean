import AxlSdk.Lib.Replacement
import AxlSdk.Data.PieceTree.Refinement

/-!
# Batches

`axl_piece_tree_apply_edits` sorts a batch by descending offset, edits of one
offset staying in the caller's order, and applies it edit by edit inside one
undo group. In terms of `Replacement` it runs `applyAll` where the caller means
`replaceAll`. The two agree as long as no edit deletes where an edit applied
before it has inserted (`TextsSafe`), which the order by offset alone does not
ensure. What the batch recorded is undone in one step either way (`Unwinds`).
-/

namespace AxlSdk

namespace PieceTree

open AugTree AugTree.Tree EditHistory Replacement List

/-! ## The order of a batch -/

/-- What an edit says about the original document. -/
def AxlEdit.patch (e : AxlEdit) : Patch UInt8 := ⟨e.offset, e.delLen, e.ins⟩

/-- `r` between two edits of a batch, `a` listed before `b`, taken in the order
in which they are applied. -/
def AsApplied (r : AxlEdit → AxlEdit → Prop) (a b : AxlEdit) : Prop :=
  if b.offset ≤ a.offset then r a b else r b a

theorem placeEdit_perm (key : AxlEdit) (acc : List AxlEdit) :
    (placeEdit key acc).Perm (key :: acc) := by
  induction acc with
  | nil => exact List.Perm.refl _
  | cons e es ih =>
    rw [placeEdit]
    split
    · exact (ih.cons e).trans (List.Perm.swap key e es)
    · exact List.Perm.refl _

variable {acc : List AxlEdit}

theorem forall_mem_placeEdit {P : AxlEdit → Prop} {key : AxlEdit} :
    (∀ x ∈ placeEdit key acc, P x) ↔ P key ∧ ∀ x ∈ acc, P x := by
  have hmem : ∀ x, x ∈ placeEdit key acc ↔ x ∈ key :: acc :=
    fun x => (placeEdit_perm key acc).mem_iff
  simp only [hmem, forall_mem_cons]

/-- The prefix sorted so far, read from its end. -/
def Ascending (acc : List AxlEdit) : Prop := acc.Pairwise fun x y => x.offset ≤ y.offset

theorem placeEdit_ascending {key : AxlEdit} {acc : List AxlEdit} (h : Ascending acc) :
    Ascending (placeEdit key acc) := by
  induction acc with
  | nil => exact pairwise_singleton _ _
  | cons e es ih =>
    obtain ⟨he, hes⟩ := pairwise_cons.mp h
    rw [placeEdit]
    split
    case isTrue hlt =>
      refine pairwise_cons.mpr ⟨?_, ih hes⟩
      exact forall_mem_placeEdit.mpr ⟨Nat.le_of_lt hlt, he⟩
    case isFalse hge =>
      refine pairwise_cons.mpr ⟨?_, h⟩
      intro y hy
      rcases mem_cons.mp hy with rfl | hy
      · omega
      · have := he y hy
        omega

/-- Placing one edit compares it with all others, in the order of application. -/
theorem placeEdit_pairwise (r : AxlEdit → AxlEdit → Prop) {key : AxlEdit} (h : Ascending acc) :
    (placeEdit key acc).Pairwise (fun y x => r x y)
      ↔ acc.Pairwise (fun y x => r x y) ∧ ∀ x ∈ acc, AsApplied r x key := by
  induction acc with
  | nil => simp [placeEdit]
  | cons e es ih =>
    obtain ⟨he, hes⟩ := pairwise_cons.mp h
    rw [placeEdit]
    split
    case isTrue hlt =>
      have hkey : AsApplied r e key ↔ r key e := by
        rw [AsApplied, if_neg (by omega)]
      rw [pairwise_cons, ih hes, forall_mem_placeEdit, pairwise_cons, forall_mem_cons, hkey]
      tauto
    case isFalse hge =>
      have hkey : ∀ x ∈ e :: es, (AsApplied r x key ↔ r x key) := by
        intro x hx
        rw [AsApplied, if_pos]
        rcases mem_cons.mp hx with rfl | hx
        · omega
        · have := he x hx
          omega
      rw [pairwise_cons]
      constructor
      · rintro ⟨hall, hp⟩
        exact ⟨hp, fun x hx => (hkey x hx).mpr (hall x hx)⟩
      · rintro ⟨hp, hall⟩
        exact ⟨fun x hx => (hkey x hx).mp (hall x hx), hp⟩

theorem foldl_placeEdit (r : AxlEdit → AxlEdit → Prop) (edits : List AxlEdit) (h : Ascending acc) :
    (edits.foldl (fun acc key => placeEdit key acc) acc).Perm (acc ++ edits) ∧
      ((edits.foldl (fun acc key => placeEdit key acc) acc).Pairwise (fun y x => r x y)
        ↔ acc.Pairwise (fun y x => r x y) ∧ edits.Pairwise (AsApplied r) ∧
          ∀ x ∈ acc, ∀ y ∈ edits, AsApplied r x y) := by
  induction edits generalizing acc with
  | nil => simp
  | cons key edits ih =>
    obtain ⟨hperm, hiff⟩ := ih (@placeEdit_ascending key acc h)
    constructor
    · refine hperm.trans ?_
      refine ((placeEdit_perm key acc).append_right edits).trans ?_
      exact perm_middle.symm
    · have hsplit : (∀ x ∈ acc, ∀ y ∈ key :: edits, AsApplied r x y) ↔
          (∀ x ∈ acc, AsApplied r x key) ∧ ∀ x ∈ acc, ∀ y ∈ edits, AsApplied r x y := by
        simp only [forall_mem_cons, forall_and]
      rw [foldl_cons, hiff, placeEdit_pairwise r h, forall_mem_placeEdit, hsplit, pairwise_cons]
      tauto

theorem sortEdits_perm (edits : List AxlEdit) : (sortEdits edits).Perm edits :=
  (reverse_perm _).trans (foldl_placeEdit (fun _ _ => True) edits List.Pairwise.nil).1

/-- **The order of application**: descending by offset, and the caller's own
within an offset. -/
theorem sortEdits_pairwise (r : AxlEdit → AxlEdit → Prop) (edits : List AxlEdit) :
    (sortEdits edits).Pairwise r ↔ edits.Pairwise (AsApplied r) := by
  rw [sortEdits, pairwise_reverse, (foldl_placeEdit r edits List.Pairwise.nil).2]
  simp

/-- A batch that says what to do with the document `D`: the ranges it deletes
are disjoint, and what it inserts has a place in `D`. -/
structure BatchFor (D : List UInt8) (edits : List AxlEdit) : Prop where
  disjoint : edits.Pairwise fun a b => ∀ i, ¬ (a.patch.Deletes i ∧ b.patch.Deletes i)
  inside : ∀ e ∈ edits, e.ins ≠ [] → e.offset ≤ D.length

/-- Of two edits the one applied later, the one further down or else the one
listed later, does not delete where the other one inserts. -/
def TextsSafe (edits : List AxlEdit) : Prop :=
  edits.Pairwise (AsApplied fun a b => ¬ b.patch.Hits a.patch)

variable {D : List UInt8} {edits : List AxlEdit}

theorem BatchFor.descending (h : BatchFor D edits) :
    Descending ((sortEdits edits).map AxlEdit.patch) D := by
  refine ⟨?_, ?_, ?_⟩
  · rw [pairwise_map, sortEdits_pairwise]
    refine h.disjoint.imp fun {a b} _ => ?_
    rw [AsApplied]
    split
    case isTrue hle => exact hle
    case isFalse hlt => exact Nat.le_of_lt (Nat.lt_of_not_le hlt)
  · rw [pairwise_map, sortEdits_pairwise]
    refine h.disjoint.imp fun {a b} hab => ?_
    rw [AsApplied]
    split
    case isTrue => exact hab
    case isFalse => exact fun i hi => hab i hi.symm
  · intro p hp
    obtain ⟨e, he, rfl⟩ := mem_map.mp hp
    exact h.inside e ((sortEdits_perm edits).mem_iff.mp he)

theorem settled_sortEdits (edits : List AxlEdit) :
    Settled ((sortEdits edits).map AxlEdit.patch) ↔ TextsSafe edits := by
  rw [Settled, pairwise_map, sortEdits_pairwise, TextsSafe]

/-! ## The batch edit by edit -/

variable {pt : PieceTree}

theorem delete_step (hw : Wf pt) (offset len : Nat) :
    Edited pt (cut (doc pt) offset len)
      (if len > 0 then delete pt offset len else (.ok, pt)) := by
  split
  case isTrue => exact delete_edited hw offset len
  case isFalse h0 =>
    refine .noop ?_
    rw [show len = 0 by omega, cut_zero]

theorem insert_step (hw : Wf pt) (offset : Nat) (data : List UInt8) :
    Edited pt (splice (doc pt) offset data)
      (if data.length > 0 then insert pt offset data else (.ok, pt)) := by
  split
  case isTrue => exact insert_edited hw offset data
  case isFalse h0 =>
    refine .noop ?_
    rw [length_eq_zero_iff.mp (by omega : data.length = 0), splice, nil_append,
      take_append_drop]

theorem Ready.edited {pt : PieceTree} (h : Ready pt) {D' : List UInt8} {r : Rc × PieceTree}
    (he : Edited pt D' r) : r.1 = .ok ∧ doc r.2 = D' ∧ Ready r.2 := by
  obtain ⟨hs, -, hdoc, hok⟩ := h.sound.edited he
  have hok := hok h.readOnly h.grants
  exact ⟨hok, hdoc hok, h.of_step hs he.later.1 he.later.2⟩

/-- One turn of the loop: a deletion, then an insertion. -/
theorem applyLoop_cons (h : Ready pt) (e : AxlEdit) (es : List AxlEdit) :
    ∃ pt₁ pt₂, Edited pt (cut (doc pt) e.offset e.delLen) (.ok, pt₁) ∧
      Edited pt₁ (splice (doc pt₁) e.offset e.ins) (.ok, pt₂) ∧
      applyLoop pt (e :: es) = applyLoop pt₂ es := by
  rw [applyLoop]
  have h₁ := delete_step h.sound.wf e.offset e.delLen
  generalize (if e.delLen > 0 then delete pt e.offset e.delLen else (.ok, pt)) = r₁ at h₁
  obtain ⟨hok₁, -, hr₁⟩ := h.edited h₁
  obtain ⟨rc₁, pt₁⟩ := r₁
  cases hok₁
  dsimp only at hr₁ ⊢
  have h₂ := insert_step hr₁.sound.wf e.offset e.ins
  generalize (if e.ins.length > 0 then insert pt₁ e.offset e.ins else (.ok, pt₁)) = r₂ at h₂
  obtain ⟨hok₂, -, -⟩ := hr₁.edited h₂
  obtain ⟨rc₂, pt₂⟩ := r₂
  cases hok₂
  exact ⟨pt₁, pt₂, h₁, h₂, rfl⟩

/-- The loop applies the patches one by one. -/
theorem applyLoop_spec (h : Ready pt) (edits : List AxlEdit) :
    (applyLoop pt edits).1 = .ok ∧ Ready (applyLoop pt edits).2 ∧
      doc (applyLoop pt edits).2 = applyAll (edits.map AxlEdit.patch) (doc pt) := by
  induction edits generalizing pt with
  | nil => exact ⟨rfl, h, rfl⟩
  | cons e es ih =>
    obtain ⟨pt₁, pt₂, h₁, h₂, heq⟩ := applyLoop_cons h e es
    obtain ⟨-, hdoc₁, hr₁⟩ := h.edited h₁
    obtain ⟨-, hdoc₂, hr₂⟩ := hr₁.edited h₂
    obtain ⟨hok, hr, hdoc⟩ := ih hr₂
    refine ⟨by rw [heq]; exact hok, by rw [heq]; exact hr, ?_⟩
    rw [heq, hdoc]
    have hone : doc pt₂ = e.patch.apply (doc pt) := by
      rw [Patch.apply, AxlEdit.patch]
      exact hdoc₂.trans (congrArg (splice · e.offset e.ins) hdoc₁)
    rw [hone]
    rfl

/-- The state in which the loop of a batch starts. -/
def batchStart (pt : PieceTree) : PieceTree :=
  undoGroupBegin { pt with heap := { pt.heap with calls := pt.heap.calls + 1 } }

theorem batchStart_eq (pt : PieceTree) :
    batchStart pt = { pt with
      heap := { pt.heap with calls := pt.heap.calls + 1 }
      groupSeq := if pt.groupDepth = 0 then pt.groupSeq + 1 else pt.groupSeq
      curGroup := if pt.groupDepth = 0 then pt.groupSeq + 1 else pt.curGroup
      groupDepth := pt.groupDepth + 1 } := by
  rw [batchStart, undoGroupBegin]
  dsimp only
  split
  case isTrue h0 => rw [h0]
  case isFalse => rfl

theorem batchStart_sameText (pt : PieceTree) : SameText pt (batchStart pt) := by
  rw [batchStart_eq]
  exact ⟨rfl, rfl, rfl, rfl, rfl, pt.heap.later_succ⟩

theorem Ready.batchStart (h : Ready pt) : Ready (batchStart pt) := by
  have hsame := batchStart_sameText pt
  refine h.of_step (h.sound.sameText hsame ?_ ?_) hsame.heap ?_ <;> rw [batchStart_eq]
  · exact fun _ hx => .inl hx
  · exact fun _ hx => .inr hx

theorem applyEdits_eq (h : Ready pt) (hne : edits ≠ []) :
    applyEdits pt edits = ((applyLoop (batchStart pt) (sortEdits edits)).1,
      undoGroupEnd (applyLoop (batchStart pt) (sortEdits edits)).2) := by
  have hlen : ¬ edits.length = 0 := fun h0 => hne (length_eq_zero_iff.mp h0)
  rw [applyEdits, if_neg (by simp [h.readOnly]), if_neg hlen, batchStart]
  have ha := pt.heap.alloc_allocated
  generalize pt.heap.alloc = r at ha
  cases ha with
  | refused hg =>
    rw [h.grants] at hg
    cases hg
  | granted hg => rfl

theorem applyEdits_nil (h : Ready pt) : applyEdits pt [] = (.ok, pt) := by
  simp [applyEdits, h.readOnly]

theorem undoGroupEnd_sameText (pt : PieceTree) : SameText pt (undoGroupEnd pt) :=
  ⟨rfl, rfl, rfl, rfl, rfl, Heap.Later.refl _⟩

/-- **A batch** succeeds and applies its patches in its own order. -/
theorem applyEdits_spec (h : Ready pt) (edits : List AxlEdit) :
    (applyEdits pt edits).1 = .ok ∧
      doc (applyEdits pt edits).2
        = applyAll ((sortEdits edits).map AxlEdit.patch) (doc pt) := by
  by_cases hne : edits = []
  · rw [hne, applyEdits_nil h]
    exact ⟨rfl, rfl⟩
  · obtain ⟨hok, -, hdoc⟩ := applyLoop_spec h.batchStart (sortEdits edits)
    rw [applyEdits_eq h hne]
    refine ⟨hok, ?_⟩
    rw [(undoGroupEnd_sameText _).doc, hdoc, (batchStart_sameText pt).doc]

/-! ## What a batch records -/

/-- Undoing the records, head first, leads from `D` back to `D₀`. -/
def Unwinds (pt : PieceTree) : List PtEdit → List UInt8 → List UInt8 → Prop
  | [], D, D₀ => D = D₀
  | e :: es, D, D₀ => ∃ D', Takes (change pt e) D' D ∧ Unwinds pt es D' D₀

variable {pt' : PieceTree} {recs : List PtEdit} {D₀ : List UInt8}

theorem Unwinds.grown (h : Unwinds pt recs D D₀) (hok : ∀ e ∈ recs, EditOk pt e) (hg : Grown pt pt')
    :
    Unwinds pt' recs D D₀ := by
  induction recs generalizing D with
  | nil => exact h
  | cons e recs ih =>
    obtain ⟨D', htakes, hrest⟩ := h
    refine ⟨D', ?_, ih hrest fun x hx => hok x (mem_cons_of_mem e hx)⟩
    rw [hg.change (hok e (by simp))]
    exact htakes

/-- The loop of `undo` takes a block of records of one group back. -/
theorem stepLoop_unwinds {gid : Nat} {block : List PtEdit} (hs : Sound pt) (hg : pt.heap.Grants)
    {rest : List PtEdit} (hu : pt.undo = block ++ rest) (hb : ∀ e ∈ block, e.group = gid)
    (hr : ∀ e ∈ rest.head?, e.group ≠ gid) (hback : Unwinds pt block (doc pt) D₀) {fuel : Nat}
    (hfuel : block.length ≤ fuel) (aff : Nat × Nat) :
    (stepLoop gid true fuel pt aff).1 = .ok ∧
      doc (stepLoop gid true fuel pt aff).2.2 = D₀ := by
  induction block generalizing pt fuel aff with
  | nil =>
    cases fuel with
    | zero => exact ⟨rfl, hback⟩
    | succ fuel =>
      rw [stepLoop]
      cases rest with
      | nil =>
        rw [show fromStack pt true = [] from hu]
        exact ⟨rfl, hback⟩
      | cons e es =>
        rw [show fromStack pt true = e :: es from hu]
        dsimp only
        rw [if_neg (hr e rfl)]
        exact ⟨rfl, hback⟩
  | cons e block ih =>
    cases fuel with
    | zero => simp at hfuel
    | succ fuel =>
      obtain ⟨D', htakes, hrest⟩ := hback
      have hf : fromStack pt true = e :: (block ++ rest) := hu
      obtain ⟨D, hout, hok, hinv, -⟩ := editApply_outcome hs.wf (fromStack_sound hs hf) true
      have hok := hok hg
      have hD := hinv D' rfl htakes
      subst hD
      rw [stepLoop, hf]
      simp only [hb e (by simp), if_true]
      generalize editApply pt e true = r at hout hok
      cases hout with
      | failed hp hl => cases hok
      | applied tr hp hl ht =>
        have hm := moveRecord_moved { pt with tree := tr, heap := hp } true e
        dsimp only
        generalize moveRecord { pt with tree := tr, heap := hp } true e = r at hm
        have hsound := (hs.applied ht).moved hf hm
        have hsame := hm.sameText
        have hdoc := hsame.doc.trans (ht.wf hs.wf.indexed).2
        cases hm with
        | undone cap hp' hl' =>
          have hgrown₀ : Grown pt { pt with tree := tr, heap := hp } := ⟨rfl, prefix_rfl⟩
          have hunder : ∀ x ∈ block, EditOk pt x := by
            intro x hx
            exact hs.undo x (by rw [hu]; simp [hx])
          refine ih hsound ((hg.later hl).later hl') (by simp [hu])
            (fun x hx => hb x (mem_cons_of_mem e hx)) ?_
            (Nat.le_of_succ_le_succ hfuel) _
          rw [hdoc]
          exact hrest.grown hunder (hgrown₀.trans hsame.grown)
        | undoneLost hp' hl' hng => exact absurd (hg.later hl) hng

/-- **One undo** takes the top group back. -/
theorem undo_unwinds {gid : Nat} {e : PtEdit} {block : List PtEdit} (hs : Sound pt)
    (hg : pt.heap.Grants) {rest : List PtEdit} (hu : pt.undo = (e :: block) ++ rest)
    (hb : ∀ x ∈ e :: block, x.group = gid) (hr : ∀ x ∈ rest.head?, x.group ≠ gid)
    (hback : Unwinds pt (e :: block) (doc pt) D₀) :
    (undo pt).1 = .ok ∧ doc (undo pt).2.2 = D₀ := by
  have hf : fromStack pt true = e :: (block ++ rest) := hu
  rw [undo, step, hf]
  dsimp only
  rw [hb e (by simp)]
  refine stepLoop_unwinds hs hg hu hb hr hback ?_ _
  simp only [length_cons, length_append]
  omega

/-- Eviction spares the newest records as long as the limit has room for them
and one more. -/
theorem evictOldest_keeps (fuel : Nat) {pt : PieceTree} {recs older : List PtEdit}
    (hu : pt.undo = recs ++ older) (hroom : ∀ m, pt.undoLimit = some m → recs.length < m) :
    ∃ kept, kept <+: older ∧ (evictOldest fuel pt).undo = recs ++ kept := by
  induction fuel generalizing pt older with
  | zero => exact ⟨older, prefix_rfl, hu⟩
  | succ fuel ih =>
    rw [evictOldest]
    cases hlast : pt.undo.getLast? with
    | none => exact ⟨older, prefix_rfl, hu⟩
    | some oldest =>
      dsimp only
      split
      case isFalse => exact ⟨older, prefix_rfl, hu⟩
      case isTrue hlim =>
        have hne : older ≠ [] := by
          rintro rfl
          cases hm : pt.undoLimit with
          | none => simp [hm, atLimit] at hlim
          | some m =>
            have hlt := hroom m hm
            simp only [hm, atLimit, hu, append_nil, Option.elim_some,
              decide_eq_true_eq] at hlim
            omega
        have hdrop : pt.undo.dropLast = recs ++ older.dropLast := by
          rw [hu, dropLast_append_of_ne_nil hne]
        obtain ⟨kept, hk, heq⟩ := @ih
          { pt with
            undo := pt.undo.dropLast
            saveValid := pt.saveValid &&
              !(pt.savedState == 0 || pt.savedState == oldest.postState) }
          older.dropLast hdrop hroom
        exact ⟨kept, hk.trans (List.dropLast_prefix older), heq⟩

theorem recordEdit_keeps (kind : PtEditKind) (offset len : Nat) (spans : List PtSpan)
    (hg : pt.heap.Grants) {older : List PtEdit} (hu : pt.undo = recs ++ older)
    (hroom : ∀ m, pt.undoLimit = some m → recs.length < m) :
    ∃ kept, kept <+: older ∧ (recordEdit pt kind offset len spans).undo
      = newRecord pt kind offset len spans :: (recs ++ kept) := by
  have hlim : pt.undoLimit ≠ some 0 := fun h0 => absurd (hroom 0 h0) (Nat.not_lt_zero _)
  obtain ⟨n, sv, heq, -, -⟩ := evictOldest_spec pt.undo.length { pt with redo := [] }
  obtain ⟨kept, hk, hkeep⟩ := @evictOldest_keeps pt.undo.length { pt with redo := [] }
    recs older hu hroom
  rw [heq] at hkeep
  simp only at heq hkeep
  simp only [recordEdit, hlim, if_false, heq]
  refine ⟨kept, hk, ?_⟩
  cases hp : stackPush pt.heap (pt.undo.take n) pt.undoCap
      (newRecord pt kind offset len spans) with
  | mk o h =>
    obtain ⟨-, hnone, hsome⟩ := stackPush_spec hp
    have hp' : stackPush pt.heap (pt.undo.take n) pt.undoCap
        (newRecord { pt with redo := [], undo := pt.undo.take n, saveValid := sv }
          kind offset len spans) = (o, h) := hp
    rw [hp']
    cases o with
    | none => exact absurd hg (hnone rfl)
    | some sc =>
      obtain ⟨st, c⟩ := sc
      rw [hsome st c rfl, hkeep]

/-- The undo brackets and the undo limit are no business of a record. -/
def SameGroup (pt pt' : PieceTree) : Prop :=
  pt'.groupDepth = pt.groupDepth ∧ pt'.curGroup = pt.curGroup ∧ pt'.undoLimit = pt.undoLimit

theorem TextOnly.sameGroup (h : TextOnly pt pt') : SameGroup pt pt' := by
  rw [h]
  exact ⟨rfl, rfl, rfl⟩

theorem recordEdit_sameGroup (pt : PieceTree) (kind : PtEditKind) (offset len : Nat)
    (spans : List PtSpan) : SameGroup pt (recordEdit pt kind offset len spans) := by
  have hr := recordEdit_recorded pt kind offset len spans
  generalize recordEdit pt kind offset len spans = pt' at hr
  cases hr <;> exact ⟨rfl, rfl, rfl⟩

/-- Inside the bracket of a batch: `recs` is what the batch has recorded, all in
the group `gid`, and leads back to the document `D₀` that it started with. -/
structure Logged (gid : Nat) (older : List PtEdit) (D₀ : List UInt8) (recs : List PtEdit)
    (pt : PieceTree) : Prop where
  ready : Ready pt
  depth : 0 < pt.groupDepth
  cur : pt.curGroup = gid
  undo : ∃ kept, kept <+: older ∧ pt.undo = recs ++ kept
  group : ∀ e ∈ recs, e.group = gid
  back : Unwinds pt recs (doc pt) D₀

/-- A change with a content has an effect. -/
theorem Takes.ne {e : PtEdit} (he : EditOk pt e) {D' : List UInt8} (ht : Takes (change pt e) D D') :
    D' ≠ D := by
  have hpos : 0 < (spansBytes pt e.spans).length := by
    cases hsp : e.spans with
    | nil => exact absurd hsp he.nonempty
    | cons sp spans =>
      have hok := he.spans sp (by simp [hsp])
      have hone := hok.length
      have hpos := hok.pos
      simp only [spansBytes, flatMap_cons, length_append]
      omega
  intro heq
  have hlen := congrArg List.length heq
  rw [change] at ht
  cases hk : e.kind with
  | insert =>
    rw [hk] at ht
    obtain ⟨ho, hD⟩ := takes_insert_iff.mp ht
    rw [hD, splice] at hlen
    simp only [length_append, length_take, length_drop] at hlen
    omega
  | delete =>
    rw [hk] at ht
    obtain ⟨ho, hD⟩ := takes_delete_iff.mp ht
    rw [hD, splice] at hlen
    simp only [length_append, length_take, length_drop] at hlen
    omega

/-- An edit of the batch leaves one record if it changes anything. -/
theorem Logged.edited {gid : Nat} {older : List PtEdit} {D₀ : List UInt8} {recs : List PtEdit}
    {pt : PieceTree} (h : Logged gid older D₀ recs pt) {D' : List UInt8} {r : Rc × PieceTree}
    (he : Edited pt D' r)
    (hroom : D' ≠ doc pt → ∀ m, pt.undoLimit = some m → recs.length < m) :
    r.2.undoLimit = pt.undoLimit ∧ ∃ recs', Logged gid older D₀ recs' r.2 ∧
      recs'.length = recs.length + if D' = doc pt then 0 else 1 := by
  obtain ⟨hok, hdoc, hready⟩ := h.ready.edited he
  cases he with
  | failed => cases hok
  | noop hsame => exact ⟨rfl, recs, h, by rw [if_pos hsame]; rfl⟩
  | lost pt₁ htext hgrow hw hl hdoc hg => exact absurd h.ready.grants hg
  | recorded pt₁ kind offset len spans htext hgrow hw hl hdoc₁ he ht =>
    have hne : D' ≠ doc pt := hdoc₁ ▸ Takes.ne he ht
    have hg₁ := htext.sameGroup
    have hg₂ := recordEdit_sameGroup pt₁ kind offset len spans
    have hsame := (recordEdit_recorded pt₁ kind offset len spans).sameText
    obtain ⟨kept, hk, hu⟩ := h.undo
    obtain ⟨kept', hk', hu'⟩ := recordEdit_keeps kind offset len spans (h.ready.grants.later hl)
      (htext.undo.trans hu) fun m hm => hroom hne m (hg₁.2.2 ▸ hm)
    have hgid : (newRecord pt₁ kind offset len spans).group = gid := by
      have hin : grouped pt₁ := .inl (by rw [hg₁.1]; exact h.depth)
      rw [newRecord, if_pos hin, hg₁.2.1]
      exact h.cur
    have hunder : ∀ e ∈ recs, EditOk pt e := fun e hmem =>
      h.ready.sound.undo e (by rw [hu]; exact mem_append_left kept hmem)
    refine ⟨hg₂.2.2.trans hg₁.2.2, newRecord pt₁ kind offset len spans :: recs, ⟨hready, ?_, ?_,
      ⟨kept', hk'.trans hk, hu'⟩, forall_mem_cons.mpr ⟨hgid, h.group⟩, ?_⟩, ?_⟩
    · rw [hg₂.1, hg₁.1]
      exact h.depth
    · rw [hg₂.2.1, hg₁.2.1]
      exact h.cur
    · refine ⟨doc pt, ?_, h.back.grown hunder (hgrow.trans hsame.grown)⟩
      rw [hsame.grown.change he, hsame.doc]
      exact ht
    · rw [if_neg hne]
      rfl

/-- How many records an edit of the document `D` leaves. -/
def AxlEdit.steps (D : List UInt8) (e : AxlEdit) : Nat :=
  (if cut D e.offset e.delLen = D then 0 else 1) + if e.ins = [] then 0 else 1

/-- How many records the edits leave, one after the other. -/
def stepsOf : List UInt8 → List AxlEdit → Nat
  | _, [] => 0
  | D, e :: es => e.steps D + stepsOf (e.patch.apply D) es

theorem splice_eq_self_iff {o : Nat} {xs : List UInt8} :
    splice D o xs = D ↔ xs = [] := by
  constructor
  · intro h
    have hlen := congrArg List.length h
    simp only [splice, length_append, length_take, length_drop] at hlen
    exact length_eq_zero_iff.mp (by omega)
  · rintro rfl
    rw [splice, nil_append, take_append_drop]

theorem Logged.applyLoop {gid : Nat} {older : List PtEdit} (h : Logged gid older D₀ recs pt)
    (hroom : ∀ m, pt.undoLimit = some m → recs.length + stepsOf (doc pt) edits ≤ m) :
    ∃ recs', Logged gid older D₀ recs' (applyLoop pt edits).2 ∧
      recs'.length = recs.length + stepsOf (doc pt) edits := by
  induction edits generalizing pt recs with
  | nil => exact ⟨recs, h, rfl⟩
  | cons e es ih =>
    obtain ⟨pt₁, pt₂, h₁, h₂, heq⟩ := applyLoop_cons h.ready e es
    obtain ⟨-, hdoc₁, hr₁⟩ := h.ready.edited h₁
    obtain ⟨-, hdoc₂, -⟩ := hr₁.edited h₂
    dsimp only at hdoc₁ hdoc₂ hr₁
    have hone : doc pt₂ = e.patch.apply (doc pt) := by
      rw [hdoc₂, hdoc₁]
      rfl
    rw [stepsOf, AxlEdit.steps, ← hone] at hroom ⊢
    obtain ⟨hlim₁, recs₁, hl₁, hlen₁⟩ := h.edited h₁ fun hne m hm => by
      have := hroom m hm
      rw [if_neg hne] at this
      omega
    obtain ⟨hlim₂, recs₂, hl₂, hlen₂⟩ := hl₁.edited h₂ fun hne m hm => by
      have hroom := hroom m (hlim₁ ▸ hm)
      rw [if_neg (fun h0 => hne (splice_eq_self_iff.mpr h0))] at hroom
      omega
    dsimp only at hlim₁ hlim₂ hl₂ hlen₂
    simp only [splice_eq_self_iff] at hlen₂
    obtain ⟨recs', hl, hlen⟩ := ih hl₂ fun m hm => by
      have := hroom m (by rw [← hlim₁, ← hlim₂]; exact hm)
      omega
    rw [heq]
    refine ⟨recs', hl, ?_⟩
    omega

/-- How many records an edit leaves in a batch for a document of `n` bytes. -/
def AxlEdit.records (n : Nat) (e : AxlEdit) : Nat :=
  (if e.delLen = 0 ∨ n ≤ e.offset then 0 else 1) + if e.ins = [] then 0 else 1

theorem cut_eq_self_iff {o n : Nat} : cut D o n = D ↔ n = 0 ∨ D.length ≤ o := by
  constructor
  · intro h
    have hlen := congrArg List.length h
    simp only [cut, length_append, length_take, length_drop] at hlen
    omega
  · rintro (rfl | hle)
    · exact cut_zero D o
    · rw [cut, take_of_length_le hle, drop_of_length_le (by omega), append_nil]

theorem stepsOf_concat (D : List UInt8) (l : List AxlEdit) (e : AxlEdit) :
    stepsOf D (l ++ [e])
      = stepsOf D l + e.steps (applyAll (l.map AxlEdit.patch) D) := by
  induction l generalizing D with
  | nil => simp [stepsOf, applyAll]
  | cons a l ih =>
    rw [cons_append, stepsOf, stepsOf, ih, Nat.add_assoc]
    rfl

theorem stepsOf_settled {l : List AxlEdit} (h : Descending (l.map AxlEdit.patch) D)
    (hset : Settled (l.map AxlEdit.patch)) :
    stepsOf D l = (l.map (AxlEdit.records D.length)).sum := by
  induction l using List.reverseRecOn with
  | nil => rfl
  | append_singleton l e ih =>
    rw [map_append, map_singleton] at h hset
    obtain ⟨hl, habove⟩ := h.concat
    obtain ⟨hsl, hhit⟩ := settled_concat.mp hset
    have hcut : cut (applyAll (l.map AxlEdit.patch) D) e.offset e.delLen
          = applyAll (l.map AxlEdit.patch) D ↔ e.delLen = 0 ∨ D.length ≤ e.offset := by
      rw [cut_eq_self_iff, applyAll_settled hl hsl]
      rcases Nat.eq_zero_or_pos e.delLen with h0 | hpos
      · simp [h0]
      · have hle := habove.length_le_iff hhit hpos
        exact or_congr_right hle
    rw [stepsOf_concat, ih hl hsl, map_append, sum_append, AxlEdit.steps]
    simp only [hcut, map_singleton, sum_singleton, AxlEdit.records]

/-! ## Undoing a batch -/

/-- No group id is in use beyond `group_seq`. -/
structure Numbered (pt : PieceTree) : Prop where
  ready : Ready pt
  cur : grouped pt → pt.curGroup ≤ pt.groupSeq
  undo : ∀ e ∈ pt.undo, e.group ≤ pt.groupSeq
  redo : ∀ e ∈ pt.redo, e.group ≤ pt.groupSeq

theorem Numbered.of_seq (h : Numbered pt) (hr : Ready pt') (hseq : pt.groupSeq ≤ pt'.groupSeq)
    (hc : grouped pt' → pt'.curGroup ≤ pt'.groupSeq)
    (hu : ∀ e ∈ pt'.undo, e ∈ pt.undo ∨ e ∈ pt.redo ∨ e.group ≤ pt'.groupSeq)
    (hd : ∀ e ∈ pt'.redo, e ∈ pt.undo ∨ e ∈ pt.redo) : Numbered pt' := by
  refine ⟨hr, hc, fun e he => ?_, fun e he => ?_⟩
  · rcases hu e he with h' | h' | h'
    · exact Nat.le_trans (h.undo e h') hseq
    · exact Nat.le_trans (h.redo e h') hseq
    · exact h'
  · rcases hd e he with h' | h'
    · exact Nat.le_trans (h.undo e h') hseq
    · exact Nat.le_trans (h.redo e h') hseq

theorem Numbered.edited {pt : PieceTree} (h : Numbered pt) {D' : List UInt8} {r : Rc × PieceTree}
    (he : Edited pt D' r) : Numbered r.2 := by
  obtain ⟨-, -, hready⟩ := h.ready.edited he
  cases he with
  | failed pt' htext =>
    refine h.of_seq hready ?_ ?_ ?_ ?_ <;> dsimp only <;> rw [htext]
    · exact h.cur
    · exact fun e he => .inl he
    · exact fun e he => .inr he
  | noop => exact h
  | lost pt₁ htext =>
    refine h.of_seq hready ?_ ?_ (by simp) (by simp) <;> dsimp only <;> rw [htext]
    exact h.cur
  | recorded pt₁ kind offset len spans htext =>
    have hr := recordEdit_recorded pt₁ kind offset len spans
    dsimp only at hready ⊢
    generalize recordEdit pt₁ kind offset len spans = pt₂ at hr hready
    have hu : pt₁.undo = pt.undo := htext.undo
    have hseq : pt₁.groupSeq = pt.groupSeq := by rw [htext]
    have hcur : grouped pt₁ → pt₁.curGroup ≤ pt₁.groupSeq := by
      rw [htext]
      exact h.cur
    have hnext : pt₁.groupSeq ≤ nextGroupSeq pt₁ := by
      rw [nextGroupSeq]
      split <;> omega
    cases hr with
    | unlimited0 hlim =>
      exact h.of_seq hready (Nat.le_of_eq hseq.symm) hcur (fun e he => .inl (hu ▸ he)) (by simp)
    | pushed n sv cap hp hlim hl hn hsv =>
      refine h.of_seq hready (hseq ▸ hnext) (fun hg => Nat.le_trans (hcur hg) hnext) ?_
        (by simp)
      intro e he
      rcases mem_cons.mp he with rfl | he
      · refine .inr (.inr ?_)
        rw [newRecord]
        dsimp only
        split
        · exact Nat.le_trans (hcur ‹_›) hnext
        · exact Nat.le_refl _
      · exact .inl (hu ▸ mem_of_mem_take he)
    | lost hp hl hg =>
      exact h.of_seq hready (hseq ▸ hnext) (fun hg => Nat.le_trans (hcur hg) hnext)
        (by simp) (by simp)

/-- Group ids stay below `group_seq` along every run. -/
theorem runInvariant_numbered : RunInvariant fun t => Numbered t.pt where
  sound h := h.ready.sound
  heap {t _} h hl := h.of_seq (@runInvariant_ready.heap t _ h.ready hl) (Nat.le_refl _) h.cur
    (fun _ he => .inl he) fun _ he => .inr he
  edited h he := by
    rw [note_pt]
    exact h.edited he
  groupBegin {t} h := by
    have hr := @runInvariant_ready.groupBegin t h.ready
    refine h.of_seq hr ?_ ?_ ?_ ?_ <;> rw [undoGroupBegin] <;> split
    · exact Nat.le_succ _
    · exact Nat.le_refl _
    · exact fun _ => Nat.le_refl _
    · exact fun _ => h.cur (.inl (Nat.pos_of_ne_zero ‹_›))
    · exact fun e he => .inl he
    · exact fun e he => .inl he
    · exact fun e he => .inr he
    · exact fun e he => .inr he
  groupEnd {t} h := h.of_seq (@runInvariant_ready.groupEnd t h.ready) (Nat.le_refl _)
    (fun hg => h.cur (hg.imp_left fun hpos => Nat.lt_of_lt_of_le hpos (Nat.sub_le _ _)))
    (fun _ he => .inl he) fun _ he => .inr he
  moved {t e es inverse _ _ _ _} h hf hl ht hm := by
    have hr := @runInvariant_ready.moved t _ _ _ _ _ _ _ h.ready hf hl ht hm
    have htop : e ∈ t.pt.undo ∨ e ∈ t.pt.redo := by
      cases inverse with
      | true => exact .inl (by rw [show t.pt.undo = e :: es from hf]; simp)
      | false => exact .inr (by rw [show t.pt.redo = e :: es from hf]; simp)
    have htop' : e ∈ t.pt.undo ∨ e ∈ t.pt.redo ∨ e.group ≤ t.pt.groupSeq :=
      htop.imp id .inl
    cases hm with
    | undone =>
      exact h.of_seq hr (Nat.le_refl _) h.cur (fun x hx => .inl (mem_of_mem_tail hx))
        (forall_mem_cons.mpr ⟨htop, fun x hx => .inr hx⟩)
    | undoneLost =>
      exact h.of_seq hr (Nat.le_refl _) h.cur (fun x hx => .inl (mem_of_mem_tail hx))
        fun x hx => .inr hx
    | redone =>
      exact h.of_seq hr (Nat.le_refl _) h.cur
        (forall_mem_cons.mpr ⟨htop', fun x hx => .inl hx⟩)
        fun x hx => .inr (mem_of_mem_tail hx)
    | redoneLost =>
      exact h.of_seq hr (Nat.le_refl _) h.cur (fun x hx => .inl hx)
        fun x hx => .inr (mem_of_mem_tail hx)
  checkpoint {t} h := h.of_seq (@runInvariant_ready.checkpoint t h.ready) (Nat.le_succ _)
    (fun _ => Nat.le_refl _) (fun _ he => .inl he) fun _ he => .inr he
  limited {t m} h := by
    refine h.of_seq (@runInvariant_ready.limited t m h.ready) (Nat.le_refl _) h.cur
      (fun e he => .inl ?_) fun _ he => .inr he
    cases m with
    | none => exact he
    | some n => exact mem_of_mem_take he
  saved {t} h := h.of_seq (@runInvariant_ready.saved t h.ready) (Nat.le_refl _) h.cur
    (fun _ he => .inl he) fun _ he => .inr he

/-- How many records a batch leaves. -/
def recordsOf (D : List UInt8) (edits : List AxlEdit) : Nat :=
  (edits.map (AxlEdit.records D.length)).sum

/-- The next undo is about the batch: the undo limit has room for its records,
it is not part of an open group that has earlier edits on record, and if it has
nothing to do there is nothing to undo. -/
structure Revertible (pt : PieceTree) (edits : List AxlEdit) : Prop where
  room : ∀ m, pt.undoLimit = some m → recordsOf (doc pt) edits ≤ m
  alone : pt.groupDepth = 0 ∨ ∀ e ∈ pt.undo.head?, e.group ≠ pt.curGroup
  effect : recordsOf (doc pt) edits = 0 → pt.undo = []

theorem undo_nothing (h : pt.undo = []) : (undo pt).2.2 = pt := by
  rw [undo, step, show fromStack pt true = [] from h]

/-- **One undo** takes a batch back. -/
theorem applyEdits_undo (h : Numbered pt) (hb : BatchFor (doc pt) edits) (hsafe : TextsSafe edits)
    (hrev : Revertible pt edits) :
    doc (undo (applyEdits pt edits).2).2.2 = doc pt := by
  by_cases hne : edits = []
  · have hnone : pt.undo = [] := hrev.effect (by rw [hne]; rfl)
    rw [hne, applyEdits_nil h.ready, undo_nothing hnone]
  have hdoc₀ : doc (batchStart pt) = doc pt := (batchStart_sameText pt).doc
  have hcount : stepsOf (doc (batchStart pt)) (sortEdits edits) = recordsOf (doc pt) edits := by
    rw [hdoc₀, stepsOf_settled hb.descending ((settled_sortEdits edits).mpr hsafe), recordsOf]
    exact ((sortEdits_perm edits).map _).sum_eq
  have hstart : Logged (batchStart pt).curGroup pt.undo (doc pt) [] (batchStart pt) := by
    refine ⟨h.ready.batchStart, ?_, rfl, ⟨pt.undo, prefix_rfl, ?_⟩, by simp, hdoc₀⟩ <;>
      rw [batchStart_eq]
    · exact Nat.succ_pos _
    · rfl
  have hroom : ∀ m, (batchStart pt).undoLimit = some m →
      ([] : List PtEdit).length + stepsOf (doc (batchStart pt)) (sortEdits edits) ≤ m := by
    intro m hm
    have := hrev.room m (by rw [← hm, batchStart_eq])
    rw [hcount]
    simpa using this
  obtain ⟨recs, hl, hlen⟩ := hstart.applyLoop hroom
  rw [applyEdits_eq h.ready hne]
  dsimp only
  generalize (applyLoop (batchStart pt) (sortEdits edits)).2 = pt' at hl
  have hsame := undoGroupEnd_sameText pt'
  obtain ⟨kept, hkept, hu⟩ := hl.undo
  cases recs with
  | nil =>
    have hnone : pt.undo = [] := hrev.effect (by rw [← hcount]; simpa using hlen.symm)
    rw [hnone] at hkept
    have hempty : (undoGroupEnd pt').undo = [] := by
      rw [prefix_nil.mp hkept] at hu
      exact hu
    rw [undo_nothing hempty, hsame.doc]
    exact hl.back
  | cons e block =>
    have hsound : Sound (undoGroupEnd pt') := hl.ready.sound.sameText hsame
      (fun _ hx => .inl hx) fun _ hx => .inr hx
    refine (undo_unwinds hsound hl.ready.grants hu hl.group ?_ ?_).2
    · intro x hx
      have hx' : x ∈ pt.undo.head? := by
        obtain ⟨more, hmore⟩ := hkept
        cases kept with
        | nil => cases hx
        | cons y ys =>
          cases hx
          rw [← hmore]
          rfl
      have hmem : x ∈ pt.undo := mem_of_mem_head? hx'
      have hle := h.undo x hmem
      rw [batchStart_eq]
      dsimp only
      split
      case isTrue => omega
      case isFalse hdepth => exact hrev.alone.resolve_left hdepth x hx'
    · rw [hsame.doc]
      refine hl.back.grown (fun x hx => hl.ready.sound.undo x ?_) hsame.grown
      rw [hu]
      exact mem_append_left kept hx

/-! ## Batches in runs -/

/-- What a batch is for: every byte that no edit deletes stays in its order,
every text stands at its offset, and one undo takes all of it back. -/
def Simultaneous (pt : PieceTree) (edits : List AxlEdit) : Prop :=
  (applyEdits pt edits).1 = .ok ∧
    Replaced (edits.map AxlEdit.patch) (doc pt) (doc (applyEdits pt edits).2) ∧
    doc (undo (applyEdits pt edits).2).2.2 = doc pt

theorem exists_openView_numbered (view : List UInt8) :
    ∃ pt₀, openView generous view = some pt₀ ∧ Numbered pt₀ := by
  obtain ⟨pt₀, hopen, hready, -⟩ := exists_openView view
  obtain ⟨-, hspec⟩ := openView_spec generous view
  obtain ⟨-, -, -, hundo, hredo, -, -, -, -, -, hgroup⟩ := hspec pt₀ hopen
  exact ⟨pt₀, hopen, hready, fun hg => absurd hg hgroup, by simp [hundo], by simp [hredo]⟩

/-- **Batch edits.** In every state of every run (any file, any calls, any undo
limit, all allocations granted) and for every batch that says what to do with
the document: the batch is a simultaneous replacement that one undo takes back,
provided that no edit deletes where an edit applied before it has inserted.
Where the inserted bytes can be told from those of the document, the proviso is
necessary. -/
theorem run_batch (view : List UInt8) (ops : List Op) :
    ∃ pt₀, openView generous view = some pt₀ ∧
      ∀ edits, BatchFor (doc (run pt₀ ops)) edits →
        (TextsSafe edits → Revertible (run pt₀ ops) edits →
          Simultaneous (run pt₀ ops) edits) ∧
        ((∀ e ∈ edits, ∀ b ∈ e.ins, b ∉ doc (run pt₀ ops)) →
          Simultaneous (run pt₀ ops) edits → TextsSafe edits) := by
  obtain ⟨pt₀, hopen, hstart⟩ := exists_openView_numbered view
  refine ⟨pt₀, hopen, ?_⟩
  have hnum : Numbered (run pt₀ ops) := by
    have := @RunInvariant.run _ runInvariant_numbered (Traced.start pt₀) hstart ops
    rw [run_pt] at this
    exact this
  generalize run pt₀ ops = pt at hnum
  intro edits hb
  obtain ⟨hok, hdoc⟩ := applyEdits_spec hnum.ready edits
  have hperm : ((sortEdits edits).map AxlEdit.patch).Perm (edits.map AxlEdit.patch) :=
    (sortEdits_perm edits).map _
  constructor
  · intro hsafe hrev
    refine ⟨hok, ?_, applyEdits_undo hnum hb hsafe hrev⟩
    rw [hdoc, applyAll_settled hb.descending ((settled_sortEdits edits).mpr hsafe)]
    exact ⟨_, (reverse_perm _).trans hperm, rfl⟩
  · rintro hnew ⟨-, hrep, -⟩
    rw [hdoc] at hrep
    rw [← settled_sortEdits]
    refine (replaced_applyAll_iff hb.descending hperm ?_).mp hrep
    intro p hp
    obtain ⟨e, he, rfl⟩ := mem_map.mp hp
    exact hnew e ((sortEdits_perm edits).mem_iff.mp he)

/-- On "ab": delete 'a', put an 'X' in its place, and replace 'b' by a 'Y'. -/
theorem run_batch_replaces_ab :
    ∃ pt₀, openView generous [97, 98] = some pt₀ ∧
      BatchFor (doc pt₀) [⟨0, 1, []⟩, ⟨0, 0, [88]⟩, ⟨1, 1, [89]⟩] ∧
      Simultaneous pt₀ [⟨0, 1, []⟩, ⟨0, 0, [88]⟩, ⟨1, 1, [89]⟩] := by
  obtain ⟨pt₀, hopen, hall⟩ := run_batch [97, 98] []
  obtain ⟨-, hspec⟩ := openView_spec generous [97, 98]
  obtain ⟨-, hdoc, -, hundo, -, hlim, -, -, -, -, hgroup⟩ := hspec pt₀ hopen
  have hb : BatchFor (doc pt₀) [⟨0, 1, []⟩, ⟨0, 0, [88]⟩, ⟨1, 1, [89]⟩] := by
    refine ⟨?_, ?_⟩
    · simp only [pairwise_cons, mem_cons, not_mem_nil, or_false, forall_eq_or_imp,
        forall_eq, Patch.Deletes, AxlEdit.patch]
      refine ⟨⟨fun i => ?_, fun i => ?_⟩, fun i => ?_, by simp⟩ <;> omega
    · simp [hdoc]
  refine ⟨pt₀, hopen, hb, (hall _ hb).1 ?_ ⟨?_, ?_, fun _ => hundo⟩⟩
  · unfold TextsSafe AsApplied
    decide
  · intro m hm
    rw [show (run pt₀ []).undoLimit = none from hlim] at hm
    cases hm
  · exact .inl (Nat.eq_zero_of_not_pos fun hpos => hgroup (.inl hpos))

/-- On "ab" again, an 'X' to insert at 0 listed before the deletion of 'a': the
'X' goes in first and is what gets deleted. -/
theorem batch_deletes_its_text :
    ∃ pt₀, openView generous [97, 98] = some pt₀ ∧
      BatchFor (doc pt₀) [⟨0, 0, [88]⟩, ⟨0, 1, []⟩] ∧
      doc (applyEdits pt₀ [⟨0, 0, [88]⟩, ⟨0, 1, []⟩]).2 = [97, 98] ∧
      ¬ Simultaneous pt₀ [⟨0, 0, [88]⟩, ⟨0, 1, []⟩] := by
  obtain ⟨pt₀, hopen, hready, hdoc⟩ := exists_openView [97, 98]
  have hb : BatchFor (doc pt₀) [⟨0, 0, [88]⟩, ⟨0, 1, []⟩] := by
    refine ⟨?_, ?_⟩
    · simp only [pairwise_cons, mem_cons, not_mem_nil, or_false, forall_eq,
        Patch.Deletes, AxlEdit.patch]
      refine ⟨fun i => ?_, by simp⟩
      omega
    · simp
  obtain ⟨-, hout⟩ := applyEdits_spec hready [⟨0, 0, [88]⟩, ⟨0, 1, []⟩]
  refine ⟨pt₀, hopen, hb, ?_, ?_⟩
  · rw [hout, hdoc]
    decide
  · rintro ⟨-, hrep, -⟩
    rw [hout] at hrep
    have hperm : ((sortEdits [⟨0, 0, [88]⟩, ⟨0, 1, []⟩]).map AxlEdit.patch).Perm
        ([⟨0, 0, [88]⟩, ⟨0, 1, []⟩].map AxlEdit.patch) := (sortEdits_perm _).map _
    have hsafe := (replaced_applyAll_iff hb.descending hperm ?_).mp hrep
    · rw [settled_sortEdits] at hsafe
      revert hsafe
      unfold TextsSafe AsApplied
      decide
    · intro p hp
      have hp' := hperm.mem_iff.mp hp
      simp only [map_cons, map_nil, mem_cons, not_mem_nil, or_false] at hp'
      rw [hdoc]
      rcases hp' with rfl | rfl <;> simp [AxlEdit.patch]

end PieceTree

end AxlSdk
