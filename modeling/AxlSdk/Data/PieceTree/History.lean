import AxlSdk.Data.PieceTree.Edits

/-!
# Records and undo steps

What the record stacks do to each other and to the text.

- `Recorded`: all that `record_edit` can do: nothing (limit 0), push a record
  after evicting old ones, or lose the history to a failed allocation.
- `Edited`: an `insert` or `delete` fails with the text untouched, does nothing,
  or changes the text and then records it.
- `Sound`: the tree is well formed and every record on either stack still
  denotes bytes of the two sources. Every edit and every moved record keeps it,
  also when an allocation fails: an applied record clamps its range to the
  document it meets.
-/

namespace AxlSdk

namespace PieceTree

open AugTree AugTree.Tree EditHistory List

/-! ## Growing sources -/

/-- The sources of `pt'` are those of `pt` with bytes appended to the add buffer. -/
structure Grown (pt pt' : PieceTree) : Prop where
  view : pt'.view = pt.view
  add : pt.add <+: pt'.add

theorem Grown.refl (pt : PieceTree) : Grown pt pt := ⟨rfl, prefix_rfl⟩

variable {pt pt' : PieceTree}

theorem Grown.trans {pt'' : PieceTree} (h : Grown pt pt') (h' : Grown pt' pt'') :
    Grown pt pt'' :=
  ⟨h'.view.trans h.view, h.add.trans h'.add⟩

theorem Grown.source (h : Grown pt pt') (s : PtSource) :
    source pt s <+: PieceTree.source pt' s := by
  cases s with
  | original =>
    have heq : PieceTree.source pt .original = PieceTree.source pt' .original := by
      rw [PieceTree.source, PieceTree.source, h.view]
    exact heq ▸ prefix_rfl
  | add => exact h.add

/-- Bytes of a source never move. -/
theorem Grown.readSrc (h : Grown pt pt') {s : PtSource} {start len : Nat}
    (hin : start + len ≤ (PieceTree.source pt s).length) :
    readSrc pt' s start len = PieceTree.readSrc pt s start len := by
  obtain ⟨more, hmore⟩ := h.source s
  rw [PieceTree.readSrc, PieceTree.readSrc, ← hmore, drop_append_of_le_length (by omega),
    take_append_of_le_length (by rw [length_drop]; omega)]

theorem Grown.length_le (h : Grown pt pt') (s : PtSource) :
    (PieceTree.source pt s).length ≤ (PieceTree.source pt' s).length :=
  (h.source s).length_le

theorem Grown.spanOk (h : Grown pt pt') {sp : PtSpan} (hs : SpanOk pt sp) :
    SpanOk pt' sp :=
  ⟨hs.pos, Nat.le_trans hs.inside (h.length_le _)⟩

theorem Grown.spansBytes (h : Grown pt pt') {spans : List PtSpan} (hs : ∀ sp ∈ spans, SpanOk pt sp)
    : spansBytes pt' spans = PieceTree.spansBytes pt spans := by
  induction spans with
  | nil => rfl
  | cons sp spans ih =>
    have h₁ : spanBytes pt' sp = spanBytes pt sp := h.readSrc (hs sp (by simp)).inside
    have h₂ := ih fun s hs' => hs s (by simp [hs'])
    simp only [PieceTree.spansBytes, flatMap_cons] at h₂ ⊢
    rw [h₁, h₂]

theorem Grown.pieceBytes (h : Grown pt pt') {p : Piece} (hp : PieceOk pt p) :
    pieceBytes pt' p = PieceTree.pieceBytes pt p :=
  h.readSrc hp.inside

theorem Grown.pieceOk (h : Grown pt pt') {p : Piece} (hp : PieceOk pt p) :
    PieceOk pt' p := by
  refine ⟨hp.pos, Nat.le_trans hp.inside (h.length_le _), ?_⟩
  rw [h.pieceBytes hp]
  exact hp.newlines

theorem Grown.bytesOf (h : Grown pt pt') {ps : List Piece} (hp : ∀ p ∈ ps, PieceOk pt p) :
    bytesOf pt' ps = PieceTree.bytesOf pt ps := by
  induction ps with
  | nil => rfl
  | cons p ps ih =>
    rw [bytesOf_cons, bytesOf_cons, h.pieceBytes (hp p (by simp)),
      ih fun q hq => hp q (by simp [hq])]

/-- A change of the text only: stacks, ids and save point stay. -/
def TextOnly (pt pt' : PieceTree) : Prop :=
  pt' = { pt with tree := pt'.tree, add := pt'.add, addCap := pt'.addCap, addNl := pt'.addNl,
                  addNlCap := pt'.addNlCap, heap := pt'.heap }

theorem TextOnly.undo (h : TextOnly pt pt') : pt'.undo = pt.undo := by
  rw [h]

theorem TextOnly.redo (h : TextOnly pt pt') : pt'.redo = pt.redo := by
  rw [h]

/-- A change of stacks, ids and save point only: the text stays. -/
structure SameText (pt pt' : PieceTree) : Prop where
  tree : pt'.tree = pt.tree
  view : pt'.view = pt.view
  add : pt'.add = pt.add
  origNl : pt'.origNl = pt.origNl
  addNl : pt'.addNl = pt.addNl
  heap : pt.heap.Later pt'.heap

theorem SameText.grown (h : SameText pt pt') : Grown pt pt' :=
  ⟨h.view, h.add ▸ prefix_rfl⟩

theorem SameText.doc (h : SameText pt pt') : doc pt' = PieceTree.doc pt := by
  have hs : ∀ s, source pt' s = source pt s := by
    intro s
    cases s with
    | original => exact h.view
    | add => exact h.add
  have hp : PieceTree.pieceBytes pt' = PieceTree.pieceBytes pt := by
    funext p
    rw [PieceTree.pieceBytes, PieceTree.pieceBytes, PieceTree.readSrc, PieceTree.readSrc, hs]
  rw [PieceTree.doc, PieceTree.doc, PieceTree.bytesOf, PieceTree.bytesOf, h.tree, hp]

theorem SameText.wf (h : SameText pt pt') (hw : Wf pt) : Wf pt' := by
  refine ⟨⟨?_, ?_⟩, ?_, ?_, ?_, ?_⟩
  · rw [h.origNl, h.view]
    exact hw.indexed.orig
  · rw [h.addNl, h.add]
    exact hw.indexed.add
  · rw [h.tree]
    exact hw.summed
  · rw [h.tree]
    exact hw.distinct
  · rw [h.tree]
    exact fun p hp => Nat.lt_of_lt_of_le (hw.fresh p hp) h.heap.calls
  · rw [h.tree]
    exact fun p hp => h.grown.pieceOk (hw.pieces p hp)

/-! ## Records -/

/-- A record denotes bytes of the sources, as many as its length says. -/
structure EditOk (pt : PieceTree) (e : PtEdit) : Prop where
  spans : ∀ sp ∈ e.spans, SpanOk pt sp
  nonempty : e.spans ≠ []
  length : (spansBytes pt e.spans).length = e.length

variable {e : PtEdit}

theorem Grown.editOk (h : Grown pt pt') (he : EditOk pt e) :
    EditOk pt' e := by
  refine ⟨fun sp hsp => h.spanOk (he.spans sp hsp), he.nonempty, ?_⟩
  rw [h.spansBytes he.spans]
  exact he.length

/-- The change of the document that a record stands for. -/
def change (pt : PieceTree) (e : PtEdit) : Change UInt8 :=
  match e.kind with
  | .insert => .insert e.offset (spansBytes pt e.spans)
  | .delete => .delete e.offset (spansBytes pt e.spans)

theorem Grown.change (h : Grown pt pt') (he : EditOk pt e) :
    change pt' e = PieceTree.change pt e := by
  simp only [PieceTree.change, h.spansBytes he.spans]

/-- Everything `record_edit` can do. -/
inductive Recorded (pt : PieceTree) (e : PtEdit) : PieceTree → Prop where
  | unlimited0 (hlim : pt.undoLimit = some 0) : Recorded pt e { pt with redo := [] }
  | pushed (n : Nat) (sv : Bool) (cap : Nat) (h : Heap) (hlim : pt.undoLimit ≠ some 0)
      (hl : pt.heap.Later h) (hn : pt.undoLimit = none → pt.undo.take n = pt.undo)
      (hsv : sv = true →
        pt.saveValid = true ∧ (pt.undo.take n = pt.undo ∨ pt.savedState ≠ 0)) :
      Recorded pt e
        { pt with
          redo := [], undo := e :: pt.undo.take n, undoCap := cap, saveValid := sv,
          groupSeq := nextGroupSeq pt, stateSeq := pt.stateSeq + 1, heap := h }
  | lost (h : Heap) (hl : pt.heap.Later h) (hg : ¬ pt.heap.Grants) :
      Recorded pt e
        { pt with
          redo := [], undo := [], saveValid := false, groupSeq := nextGroupSeq pt,
          stateSeq := pt.stateSeq + 1, heap := h }

/-- Eviction keeps the newest records, and keeps the save point only if no
record went or the save point is not the base state. -/
theorem evictOldest_spec (fuel : Nat) (pt : PieceTree) :
    ∃ n sv, evictOldest fuel pt = { pt with undo := pt.undo.take n, saveValid := sv } ∧
      (pt.undoLimit = none → pt.undo.take n = pt.undo) ∧
      (sv = true → pt.saveValid = true ∧ (pt.undo.take n = pt.undo ∨ pt.savedState ≠ 0)) := by
  induction fuel generalizing pt with
  | zero => exact ⟨pt.undo.length, pt.saveValid, by simp [evictOldest], by simp, by simp⟩
  | succ fuel ih =>
    have stay : ∃ n sv, pt = { pt with undo := pt.undo.take n, saveValid := sv } ∧
        (pt.undoLimit = none → pt.undo.take n = pt.undo) ∧
        (sv = true → pt.saveValid = true ∧ (pt.undo.take n = pt.undo ∨ pt.savedState ≠ 0)) :=
      ⟨pt.undo.length, pt.saveValid, by simp, by simp, by simp⟩
    rw [evictOldest]
    cases hlast : pt.undo.getLast? with
    | none => exact stay
    | some oldest =>
      by_cases hlim : atLimit pt.undoLimit pt.undo.length = true
      · simp only [hlim, if_true]
        obtain ⟨n, sv, heq, -, hsv⟩ := ih
          { pt with
            undo := pt.undo.dropLast
            saveValid := pt.saveValid &&
              !(pt.savedState == 0 || pt.savedState == oldest.postState) }
        refine ⟨min n (pt.undo.length - 1), sv, ?_, ?_, ?_⟩
        · rw [heq]
          simp only [dropLast_eq_take, take_take]
        · intro hnone
          rw [hnone] at hlim
          simp [atLimit] at hlim
        · intro htrue
          have := (hsv htrue).1
          simp only [Bool.and_eq_true, Bool.not_eq_true', Bool.or_eq_false_iff,
            beq_eq_false_iff_ne] at this
          exact ⟨this.1, .inr this.2.1⟩
      · simp only [hlim]
        exact stay

theorem stackPush_spec {h : Heap} {stack : List PtEdit} {cap : Nat} {o : Option (List PtEdit × Nat)}
    {h' : Heap} (hp : stackPush h stack cap e = (o, h')) :
    h.Later h' ∧ (o = none → ¬ h.Grants) ∧ ∀ s c, o = some (s, c) → s = e :: stack := by
  rw [stackPush] at hp
  split at hp
  · have ha := h.alloc_allocated
    generalize h.alloc = r at ha hp
    cases ha with
    | refused hg =>
      cases hp
      refine ⟨h.later_succ, fun _ hall => ?_, by simp⟩
      rw [hall] at hg
      cases hg
    | granted hg =>
      cases hp
      refine ⟨h.later_succ, by simp, ?_⟩
      rintro s c ⟨⟩
      rfl
  · cases hp
    refine ⟨Heap.Later.refl h, by simp, ?_⟩
    rintro s c ⟨⟩
    rfl

theorem recordEdit_recorded (pt : PieceTree) (kind : PtEditKind) (offset len : Nat)
    (spans : List PtSpan) :
    Recorded pt (newRecord pt kind offset len spans) (recordEdit pt kind offset len spans) := by
  by_cases hlim : pt.undoLimit = some 0
  · simp only [recordEdit, hlim, if_true]
    have := Recorded.unlimited0 (e := newRecord pt kind offset len spans) hlim
    rw [hlim] at this
    exact this
  · obtain ⟨n, sv, heq, hn, hsv⟩ := evictOldest_spec pt.undo.length { pt with redo := [] }
    simp only at heq hn hsv
    simp only [recordEdit, hlim, if_false, heq]
    cases hp : stackPush pt.heap (pt.undo.take n) pt.undoCap
        (newRecord pt kind offset len spans) with
    | mk o h =>
      obtain ⟨hl, hnone, hsome⟩ := stackPush_spec hp
      have hp' : stackPush pt.heap (pt.undo.take n) pt.undoCap
          (newRecord { pt with redo := [], undo := pt.undo.take n, saveValid := sv }
            kind offset len spans) = (o, h) := hp
      rw [hp']
      cases o with
      | none => exact .lost h hl (hnone rfl)
      | some sc =>
        obtain ⟨s, c⟩ := sc
        rw [hsome s c rfl]
        exact .pushed n sv c h hlim hl hn hsv

/-! ## Editing -/

/-- Everything an `insert` or `delete` that should lead to `D'` can do. -/
inductive Edited (pt : PieceTree) (D' : List UInt8) : Rc × PieceTree → Prop where
  | failed (pt' : PieceTree) (htext : TextOnly pt pt') (hgrow : Grown pt pt') (hw : Wf pt')
      (hl : pt.heap.Later pt'.heap) (hdoc : doc pt' = doc pt)
      (hg : pt.readOnly = true ∨ ¬ pt.heap.Grants) : Edited pt D' (.err, pt')
  | noop (hdoc : D' = doc pt) : Edited pt D' (.ok, pt)
  | recorded (pt₁ : PieceTree) (kind : PtEditKind) (offset len : Nat) (spans : List PtSpan)
      (htext : TextOnly pt pt₁) (hgrow : Grown pt pt₁) (hw : Wf pt₁)
      (hl : pt.heap.Later pt₁.heap) (hdoc : doc pt₁ = D')
      (he : EditOk pt₁ (newRecord pt₁ kind offset len spans))
      (ht : Takes (change pt₁ (newRecord pt₁ kind offset len spans)) (doc pt) (doc pt₁)) :
      Edited pt D' (.ok, recordEdit pt₁ kind offset len spans)
  | lost (pt₁ : PieceTree) (htext : TextOnly pt pt₁) (hgrow : Grown pt pt₁) (hw : Wf pt₁)
      (hl : pt.heap.Later pt₁.heap) (hdoc : doc pt₁ = D') (hg : ¬ pt.heap.Grants) :
      Edited pt D' (.ok, { pt₁ with undo := [], redo := [], saveValid := false })

/-- A well-formed tree stays so when the add buffer grows under it. -/
theorem Wf.grow (hw : Wf pt) (pt' : PieceTree) (hg : Grown pt pt') (ht : pt'.tree = pt.tree)
    (hl : pt.heap.Later pt'.heap) (hi : Indexed pt') : Wf pt' ∧ doc pt' = doc pt := by
  refine ⟨⟨hi, ?_, ?_, ?_, ?_⟩, ?_⟩
  · rw [ht]
    exact hw.summed
  · rw [ht]
    exact hw.distinct
  · rw [ht]
    exact fun p hp => Nat.lt_of_lt_of_le (hw.fresh p hp) hl.calls
  · rw [ht]
    exact fun p hp => hg.pieceOk (hw.pieces p hp)
  · rw [doc, doc, ht]
    exact hg.bytesOf hw.pieces

theorem reserve_spec {h : Heap} {cap initial need : Nat} {o : Option Nat} {h' : Heap}
    (hr : reserve h cap initial need = (o, h')) : h.Later h' ∧ (o = none → ¬ h.Grants) := by
  rw [reserve] at hr
  split at hr
  · have ha := h.alloc_allocated
    generalize h.alloc = r at ha hr
    cases ha with
    | refused hg =>
      cases hr
      refine ⟨h.later_succ, fun _ hall => ?_⟩
      rw [hall] at hg
      cases hg
    | granted hg =>
      cases hr
      exact ⟨h.later_succ, by simp⟩
  · cases hr
    exact ⟨Heap.Later.refl h, by simp⟩

/-- Everything `add_append` can do. -/
inductive Appended (pt : PieceTree) (data : List UInt8) : Rc × PieceTree → Prop where
  | failed (cap : Nat) (h : Heap) (hl : pt.heap.Later h) (hg : ¬ pt.heap.Grants) :
      Appended pt data (.err, { pt with addCap := cap, heap := h })
  | appended (cap nlCap : Nat) (h : Heap) (hl : pt.heap.Later h) :
      Appended pt data (.ok, { pt with
        addCap := cap, addNlCap := nlCap, heap := h, add := pt.add ++ data,
        addNl := pt.addNl ++ newlineOffsets pt.add.length data })

theorem addAppend_appended (pt : PieceTree) (data : List UInt8) :
    Appended pt data (addAppend pt data) := by
  rw [addAppend]
  cases hr : reserve pt.heap pt.addCap 64 (pt.add.length + data.length) with
  | mk o h =>
    obtain ⟨hl, hnone⟩ := reserve_spec hr
    cases o with
    | none => exact .failed pt.addCap h hl (hnone rfl)
    | some cap =>
      dsimp only
      cases hr' : reserve h pt.addNlCap 16
          (pt.addNl.length + (newlineOffsets pt.add.length data).length) with
      | mk o' h' =>
        obtain ⟨hl', hnone'⟩ := reserve_spec hr'
        cases o' with
        | none => exact .failed cap h' (hl.trans hl') fun hg => hnone' rfl (hg.later hl)
        | some nlCap => exact .appended cap nlCap h' (hl.trans hl')

/-- The piece that absorbs an insertion is the last one, ends where the add
buffer ended, and the insertion is at the end of the document. -/
theorem coalesceTarget_spec (hw : Wf pt) {offset addStart : Nat} {p : Piece}
    (h : coalesceTarget pt offset addStart = some p) :
    (doc pt).length ≤ offset ∧ (∃ xs, pt.tree.toList = xs ++ [p]) ∧ p.source = .add ∧
      p.start + p.length = addStart := by
  have hf := findPiece_spec hw.summed offset
  rw [coalesceTarget] at h
  generalize findPiece pt.tree offset = res at hf h
  cases hf with
  | beyond hb =>
    simp only [RbTree.last_eq] at h
    cases hlast : pt.tree.toList.getLast? with
    | none => simp [hlast] at h
    | some q =>
      rw [hlast] at h
      dsimp only at h
      split at h
      · rename_i hq
        cases h
        refine ⟨?_, getLast?_eq_some_iff.mp hlast, hq⟩
        rw [doc, length_bytesOf hw.pieces]
        exact hb
      · cases h
  | inside xs ys hps hoff hlt =>
    dsimp only at h
    split at h
    · omega
    · cases h

/-- Recording an insertion that was applied. -/
theorem edited_recordInsert (pt : PieceTree) {pt₁ : PieceTree} (hw : Wf pt₁) (htext : TextOnly pt pt₁)
    (hgrow : Grown pt pt₁) (hl : pt.heap.Later pt₁.heap) {offset : Nat} {span : PtSpan}
    (ho : offset ≤ (doc pt).length) (hs : SpanOk pt₁ span) {data : List UInt8}
    (hb : spanBytes pt₁ span = data) (hdoc : doc pt₁ = splice (doc pt) offset data) :
    Edited pt (splice (doc pt) offset data) (.ok, recordInsert pt₁ offset span) := by
  subst hb
  have ha := pt₁.heap.alloc_allocated
  rw [recordInsert]
  generalize pt₁.heap.alloc = r at ha
  have hsame : ∀ {h : Heap}, pt₁.heap.Later h →
      TextOnly pt { pt₁ with heap := h } ∧ Grown pt { pt₁ with heap := h } ∧
        Wf { pt₁ with heap := h } ∧ doc { pt₁ with heap := h } = doc pt₁ := by
    intro h hlat
    refine ⟨?_, ⟨hgrow.view, hgrow.add⟩, ?_⟩
    · rw [TextOnly, htext]
    · exact Wf.grow hw _ ⟨rfl, prefix_rfl⟩ rfl hlat ⟨hw.indexed.orig, hw.indexed.add⟩
  obtain ⟨h₁, h₂, h₃, h₄⟩ := hsame pt₁.heap.later_succ
  cases ha with
  | granted hg =>
    refine .recorded _ .insert offset span.length [span] h₁ h₂ h₃ (hl.trans pt₁.heap.later_succ)
      (h₄.trans hdoc) ⟨?_, by simp [newRecord], ?_⟩ ?_
    · intro sp hsp
      rw [mem_singleton.mp hsp]
      exact ⟨hs.pos, hs.inside⟩
    · simp only [newRecord, spansBytes, flatMap_cons, flatMap_nil, append_nil]
      exact hs.length
    · refine takes_insert_iff.mpr ⟨ho, ?_⟩
      rw [h₄, hdoc]
      simp only [newRecord, spansBytes, flatMap_cons, flatMap_nil, append_nil]
      rfl
  | refused hg =>
    refine .lost { pt₁ with heap := { pt₁.heap with calls := pt₁.heap.calls + 1 } } h₁ h₂ h₃
      (hl.trans pt₁.heap.later_succ) (h₄.trans hdoc) ?_
    intro hall
    have := hall.later hl pt₁.heap.calls
    rw [hg] at this
    cases this

/-- **`axl_piece_tree_insert`**. -/
theorem insert_edited (hw : Wf pt) (offset : Nat) (data : List UInt8) :
    Edited pt (splice (doc pt) offset data) (insert pt offset data) := by
  rw [insert]
  split
  case isTrue hro =>
    exact .failed pt rfl (Grown.refl pt) hw (Heap.Later.refl _) rfl (.inl hro)
  split
  case isTrue hnil =>
    refine .noop ?_
    rw [length_eq_zero_iff.mp hnil, splice]
    simp
  case isFalse hro hne =>
    rw [← splice_min, ← hw.length_eq]
    have ho : min offset (length pt) ≤ (doc pt).length := by
      rw [hw.length_eq]
      exact Nat.min_le_right _ _
    generalize min offset (length pt) = offset at ho
    have ha := addAppend_appended pt data
    dsimp only
    generalize addAppend pt data = r at ha
    cases ha with
    | failed cap h hl hg =>
      obtain ⟨hw', hd'⟩ := Wf.grow hw { pt with addCap := cap, heap := h }
        ⟨rfl, prefix_rfl⟩ rfl hl ⟨hw.indexed.orig, hw.indexed.add⟩
      exact .failed _ rfl ⟨rfl, prefix_rfl⟩ hw' hl hd' (.inr hg)
    | appended cap nlCap h hl =>
      set pt₁ : PieceTree := { pt with
        addCap := cap, addNlCap := nlCap, heap := h, add := pt.add ++ data,
        addNl := pt.addNl ++ newlineOffsets pt.add.length data } with hpt₁
      have hgrow : Grown pt pt₁ := ⟨rfl, prefix_append _ _⟩
      have hi : Indexed pt₁ := by
        refine ⟨hw.indexed.orig, ?_⟩
        rw [hpt₁]
        simp only
        rw [newlineOffsets_append, ← hw.indexed.add, Nat.zero_add]
      obtain ⟨hw₁, hd₁⟩ := hw.grow pt₁ hgrow rfl hl hi
      have hspan : SpanOk pt₁ ⟨.add, pt.add.length, data.length⟩ :=
        ⟨Nat.pos_of_ne_zero hne, by simp [source, hpt₁]⟩
      have hbytes : spanBytes pt₁ ⟨.add, pt.add.length, data.length⟩ = data := by
        simp [spanBytes, readSrc, source, hpt₁]
      dsimp only
      cases hco : coalesceTarget pt₁ offset pt.add.length with
      | some p =>
        obtain ⟨hend, ⟨xs, hxs⟩, hsrc, hstart⟩ := coalesceTarget_spec hw₁ hco
        have hokp : PieceOk pt₁ p := hw₁.pieces p (by simp [hxs])
        dsimp only
        set nl := countNlSpan pt₁ .add pt.add.length data.length with hnl
        have hsplit : pieceBytes pt₁ (extendPiece data.length nl p)
            = pieceBytes pt₁ p ++ data := by
          have := take_add (l := (source pt₁ .add).drop p.start) (i := p.length)
            (j := data.length)
          rw [drop_drop, hstart] at this
          rw [pieceBytes, pieceBytes, extendPiece, readSrc, readSrc, hsrc, this]
          exact congrArg _ hbytes
        have hokx : PieceOk pt₁ (extendPiece data.length nl p) := by
          refine ⟨Nat.lt_of_lt_of_le hokp.pos (Nat.le_add_right _ _), ?_, ?_⟩
          · have := hspan.inside
            simp only [← hstart] at this
            simp only [extendPiece, hsrc]
            omega
          · rw [hsplit, count_append, ← hokp.newlines, hnl, countNlSpan_eq hi]
            exact congrArg _ (congrArg _ hbytes)
        have hlive := hw₁.live
        rw [hxs] at hlive
        have ht := treeFor_of_toList
          (updatePiece_spec (extendPiece data.length nl) hxs hw₁.distinct hw₁.summed)
          (hlive.replace hokx rfl)
        obtain ⟨hw₂, hd₂⟩ := ht.wf hi
        have hdoc : bytesOf pt₁ (xs ++ [extendPiece data.length nl p])
            = splice (doc pt) offset data := by
          rw [← hd₁, splice_of_length_le hend, doc, hxs, bytesOf_append, bytesOf_append,
            bytesOf_cons, bytesOf_cons, hsplit]
          simp
        exact edited_recordInsert pt hw₂ rfl ⟨rfl, prefix_append _ _⟩ hl ho
          ⟨hspan.pos, hspan.inside⟩ hbytes (hd₂.trans hdoc)
      | none =>
        have hout := spliceIn_outcome hw₁ offset (cons_ne_nil _ [])
          (by simpa using hspan)
        have hgr : pt₁.heap.Grants →
            (spliceIn pt₁ offset [⟨.add, pt.add.length, data.length⟩]).1 = .ok :=
          fun hg => spliceIn_ok hw₁ hg offset (by simpa using hspan)
        rw [hd₁, show spansBytes pt₁ [⟨.add, pt.add.length, data.length⟩] = data by
          simpa [spansBytes] using hbytes] at hout
        dsimp only
        generalize spliceIn pt₁ offset [⟨.add, pt.add.length, data.length⟩] = res at hout hgr
        cases hout with
        | failed h' hl' =>
          obtain ⟨hw', hd'⟩ := Wf.grow hw₁ { pt₁ with heap := h' }
            ⟨rfl, prefix_rfl⟩ rfl hl' ⟨hw₁.indexed.orig, hw₁.indexed.add⟩
          refine .failed _ rfl ⟨rfl, prefix_append _ _⟩ hw' (hl.trans hl')
            (hd'.trans hd₁) (.inr fun hg => ?_)
          cases hgr (hg.later hl)
        | applied t h' hl' ht =>
          obtain ⟨hw₂, hd₂⟩ := ht.wf hi
          exact edited_recordInsert pt hw₂ rfl ⟨rfl, prefix_append _ _⟩ (hl.trans hl') ho
            ⟨hspan.pos, hspan.inside⟩ hbytes hd₂

/-- **`axl_piece_tree_delete`**. -/
theorem delete_edited (hw : Wf pt) (offset len : Nat) :
    Edited pt (cut (doc pt) offset len) (delete pt offset len) := by
  rw [delete]
  split
  case isTrue hro =>
    exact .failed pt rfl (Grown.refl pt) hw (Heap.Later.refl _) rfl (.inl hro)
  rw [hw.length_eq]
  split
  case isTrue hc =>
    refine .noop ?_
    rcases hc with hc | hc
    · rw [cut, take_of_length_le hc, drop_of_length_le (by omega), append_nil]
    · rw [hc, cut_zero]
  case isFalse hro hc =>
    have ho : offset < (doc pt).length := by omega
    have hcut : cut (doc pt) offset len
        = cut (doc pt) offset (min len ((doc pt).length - offset)) := by
      rcases Nat.le_total len ((doc pt).length - offset) with h | h
      · rw [Nat.min_eq_left h]
      · rw [Nat.min_eq_right h, cut, cut, drop_of_length_le (by omega),
          drop_of_length_le (by omega)]
    have hpos : 0 < min len ((doc pt).length - offset) := by omega
    have hle : min len ((doc pt).length - offset) ≤ (doc pt).length - offset :=
      Nat.min_le_right _ _
    rw [hcut]
    generalize min len ((doc pt).length - offset) = len at hpos hle
    dsimp only
    cases hcap : captureSpans pt offset len with
    | mk o h =>
      obtain ⟨hl, hgr, hspans⟩ := captureSpans_spec hw ho len hcap
      obtain ⟨hw₁, hd₁⟩ := Wf.grow hw { pt with heap := h }
        ⟨rfl, prefix_rfl⟩ rfl hl ⟨hw.indexed.orig, hw.indexed.add⟩
      cases o with
      | none =>
        exact .failed _ rfl ⟨rfl, prefix_rfl⟩ hw₁ hl hd₁
          (.inr fun hg => hgr hg rfl)
      | some spans =>
        obtain ⟨hok, hb⟩ := hspans spans rfl
        obtain ⟨hout, hgr'⟩ := doDeleteRange_outcome hw₁ offset len
        rw [hd₁] at hout
        dsimp only
        generalize doDeleteRange { pt with heap := h } offset len = res at hout hgr'
        cases hout with
        | failed h' hl' =>
          obtain ⟨hw', hd'⟩ := Wf.grow hw { pt with heap := h' }
            ⟨rfl, prefix_rfl⟩ rfl (hl.trans hl') ⟨hw.indexed.orig, hw.indexed.add⟩
          refine .failed _ rfl ⟨rfl, prefix_rfl⟩ hw' (hl.trans hl') hd'
            (.inr fun hg => ?_)
          cases hgr' (hg.later hl)
        | applied t h' hl' ht =>
          obtain ⟨hw₂, hd₂⟩ := ht.wf hw₁.indexed
          have hblen : (spansBytes pt spans).length = len := by
            rw [hb, length_take, length_drop]
            omega
          refine .recorded _ .delete offset len spans rfl ⟨rfl, prefix_rfl⟩ hw₂
            (hl.trans hl') hd₂ ⟨fun sp hsp => ⟨(hok sp hsp).pos, (hok sp hsp).inside⟩, ?_, ?_⟩ ?_
          · rintro hnil
            rw [show spans = [] from hnil] at hblen
            simp [spansBytes] at hblen
            omega
          · exact hblen
          · refine takes_delete_iff.mpr ⟨?_, ?_⟩
            · rw [hd₂, cut, length_append, length_take]
              simp only [newRecord]
              omega
            · rw [hd₂]
              refine (splice_cut (Nat.le_of_lt ho) len).symm.trans ?_
              rw [← hb]
              rfl

/-! ## Undo and redo steps -/

/-- The tree is well formed and every record denotes bytes of the sources. -/
structure Sound (pt : PieceTree) : Prop where
  wf : Wf pt
  undo : ∀ e ∈ pt.undo, EditOk pt e
  redo : ∀ e ∈ pt.redo, EditOk pt e

/-- **`edit_apply`**: the record's action, on whatever document it meets; when
the document is one the record was made for, the other end of its change. -/
theorem editApply_outcome (hw : Wf pt) (he : EditOk pt e) (inverse : Bool) :
    ∃ D, Outcome pt D (editApply pt e inverse) ∧
      (pt.heap.Grants → (editApply pt e inverse).1 = .ok) ∧
      (∀ D₀, inverse = true → Takes (change pt e) D₀ (doc pt) → D = D₀) ∧
      (∀ D₀, inverse = false → Takes (change pt e) (doc pt) D₀ → D = D₀) := by
  have hins := spliceIn_outcome hw e.offset he.nonempty he.spans
  have hinsg := fun hg => spliceIn_ok hw hg e.offset he.spans
  obtain ⟨hdel, hdelg⟩ := doDeleteRange_outcome hw e.offset e.length
  cases hk : e.kind <;> cases inverse <;>
    simp only [editApply, change, hk, eq_self, reduceCtorEq, if_true, if_false, eq_iff_iff,
      Bool.true_eq_false, Bool.false_eq_true, iff_false, iff_true, not_true]
  · refine ⟨_, hins, hinsg, by simp, fun D₀ _ ht => ?_⟩
    exact (takes_insert_iff.mp ht).2.symm
  · refine ⟨_, hdel, hdelg, fun D₀ _ ht => ?_, by simp⟩
    obtain ⟨ho, hD⟩ := takes_insert_iff.mp ht
    rw [hD, ← he.length]
    exact cut_splice ho _
  · refine ⟨_, hdel, hdelg, by simp, fun D₀ _ ht => ?_⟩
    obtain ⟨ho, hD⟩ := takes_delete_iff.mp ht
    rw [hD, ← he.length]
    exact cut_splice ho _
  · refine ⟨_, hins, hinsg, fun D₀ _ ht => ?_, by simp⟩
    exact (takes_delete_iff.mp ht).2.symm

/-- Everything the tail of a `step` round can do with the applied record. -/
inductive Moved (pt : PieceTree) (e : PtEdit) : Bool → Bool × PieceTree → Prop where
  | undone (cap : Nat) (h : Heap) (hl : pt.heap.Later h) :
      Moved pt e true (true, { pt with
        undo := pt.undo.tail, redo := e :: pt.redo, redoCap := cap, heap := h })
  | undoneLost (h : Heap) (hl : pt.heap.Later h) (hg : ¬ pt.heap.Grants) :
      Moved pt e true (false, { pt with undo := pt.undo.tail, heap := h })
  | redone (cap : Nat) (h : Heap) (hl : pt.heap.Later h) :
      Moved pt e false (true, { pt with
        redo := pt.redo.tail, undo := e :: pt.undo, undoCap := cap, heap := h })
  | redoneLost (h : Heap) (hl : pt.heap.Later h) (hg : ¬ pt.heap.Grants) :
      Moved pt e false (false, { pt with redo := pt.redo.tail, heap := h })

theorem moveRecord_moved (pt : PieceTree) (inverse : Bool) (e : PtEdit) :
    Moved pt e inverse (moveRecord pt inverse e) := by
  cases inverse with
  | true =>
    rw [moveRecord, if_pos rfl]
    cases hp : stackPush pt.heap pt.redo pt.redoCap e with
    | mk o h =>
      obtain ⟨hl, hnone, hsome⟩ := stackPush_spec hp
      cases o with
      | none => exact .undoneLost h hl (hnone rfl)
      | some sc =>
        obtain ⟨s, c⟩ := sc
        rw [hsome s c rfl]
        exact .undone c h hl
  | false =>
    rw [moveRecord, if_neg (by simp)]
    cases hp : stackPush pt.heap pt.undo pt.undoCap e with
    | mk o h =>
      obtain ⟨hl, hnone, hsome⟩ := stackPush_spec hp
      cases o with
      | none => exact .redoneLost h hl (hnone rfl)
      | some sc =>
        obtain ⟨s, c⟩ := sc
        rw [hsome s c rfl]
        exact .redone c h hl

/-- A state with the same text is as sound, for records that were there. -/
theorem Sound.sameText (hs : Sound pt) (h : SameText pt pt')
    (hu : ∀ e ∈ pt'.undo, e ∈ pt.undo ∨ e ∈ pt.redo)
    (hr : ∀ e ∈ pt'.redo, e ∈ pt.undo ∨ e ∈ pt.redo) : Sound pt' := by
  have hrec : ∀ e, e ∈ pt.undo ∨ e ∈ pt.redo → EditOk pt' e := fun e he =>
    h.grown.editOk (he.elim (hs.undo e) (hs.redo e))
  exact ⟨h.wf hs.wf, fun e he => hrec e (hu e he), fun e he => hrec e (hr e he)⟩

theorem fromStack_sound (hs : Sound pt) {inverse : Bool} {es : List PtEdit}
    (h : fromStack pt inverse = e :: es) : EditOk pt e := by
  rw [fromStack] at h
  split at h
  · exact hs.undo e (by simp [h])
  · exact hs.redo e (by simp [h])

/-- One applied record keeps the state sound. -/
theorem Sound.applied (hs : Sound pt) {D : List UInt8} {t : Tree Piece Sums} {h : Heap}
    (ht : TreeFor pt h t D) : Sound { pt with tree := t, heap := h } := by
  refine ⟨(ht.wf hs.wf.indexed).1, fun e he => ?_, fun e he => ?_⟩
  · obtain ⟨h₁, h₂, h₃⟩ := hs.undo e he
    exact ⟨fun sp hsp => ⟨(h₁ sp hsp).pos, (h₁ sp hsp).inside⟩, h₂, h₃⟩
  · obtain ⟨h₁, h₂, h₃⟩ := hs.redo e he
    exact ⟨fun sp hsp => ⟨(h₁ sp hsp).pos, (h₁ sp hsp).inside⟩, h₂, h₃⟩

theorem Moved.sameText {inverse : Bool} {r : Bool × PieceTree} (hm : Moved pt e inverse r) :
    SameText pt r.2 := by
  cases hm <;> exact ⟨rfl, rfl, rfl, rfl, rfl, by assumption⟩

/-- Moving the record that was just applied keeps the state sound. -/
theorem Sound.moved (hs : Sound pt) {inverse : Bool} {es : List PtEdit}
    (hf : fromStack pt inverse = e :: es) {r : Bool × PieceTree} (hm : Moved pt e inverse r) :
    Sound r.2 := by
  have htail : ∀ l : List PtEdit, ∀ x ∈ l.tail, x ∈ l := fun l x hx => mem_of_mem_tail hx
  have hsame := hm.sameText
  cases hm with
  | undone cap h hl =>
    have he : pt.undo = e :: es := hf
    refine hs.sameText hsame (fun x hx => .inl (htail _ x hx)) ?_
    exact forall_mem_cons.mpr ⟨.inl (by simp [he]), fun x hx => .inr hx⟩
  | undoneLost h hl hg =>
    exact hs.sameText hsame (fun x hx => .inl (htail _ x hx)) fun x hx => .inr hx
  | redone cap h hl =>
    have he : pt.redo = e :: es := hf
    refine hs.sameText hsame ?_ (fun x hx => .inr (htail _ x hx))
    exact forall_mem_cons.mpr ⟨.inr (by simp [he]), fun x hx => .inl hx⟩
  | redoneLost h hl hg =>
    exact hs.sameText hsame (fun x hx => .inl hx) fun x hx => .inr (htail _ x hx)

/-! ## Edits keep the state sound -/

/-- The state that `record_edit` works on, once the text has changed. -/
theorem Sound.textOnly {pt₁ : PieceTree} (hs : Sound pt) (htext : TextOnly pt pt₁)
    (hgrow : Grown pt pt₁) (hw : Wf pt₁) : Sound pt₁ := by
  exact ⟨hw, fun e he => hgrow.editOk (hs.undo e (htext.undo ▸ he)),
    fun e he => hgrow.editOk (hs.redo e (htext.redo ▸ he))⟩

theorem Recorded.sameText (hr : Recorded pt e pt') : SameText pt pt' := by
  cases hr with
  | unlimited0 hlim => exact ⟨rfl, rfl, rfl, rfl, rfl, Heap.Later.refl _⟩
  | pushed n sv cap h hlim hl hn hsv => exact ⟨rfl, rfl, rfl, rfl, rfl, hl⟩
  | lost h hl hg => exact ⟨rfl, rfl, rfl, rfl, rfl, hl⟩

theorem Sound.recorded (hs : Sound pt) (he : EditOk pt e) (hr : Recorded pt e pt') : Sound pt' := by
  have hsame := hr.sameText
  cases hr with
  | unlimited0 hlim => exact hs.sameText hsame (fun x hx => .inl hx) (by simp)
  | pushed n sv cap h hlim hl hn hsv =>
    refine ⟨hsame.wf hs.wf, forall_mem_cons.mpr ⟨hsame.grown.editOk he, ?_⟩, by simp⟩
    exact fun x hx => hsame.grown.editOk (hs.undo x (mem_of_mem_take hx))
  | lost h hl hg => exact hs.sameText hsame (by simp) (by simp)

/-- An `insert` or `delete` keeps the state sound, leaves the text alone when it
fails, and otherwise leads to the intended text. -/
theorem Sound.edited (hs : Sound pt) {D' : List UInt8} {r : Rc × PieceTree} (he : Edited pt D' r) :
    Sound r.2 ∧ (r.1 = .err → doc r.2 = doc pt) ∧ (r.1 = .ok → doc r.2 = D') ∧
      (pt.readOnly = false → pt.heap.Grants → r.1 = .ok) := by
  cases he with
  | failed pt' htext hgrow hw hl hdoc hg =>
    refine ⟨hs.textOnly htext hgrow hw, fun _ => hdoc, by simp, fun hro hgr => ?_⟩
    rcases hg with hg | hg
    · rw [hro] at hg
      cases hg
    · exact absurd hgr hg
  | noop hdoc => exact ⟨hs, by simp, fun _ => hdoc.symm, fun _ _ => rfl⟩
  | recorded pt₁ kind offset len spans htext hgrow hw hl hdoc he ht =>
    have hr := recordEdit_recorded pt₁ kind offset len spans
    exact ⟨(hs.textOnly htext hgrow hw).recorded he hr, by simp,
      fun _ => hr.sameText.doc.trans hdoc, fun _ _ => rfl⟩
  | lost pt₁ htext hgrow hw hl hdoc hg =>
    have hsame : SameText pt₁ { pt₁ with undo := [], redo := [], saveValid := false } :=
      ⟨rfl, rfl, rfl, rfl, rfl, Heap.Later.refl _⟩
    exact ⟨(hs.textOnly htext hgrow hw).sameText hsame (by simp) (by simp), by simp,
      fun _ => hsame.doc.trans hdoc, fun _ _ => rfl⟩

end PieceTree

end AxlSdk
