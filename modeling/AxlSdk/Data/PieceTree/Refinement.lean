import AxlSdk.Data.PieceTree.Trace

/-!
# The piece tree denotes one byte string

Opening a file indexes its newlines chunk by chunk and makes a single piece of
it; from there every run keeps the state `Sound`. With every allocation granted
the queries and the two edits then answer for the byte string `doc`, whatever
undo, redo, grouping and undo limits did in between: `run_refines`.
-/

namespace AxlSdk

namespace PieceTree

open AugTree AugTree.Tree EditHistory List

/-! ## Opening a file -/

theorem scanChunk_spec {h : Heap} {off : Nat} {bs : List UInt8} {nl : List Nat} {cap : Nat}
    {o : Option (List Nat × Nat)} {h' : Heap} (hr : scanChunk h off bs nl cap = (o, h')) :
    h.Later h' ∧ (h.Grants → o ≠ none) ∧
      ∀ nl' cap', o = some (nl', cap') → nl' = nl ++ newlineOffsets off bs := by
  induction bs generalizing h off nl cap with
  | nil =>
    cases hr
    refine ⟨Heap.Later.refl _, by simp, ?_⟩
    rintro nl' cap' ⟨⟩
    simp [newlineOffsets]
  | cons b bs ih =>
    rw [scanChunk] at hr
    by_cases hb : b = newline
    · rw [if_pos hb] at hr
      have hlist : nl ++ newlineOffsets off (b :: bs)
          = (nl ++ [off]) ++ newlineOffsets (off + 1) bs := by
        simp [newlineOffsets, hb]
      rw [hlist]
      split at hr
      · have ha := h.alloc_allocated
        generalize h.alloc = r at ha hr
        cases ha with
        | refused hg =>
          cases hr
          refine ⟨h.later_succ, fun hall => ?_, by simp⟩
          rw [hall] at hg
          cases hg
        | granted hg =>
          obtain ⟨hl, hgr, hres⟩ := ih hr
          exact ⟨h.later_succ.trans hl, fun hall => hgr (hall.later h.later_succ), hres⟩
      · exact ih hr
    · rw [if_neg hb] at hr
      rw [newlineOffsets, if_neg hb]
      exact ih hr

/-- The scan indexes the newlines of the whole file. -/
theorem scanNewlines_spec {view : List UInt8} (fuel : Nat) {h : Heap} {off cap : Nat}
    (hoff : off ≤ view.length) (hfuel : view.length - off ≤ fuel) {o : Option (List Nat)}
    {h' : Heap}
    (hr : scanNewlines view fuel h off (newlineOffsets 0 (view.take off)) cap = (o, h')) :
    h.Later h' ∧ (h.Grants → o ≠ none) ∧ ∀ nl, o = some nl → nl = newlineOffsets 0 view := by
  induction fuel generalizing h off cap with
  | zero =>
    cases hr
    refine ⟨Heap.Later.refl _, by simp, ?_⟩
    rintro nl ⟨⟩
    rw [take_of_length_le (by omega)]
  | succ fuel ih =>
    rw [scanNewlines] at hr
    by_cases hlt : off < view.length
    · rw [if_pos hlt] at hr
      dsimp only at hr
      cases hc : scanChunk h off ((view.drop off).take 4096) (newlineOffsets 0 (view.take off))
          cap with
      | mk o₁ h₁ =>
        obtain ⟨hl, hgr, hres⟩ := scanChunk_spec hc
        rw [hc] at hr
        cases o₁ with
        | none =>
          cases hr
          exact ⟨hl, fun hg => absurd rfl (hgr hg), by simp⟩
        | some nc =>
          obtain ⟨nl, cap'⟩ := nc
          have hnl : nl = newlineOffsets 0
              (view.take (off + ((view.drop off).take 4096).length)) := by
            rw [hres nl cap' rfl, length_take, take_add, newlineOffsets_append,
              length_take_of_le hoff, Nat.zero_add]
            congr 2
            rcases Nat.le_total 4096 (view.drop off).length with hle | hle
            · rw [Nat.min_eq_left hle]
            · rw [Nat.min_eq_right hle, take_of_length_le hle,
                take_of_length_le (Nat.le_refl _)]
          dsimp only at hr
          rw [hnl] at hr
          have hpos : 0 < ((view.drop off).take 4096).length := by
            rw [length_take, length_drop]
            omega
          have hle : ((view.drop off).take 4096).length ≤ view.length - off := by
            rw [length_take, length_drop]
            omega
          obtain ⟨hl₂, hgr₂, hres₂⟩ := ih (by omega) (by omega) hr
          exact ⟨hl.trans hl₂, fun hg => hgr₂ (hg.later hl), hres₂⟩
    · rw [if_neg hlt] at hr
      cases hr
      refine ⟨Heap.Later.refl _, by simp, ?_⟩
      rintro nl ⟨⟩
      rw [take_of_length_le (by omega)]

/-- **Opening** a file gives a sound state that denotes the file, with empty
stacks and the save point at the base state. -/
theorem openView_spec (h : Heap) (view : List UInt8) :
    (h.Grants → openView h view ≠ none) ∧ ∀ pt, openView h view = some pt →
      Sound pt ∧ doc pt = view ∧ pt.heap.grant = h.grant ∧ pt.undo = [] ∧ pt.redo = [] ∧
        pt.undoLimit = none ∧ pt.readOnly = false ∧ pt.stateSeq = 0 ∧ pt.savedState = 0 ∧
        pt.groupSeq = 0 ∧ ¬ grouped pt := by
  have ha := h.alloc_allocated
  rw [openView, new]
  generalize h.alloc = r at ha
  cases ha with
  | refused hg =>
    refine ⟨fun hall => ?_, by simp⟩
    rw [hall] at hg
    cases hg
  | granted hg =>
    dsimp only
    split
    case isTrue hpos =>
      cases hsc : scanNewlines view view.length { h with calls := h.calls + 1 } 0 [] 0 with
      | mk o h₁ =>
        obtain ⟨hl, hgr, hres⟩ := scanNewlines_spec view.length (Nat.zero_le _) (by omega) hsc
        have hl₁ := h.later_succ.trans hl
        cases o with
        | none => exact ⟨fun hall => absurd rfl (hgr (hall.later h.later_succ)), by simp⟩
        | some nl =>
          have hnl := hres nl rfl
          have ha₁ := h₁.alloc_allocated
          dsimp only
          rw [pieceNew]
          generalize h₁.alloc = r at ha₁
          cases ha₁ with
          | refused hg₁ =>
            refine ⟨fun hall => ?_, by simp⟩
            rw [hall.later hl₁] at hg₁
            cases hg₁
          | granted hg₁ =>
            refine ⟨by simp, ?_⟩
            rintro pt ⟨⟩
            obtain ⟨hroot, hsum⟩ := insertRoot_spec
              ⟨h₁.calls, .original, 0, view.length, nl.length⟩
            have hb : (view.drop 0).take view.length = view :=
              take_of_length_le (Nat.le_refl view.length)
            refine ⟨⟨⟨⟨hnl, rfl⟩, hsum, ?_, ?_, ?_⟩, by simp, by simp⟩, ?_, hl₁.grant, rfl, rfl,
              rfl, rfl, rfl, rfl, rfl, by simp [grouped]⟩
            · rw [hroot]
              simp [Distinct]
            · rw [hroot]
              simp
            · rw [hroot]
              intro p hp
              rw [mem_singleton.mp hp]
              refine ⟨hpos, by simp [source], ?_⟩
              rw [pieceBytes, readSrc, source]
              simp only
              rw [hb, hnl, length_newlineOffsets]
            · rw [doc, hroot, bytesOf_cons, bytesOf_nil, append_nil, pieceBytes, readSrc,
                source]
              exact hb
    case isFalse hpos =>
      refine ⟨by simp, ?_⟩
      rintro pt ⟨⟩
      have hnil : view = [] := length_eq_zero_iff.mp (by omega)
      subst hnil
      refine ⟨⟨⟨⟨rfl, rfl⟩, trivial, by simp [Distinct], by simp, by simp⟩, by simp, by simp⟩,
        rfl, rfl, rfl, rfl, rfl, rfl, rfl, rfl, rfl, by simp [grouped]⟩

/-! ## Runs with a generous allocator -/

/-- A sound state of an editable document for which every allocation succeeds. -/
structure Ready (pt : PieceTree) : Prop where
  sound : Sound pt
  grants : pt.heap.Grants
  readOnly : pt.readOnly = false

theorem Ready.of_step {pt pt' : PieceTree} (h : Ready pt) (hs : Sound pt')
    (hl : pt.heap.Later pt'.heap) (hr : pt'.readOnly = pt.readOnly) : Ready pt' :=
  ⟨hs, h.grants.later hl, hr.trans h.readOnly⟩

theorem Edited.later {pt : PieceTree} {D' : List UInt8} {r : Rc × PieceTree}
    (he : Edited pt D' r) : pt.heap.Later r.2.heap ∧ r.2.readOnly = pt.readOnly := by
  cases he with
  | failed pt' htext hgrow hw hl hdoc hg => exact ⟨hl, by rw [htext]⟩
  | noop hdoc => exact ⟨Heap.Later.refl _, rfl⟩
  | recorded pt₁ kind offset len spans htext hgrow hw hl hdoc he ht =>
    have h₁ : pt₁.readOnly = pt.readOnly := by rw [htext]
    have hr := recordEdit_recorded pt₁ kind offset len spans
    refine ⟨hl.trans hr.sameText.heap, Eq.trans ?_ h₁⟩
    generalize recordEdit pt₁ kind offset len spans = r at hr
    cases hr <;> rfl
  | lost pt₁ htext hgrow hw hl hdoc hg =>
    have h₁ : pt₁.readOnly = pt.readOnly := by rw [htext]
    exact ⟨hl, h₁⟩

theorem runInvariant_ready : RunInvariant fun t => Ready t.pt where
  sound h := h.sound
  heap {t _} h hl := h.of_step (@runInvariant_sound.heap t _ h.sound hl) hl rfl
  edited {t _ _} h he := by
    have hs := @runInvariant_sound.edited t _ _ h.sound he
    rw [note_pt] at hs ⊢
    exact h.of_step hs he.later.1 he.later.2
  groupBegin h := by
    refine h.of_step (sound_undoGroupBegin h.sound) ?_ ?_ <;> rw [undoGroupBegin] <;> split
    · exact Heap.Later.refl _
    · exact Heap.Later.refl _
    · rfl
    · rfl
  groupEnd {t} h := h.of_step (@runInvariant_sound.groupEnd t h.sound) (Heap.Later.refl _) rfl
  moved {t _ _ _ _ _ _ _} h hf hl ht hm :=
    h.of_step (@runInvariant_sound.moved t _ _ _ _ _ _ _ h.sound hf hl ht hm)
      (hl.trans hm.sameText.heap) (by cases hm <;> rfl)
  checkpoint {t} h := h.of_step (@runInvariant_sound.checkpoint t h.sound) (Heap.Later.refl _) rfl
  limited {t m} h := h.of_step (@runInvariant_sound.limited t m h.sound) (Heap.Later.refl _) rfl
  saved {t} h := h.of_step (@runInvariant_sound.saved t h.sound) (Heap.Later.refl _) rfl

/-- The allocator that never refuses. -/
def generous : Heap := ⟨fun _ => true, 0⟩

theorem exists_openView (view : List UInt8) :
    ∃ pt, openView generous view = some pt ∧ Ready pt ∧ doc pt = view := by
  obtain ⟨hsome, hspec⟩ := openView_spec generous view
  obtain ⟨pt, hpt⟩ := Option.ne_none_iff_exists'.mp (hsome fun _ => rfl)
  obtain ⟨hs, hd, hg, -, -, -, hro, -⟩ := hspec pt hpt
  exact ⟨pt, hpt, ⟨hs, fun n => by rw [hg]; rfl, hro⟩, hd⟩

/-- `axl_piece_tree_line_bounds` fails exactly past the last line, and reports
the start of every other line. -/
theorem Wf.lineBounds_spec {pt : PieceTree} (hw : Wf pt) (k : Nat) :
    (lineBounds pt k = none ↔ lineCount pt ≤ k) ∧
      ∀ s e, lineBounds pt k = some (s, e) → (k = 0 → s = 0) ∧
        (0 < k → ∃ p, s = p + 1 ∧ IsNthNewline (doc pt) (k - 1) p) := by
  have hnl := hw.nlSum_eq
  have hlc := hw.lineCount_eq
  constructor
  · rw [lineBounds, hnl, hlc]
    split
    · simp
      omega
    · simp
      omega
  · intro s e hse
    simp only [lineBounds, hnl] at hse
    split at hse
    · cases hse
    · simp only [Option.some.injEq, Prod.mk.injEq] at hse
      obtain ⟨rfl, -⟩ := hse
      refine ⟨fun h0 => by simp [h0], fun hpos => ?_⟩
      rw [if_neg (by omega)]
      exact ⟨_, rfl, hw.newlineOffset_spec (by omega)⟩

/-- **Refinement.** For every file and every run of calls with all allocations
granted, the tree denotes one byte string, `doc`: the file itself at the start,
and from any reached state on, `insert` and `delete` splice and cut it, and the
length, range and line queries answer for it. -/
theorem run_refines (view : List UInt8) (ops : List Op) :
    ∃ pt₀, openView generous view = some pt₀ ∧ doc pt₀ = view ∧
      (∀ o d, (insert (run pt₀ ops) o d).1 = .ok ∧
        doc (insert (run pt₀ ops) o d).2
          = splice (doc (run pt₀ ops)) (min o (doc (run pt₀ ops)).length) d) ∧
      (∀ o n, (delete (run pt₀ ops) o n).1 = .ok ∧
        doc (delete (run pt₀ ops) o n).2
          = (doc (run pt₀ ops)).take o
            ++ (doc (run pt₀ ops)).drop (min (o + n) (doc (run pt₀ ops)).length)) ∧
      length (run pt₀ ops) = (doc (run pt₀ ops)).length ∧
      (∀ o len cap, get (run pt₀ ops) o len cap
        = ((doc (run pt₀ ops)).drop o).take
            (min (min len cap) ((doc (run pt₀ ops)).length - o))) ∧
      lineCount (run pt₀ ops) = 1 + (doc (run pt₀ ops)).count newline ∧
      (∀ o, lineOfOffset (run pt₀ ops) o
        = ((doc (run pt₀ ops)).take (min o (doc (run pt₀ ops)).length)).count newline) ∧
      ∀ k, (lineBounds (run pt₀ ops) k = none ↔ lineCount (run pt₀ ops) ≤ k) ∧
        ∀ s e, lineBounds (run pt₀ ops) k = some (s, e) → (k = 0 → s = 0) ∧
          (0 < k → ∃ p, s = p + 1 ∧ IsNthNewline (doc (run pt₀ ops)) (k - 1) p) := by
  obtain ⟨pt₀, hopen, hready, hdoc⟩ := exists_openView view
  have hr : Ready (run pt₀ ops) := by
    have := @RunInvariant.run _ runInvariant_ready (Traced.start pt₀) hready ops
    rw [run_pt] at this
    exact this
  refine ⟨pt₀, hopen, hdoc, ?_⟩
  generalize run pt₀ ops = pt at hr
  have hw := hr.sound.wf
  refine ⟨fun o d => ?_, fun o n => ?_, hw.length_eq, hw.get_eq, hw.lineCount_eq,
    hw.lineOfOffset_eq, hw.lineBounds_spec⟩
  · obtain ⟨-, -, hok, hgr⟩ := hr.sound.edited (insert_edited hw o d)
    have := hgr hr.readOnly hr.grants
    exact ⟨this, (hok this).trans (splice_min _ _ _).symm⟩
  · obtain ⟨-, -, hok, hgr⟩ := hr.sound.edited (delete_edited hw o n)
    have := hgr hr.readOnly hr.grants
    refine ⟨this, (hok this).trans ?_⟩
    rw [cut]
    rcases Nat.le_total (o + n) (doc pt).length with h | h
    · rw [Nat.min_eq_left h]
    · rw [Nat.min_eq_right h, drop_of_length_le h, drop_length]

end PieceTree

end AxlSdk
