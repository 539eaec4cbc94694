import AxlSdk.Data.PieceTree.UndoRedo

/-!
# The dirty flag

`axl_piece_tree_is_modified` compares the state id on top of the undo stack with
the id noted by the last save; the id 0 stands for the state below the oldest
record. `SaveOk` says what the two ids mean for the documents of a run:

- a saved id of 0 means that undoing everything leads to the saved document;
- any other saved id belongs to an edit that led to the saved document.

Two paths of the code move the state below the oldest record without giving up a
save point that lies there: an edit under an undo limit of 0, and a lowered
limit that drops records. `TracksSave` excludes them, and `run_clean_saved` shows
that the flag is right along all other runs.
-/

namespace AxlSdk

namespace PieceTree

open AugTree AugTree.Tree EditHistory

/-! ## The condition on calls -/

/-- The save point is the state below the oldest record. -/
def BaseSaved (pt : PieceTree) : Prop := pt.saveValid = true ∧ pt.savedState = 0

instance (pt : PieceTree) : Decidable (BaseSaved pt) := inferInstanceAs (Decidable (_ ∧ _))

/-- The call inserts or removes bytes. -/
def Touches (pt : PieceTree) : Op → Prop
  | .insert _ data => data ≠ []
  | .delete offset len => offset < length pt ∧ len ≠ 0
  | .applyEdits edits => ∃ e ∈ edits, e.ins ≠ [] ∨ (e.offset < length pt ∧ e.delLen ≠ 0)
  | _ => False

/-- An edit under an undo limit of 0 finds no record and no save point that it
would have to give up. -/
def EditsTracked (pt : PieceTree) : Prop :=
  pt.undoLimit = some 0 → pt.undo = [] ∧ ¬ BaseSaved pt

/-- The condition on the calls of a run. -/
def TracksSave (pt : PieceTree) : Op → Prop
  | .undo => KeepsRecords pt true
  | .redo => KeepsRecords pt false
  | .setUndoLimit (some n) => n < pt.undo.length → ¬ BaseSaved pt
  | op => Touches pt op → EditsTracked pt

/-! ## The invariant -/

/-- What the saved id says about the saved document. -/
structure SaveOk (t : Traced) : Prop where
  consistent : Consistent t
  le : t.pt.saveValid = true → t.pt.savedState ≤ t.pt.stateSeq
  base : BaseSaved t.pt → base t.pre t.pt.undo (doc t.pt) = t.saved
  post : t.pt.saveValid = true → t.pt.savedState ≠ 0 → t.after t.pt.savedState = t.saved

/-- **The flag tells the truth** where the invariant holds. -/
theorem SaveOk.doc_eq {t : Traced} (h : SaveOk t) (hm : isModified t.pt = false) :
    doc t.pt = t.saved := by
  have hclean : t.pt.saveValid = true ∧ curState t.pt = t.pt.savedState := by
    simpa [isModified] using hm
  obtain ⟨hv, hcur⟩ := hclean
  cases hu : t.pt.undo with
  | nil =>
    have h0 : t.pt.savedState = 0 := by
      rw [← hcur, curState, hu]
      rfl
    have hb := h.base ⟨hv, h0⟩
    rw [hu] at hb
    exact hb
  | cons e es =>
    have hid : e.postState = t.pt.savedState := by
      rw [← hcur, curState, hu]
      rfl
    have hpos := (h.consistent.known e (.inl (by simp [hu]))).pos
    have hpast := h.consistent.past
    rw [hu] at hpast
    rw [← hpast.1, Traced.post, hid]
    exact h.post hv (by omega)

theorem saveOk_start {pt : PieceTree} (hs : Sound pt) (hu : pt.undo = []) (hr : pt.redo = [])
    (hsaved : pt.savedState = 0) : SaveOk (Traced.start pt) := by
  refine ⟨consistent_start hs hu hr, fun _ => ?_, fun _ => ?_, fun _ h => absurd hsaved h⟩
  · show pt.savedState ≤ pt.stateSeq
    rw [hsaved]
    exact Nat.zero_le _
  · show EditHistory.base _ pt.undo (doc pt) = doc pt
    rw [hu]
    rfl

/-- Changes beside the stacks, the ids and the text. -/
theorem SaveOk.regroup {t : Traced} (h : SaveOk t) (pt' : PieceTree) (ht : SameText t.pt pt')
    (hu : pt'.undo = t.pt.undo) (hr : pt'.redo = t.pt.redo) (hq : pt'.stateSeq = t.pt.stateSeq)
    (hs : pt'.savedState = t.pt.savedState) (hv : pt'.saveValid = t.pt.saveValid) :
    SaveOk { t with pt := pt' } := by
  refine ⟨h.consistent.regroup pt' ht hu hr hq, ?_, ?_, ?_⟩
  · intro hv'
    show pt'.savedState ≤ pt'.stateSeq
    rw [hs, hq]
    exact h.le (hv ▸ hv')
  · rintro ⟨hv', h0⟩
    show EditHistory.base t.pre pt'.undo (doc pt') = t.saved
    rw [hu, ht.doc]
    exact h.base ⟨hv ▸ hv', hs ▸ h0⟩
  · intro hv' h0
    show t.after pt'.savedState = t.saved
    rw [hs]
    exact h.post (hv ▸ hv') (hs ▸ h0)

/-! ## Edits -/

/-- An edit that gives up the save point. -/
theorem SaveOk.of_invalid {t : Traced} (hc : Consistent t) (hv : t.pt.saveValid = false) :
    SaveOk t := by
  refine ⟨hc, ?_, ?_, ?_⟩
  · intro h
    rw [hv] at h
    cases h
  · rintro ⟨h, -⟩
    rw [hv] at h
    cases h
  · intro h
    rw [hv] at h
    cases h

/-- **Edits keep the meaning of the ids**: a record on top leaves the state below
the oldest one where it is, unless an old record is evicted, and then a save
point that lies there is given up. -/
theorem SaveOk.edited {t : Traced} (h : SaveOk t) {D' : List UInt8} {r : Rc × PieceTree}
    (he : Edited t.pt D' r) (hlim : EditsTracked t.pt) : SaveOk (t.note r.2) := by
  have hcons : Consistent (t.note r.2) := h.consistent.edited he fun h0 => .inl (hlim h0).1
  cases he with
  | failed pt' htext hgrow hw hl hdoc hg =>
    have hseq : pt'.stateSeq = t.pt.stateSeq := by rw [htext]
    have hsv : pt'.saveValid = t.pt.saveValid := by rw [htext]
    have hss : pt'.savedState = t.pt.savedState := by rw [htext]
    have hrec : ¬ leftRecord t.pt pt' := fun hl => hl.1 hseq
    simp only [Traced.note, hrec, if_false] at hcons ⊢
    refine ⟨hcons, ?_, ?_, ?_⟩
    · intro hv
      show pt'.savedState ≤ pt'.stateSeq
      rw [hss, hseq]
      exact h.le (hsv ▸ hv)
    · rintro ⟨hv, h0⟩
      show EditHistory.base t.pre pt'.undo (doc pt') = t.saved
      rw [htext.undo, hdoc]
      exact h.base ⟨hsv ▸ hv, hss ▸ h0⟩
    · intro hv h0
      show t.after pt'.savedState = t.saved
      rw [hss]
      exact h.post (hsv ▸ hv) (hss ▸ h0)
  | noop hdoc =>
    have hrec : ¬ leftRecord t.pt t.pt := fun hl => hl.1 rfl
    simp only [Traced.note, hrec, if_false]
    exact h
  | lost pt₁ htext hgrow hw hl hdoc hg =>
    refine .of_invalid hcons ?_
    rw [note_pt]
  | recorded pt₁ kind offset len spans htext hgrow hw hl hdoc he ht =>
    have hr := recordEdit_recorded pt₁ kind offset len spans
    have hseq : pt₁.stateSeq = t.pt.stateSeq := by rw [htext]
    have hlim₁ : pt₁.undoLimit = t.pt.undoLimit := by rw [htext]
    have hsv₁ : pt₁.saveValid = t.pt.saveValid := by rw [htext]
    have hss : pt₁.savedState = t.pt.savedState := by rw [htext]
    simp only at hcons
    generalize recordEdit pt₁ kind offset len spans = pt' at hr hcons
    cases hr with
    | unlimited0 h0 =>
      obtain ⟨-, hbase⟩ := hlim (hlim₁ ▸ h0)
      have hrec : ¬ leftRecord t.pt { pt₁ with redo := [] } := fun hl => hl.1 hseq
      simp only [Traced.note, hrec, if_false] at hcons ⊢
      refine ⟨hcons, ?_, ?_, ?_⟩
      · intro hv
        show pt₁.savedState ≤ pt₁.stateSeq
        rw [hss, hseq]
        exact h.le (hsv₁ ▸ hv)
      · rintro ⟨hv, h0'⟩
        exact absurd ⟨hsv₁ ▸ hv, hss ▸ h0'⟩ hbase
      · intro hv h0'
        show t.after pt₁.savedState = t.saved
        rw [hss]
        exact h.post (hsv₁ ▸ hv) (hss ▸ h0')
    | pushed n sv cap hp hlim' hl' hn hsv =>
      have hrec : leftRecord t.pt
          { pt₁ with
            redo := [], undo := newRecord pt₁ kind offset len spans :: pt₁.undo.take n,
            undoCap := cap, saveValid := sv, groupSeq := nextGroupSeq pt₁,
            stateSeq := pt₁.stateSeq + 1, heap := hp } := by
        refine ⟨?_, rfl⟩
        simp only
        omega
      simp only [Traced.note, hrec, if_true] at hcons ⊢
      refine ⟨hcons, ?_, ?_, ?_⟩
      · intro hv
        have := h.le (hsv₁ ▸ (hsv hv).1)
        show pt₁.savedState ≤ pt₁.stateSeq + 1
        omega
      · rintro ⟨hv, h0⟩
        have h0' : pt₁.savedState = 0 := h0
        obtain ⟨hv₁, hkept⟩ := hsv hv
        have hall : pt₁.undo.take n = t.pt.undo := by
          rw [← htext.undo]
          exact hkept.resolve_right fun hne => hne h0'
        have hb := h.base ⟨hsv₁ ▸ hv₁, hss ▸ h0'⟩
        show EditHistory.base _ (newRecord pt₁ kind offset len spans :: pt₁.undo.take n) _ = t.saved
        rw [hall, EditHistory.base, ← hb]
        simp only [Traced.pre, newRecord, Function.update_self]
        refine base_congr fun e he => ?_
        have := (h.consistent.known e (.inl he)).le
        exact Function.update_of_ne (by omega) _ _
      · intro hv h0
        have hv₁ := hsv₁ ▸ (hsv hv).1
        have hle := h.le hv₁
        show Function.update t.after (pt₁.stateSeq + 1) _ pt₁.savedState = t.saved
        rw [Function.update_of_ne (by omega), hss]
        exact h.post hv₁ (hss ▸ h0)
    | lost hp hl' hg =>
      refine .of_invalid hcons ?_
      rw [note_pt]

/-- `EditsTracked` survives edits, so it needs to hold only before a batch. -/
theorem EditsTracked.edited {pt : PieceTree} (h : EditsTracked pt) {D' : List UInt8}
    {r : Rc × PieceTree} (he : Edited pt D' r) : EditsTracked r.2 := by
  cases he with
  | failed pt' htext =>
    rw [EditsTracked, BaseSaved, htext]
    exact h
  | noop => exact h
  | lost pt₁ => exact fun _ => ⟨rfl, by simp [BaseSaved]⟩
  | recorded pt₁ kind offset len spans htext =>
    have h₁ : EditsTracked pt₁ := by
      rw [EditsTracked, BaseSaved, htext]
      exact h
    have hr := recordEdit_recorded pt₁ kind offset len spans
    dsimp only
    generalize recordEdit pt₁ kind offset len spans = pt' at hr
    cases hr with
    | unlimited0 h0 => exact h₁
    | pushed n sv cap hp hlim' => exact fun h0 => absurd h0 hlim'
    | lost hp => exact fun _ => ⟨rfl, by simp [BaseSaved]⟩

theorem editInvariant_saveOk : EditInvariant fun t => SaveOk t ∧ EditsTracked t.pt where
  sound h := h.1.consistent.sound
  heap h hl := ⟨h.1.regroup _ ⟨rfl, rfl, rfl, rfl, rfl, hl⟩ rfl rfl rfl rfl rfl, h.2⟩
  edited h he := by
    refine ⟨h.1.edited he h.2, ?_⟩
    rw [note_pt]
    exact h.2.edited he
  groupBegin h := by
    rw [undoGroupBegin]
    split <;>
    · exact ⟨h.1.regroup _ ⟨rfl, rfl, rfl, rfl, rfl, Heap.Later.refl _⟩ rfl rfl rfl rfl rfl, h.2⟩
  groupEnd h :=
    ⟨h.1.regroup _ ⟨rfl, rfl, rfl, rfl, rfl, Heap.Later.refl _⟩ rfl rfl rfl rfl rfl, h.2⟩

/-! ## Edits without effect -/

theorem insert_nil (pt : PieceTree) (offset : Nat) : (insert pt offset []).2 = pt := by
  rw [insert]
  split
  · rfl
  · simp

theorem delete_outside {pt : PieceTree} {offset len : Nat}
    (h : ¬ (offset < length pt ∧ len ≠ 0)) : (delete pt offset len).2 = pt := by
  rw [delete]
  split
  · rfl
  · rw [if_pos (by omega)]

theorem note_self (t : Traced) : t.note t.pt = t := by
  have hrec : ¬ leftRecord t.pt t.pt := fun hl => hl.1 rfl
  simp only [Traced.note, hrec, if_false]

theorem edit_of_same {t : Traced} {f : PieceTree → Rc × PieceTree} (h : (f t.pt).2 = t.pt) :
    (t.edit f).2 = t := by
  rw [Traced.edit, h, note_self]

theorem mem_placeEdit {key e : AxlEdit} {es : List AxlEdit} (h : e ∈ placeEdit key es) :
    e = key ∨ e ∈ es := by
  induction es with
  | nil => exact .inl (by simpa [placeEdit] using h)
  | cons x es ih =>
    rw [placeEdit] at h
    split at h
    · rcases List.mem_cons.mp h with rfl | h
      · exact .inr (by simp)
      · exact (ih h).imp id (List.mem_cons_of_mem _)
    · rcases List.mem_cons.mp h with rfl | h
      · exact .inl rfl
      · exact .inr h

theorem mem_sortEdits {e : AxlEdit} {edits : List AxlEdit} (h : e ∈ sortEdits edits) :
    e ∈ edits := by
  have hfold : ∀ (edits acc : List AxlEdit),
      e ∈ edits.foldl (fun acc key => placeEdit key acc) acc → e ∈ edits ∨ e ∈ acc := by
    intro edits
    induction edits with
    | nil => exact fun acc h => .inr h
    | cons x edits ih =>
      intro acc h
      rcases ih _ h with h | h
      · exact .inl (List.mem_cons_of_mem _ h)
      · rcases mem_placeEdit h with rfl | h
        · exact .inl (by simp)
        · exact .inr h
  have := hfold edits [] (by simpa [sortEdits] using h)
  simpa using this

/-- A batch without effect runs through the loop and changes nothing. -/
theorem applyLoop_untouched (t : Traced) {edits : List AxlEdit}
    (h : ∀ e ∈ edits, e.ins = [] ∧ ¬ (e.offset < length t.pt ∧ e.delLen ≠ 0)) :
    (t.applyLoop edits).2 = t := by
  induction edits with
  | nil => rfl
  | cons e es ih =>
    obtain ⟨hins, hdel⟩ := h e (by simp)
    have h₁ : (if e.delLen > 0 then t.edit (delete · e.offset e.delLen) else (.ok, t)).2 = t := by
      split
      · exact edit_of_same (delete_outside hdel)
      · rfl
    rw [Traced.applyLoop]
    generalize (if e.delLen > 0 then t.edit (delete · e.offset e.delLen) else (.ok, t)) = r at h₁
    obtain ⟨rc, t₁⟩ := r
    have h₁' : t₁ = t := h₁
    subst h₁'
    cases rc with
    | err => rfl
    | ok =>
      simp only [hins, List.length_nil, Nat.lt_irrefl, gt_iff_lt, if_false]
      exact ih fun e' he' => h e' (by simp [he'])

/-- A batch without effect leaves ids, stacks and text alone. -/
theorem SaveOk.applyEdits_untouched {t : Traced} (h : SaveOk t) {edits : List AxlEdit}
    (hu : ¬ Touches t.pt (.applyEdits edits)) : SaveOk (t.applyEdits edits) := by
  rw [Traced.applyEdits]
  split
  · exact h
  split
  · exact h
  have ha := t.pt.heap.alloc_allocated
  generalize t.pt.heap.alloc = r at ha
  have hsame := h.regroup { t.pt with heap := { t.pt.heap with calls := t.pt.heap.calls + 1 } }
    ⟨rfl, rfl, rfl, rfl, rfl, t.pt.heap.later_succ⟩ rfl rfl rfl rfl rfl
  cases ha with
  | refused hg => exact hsame
  | granted hg =>
    dsimp only
    have hlen : ∀ h, length (undoGroupBegin { t.pt with heap := h }) = length t.pt := by
      intro h
      rw [undoGroupBegin]
      split <;> rfl
    rw [applyLoop_untouched]
    · have hbegin : ∀ pt, SaveOk { t with pt := pt } →
          SaveOk { t with pt := undoGroupEnd (undoGroupBegin pt) } := by
        intro pt hpt
        rw [undoGroupBegin]
        split <;>
        · exact hpt.regroup _ ⟨rfl, rfl, rfl, rfl, rfl, Heap.Later.refl _⟩ rfl rfl rfl rfl rfl
      exact hbegin _ hsame
    · intro e he
      have hne : ¬ (e.ins ≠ [] ∨ (e.offset < length t.pt ∧ e.delLen ≠ 0)) :=
        fun hor => hu ⟨e, mem_sortEdits he, hor⟩
      simp only [hlen]
      exact ⟨by simpa using fun h => hne (.inl h), fun h => hne (.inr h)⟩

/-! ## Undo, redo and the limit -/

theorem stepInvariant_saveOk : StepInvariant SaveOk where
  consistent h := h.consistent
  heap h hl := h.regroup _ ⟨rfl, rfl, rfl, rfl, rfl, hl⟩ rfl rfl rfl rfl rfl
  moved {t e es inverse _ _ r} h hf hl ht hm hkeep := by
    obtain ⟨hcons, hdoc⟩ := h.consistent.moved hf hl ht hm hkeep
    have hsv : r.2.saveValid = t.pt.saveValid := by cases hm <;> rfl
    have hss : r.2.savedState = t.pt.savedState := by cases hm <;> rfl
    have hseq : r.2.stateSeq = t.pt.stateSeq := by cases hm <;> rfl
    -- the record crosses over, and the state below the oldest one stays
    have hbase : EditHistory.base t.pre r.2.undo (doc r.2)
        = EditHistory.base t.pre t.pt.undo (doc t.pt) := by
      rw [hdoc]
      cases hm with
      | undone =>
        rw [show t.pt.undo = e :: es from hf]
        rfl
      | undoneLost =>
        rw [show t.pt.undo = e :: es from hf]
        rfl
      | redone =>
        have hfut := h.consistent.future
        rw [show t.pt.redo = e :: es from hf] at hfut
        show EditHistory.base t.pre t.pt.undo (t.pre e) = _
        rw [hfut.1]
      | redoneLost => simp at hkeep
    refine ⟨hcons, ?_, ?_, ?_⟩
    · intro hv
      show r.2.savedState ≤ r.2.stateSeq
      rw [hss, hseq]
      exact h.le (hsv ▸ hv)
    · rintro ⟨hv, h0⟩
      exact hbase.trans (h.base ⟨hsv ▸ hv, hss ▸ h0⟩)
    · intro hv h0
      show t.after r.2.savedState = t.saved
      rw [hss]
      exact h.post (hsv ▸ hv) (hss ▸ h0)

/-- A new limit keeps the ids, unless it drops records above a saved base. -/
theorem SaveOk.limited {t : Traced} (h : SaveOk t) {m : Option Nat}
    (hm : TracksSave t.pt (.setUndoLimit m)) :
    SaveOk { t with pt := setUndoLimit t.pt m } := by
  cases m with
  | none =>
    exact h.regroup (setUndoLimit t.pt none) ⟨rfl, rfl, rfl, rfl, rfl, Heap.Later.refl _⟩
      rfl rfl rfl rfl rfl
  | some n =>
    have hcons := h.consistent.sameText (setUndoLimit t.pt (some n))
      ⟨rfl, rfl, rfl, rfl, rfl, Heap.Later.refl _⟩ (Nat.le_refl _) ⟨n, rfl⟩ (.inl rfl)
    refine ⟨hcons, h.le, ?_, h.post⟩
    intro hb
    have hall : t.pt.undo.take n = t.pt.undo := by
      refine List.take_of_length_le ?_
      by_contra hlt
      exact hm (by omega) hb
    show EditHistory.base t.pre (t.pt.undo.take n) (doc t.pt) = t.saved
    rw [hall]
    exact h.base hb

/-- A save makes the current document the saved one. -/
theorem SaveOk.save {t : Traced} (h : SaveOk t) :
    SaveOk { t with pt := savePoint t.pt, saved := doc t.pt } := by
  have hc := h.consistent.regroup (savePoint t.pt) ⟨rfl, rfl, rfl, rfl, rfl, Heap.Later.refl _⟩
    rfl rfl rfl
  have hc' : Consistent { t with pt := savePoint t.pt, saved := doc t.pt } := by
    refine ⟨hc.sound, fun e he => ?_, hc.past, hc.future⟩
    obtain ⟨k₁, k₂, k₃, k₄, k₅⟩ := hc.known e he
    exact ⟨k₁, k₂, k₃, k₄, k₅⟩
  cases hu : t.pt.undo with
  | nil =>
    have hcur : curState t.pt = 0 := by
      rw [curState, hu]
      rfl
    refine ⟨hc', fun _ => ?_, fun _ => ?_, fun _ h0 => absurd hcur h0⟩
    · show curState t.pt ≤ t.pt.stateSeq
      rw [hcur]
      exact Nat.zero_le _
    · show EditHistory.base _ t.pt.undo (doc t.pt) = doc t.pt
      rw [hu]
      rfl
  | cons e es =>
    have hcur : curState t.pt = e.postState := by
      rw [curState, hu]
      rfl
    have hk := h.consistent.known e (.inl (by simp [hu]))
    have hpast := h.consistent.past
    rw [hu] at hpast
    refine ⟨hc', fun _ => ?_, fun hb => ?_, fun _ _ => ?_⟩
    · show curState t.pt ≤ t.pt.stateSeq
      rw [hcur]
      exact hk.le
    · have h0 : curState t.pt = 0 := hb.2
      have := hk.pos
      omega
    · show t.after (curState t.pt) = doc t.pt
      rw [hcur]
      exact hpast.1

/-! ## Runs -/

theorem saveOk_exec {t : Traced} {op : Op} (h : SaveOk t) (hop : TracksSave t.pt op) :
    SaveOk (t.exec op) := by
  have hw := h.consistent.sound.wf
  cases op with
  | insert offset data =>
    by_cases hd : data = []
    · subst hd
      have hsame : (t.edit (insert · offset [])).2 = t := edit_of_same (insert_nil t.pt offset)
      show SaveOk (t.edit (insert · offset [])).2
      rw [hsame]
      exact h
    · exact h.edited (insert_edited hw offset data) (hop hd)
  | delete offset len =>
    by_cases hd : offset < length t.pt ∧ len ≠ 0
    · exact h.edited (delete_edited hw offset len) (hop hd)
    · have hsame : (t.edit (delete · offset len)).2 = t := edit_of_same (delete_outside hd)
      show SaveOk (t.edit (delete · offset len)).2
      rw [hsame]
      exact h
  | applyEdits edits =>
    by_cases hd : Touches t.pt (.applyEdits edits)
    · exact (editInvariant_saveOk.applyEdits ⟨h, hop hd⟩ edits).1
    · exact h.applyEdits_untouched hd
  | undo => exact stepInvariant_saveOk.step h hop
  | redo => exact stepInvariant_saveOk.step h hop
  | groupBegin =>
    show SaveOk { t with pt := undoGroupBegin t.pt }
    rw [undoGroupBegin]
    split <;>
    · exact h.regroup _ ⟨rfl, rfl, rfl, rfl, rfl, Heap.Later.refl _⟩ rfl rfl rfl rfl rfl
  | groupEnd =>
    exact h.regroup _ ⟨rfl, rfl, rfl, rfl, rfl, Heap.Later.refl _⟩ rfl rfl rfl rfl rfl
  | checkpoint =>
    exact h.regroup _ ⟨rfl, rfl, rfl, rfl, rfl, Heap.Later.refl _⟩ rfl rfl rfl rfl rfl
  | setUndoLimit m => exact h.limited hop
  | save => exact h.save

/-- **The dirty flag.** For every file, every pattern of allocation failures and
every run whose calls track the save point: whenever `is_modified` returns
false, the document is the one of the last save, or the opened file if there was
none. -/
theorem run_clean_saved (grant : Nat → Bool) (view : List UInt8) (pt₀ : PieceTree)
    (hopen : openView ⟨grant, 0⟩ view = some pt₀) (ops : List Op)
    (hops : RunMeets TracksSave pt₀ ops) :
    ((Traced.start pt₀).run ops).pt = run pt₀ ops ∧
      (isModified (run pt₀ ops) = false →
        doc (run pt₀ ops) = ((Traced.start pt₀).run ops).saved) := by
  obtain ⟨hs, -, -, hu, hr, -, -, -, hsaved, -, -⟩ := (openView_spec ⟨grant, 0⟩ view).2 pt₀ hopen
  have h : SaveOk ((Traced.start pt₀).run ops) :=
    run_rule (fun hp hc => saveOk_exec hp hc) (saveOk_start hs hu hr hsaved) hops
  have hpt : ((Traced.start pt₀).run ops).pt = run pt₀ ops := run_pt _ ops
  refine ⟨hpt, ?_⟩
  rw [← hpt]
  exact h.doc_eq

/-- The statement at work: an edit, a save, an edit, an undo, and a limit that
drops the saved record. -/
theorem run_clean_saved_after_undo :
    ∃ pt₀, openView generous [97] = some pt₀ ∧
      RunMeets TracksSave pt₀
        [.insert 0 [98], .save, .delete 0 1, .undo, .setUndoLimit (some 0)] ∧
      isModified (run pt₀ [.insert 0 [98], .save, .delete 0 1, .undo]) = false ∧
      (isModified (run pt₀ [.insert 0 [98], .save, .delete 0 1, .undo, .setUndoLimit (some 0)])
          = false →
        doc (run pt₀ [.insert 0 [98], .save, .delete 0 1, .undo, .setUndoLimit (some 0)])
          = [98, 97]) := by
  have hopen : openView generous [97] = some ((openView generous [97]).get rfl) := rfl
  have hops : RunMeets TracksSave ((openView generous [97]).get rfl)
      [.insert 0 [98], .save, .delete 0 1, .undo, .setUndoLimit (some 0)] := by
    refine ⟨fun _ h => ?_, fun h => h.elim, fun _ h => ?_, fun _ hg => ?_, fun _ h => ?_, trivial⟩
    · cases h
    · cases h
    · exact absurd hg (by decide)
    · exact absurd h (by decide)
  exact ⟨_, hopen, hops, by decide, (run_clean_saved _ [97] _ hopen _ hops).2⟩

/-- Without records the flag stays clear: under an undo limit of 0 an edit of a
new document goes unnoticed. -/
theorem clean_flag_unsaved :
    ¬ ∀ (view : List UInt8) (pt₀ : PieceTree), openView generous view = some pt₀ →
      ∀ ops : List Op, isModified (run pt₀ ops) = false →
        doc (run pt₀ ops) = ((Traced.start pt₀).run ops).saved := by
  intro h
  have hdoc := h [] ((openView generous []).get rfl) rfl
    [.setUndoLimit (some 0), .insert 0 [97]] (by decide)
  revert hdoc
  decide

end PieceTree

end AxlSdk
