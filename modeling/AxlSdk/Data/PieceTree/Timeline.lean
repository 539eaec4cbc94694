import AxlSdk.Data.PieceTree.Trace

/-!
# The stacks as a timeline

`Consistent` says that the two stacks are a timeline in the sense of
`EditHistory`: undoing walks back through the documents that really existed,
redoing walks forward through them. It is preserved by

- every edit that is recorded, lost or refused; the one exception is an edit
  under an undo limit of 0, which is recorded nowhere and so fits only an empty
  undo stack (`Consistent.edited`);
- every undo and redo whose records all reach the other stack, the push on an
  empty redo stack apart (`Consistent.step`).
-/

namespace AxlSdk

namespace PieceTree

open AugTree AugTree.Tree EditHistory

/-! ## The stacks as a timeline -/

/-- The document before the edit behind a record. -/
def Traced.pre (t : Traced) (e : PtEdit) : List UInt8 := t.before e.postState

/-- The document after the edit behind a record. -/
def Traced.post (t : Traced) (e : PtEdit) : List UInt8 := t.after e.postState

/-- What the ghost data knows about a record. -/
structure Known (t : Traced) (e : PtEdit) : Prop where
  takes : Takes (change t.pt e) (t.pre e) (t.post e)
  pos : 0 < e.postState
  le : e.postState ≤ t.pt.stateSeq
  pre : t.pre e ∈ t.states
  post : t.post e ∈ t.states

/-- The stacks are a timeline around the document. -/
structure Consistent (t : Traced) : Prop where
  sound : Sound t.pt
  known : ∀ e, e ∈ t.pt.undo ∨ e ∈ t.pt.redo → Known t e
  past : Past t.pre t.post t.pt.undo (doc t.pt)
  future : Future t.pre t.post t.pt.redo (doc t.pt)

theorem consistent_start {pt : PieceTree} (hs : Sound pt) (hu : pt.undo = []) (hr : pt.redo = []) :
    Consistent (Traced.start pt) := by
  refine ⟨hs, ?_, ?_, ?_⟩
  · intro e he
    simp [Traced.start, hu, hr] at he
  · simp [Traced.start, hu, Past]
  · simp [Traced.start, hr, Future]

variable {t : Traced} {e : PtEdit}

/-- A change of the program state that keeps the documents of the records. -/
theorem Known.of_pt (h : Known t e) (he : EditOk t.pt e) (pt' : PieceTree) (hg : Grown t.pt pt')
    (hs : t.pt.stateSeq ≤ pt'.stateSeq) :
    Known { t with pt := pt' } e := by
  refine ⟨?_, h.pos, Nat.le_trans h.le hs, h.pre, h.post⟩
  rw [show ({ t with pt := pt' } : Traced).pt = pt' from rfl, hg.change he]
  exact h.takes

theorem Sound.editOk {pt : PieceTree} (hs : Sound pt) (he : e ∈ pt.undo ∨ e ∈ pt.redo) :
    EditOk pt e :=
  he.elim (hs.undo e) (hs.redo e)

/-- Rearranging the records over the same text. -/
theorem Consistent.sameText (h : Consistent t) (pt' : PieceTree) (ht : SameText t.pt pt')
    (hseq : t.pt.stateSeq ≤ pt'.stateSeq) (hu : ∃ n, pt'.undo = t.pt.undo.take n)
    (hr : pt'.redo = t.pt.redo ∨ pt'.redo = []) :
    Consistent { t with pt := pt' } := by
  obtain ⟨n, hn⟩ := hu
  have hmu : ∀ e ∈ pt'.undo, e ∈ t.pt.undo := by
    intro e he
    rw [hn] at he
    exact List.mem_of_mem_take he
  have hmr : ∀ e ∈ pt'.redo, e ∈ t.pt.redo := by
    intro e he
    rcases hr with hr | hr
    · exact hr ▸ he
    · simp [hr] at he
  refine ⟨h.sound.sameText ht (fun e he => .inl (hmu e he)) fun e he => .inr (hmr e he), ?_, ?_, ?_⟩
  · intro e he
    have he' : e ∈ t.pt.undo ∨ e ∈ t.pt.redo := he.imp (hmu e) (hmr e)
    exact (h.known e he').of_pt (h.sound.editOk he') pt' ht.grown hseq
  · have hp := h.past.take n
    rw [← hn, ← ht.doc] at hp
    exact hp
  · rcases hr with hr | hr
    · have hf := h.future
      rw [← hr, ← ht.doc] at hf
      exact hf
    · show Future t.pre t.post pt'.redo (doc pt')
      rw [hr]
      trivial

/-! ## Edits -/

/-- **Edits keep the timeline**: the new record goes on top of the past, and the
future is gone. An edit that is not recorded because the limit is 0 needs an
empty undo stack. -/
theorem Consistent.edited (h : Consistent t) {D' : List UInt8} {r : Rc × PieceTree}
    (he : Edited t.pt D' r) (hlim : t.pt.undoLimit = some 0 → t.pt.undo = [] ∨ r.2 = t.pt) :
    Consistent (t.note r.2) := by
  have hsound := (h.sound.edited he).1
  cases he with
  | failed pt' htext hgrow hw hl hdoc hg =>
    have hseq : pt'.stateSeq = t.pt.stateSeq := by rw [htext]
    have hrec : ¬ leftRecord t.pt pt' := fun hl => hl.1 hseq
    simp only [Traced.note, hrec, if_false]
    refine ⟨hsound, ?_, ?_, ?_⟩
    · intro e he
      have he' : e ∈ t.pt.undo ∨ e ∈ t.pt.redo := by
        rw [← htext.undo, ← htext.redo]
        exact he
      exact (h.known e he').of_pt (h.sound.editOk he') pt' hgrow (Nat.le_of_eq hseq.symm)
    · show Past t.pre t.post pt'.undo (doc pt')
      rw [htext.undo, hdoc]
      exact h.past
    · show Future t.pre t.post pt'.redo (doc pt')
      rw [htext.redo, hdoc]
      exact h.future
  | noop hdoc =>
    have hrec : ¬ leftRecord t.pt t.pt := fun hl => hl.1 rfl
    simp only [Traced.note, hrec, if_false]
    exact h
  | lost pt₁ htext hgrow hw hl hdoc hg =>
    have hseq : pt₁.stateSeq = t.pt.stateSeq := by rw [htext]
    have hrec : ¬ leftRecord t.pt { pt₁ with undo := [], redo := [], saveValid := false } :=
      fun hl => hl.1 hseq
    simp only [Traced.note, hrec, if_false]
    exact ⟨hsound, by simp, trivial, trivial⟩
  | recorded pt₁ kind offset len spans htext hgrow hw hl hdoc he ht =>
    have hr := recordEdit_recorded pt₁ kind offset len spans
    have hseq : pt₁.stateSeq = t.pt.stateSeq := by rw [htext]
    have hlim₁ : pt₁.undoLimit = t.pt.undoLimit := by rw [htext]
    have hdoc₂ := hr.sameText.doc
    have hgrow₂ := hgrow.trans hr.sameText.grown
    generalize hpt' : recordEdit pt₁ kind offset len spans = pt' at hr hsound hdoc₂ hgrow₂
    simp only [hpt'] at hlim hsound
    cases hr with
    | unlimited0 h0 =>
      rw [hlim₁] at h0
      have hrec : ¬ leftRecord t.pt { pt₁ with redo := [] } := fun hl => hl.1 hseq
      simp only [Traced.note, hrec, if_false]
      rcases hlim h0 with hnil | hsame
      · have hnil' : pt₁.undo = [] := htext.undo.trans hnil
        refine ⟨hsound, ?_, ?_, trivial⟩
        · intro e he
          simp [hnil'] at he
        · show Past t.pre t.post pt₁.undo _
          rw [hnil']
          trivial
      · simp only [hsame]
        exact h
    | pushed n sv cap hp hlim' hl' hn hsv =>
      have hrec : leftRecord t.pt
          { pt₁ with
            redo := [], undo := newRecord pt₁ kind offset len spans :: pt₁.undo.take n,
            undoCap := cap, saveValid := sv, groupSeq := nextGroupSeq pt₁,
            stateSeq := pt₁.stateSeq + 1, heap := hp } := by
        refine ⟨?_, rfl⟩
        simp only
        omega
      simp only [Traced.note, hrec, if_true]
      -- the new id is above every id on record
      have hold : ∀ e ∈ pt₁.undo.take n, e ∈ t.pt.undo ∧ e.postState ≠ pt₁.stateSeq + 1 := by
        intro e he
        have hmem : e ∈ t.pt.undo := htext.undo ▸ List.mem_of_mem_take he
        have := (h.known e (.inl hmem)).le
        exact ⟨hmem, by omega⟩
      refine ⟨hsound, ?_, ?_, trivial⟩
      · intro e he
        have he' : e = newRecord pt₁ kind offset len spans ∨ e ∈ pt₁.undo.take n := by
          simpa using he
        rcases he' with rfl | he'
        · refine ⟨?_, Nat.succ_pos _, Nat.le_refl _, ?_, ?_⟩
          · simp only [Traced.pre, Traced.post, newRecord, Function.update_self]
            exact ht
          · simp [Traced.pre, newRecord]
          · simp [Traced.post, newRecord]
        · obtain ⟨hmem, hne⟩ := hold e he'
          have hk := h.known e (.inl hmem)
          have hle := hk.le
          refine ⟨?_, hk.pos, ?_, ?_, ?_⟩
          · simp only [Traced.pre, Traced.post, Function.update_of_ne hne]
            rw [hgrow₂.change (h.sound.undo e hmem)]
            exact hk.takes
          · simp only
            omega
          · simp only [Traced.pre, Function.update_of_ne hne]
            exact List.mem_cons_of_mem _ (List.mem_cons_of_mem _ hk.pre)
          · simp only [Traced.post, Function.update_of_ne hne]
            exact List.mem_cons_of_mem _ (List.mem_cons_of_mem _ hk.post)
      · refine ⟨?_, ?_⟩
        · simp [Traced.post, newRecord]
        · have hpre : Function.update t.before (pt₁.stateSeq + 1) (doc t.pt)
              (newRecord pt₁ kind offset len spans).postState = doc t.pt := by
            simp [newRecord]
          simp only [Traced.pre]
          rw [hpre]
          have hp' := h.past.take n
          rw [← htext.undo] at hp'
          refine hp'.congr ?_ ?_
          · intro e he
            simp only [Traced.pre, Function.update_of_ne (hold e he).2]
          · intro e he
            simp only [Traced.post, Function.update_of_ne (hold e he).2]
    | lost hp hl' hg =>
      have hrec : ¬ leftRecord t.pt
          { pt₁ with
            redo := [], undo := [], saveValid := false, groupSeq := nextGroupSeq pt₁,
            stateSeq := pt₁.stateSeq + 1, heap := hp } := by
        rintro ⟨-, h2⟩
        simp [curState] at h2
      simp only [Traced.note, hrec, if_false]
      exact ⟨hsound, by simp, trivial, trivial⟩

/-! ## Undo and redo -/

/-- Where a record leads: back to its `pre` document or on to its `post` one. -/
def Traced.target (t : Traced) (inverse : Bool) (e : PtEdit) : List UInt8 :=
  if inverse then t.pre e else t.post e

variable {es : List PtEdit}

theorem Consistent.known_top (h : Consistent t) {inverse : Bool}
    (hf : fromStack t.pt inverse = e :: es) :
    Known t e ∧ EditOk t.pt e ∧ Takes (change t.pt e)
      (if inverse then t.pre e else doc t.pt) (if inverse then doc t.pt else t.post e) := by
  cases inverse with
  | true =>
    have hu : t.pt.undo = e :: es := hf
    have hp := h.past
    rw [hu] at hp
    have hk := h.known e (.inl (by simp [hu]))
    refine ⟨hk, h.sound.undo e (by simp [hu]), ?_⟩
    rw [if_pos rfl, if_pos rfl, ← hp.1]
    exact hk.takes
  | false =>
    have hr : t.pt.redo = e :: es := hf
    have hp := h.future
    rw [hr] at hp
    have hk := h.known e (.inr (by simp [hr]))
    refine ⟨hk, h.sound.redo e (by simp [hr]), ?_⟩
    rw [if_neg (by simp), if_neg (by simp), ← hp.1]
    exact hk.takes

/-- Applying the top record of a stack leads to the document that its edit was
made on, or to the one that it made. -/
theorem Consistent.apply (h : Consistent t) {inverse : Bool} (hf : fromStack t.pt inverse = e :: es)
    :
    Outcome t.pt (t.target inverse e) (editApply t.pt e inverse) ∧
      (t.pt.heap.Grants → (editApply t.pt e inverse).1 = .ok) := by
  obtain ⟨-, hok, htakes⟩ := h.known_top hf
  obtain ⟨D, hout, hgr, hback, hfwd⟩ := editApply_outcome h.sound.wf hok inverse
  refine ⟨?_, hgr⟩
  cases inverse with
  | true =>
    rw [hback _ rfl htakes] at hout
    exact hout
  | false =>
    rw [hfwd _ rfl htakes] at hout
    exact hout

/-- A moved record keeps the timeline; one that got lost does so only when it
was undone with nothing to redo behind it. -/
theorem Consistent.moved (h : Consistent t) {inverse : Bool} (hf : fromStack t.pt inverse = e :: es)
    {tr : Tree Piece Sums} {hp : Heap} (hl : t.pt.heap.Later hp)
    (ht : TreeFor t.pt hp tr (t.target inverse e)) {r : Bool × PieceTree}
    (hm : Moved { t.pt with tree := tr, heap := hp } e inverse r)
    (hkeep : r.1 = true ∨ inverse = true ∧ t.pt.redo = []) :
    Consistent { t with pt := r.2 } ∧ doc r.2 = t.target inverse e := by
  have hsound : Sound r.2 := (h.sound.applied ht).moved hf hm
  have hdoc : doc r.2 = t.target inverse e := hm.sameText.doc.trans (ht.wf h.sound.wf.indexed).2
  have hgrown₀ : Grown t.pt { t.pt with tree := tr, heap := hp } := ⟨rfl, List.prefix_rfl⟩
  have hgrown : Grown t.pt r.2 := hgrown₀.trans hm.sameText.grown
  refine ⟨⟨hsound, ?_, ?_, ?_⟩, hdoc⟩
  · have hmem : ∀ x, x ∈ r.2.undo ∨ x ∈ r.2.redo → x ∈ t.pt.undo ∨ x ∈ t.pt.redo := by
      intro x hx
      have htop : e ∈ t.pt.undo ∨ e ∈ t.pt.redo := by
        cases inverse with
        | true => exact .inl (by rw [show t.pt.undo = e :: es from hf]; simp)
        | false => exact .inr (by rw [show t.pt.redo = e :: es from hf]; simp)
      cases hm with
      | undone =>
        rcases hx with hx | hx
        · exact .inl (List.mem_of_mem_tail hx)
        · rcases List.mem_cons.mp hx with rfl | hx
          · exact htop
          · exact .inr hx
      | redone =>
        rcases hx with hx | hx
        · rcases List.mem_cons.mp hx with rfl | hx
          · exact htop
          · exact .inl hx
        · exact .inr (List.mem_of_mem_tail hx)
      | undoneLost =>
        exact hx.imp (fun hx => List.mem_of_mem_tail hx) id
      | redoneLost =>
        exact hx.imp id fun hx => List.mem_of_mem_tail hx
    intro x hx
    have hx' := hmem x hx
    refine (h.known x hx').of_pt (h.sound.editOk hx') r.2 hgrown ?_
    cases hm <;> exact Nat.le_refl _
  · show Past t.pre t.post r.2.undo (doc r.2)
    rw [hdoc]
    have hpast := h.past
    cases hm with
    | undone =>
      rw [show t.pt.undo = e :: es from hf] at hpast ⊢
      exact hpast.2
    | undoneLost =>
      rw [show t.pt.undo = e :: es from hf] at hpast ⊢
      exact hpast.2
    | redone =>
      have hfut := h.future
      rw [show t.pt.redo = e :: es from hf] at hfut
      refine ⟨rfl, ?_⟩
      rw [hfut.1]
      exact hpast
    | redoneLost => simp at hkeep
  · show Future t.pre t.post r.2.redo (doc r.2)
    rw [hdoc]
    have hfut := h.future
    cases hm with
    | undone =>
      have hpast := h.past
      rw [show t.pt.undo = e :: es from hf] at hpast
      refine ⟨rfl, ?_⟩
      rw [hpast.1]
      exact hfut
    | undoneLost =>
      simp only [Bool.false_eq_true, true_and, false_or] at hkeep
      show Future t.pre t.post t.pt.redo _
      rw [hkeep]
      trivial
    | redone =>
      rw [show t.pt.redo = e :: es from hf] at hfut ⊢
      exact hfut.2
    | redoneLost => simp at hkeep

/-- No record of the group is lost on its way to the other stack, the push of an
undone record on an empty redo stack apart. -/
def KeepsLoop (gid : Nat) (inverse : Bool) : Nat → PieceTree → Prop
  | 0, _ => True
  | fuel + 1, pt =>
    match fromStack pt inverse with
    | [] => True
    | e :: _ =>
      e.group = gid →
        match editApply pt e inverse with
        | (.err, _) => True
        | (.ok, pt₁) =>
          match moveRecord pt₁ inverse e with
          | (true, pt₂) => KeepsLoop gid inverse fuel pt₂
          | (false, _) => inverse = true ∧ pt.redo = []

/-- `KeepsLoop` for the group that an undo (or redo) would take. -/
def KeepsRecords (pt : PieceTree) (inverse : Bool) : Prop :=
  match fromStack pt inverse with
  | [] => True
  | e :: es => KeepsLoop e.group inverse (e :: es).length pt

/-- A property of timelines that undo and redo keep, record by record, as long
as no record gets lost. -/
structure StepInvariant (P : Traced → Prop) : Prop where
  consistent : ∀ {t}, P t → Consistent t
  heap : ∀ {t h}, P t → t.pt.heap.Later h → P { t with pt := { t.pt with heap := h } }
  moved : ∀ {t e es inverse tr h r}, P t → fromStack t.pt inverse = e :: es →
    t.pt.heap.Later h → TreeFor t.pt h tr (t.target inverse e) →
    Moved { t.pt with tree := tr, heap := h } e inverse r →
    (r.1 = true ∨ inverse = true ∧ t.pt.redo = []) → P { t with pt := r.2 }

namespace StepInvariant

variable {P : Traced → Prop} (inv : StepInvariant P)

include inv

theorem stepLoop {t : Traced} (hp : P t) {gid : Nat} {inverse : Bool} (fuel : Nat)
    (aff : Nat × Nat) (hk : KeepsLoop gid inverse fuel t.pt) :
    P { t with pt := (stepLoop gid inverse fuel t.pt aff).2.2 } := by
  induction fuel generalizing t aff with
  | zero => exact hp
  | succ fuel ih =>
    rw [PieceTree.stepLoop]
    rw [KeepsLoop] at hk
    cases hf : fromStack t.pt inverse with
    | nil => exact hp
    | cons e es =>
      rw [hf] at hk
      dsimp only at hk ⊢
      split
      case isFalse hne => exact hp
      case isTrue hgid =>
        replace hk := hk hgid
        have hout := ((inv.consistent hp).apply hf).1
        generalize editApply t.pt e inverse = r at hout hk
        cases hout with
        | failed h hl => exact inv.heap hp hl
        | applied tr h hl ht =>
          have hm := moveRecord_moved { t.pt with tree := tr, heap := h } inverse e
          dsimp only at hk ⊢
          generalize moveRecord { t.pt with tree := tr, heap := h } inverse e = r at hm hk
          obtain ⟨b, pt'⟩ := r
          cases b with
          | true => exact @ih { t with pt := pt' } (inv.moved hp hf hl ht hm (.inl rfl)) _ hk
          | false => exact inv.moved hp hf hl ht hm (.inr hk)

/-- What the records keep one by one, an undo or redo keeps. -/
theorem step {t : Traced} (hp : P t) {inverse : Bool} (hk : KeepsRecords t.pt inverse) :
    P { t with pt := (step t.pt inverse).2.2 } := by
  rw [PieceTree.step]
  rw [KeepsRecords] at hk
  cases hf : fromStack t.pt inverse with
  | nil => exact hp
  | cons e es =>
    rw [hf] at hk
    exact inv.stepLoop hp _ _ hk

end StepInvariant

theorem Consistent.regroup (h : Consistent t) (pt' : PieceTree) (ht : SameText t.pt pt')
    (hu : pt'.undo = t.pt.undo) (hr : pt'.redo = t.pt.redo) (hs : pt'.stateSeq = t.pt.stateSeq) :
    Consistent { t with pt := pt' } :=
  h.sameText pt' ht (Nat.le_of_eq hs.symm) ⟨t.pt.undo.length, by simp [hu]⟩ (.inl hr)

/-- Undo and redo keep a timeline whose document is on record. -/
theorem stepInvariant_recorded :
    StepInvariant fun t => Consistent t ∧ doc t.pt ∈ t.states where
  consistent h := h.1
  heap h hl := ⟨h.1.regroup _ ⟨rfl, rfl, rfl, rfl, rfl, hl⟩ rfl rfl rfl, h.2⟩
  moved {t e _ inverse _ _ r} h hf hl ht hm hkeep := by
    obtain ⟨hkn, -, -⟩ := h.1.known_top hf
    obtain ⟨h', hd'⟩ := h.1.moved hf hl ht hm hkeep
    refine ⟨h', ?_⟩
    show doc r.2 ∈ t.states
    rw [hd', Traced.target]
    split
    · exact hkn.pre
    · exact hkn.post

/-- **Undo and redo keep the timeline**, and lead to a document on record. -/
theorem Consistent.step (h : Consistent t) (inverse : Bool) (hk : KeepsRecords t.pt inverse) :
    Consistent { t with pt := (step t.pt inverse).2.2 } ∧
      ((PieceTree.step t.pt inverse).1 = .ok →
        doc (PieceTree.step t.pt inverse).2.2 ∈ t.states) := by
  cases hf : fromStack t.pt inverse with
  | nil =>
    rw [PieceTree.step, hf]
    exact ⟨h, by simp⟩
  | cons e es =>
    obtain ⟨hkn, -, -⟩ := h.known_top hf
    have hd : doc t.pt ∈ t.states := by
      cases inverse with
      | true =>
        have hp := h.past
        rw [show t.pt.undo = e :: es from hf] at hp
        exact hp.1 ▸ hkn.post
      | false =>
        have hp := h.future
        rw [show t.pt.redo = e :: es from hf] at hp
        exact hp.1 ▸ hkn.pre
    obtain ⟨h₁, h₂⟩ := stepInvariant_recorded.step ⟨h, hd⟩ hk
    exact ⟨h₁, fun _ => h₂⟩

end PieceTree

end AxlSdk
