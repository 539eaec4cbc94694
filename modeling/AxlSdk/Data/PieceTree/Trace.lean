import AxlSdk.Data.PieceTree.History

/-!
# Runs, with their history on record

A run is a list of calls. A `Traced` state carries, beside the piece tree, ghost
data that the program does not have: the document just before and just after
the edit behind every record (under the record's `post_state` id), the list of
these documents, and the document at the last save point. `Traced.run` is `run`
with this bookkeeping (`run_pt`).

`EditInvariant` and `RunInvariant` are the rules by which a property is shown to
hold along runs: it has to survive each of the changes that the calls are made
of. Soundness does, whatever the undo limit does to the stacks and whatever
allocation fails (`runInvariant_sound`).
-/

namespace AxlSdk

namespace PieceTree

open AugTree AugTree.Tree EditHistory

/-! ## Runs -/

/-- The calls of a run. `save` stands for a successful `axl_piece_tree_save`. -/
inductive Op where
  | insert (offset : Nat) (data : List UInt8)
  | delete (offset len : Nat)
  | applyEdits (edits : List AxlEdit)
  | undo
  | redo
  | groupBegin
  | groupEnd
  | checkpoint
  | setUndoLimit (maxEdits : Option Nat)
  | save

/-- The state after a call. -/
def exec (pt : PieceTree) : Op → PieceTree
  | .insert offset data => (insert pt offset data).2
  | .delete offset len => (delete pt offset len).2
  | .applyEdits edits => (applyEdits pt edits).2
  | .undo => (undo pt).2.2
  | .redo => (redo pt).2.2
  | .groupBegin => undoGroupBegin pt
  | .groupEnd => undoGroupEnd pt
  | .checkpoint => undoCheckpoint pt
  | .setUndoLimit maxEdits => setUndoLimit pt maxEdits
  | .save => savePoint pt

/-- The state after a run. -/
def run (pt : PieceTree) (ops : List Op) : PieceTree := ops.foldl exec pt

/-! ## Ghost data -/

structure Traced where
  pt : PieceTree
  before : Nat → List UInt8
  after : Nat → List UInt8
  states : List (List UInt8)
  saved : List UInt8

/-- The edit that led from `pt` to `pt'` left a record. -/
def leftRecord (pt pt' : PieceTree) : Prop :=
  pt'.stateSeq ≠ pt.stateSeq ∧ curState pt' = pt'.stateSeq

instance (pt pt' : PieceTree) : Decidable (leftRecord pt pt') :=
  inferInstanceAs (Decidable (_ ∧ _))

/-- Note down an edit under the id of its record. -/
def Traced.note (t : Traced) (pt' : PieceTree) : Traced :=
  if leftRecord t.pt pt' then
    { t with
      pt := pt'
      before := Function.update t.before pt'.stateSeq (doc t.pt)
      after := Function.update t.after pt'.stateSeq (doc pt')
      states := doc t.pt :: doc pt' :: t.states }
  else { t with pt := pt' }

/-- Run an edit and note it down. -/
def Traced.edit (t : Traced) (f : PieceTree → Rc × PieceTree) : Rc × Traced :=
  ((f t.pt).1, t.note (f t.pt).2)

/-- `applyLoop`, noting down each of its edits. -/
def Traced.applyLoop : Traced → List AxlEdit → Rc × Traced
  | t, [] => (.ok, t)
  | t, e :: es =>
    match (if e.delLen > 0 then t.edit (delete · e.offset e.delLen) else (.ok, t)) with
    | (.err, t) => (.err, t)
    | (.ok, t) =>
      match (if e.ins.length > 0 then t.edit (insert · e.offset e.ins) else (.ok, t)) with
      | (.err, t) => (.err, t)
      | (.ok, t) => Traced.applyLoop t es

/-- `applyEdits`, noting down each of its edits. -/
def Traced.applyEdits (t : Traced) (edits : List AxlEdit) : Traced :=
  if t.pt.readOnly then t
  else if edits.length = 0 then t
  else
    match t.pt.heap.alloc with
    | (none, h) => { t with pt := { t.pt with heap := h } }
    | (some _, h) =>
      let t := ({ t with pt := undoGroupBegin { t.pt with heap := h } }).applyLoop
        (sortEdits edits)
      { t.2 with pt := undoGroupEnd t.2.pt }

/-- A call, with its bookkeeping. -/
def Traced.exec (t : Traced) : Op → Traced
  | .insert offset data => (t.edit (insert · offset data)).2
  | .delete offset len => (t.edit (delete · offset len)).2
  | .applyEdits edits => t.applyEdits edits
  | .save => { t with pt := savePoint t.pt, saved := doc t.pt }
  | op => { t with pt := PieceTree.exec t.pt op }

def Traced.run (t : Traced) (ops : List Op) : Traced := ops.foldl Traced.exec t

/-- The start of a run: nothing on record, the document itself saved. -/
def Traced.start (pt : PieceTree) : Traced :=
  ⟨pt, fun _ => [], fun _ => [], [], doc pt⟩

theorem note_pt (t : Traced) (pt' : PieceTree) : (t.note pt').pt = pt' := by
  rw [Traced.note]
  split <;> rfl

theorem applyLoop_pt (t : Traced) (edits : List AxlEdit) :
    ((t.applyLoop edits).1, (t.applyLoop edits).2.pt) = applyLoop t.pt edits := by
  induction edits generalizing t with
  | nil => rfl
  | cons e es ih =>
    have hedit : ∀ (c : Prop) [Decidable c] (f : PieceTree → Rc × PieceTree) (t : Traced),
        ((if c then t.edit f else (.ok, t)).1, (if c then t.edit f else (.ok, t)).2.pt)
          = if c then f t.pt else (.ok, t.pt) := by
      intro c _ f t
      split
      · exact Prod.ext rfl (note_pt t _)
      · rfl
    have h₁ := hedit (e.delLen > 0) (delete · e.offset e.delLen) t
    rw [Traced.applyLoop, applyLoop, ← h₁]
    generalize (if e.delLen > 0 then t.edit (delete · e.offset e.delLen) else (.ok, t)) = r
    obtain ⟨rc, t₁⟩ := r
    cases rc with
    | err => rfl
    | ok =>
      have h₂ := hedit (e.ins.length > 0) (insert · e.offset e.ins) t₁
      dsimp only
      rw [← h₂]
      generalize (if e.ins.length > 0 then t₁.edit (insert · e.offset e.ins) else (.ok, t₁)) = r
      obtain ⟨rc₂, t₂⟩ := r
      cases rc₂ with
      | err => rfl
      | ok => exact ih t₂

theorem exec_pt (t : Traced) (op : Op) : (t.exec op).pt = exec t.pt op := by
  cases op with
  | insert offset data => exact note_pt t _
  | delete offset len => exact note_pt t _
  | applyEdits edits =>
    simp only [Traced.exec, exec, Traced.applyEdits, applyEdits]
    split
    · rfl
    split
    · rfl
    cases t.pt.heap.alloc with
    | mk o h =>
      cases o with
      | none => rfl
      | some a =>
        have := applyLoop_pt { t with pt := undoGroupBegin { t.pt with heap := h } }
          (sortEdits edits)
        exact congrArg (fun r => undoGroupEnd r.2) this
  | _ => rfl

/-- The bookkeeping does not influence the run. -/
theorem run_pt (t : Traced) (ops : List Op) : (t.run ops).pt = run t.pt ops := by
  induction ops generalizing t with
  | nil => rfl
  | cons op ops ih =>
    have := ih (t.exec op)
    rw [exec_pt] at this
    exact this

/-! ## Rules for runs -/

/-- A property that every edit keeps, alone or in a batch. -/
structure EditInvariant (P : Traced → Prop) : Prop where
  sound : ∀ {t}, P t → Sound t.pt
  heap : ∀ {t h}, P t → t.pt.heap.Later h → P { t with pt := { t.pt with heap := h } }
  edited : ∀ {t D' r}, P t → Edited t.pt D' r → P (t.note r.2)
  groupBegin : ∀ {t}, P t → P { t with pt := undoGroupBegin t.pt }
  groupEnd : ∀ {t}, P t → P { t with pt := undoGroupEnd t.pt }

theorem EditInvariant.applyLoop {P : Traced → Prop} (inv : EditInvariant P) {t : Traced}
    (hp : P t) (edits : List AxlEdit) : P (t.applyLoop edits).2 := by
  induction edits generalizing t with
  | nil => exact hp
  | cons e es ih =>
    rw [Traced.applyLoop]
    have h₁ : P (if e.delLen > 0 then t.edit (delete · e.offset e.delLen) else (.ok, t)).2 := by
      split
      · exact inv.edited hp (delete_edited (inv.sound hp).wf _ _)
      · exact hp
    generalize (if e.delLen > 0 then t.edit (delete · e.offset e.delLen) else (.ok, t)) = r at h₁
    obtain ⟨rc, t₁⟩ := r
    cases rc with
    | err => exact h₁
    | ok =>
      dsimp only
      have h₂ : P (if e.ins.length > 0 then t₁.edit (insert · e.offset e.ins)
          else (.ok, t₁)).2 := by
        split
        · exact inv.edited h₁ (insert_edited (inv.sound h₁).wf _ _)
        · exact h₁
      generalize (if e.ins.length > 0 then t₁.edit (insert · e.offset e.ins)
        else (.ok, t₁)) = r₂ at h₂
      obtain ⟨rc₂, t₂⟩ := r₂
      cases rc₂ with
      | err => exact h₂
      | ok => exact ih h₂

/-- A batch keeps what its edits keep. -/
theorem EditInvariant.applyEdits {P : Traced → Prop} (inv : EditInvariant P) {t : Traced}
    (hp : P t) (edits : List AxlEdit) : P (t.applyEdits edits) := by
  rw [Traced.applyEdits]
  split
  · exact hp
  split
  · exact hp
  have ha := t.pt.heap.alloc_allocated
  generalize t.pt.heap.alloc = r at ha
  have hp' := inv.heap hp t.pt.heap.later_succ
  cases ha with
  | refused hg => exact hp'
  | granted hg => exact inv.groupEnd (inv.applyLoop (inv.groupBegin hp') _)

/-- A property that every call keeps. -/
structure RunInvariant (P : Traced → Prop) : Prop extends EditInvariant P where
  moved : ∀ {t e es inverse tr h D r}, P t → fromStack t.pt inverse = e :: es →
    t.pt.heap.Later h → TreeFor t.pt h tr D →
    Moved { t.pt with tree := tr, heap := h } e inverse r → P { t with pt := r.2 }
  checkpoint : ∀ {t}, P t → P { t with pt := undoCheckpoint t.pt }
  limited : ∀ {t m}, P t → P { t with pt := setUndoLimit t.pt m }
  saved : ∀ {t}, P t → P { t with pt := savePoint t.pt, saved := doc t.pt }

namespace RunInvariant

variable {P : Traced → Prop} (inv : RunInvariant P)

include inv

theorem stepLoop (gid : Nat) (inverse : Bool) (fuel : Nat) {t : Traced} (hp : P t)
    (aff : Nat × Nat) : P { t with pt := (stepLoop gid inverse fuel t.pt aff).2.2 } := by
  induction fuel generalizing t aff with
  | zero => exact hp
  | succ fuel ih =>
    rw [PieceTree.stepLoop]
    cases hf : fromStack t.pt inverse with
    | nil => exact hp
    | cons e es =>
      dsimp only
      split
      case isFalse hne => exact hp
      case isTrue hgid =>
        have hs := inv.sound hp
        obtain ⟨D, hout, -, -, -⟩ := editApply_outcome hs.wf (fromStack_sound hs hf) inverse
        generalize editApply t.pt e inverse = r at hout
        cases hout with
        | failed h hl => exact inv.heap hp hl
        | applied tr h hl ht =>
          have hm := moveRecord_moved { t.pt with tree := tr, heap := h } inverse e
          have hp' := inv.moved hp hf hl ht hm
          dsimp only
          generalize moveRecord { t.pt with tree := tr, heap := h } inverse e = r at hp'
          obtain ⟨b, pt'⟩ := r
          cases b with
          | true => exact @ih { t with pt := pt' } hp' _
          | false => exact hp'

theorem step {t : Traced} (hp : P t) (inverse : Bool) :
    P { t with pt := (step t.pt inverse).2.2 } := by
  rw [PieceTree.step]
  cases hf : fromStack t.pt inverse with
  | nil => exact hp
  | cons e es => exact inv.stepLoop _ _ _ hp _

/-- One call keeps the property, whatever it returns. -/
theorem exec {t : Traced} (hp : P t) (op : Op) : P (t.exec op) := by
  have hs := inv.sound hp
  cases op with
  | insert offset data => exact inv.edited hp (insert_edited hs.wf offset data)
  | delete offset len => exact inv.edited hp (delete_edited hs.wf offset len)
  | applyEdits edits => exact inv.applyEdits hp edits
  | undo => exact inv.step hp true
  | redo => exact inv.step hp false
  | groupBegin => exact inv.groupBegin hp
  | groupEnd => exact inv.groupEnd hp
  | checkpoint => exact inv.checkpoint hp
  | setUndoLimit maxEdits => exact inv.limited hp
  | save => exact inv.saved hp

/-- **Along every run** the property holds. -/
theorem run {t : Traced} (hp : P t) (ops : List Op) : P (t.run ops) := by
  induction ops generalizing t with
  | nil => exact hp
  | cons op ops ih => exact ih (inv.exec hp op)

end RunInvariant

/-- The calls of a run meet the condition `C` in the states they are made in. -/
def RunMeets (C : PieceTree → Op → Prop) : PieceTree → List Op → Prop
  | _, [] => True
  | pt, op :: ops => C pt op ∧ RunMeets C (exec pt op) ops

/-- The rule for runs whose calls meet a condition. -/
theorem run_rule {C : PieceTree → Op → Prop} {P : Traced → Prop}
    (hstep : ∀ {t op}, P t → C t.pt op → P (t.exec op)) {t : Traced} (hp : P t) {ops : List Op}
    (hc : RunMeets C t.pt ops) : P (t.run ops) := by
  induction ops generalizing t with
  | nil => exact hp
  | cons op ops ih =>
    refine ih (hstep hp hc.1) ?_
    rw [exec_pt]
    exact hc.2

/-! ## Soundness along runs -/

theorem sound_undoGroupBegin {pt : PieceTree} (hs : Sound pt) : Sound (undoGroupBegin pt) := by
  rw [undoGroupBegin]
  split <;>
  · exact hs.sameText ⟨rfl, rfl, rfl, rfl, rfl, Heap.Later.refl _⟩ (fun x hx => .inl hx)
      fun x hx => .inr hx

/-- Soundness holds along every run, from every sound state. -/
theorem runInvariant_sound : RunInvariant fun t => Sound t.pt where
  sound h := h
  heap hs hl := hs.sameText ⟨rfl, rfl, rfl, rfl, rfl, hl⟩ (fun _ hx => .inl hx) fun _ hx => .inr hx
  edited hs he := by
    rw [note_pt]
    exact (hs.edited he).1
  groupBegin hs := sound_undoGroupBegin hs
  groupEnd hs := hs.sameText ⟨rfl, rfl, rfl, rfl, rfl, Heap.Later.refl _⟩
    (fun _ hx => .inl hx) fun _ hx => .inr hx
  moved hs hf _ ht hm := (hs.applied ht).moved hf hm
  checkpoint hs := hs.sameText ⟨rfl, rfl, rfl, rfl, rfl, Heap.Later.refl _⟩
    (fun _ hx => .inl hx) fun _ hx => .inr hx
  limited {t m} hs := by
    refine hs.sameText ⟨rfl, rfl, rfl, rfl, rfl, Heap.Later.refl _⟩ ?_ fun _ hx => .inr hx
    intro e he
    cases m with
    | none => exact .inl he
    | some n =>
      have he' : e ∈ t.pt.undo.take n := he
      exact .inl (List.mem_of_mem_take he')
  saved hs := hs.sameText ⟨rfl, rfl, rfl, rfl, rfl, Heap.Later.refl _⟩
    (fun _ hx => .inl hx) fun _ hx => .inr hx

end PieceTree

end AxlSdk
