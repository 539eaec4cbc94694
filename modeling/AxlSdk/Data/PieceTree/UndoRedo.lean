import AxlSdk.Data.PieceTree.Timeline
import AxlSdk.Data.PieceTree.Refinement

/-!
# Undo and redo along whole runs

Two results about the history of a run.

- With unlimited undo and a generous allocator, undo and redo are exact
  (`run_history_exact`). `Regular` is the invariant: a timeline whose group ids
  never decrease and never occur on both stacks, so that each step takes one
  whole group across.
- With allocations failing at will, an edit is all or nothing and undo and redo
  only ever lead to documents on record (`run_history_safe`), provided that
  `step` is not interrupted half way: a record that cannot be pushed is dropped,
  and a group whose second record cannot be applied is left half undone.
-/

namespace AxlSdk

namespace PieceTree

open AugTree AugTree.Tree EditHistory List

/-! ## One group at a time -/

/-- The stack that `step` pushes on. -/
def toStack (pt : PieceTree) (inverse : Bool) : List PtEdit :=
  if inverse then pt.redo else pt.undo

/-- A change of text and stacks only. -/
def StacksOnly (pt pt' : PieceTree) : Prop :=
  pt' = { pt with tree := pt'.tree, heap := pt'.heap, undo := pt'.undo, undoCap := pt'.undoCap,
                  redo := pt'.redo, redoCap := pt'.redoCap }

variable {pt pt' : PieceTree}

theorem StacksOnly.after {pt'' : PieceTree} (h' : StacksOnly pt' pt'') (h : StacksOnly pt pt') :
    StacksOnly pt pt'' := by
  rw [StacksOnly] at h' ⊢
  rw [h'] at *
  rw [h]

variable {t : Traced}

/-- The loop of `step` moves a block of records of one group across. -/
theorem stepLoop_block (h : Consistent t) (hg : t.pt.heap.Grants) {gid : Nat} (inverse : Bool)
    {block rest : List PtEdit} (hf : fromStack t.pt inverse = block ++ rest)
    (hb : ∀ e ∈ block, e.group = gid) (hr : ∀ e ∈ rest.head?, e.group ≠ gid) {fuel : Nat}
    (hfuel : block.length ≤ fuel) (aff : Nat × Nat) :
    ∃ aff' pt', stepLoop gid inverse fuel t.pt aff = (.ok, aff', pt') ∧
      Consistent { t with pt := pt' } ∧ pt'.heap.Grants ∧ StacksOnly t.pt pt' ∧
      fromStack pt' inverse = rest ∧
      toStack pt' inverse = block.reverse ++ toStack t.pt inverse := by
  induction block generalizing t fuel aff with
  | nil =>
    refine ⟨aff, t.pt, ?_, h, hg, rfl, hf, rfl⟩
    cases fuel with
    | zero => rfl
    | succ fuel =>
      rw [stepLoop]
      cases rest with
      | nil => rw [hf]; rfl
      | cons e es =>
        rw [hf]
        exact if_neg (hr e rfl)
  | cons e block ih =>
    cases fuel with
    | zero => simp at hfuel
    | succ fuel =>
      obtain ⟨hout, hok⟩ := h.apply hf
      have hok := hok hg
      rw [stepLoop, hf]
      simp only [cons_append, hb e (by simp), if_true]
      generalize editApply t.pt e inverse = r at hout hok
      cases hout with
      | failed hp hl => cases hok
      | applied tr hp hl ht =>
        have hm := moveRecord_moved { t.pt with tree := tr, heap := hp } inverse e
        have hg₁ : Heap.Grants ({ t.pt with tree := tr, heap := hp } : PieceTree).heap :=
          hg.later hl
        dsimp only
        generalize moveRecord { t.pt with tree := tr, heap := hp } inverse e = r at hm
        cases hm with
        | undone cap hp' hl' =>
          obtain ⟨h', -⟩ := h.moved hf hl ht (.undone cap hp' hl') (.inl rfl)
          have hf' : t.pt.undo.tail = block ++ rest := by
            rw [show t.pt.undo = e :: (block ++ rest) from hf]
            rfl
          obtain ⟨aff', pt', hstep, hc, hgr, hso, hfrom, hto⟩ := ih h' (hg₁.later hl') hf'
            (fun x hx => hb x (by simp [hx])) (Nat.le_of_succ_le_succ hfuel) _
          refine ⟨aff', pt', hstep, hc, hgr, hso.after rfl, hfrom, ?_⟩
          rw [hto]
          simp [toStack]
        | redone cap hp' hl' =>
          obtain ⟨h', -⟩ := h.moved hf hl ht (.redone cap hp' hl') (.inl rfl)
          have hf' : t.pt.redo.tail = block ++ rest := by
            rw [show t.pt.redo = e :: (block ++ rest) from hf]
            rfl
          obtain ⟨aff', pt', hstep, hc, hgr, hso, hfrom, hto⟩ := ih h' (hg₁.later hl') hf'
            (fun x hx => hb x (by simp [hx])) (Nat.le_of_succ_le_succ hfuel) _
          refine ⟨aff', pt', hstep, hc, hgr, hso.after rfl, hfrom, ?_⟩
          rw [hto]
          simp [toStack]
        | undoneLost hp' hl' hng => exact absurd hg₁ hng
        | redoneLost hp' hl' hng => exact absurd hg₁ hng

/-! ## Group ids -/

/-- Group ids only grow along the timeline, and no group is on both stacks. -/
structure GroupsOk (pt : PieceTree) : Prop where
  undo : pt.undo.Pairwise fun a b => b.group ≤ a.group
  redo : pt.redo.Pairwise fun a b => a.group ≤ b.group
  cross : ∀ u ∈ pt.undo, ∀ r ∈ pt.redo, u.group < r.group
  seq : ∀ e, e ∈ pt.undo ∨ e ∈ pt.redo → e.group ≤ pt.groupSeq
  cur : grouped pt → pt.curGroup = pt.groupSeq

/-- The group at the top of a stack with monotone ids is a block. -/
theorem exists_block {r : Nat → Nat → Prop} (anti : ∀ a b, r a b → r b a → a = b) {e : PtEdit}
    {es : List PtEdit} (h : (e :: es).Pairwise fun a b => r a.group b.group) :
    ∃ newer first older, e :: es = (newer ++ [first]) ++ older ∧
      (∀ x ∈ newer ++ [first], x.group = e.group) ∧ ∀ x ∈ older, x.group ≠ e.group := by
  obtain ⟨he, hes⟩ := pairwise_cons.mp h
  induction es generalizing e with
  | nil => exact ⟨[], e, [], rfl, by simp, by simp⟩
  | cons a es ih =>
    by_cases ha : a.group = e.group
    · obtain ⟨newer, first, older, heq, hblock, hold⟩ := ih hes
        (fun x hx => (pairwise_cons.mp hes).1 x hx) (pairwise_cons.mp hes).2
      refine ⟨e :: newer, first, older, by rw [heq]; rfl, ?_, fun x hx => ha ▸ hold x hx⟩
      intro x hx
      rcases mem_cons.mp hx with rfl | hx
      · rfl
      · exact (hblock x hx).trans ha
    · refine ⟨[], e, a :: es, rfl, by simp, ?_⟩
      intro x hx hxe
      rcases mem_cons.mp hx with rfl | hx
      · exact ha hxe
      · -- `a` lies between `e` and `x`, which share a group
        have h₁ := he a (by simp)
        have h₂ := (pairwise_cons.mp hes).1 x hx
        rw [hxe] at h₂
        exact ha (anti _ _ h₂ h₁)

/-- The state of a run with unlimited undo and a generous allocator. -/
structure Regular (t : Traced) : Prop where
  consistent : Consistent t
  ready : Ready t.pt
  groups : GroupsOk t.pt
  unlimited : t.pt.undoLimit = none

/-- What is left of `Regular` to check after a step. -/
theorem Regular.of_stacksOnly (h : Regular t) (hc : Consistent { t with pt := pt' })
    (hg : pt'.heap.Grants) (hs : StacksOnly t.pt pt')
    (hu : pt'.undo.Pairwise fun a b => b.group ≤ a.group)
    (hr : pt'.redo.Pairwise fun a b => a.group ≤ b.group)
    (hx : ∀ u ∈ pt'.undo, ∀ r ∈ pt'.redo, u.group < r.group)
    (hmem : ∀ e, e ∈ pt'.undo ∨ e ∈ pt'.redo → e ∈ t.pt.undo ∨ e ∈ t.pt.redo) :
    Regular { t with pt := pt' } := by
  have hgs : pt'.groupSeq = t.pt.groupSeq := by rw [hs]
  refine ⟨hc, ⟨hc.sound, hg, ?_⟩, ⟨hu, hr, hx, ?_, ?_⟩, ?_⟩
  · have := h.ready.readOnly
    rw [show pt'.readOnly = t.pt.readOnly by rw [hs]]
    exact this
  · exact fun e he => hgs ▸ h.groups.seq e (hmem e he)
  · have h₁ : pt'.groupDepth = t.pt.groupDepth := by rw [hs]
    have h₂ : pt'.groupSticky = t.pt.groupSticky := by rw [hs]
    have h₃ : pt'.curGroup = t.pt.curGroup := by rw [hs]
    show grouped pt' → pt'.curGroup = pt'.groupSeq
    rw [grouped, h₁, h₂, h₃, hgs]
    exact h.groups.cur
  · show pt'.undoLimit = none
    rw [show pt'.undoLimit = t.pt.undoLimit by rw [hs]]
    exact h.unlimited

/-- **One undo** takes back exactly the group on top: the records `newer` and
`first` move across, and the document is again the one before `first`. -/
theorem regular_undo (h : Regular t) (hne : t.pt.undo ≠ []) :
    ∃ newer first older, t.pt.undo = (newer ++ [first]) ++ older ∧
      (∀ e ∈ newer, e.group = first.group) ∧ (∀ e ∈ older, e.group ≠ first.group) ∧
      (undo t.pt).1 = .ok ∧ (undo t.pt).2.2.undo = older ∧
      (undo t.pt).2.2.redo = first :: (newer.reverse ++ t.pt.redo) ∧
      doc (undo t.pt).2.2 = t.pre first ∧
      Regular { t with pt := (undo t.pt).2.2 } := by
  obtain ⟨e, es, hu⟩ := exists_cons_of_ne_nil hne
  have hmono := h.groups.undo
  rw [hu] at hmono
  obtain ⟨newer, first, older, heq, hblock, hold⟩ :=
    exists_block (r := fun a b => b ≤ a) (fun a b h₁ h₂ => Nat.le_antisymm h₂ h₁) hmono
  have hstack : t.pt.undo = (newer ++ [first]) ++ older := hu.trans heq
  have hfirst : first.group = e.group := hblock first (by simp)
  obtain ⟨aff', pt', hstep, hc, hg, hso, hfrom, hto⟩ := stepLoop_block h.consistent
    h.ready.grants true hstack hblock
    (fun x hx => hold x (mem_of_mem_head? hx))
    (show (newer ++ [first]).length ≤ (e :: es).length by simp [heq]) (0, 0)
  have hundo : undo t.pt = (.ok, aff', pt') := by
    rw [undo, step, show fromStack t.pt true = e :: es from hu]
    exact hstep
  have hfrom' : pt'.undo = older := hfrom
  have hto' : pt'.redo = first :: (newer.reverse ++ t.pt.redo) := by
    have : pt'.redo = (newer ++ [first]).reverse ++ t.pt.redo := hto
    simpa using this
  have hmem : ∀ x ∈ first :: newer.reverse, x.group = first.group ∧ x ∈ t.pt.undo := by
    intro x hx
    have hx' : x ∈ newer ++ [first] := by simpa [or_comm] using hx
    exact ⟨(hblock x hx').trans hfirst.symm, by rw [hstack]; exact mem_append_left _ hx'⟩
  have hlow : ∀ x ∈ older, x.group < first.group := by
    intro x hx
    have hle := (pairwise_append.mp (hstack ▸ h.groups.undo)).2.2 first (by simp) x hx
    have := hold x hx
    omega
  rw [hundo]
  refine ⟨newer, first, older, hstack, fun x hx => ?_, fun x hx => ?_, rfl, hfrom', hto', ?_, ?_⟩
  · exact (hblock x (by simp [hx])).trans hfirst.symm
  · exact hfirst ▸ hold x hx
  · have hfut := hc.future
    rw [show ({ t with pt := pt' } : Traced).pt.redo = _ from hto'] at hfut
    exact hfut.1.symm
  · refine h.of_stacksOnly hc hg hso ?_ ?_ ?_ ?_
    · rw [hfrom']
      exact (pairwise_append.mp (hstack ▸ h.groups.undo)).2.1
    · rw [hto', ← cons_append, pairwise_append]
      refine ⟨?_, h.groups.redo, fun x hx y hy => ?_⟩
      · refine pairwise_of_forall_mem_list fun x hx y hy => ?_
        exact Nat.le_of_eq ((hmem x hx).1.trans (hmem y hy).1.symm)
      · exact Nat.le_of_lt (h.groups.cross x (hmem x hx).2 y hy)
    · rw [hfrom', hto', ← cons_append]
      intro u hu' r hr
      rcases mem_append.mp hr with hr | hr
      · rw [(hmem r hr).1]
        exact hlow u hu'
      · exact h.groups.cross u (by simp [hstack, hu']) r hr
    · rw [hfrom', hto', ← cons_append]
      rintro x (hx | hx)
      · exact .inl (by simp [hstack, hx])
      · exact (mem_append.mp hx).imp (fun hx => (hmem x hx).2) id

/-- **One redo** puts back exactly the group on top of the redo stack. -/
theorem regular_redo (h : Regular t) {block rest : List PtEdit} {e : PtEdit}
    (hstack : t.pt.redo = (e :: block) ++ rest) (hblock : ∀ x ∈ block, x.group = e.group)
    (hrest : ∀ x ∈ rest, x.group ≠ e.group) :
    (redo t.pt).1 = .ok ∧ (redo t.pt).2.2.redo = rest ∧
      (redo t.pt).2.2.undo = (e :: block).reverse ++ t.pt.undo ∧
      Regular { t with pt := (redo t.pt).2.2 } := by
  have hblock' : ∀ x ∈ e :: block, x.group = e.group :=
    forall_mem_cons.mpr ⟨rfl, hblock⟩
  obtain ⟨aff', pt', hstep, hc, hg, hso, hfrom, hto⟩ := stepLoop_block h.consistent
    h.ready.grants false hstack hblock'
    (fun x hx => hrest x (mem_of_mem_head? hx))
    (show (e :: block).length ≤ (e :: (block ++ rest)).length by simp) (0, 0)
  have hredo : redo t.pt = (.ok, aff', pt') := by
    rw [redo, step, show fromStack t.pt false = e :: (block ++ rest) from hstack]
    exact hstep
  have hfrom' : pt'.redo = rest := hfrom
  have hto' : pt'.undo = (e :: block).reverse ++ t.pt.undo := hto
  have hmem : ∀ x ∈ (e :: block).reverse, x.group = e.group ∧ x ∈ t.pt.redo := by
    intro x hx
    have hx' := mem_reverse.mp hx
    exact ⟨hblock' x hx', by rw [hstack]; exact mem_append_left _ hx'⟩
  have hhigh : ∀ x ∈ rest, e.group < x.group := by
    intro x hx
    have hle := (pairwise_append.mp (hstack ▸ h.groups.redo)).2.2 e (by simp) x hx
    have := hrest x hx
    omega
  rw [hredo]
  refine ⟨rfl, hfrom', hto', h.of_stacksOnly hc hg hso ?_ ?_ ?_ ?_⟩
  · rw [hto', pairwise_append]
    refine ⟨?_, h.groups.undo, fun x hx y hy => ?_⟩
    · refine pairwise_of_forall_mem_list fun x hx y hy => ?_
      exact Nat.le_of_eq ((hmem y hy).1.trans (hmem x hx).1.symm)
    · exact Nat.le_of_lt (h.groups.cross y hy x (hmem x hx).2)
  · rw [hfrom']
    exact (pairwise_append.mp (hstack ▸ h.groups.redo)).2.1
  · rw [hfrom', hto']
    intro u hu r hr
    rcases mem_append.mp hu with hu | hu
    · rw [(hmem u hu).1]
      exact hhigh r hr
    · exact h.groups.cross u hu r (by rw [hstack]; exact mem_append_right _ hr)
  · rw [hfrom', hto']
    rintro x (hx | hx)
    · exact (mem_append.mp hx).elim (fun hx => .inr (hmem x hx).2) .inl
    · exact .inr (by rw [hstack]; exact mem_append_right _ hx)

variable {pt₁ : PieceTree}

/-- Undo followed by redo restores both stacks and the document, also when the
redo meets another state with the same stacks. -/
theorem redo_after_undo (h : Regular t) (hne : t.pt.undo ≠ []) (h₁ : Regular { t with pt := pt₁ })
    (hu : pt₁.undo = (undo t.pt).2.2.undo) (hr : pt₁.redo = (undo t.pt).2.2.redo) :
    (redo pt₁).1 = .ok ∧ (redo pt₁).2.2.undo = t.pt.undo ∧ (redo pt₁).2.2.redo = t.pt.redo ∧
      doc (redo pt₁).2.2 = doc t.pt ∧ Regular { t with pt := (redo pt₁).2.2 } := by
  obtain ⟨newer, first, older, hstack, hnew, -, -, hu', hr', -, -⟩ := regular_undo h hne
  obtain ⟨hok, hredo, hundo, hreg⟩ := regular_redo h₁ (hr.trans hr')
    (fun x hx => hnew x (mem_reverse.mp hx)) (by
      intro x hx
      have := h.groups.cross first (by simp [hstack]) x hx
      omega)
  have hundo' : (redo pt₁).2.2.undo = t.pt.undo := by
    rw [hundo, show ({ t with pt := pt₁ } : Traced).pt.undo = older from hu.trans hu', hstack]
    simp
  refine ⟨hok, hundo', hredo, ?_, hreg⟩
  -- both documents are the one behind the record on top
  obtain ⟨e, es, he⟩ := exists_cons_of_ne_nil hne
  have hp := h.consistent.past
  have hp₁ := hreg.consistent.past
  rw [show ({ t with pt := (redo pt₁).2.2 } : Traced).pt.undo = e :: es from hundo'.trans he] at hp₁
  rw [he] at hp
  exact hp₁.1.symm.trans hp.1

/-! ## Many steps -/

/-- `k` undos that all succeed. -/
def undoTimes : Nat → PieceTree → Option PieceTree
  | 0, pt => some pt
  | k + 1, pt =>
    match undo pt with
    | (.ok, _, pt') => undoTimes k pt'
    | (.err, _, _) => none

/-- `k` redos that all succeed. -/
def redoTimes : Nat → PieceTree → Option PieceTree
  | 0, pt => some pt
  | k + 1, pt =>
    match redo pt with
    | (.ok, _, pt') => redoTimes k pt'
    | (.err, _, _) => none

theorem redoTimes_succ {k : Nat} (h : redoTimes k pt = some pt₁) (hok : (redo pt₁).1 = .ok) :
    redoTimes (k + 1) pt = some (redo pt₁).2.2 := by
  induction k generalizing pt with
  | zero =>
    cases h
    rw [redoTimes]
    cases hr : redo pt₁ with
    | mk rc r =>
      rw [hr] at hok
      cases hok
      rfl
  | succ k ih =>
    rw [redoTimes] at h ⊢
    cases hr : redo pt with
    | mk rc r =>
      rw [hr] at h
      cases rc with
      | ok => exact ih h
      | err => cases h

theorem undo_of_empty (h : pt.undo = []) : undo pt = (.err, (0, 0), pt) := by
  rw [undo, step, show fromStack pt true = [] from h]

theorem redo_of_empty (h : pt.redo = []) : redo pt = (.err, (0, 0), pt) := by
  rw [redo, step, show fromStack pt false = [] from h]

/-- The first of several successful undos. -/
theorem undoTimes_succ {k : Nat} (h : Regular t) (hk : undoTimes (k + 1) t.pt = some pt₁) :
    t.pt.undo ≠ [] ∧ Regular { t with pt := (undo t.pt).2.2 } ∧
      undoTimes k (undo t.pt).2.2 = some pt₁ := by
  have hne : t.pt.undo ≠ [] := by
    intro hnil
    rw [undoTimes, undo_of_empty hnil] at hk
    cases hk
  obtain ⟨-, -, -, -, -, -, hok, -, -, -, hreg⟩ := regular_undo h hne
  refine ⟨hne, hreg, ?_⟩
  rw [undoTimes] at hk
  cases hun : undo t.pt with
  | mk rc r =>
    rw [hun] at hk hok
    cases hok
    exact hk

theorem regular_undoTimes (k : Nat) (h : Regular t) (hk : undoTimes k t.pt = some pt₁) :
    Regular { t with pt := pt₁ } := by
  induction k generalizing t with
  | zero =>
    cases hk
    exact h
  | succ k ih =>
    obtain ⟨-, hreg, hk'⟩ := undoTimes_succ h hk
    exact @ih { t with pt := (undo t.pt).2.2 } hreg hk'

/-- **`k` undos and `k` redos** are the identity on stacks and document. -/
theorem redoTimes_undoTimes (k : Nat) (h : Regular t) (hk : undoTimes k t.pt = some pt₁)
    {pt₂ : PieceTree} (h₂ : Regular { t with pt := pt₂ }) (hu : pt₂.undo = pt₁.undo)
    (hr : pt₂.redo = pt₁.redo) (hd : doc pt₂ = doc pt₁) :
    ∃ pt₃, redoTimes k pt₂ = some pt₃ ∧ pt₃.undo = t.pt.undo ∧ pt₃.redo = t.pt.redo ∧
      doc pt₃ = doc t.pt ∧ Regular { t with pt := pt₃ } := by
  induction k generalizing t with
  | zero =>
    cases hk
    exact ⟨pt₂, rfl, hu, hr, hd, h₂⟩
  | succ k ih =>
    obtain ⟨hne, hreg, hk'⟩ := undoTimes_succ h hk
    obtain ⟨pt₃, hrt, hu₃, hr₃, -, hreg₃⟩ := ih hreg hk' h₂
    obtain ⟨hok', h₁, h₂', h₃, h₄⟩ := redo_after_undo h hne hreg₃ hu₃ hr₃
    exact ⟨(redo pt₃).2.2, redoTimes_succ hrt hok', h₁, h₂', h₃, h₄⟩

/-- `k` undos in a row, whatever they return. -/
def undoAll (k : Nat) (pt : PieceTree) : PieceTree := (fun pt => (undo pt).2.2)^[k] pt

/-- `k` redos in a row, whatever they return. -/
def redoAll (k : Nat) (pt : PieceTree) : PieceTree := (fun pt => (redo pt).2.2)^[k] pt

theorem undoAll_spec (k : Nat) (h : Regular t) :
    ∃ j ≤ k, undoTimes j t.pt = some (undoAll k t.pt) ∧ Regular { t with pt := undoAll k t.pt } := by
  induction k generalizing t with
  | zero => exact ⟨0, Nat.le_refl _, rfl, h⟩
  | succ k ih =>
    by_cases hne : t.pt.undo = []
    · have hfix : undoAll (k + 1) t.pt = t.pt := by
        rw [undoAll, Function.iterate_fixed]
        rw [undo_of_empty hne]
      rw [hfix]
      exact ⟨0, Nat.zero_le _, rfl, h⟩
    · obtain ⟨-, -, -, -, -, -, hok, -, -, -, hreg⟩ := regular_undo h hne
      obtain ⟨j, hj, hjt, hreg'⟩ := ih hreg
      refine ⟨j + 1, by omega, ?_, hreg'⟩
      rw [undoTimes]
      cases hun : undo t.pt with
      | mk rc r =>
        rw [hun] at hok hjt
        cases hok
        rw [undoAll, Function.iterate_succ_apply, hun]
        exact hjt

theorem redoAll_of_redoTimes {j : Nat} (h : redoTimes j pt = some pt') :
    redoAll j pt = pt' := by
  induction j generalizing pt with
  | zero =>
    cases h
    rfl
  | succ j ih =>
    rw [redoTimes] at h
    rw [redoAll, Function.iterate_succ_apply]
    cases hr : redo pt with
    | mk rc r =>
      rw [hr] at h
      cases rc with
      | ok => exact ih h
      | err => cases h

theorem redoAll_undoAll (k : Nat) (h : Regular t) (hr : t.pt.redo = []) :
    doc (redoAll k (undoAll k t.pt)) = doc t.pt := by
  obtain ⟨j, hj, hjt, hreg⟩ := undoAll_spec k h
  obtain ⟨pt₃, hrt, -, hr₃, hd₃, -⟩ := redoTimes_undoTimes j h hjt hreg rfl rfl rfl
  have hfix : redoAll (k - j) pt₃ = pt₃ := by
    rw [redoAll, Function.iterate_fixed]
    rw [redo_of_empty (hr₃.trans hr)]
  have hsplit : redoAll k (undoAll k t.pt) = redoAll (k - j) (redoAll j (undoAll k t.pt)) := by
    rw [redoAll, redoAll, redoAll, ← Function.iterate_add_apply, Nat.sub_add_cancel hj]
  rw [hsplit, redoAll_of_redoTimes hrt, hfix]
  exact hd₃

/-! ## The invariant along runs -/

theorem Edited.undoLimit {D' : List UInt8} {r : Rc × PieceTree} (he : Edited pt D' r) :
    r.2.undoLimit = pt.undoLimit := by
  cases he with
  | failed pt' htext => rw [htext]
  | noop => rfl
  | recorded pt₁ kind offset len spans htext =>
    have h₁ : pt₁.undoLimit = pt.undoLimit := by rw [htext]
    have hr := recordEdit_recorded pt₁ kind offset len spans
    generalize recordEdit pt₁ kind offset len spans = r at hr
    cases hr <;> exact h₁
  | lost pt₁ htext =>
    have h₁ : pt₁.undoLimit = pt.undoLimit := by rw [htext]
    exact h₁

theorem GroupsOk.textOnly (h : GroupsOk pt) (htext : TextOnly pt pt₁) :
    GroupsOk pt₁ := by
  rw [htext]
  exact ⟨h.undo, h.redo, h.cross, h.seq, h.cur⟩

/-- A new record belongs to the newest group. -/
theorem GroupsOk.newRecord (h : GroupsOk pt) (kind : PtEditKind) (offset len : Nat)
    (spans : List PtSpan) :
    (newRecord pt kind offset len spans).group = nextGroupSeq pt := by
  by_cases hg : grouped pt
  · simp only [PieceTree.newRecord, nextGroupSeq, hg, if_true, h.cur hg]
  · simp only [PieceTree.newRecord, hg, if_false]

theorem groupSeq_le_next (pt : PieceTree) : pt.groupSeq ≤ nextGroupSeq pt := by
  rw [nextGroupSeq]
  split
  · exact Nat.le_refl _
  · exact Nat.le_succ _

theorem GroupsOk.edited {pt : PieceTree} (h : GroupsOk pt) {D' : List UInt8} {r : Rc × PieceTree}
    (he : Edited pt D' r) : GroupsOk r.2 := by
  cases he with
  | failed pt' htext => exact h.textOnly htext
  | noop => exact h
  | lost pt₁ htext =>
    have h₁ := h.textOnly htext
    exact ⟨.nil, .nil, by simp, by simp, h₁.cur⟩
  | recorded pt₁ kind offset len spans htext =>
    have h₁ := h.textOnly htext
    have hr := recordEdit_recorded pt₁ kind offset len spans
    have hnext := groupSeq_le_next pt₁
    have hcur : grouped pt₁ → pt₁.curGroup = nextGroupSeq pt₁ := by
      intro hg
      rw [nextGroupSeq, if_pos hg]
      exact h₁.cur hg
    generalize recordEdit pt₁ kind offset len spans = r at hr
    cases hr with
    | unlimited0 => exact ⟨h₁.undo, .nil, by simp, fun e he => h₁.seq e (he.imp id (by simp)), h₁.cur⟩
    | lost => exact ⟨.nil, .nil, by simp, by simp, hcur⟩
    | pushed n =>
      have htop := h₁.newRecord kind offset len spans
      have hold : ∀ u ∈ pt₁.undo.take n, u.group ≤ nextGroupSeq pt₁ := fun u hu =>
        Nat.le_trans (h₁.seq u (.inl (mem_of_mem_take hu))) hnext
      refine ⟨pairwise_cons.mpr ⟨fun u hu => htop ▸ hold u hu, ?_⟩, .nil, by simp, ?_, hcur⟩
      · exact h₁.undo.sublist (take_sublist _ _)
      · intro e he
        have he' : e ∈ PieceTree.newRecord pt₁ kind offset len spans :: pt₁.undo.take n := by
          simpa using he
        rcases mem_cons.mp he' with rfl | he'
        · exact Nat.le_of_eq htop
        · exact hold e he'

/-- Calls that leave the undo limit alone. -/
def Op.keepsLimit : Op → Bool
  | .setUndoLimit _ => false
  | _ => true

theorem consistent_undoGroupBegin (h : Consistent t) :
    Consistent { t with pt := undoGroupBegin t.pt } := by
  rw [undoGroupBegin]
  split <;>
  · exact h.regroup _ ⟨rfl, rfl, rfl, rfl, rfl, Heap.Later.refl _⟩ rfl rfl rfl

theorem editInvariant_regular : EditInvariant Regular where
  sound h := h.consistent.sound
  heap {t _} h hl :=
    ⟨h.consistent.regroup _ ⟨rfl, rfl, rfl, rfl, rfl, hl⟩ rfl rfl rfl,
      @runInvariant_ready.heap t _ h.ready hl,
      ⟨h.groups.undo, h.groups.redo, h.groups.cross, h.groups.seq, h.groups.cur⟩, h.unlimited⟩
  edited {t _ _} h he := by
    refine ⟨h.consistent.edited he fun h0 => ?_, @runInvariant_ready.edited t _ _ h.ready he, ?_, ?_⟩
    · rw [h.unlimited] at h0
      cases h0
    · rw [note_pt]
      exact h.groups.edited he
    · rw [note_pt, he.undoLimit]
      exact h.unlimited
  groupBegin {t} h := by
    refine ⟨consistent_undoGroupBegin h.consistent, @runInvariant_ready.groupBegin t h.ready, ?_, ?_⟩
    · have hseq := h.groups.seq
      rw [undoGroupBegin]
      split
      · exact ⟨h.groups.undo, h.groups.redo, h.groups.cross,
          fun e he => Nat.le_succ_of_le (hseq e he), fun _ => rfl⟩
      · rename_i hd
        exact ⟨h.groups.undo, h.groups.redo, h.groups.cross, hseq,
          fun _ => h.groups.cur (.inl (Nat.pos_of_ne_zero hd))⟩
    · rw [undoGroupBegin]
      split <;> exact h.unlimited
  groupEnd {t} h := by
    refine ⟨h.consistent.regroup _ ⟨rfl, rfl, rfl, rfl, rfl, Heap.Later.refl _⟩ rfl rfl rfl,
      @runInvariant_ready.groupEnd t h.ready, ⟨h.groups.undo, h.groups.redo, h.groups.cross,
        h.groups.seq, fun hg => h.groups.cur ?_⟩, h.unlimited⟩
    rcases hg with hg | hg
    · have hd : t.pt.groupDepth - 1 > 0 := hg
      exact .inl (by omega)
    · exact .inr hg

theorem regular_exec {op : Op} (h : Regular t) (hop : op.keepsLimit = true) :
    Regular (t.exec op) := by
  have hw := h.consistent.sound.wf
  cases op with
  | insert offset data => exact editInvariant_regular.edited h (insert_edited hw offset data)
  | delete offset len => exact editInvariant_regular.edited h (delete_edited hw offset len)
  | applyEdits edits => exact editInvariant_regular.applyEdits h edits
  | groupBegin => exact editInvariant_regular.groupBegin h
  | groupEnd => exact editInvariant_regular.groupEnd h
  | setUndoLimit m => cases hop
  | undo =>
    show Regular { t with pt := (undo t.pt).2.2 }
    by_cases hne : t.pt.undo = []
    · rw [undo_of_empty hne]
      exact h
    · obtain ⟨-, -, -, -, -, -, -, -, -, -, hreg⟩ := regular_undo h hne
      exact hreg
  | redo =>
    show Regular { t with pt := (redo t.pt).2.2 }
    cases hr : t.pt.redo with
    | nil =>
      rw [redo_of_empty hr]
      exact h
    | cons e es =>
      have hmono := h.groups.redo
      rw [hr] at hmono
      obtain ⟨newer, first, older, heq, hblock, hold⟩ :=
        exists_block (fun a b h₁ h₂ => Nat.le_antisymm h₁ h₂) hmono
      obtain ⟨x, xs, hx⟩ := exists_cons_of_ne_nil
        (show newer ++ [first] ≠ [] by simp)
      rw [hx] at heq hblock
      have hxe : x.group = e.group := hblock x (by simp)
      exact (regular_redo h (hr.trans heq)
        (fun y hy => (hblock y (by simp [hy])).trans hxe.symm)
        fun y hy => hxe ▸ hold y hy).2.2.2
  | checkpoint =>
    refine ⟨h.consistent.regroup _ ⟨rfl, rfl, rfl, rfl, rfl, Heap.Later.refl _⟩ rfl rfl rfl,
      @runInvariant_ready.checkpoint t h.ready, ?_, h.unlimited⟩
    exact ⟨h.groups.undo, h.groups.redo, h.groups.cross,
      fun e he => Nat.le_succ_of_le (h.groups.seq e he), fun _ => rfl⟩
  | save =>
    obtain ⟨h₁, h₂, h₃, h₄⟩ :=
      h.consistent.regroup (savePoint t.pt) ⟨rfl, rfl, rfl, rfl, rfl, Heap.Later.refl _⟩ rfl rfl rfl
    refine ⟨⟨h₁, fun e he => ?_, h₃, h₄⟩, @runInvariant_ready.saved t h.ready, ?_, h.unlimited⟩
    · obtain ⟨k₁, k₂, k₃, k₄, k₅⟩ := h₂ e he
      exact ⟨k₁, k₂, k₃, k₄, k₅⟩
    · exact ⟨h.groups.undo, h.groups.redo, h.groups.cross, h.groups.seq, h.groups.cur⟩

theorem regular_run (h : Regular t) {ops : List Op} (hops : ∀ op ∈ ops, op.keepsLimit = true) :
    Regular (t.run ops) := by
  induction ops generalizing t with
  | nil => exact h
  | cons op ops ih =>
    exact ih (regular_exec h (hops op (by simp))) fun op' h' => hops op' (by simp [h'])

/-! ## New edits and the redo stack -/

/-- Nothing was edited since `pt`, or the redo stack is gone. -/
def Untouched (pt : PieceTree) (t : Traced) : Prop :=
  Sound t.pt ∧ (t.pt.undo = pt.undo ∧ doc t.pt = doc pt ∨ t.pt.redo = [])

theorem editInvariant_untouched (pt : PieceTree) : EditInvariant (Untouched pt) where
  sound h := h.1
  heap {t _} h hl := ⟨@runInvariant_sound.heap t _ h.1 hl, h.2⟩
  edited {t _ _} h he := by
    refine ⟨@runInvariant_sound.edited t _ _ h.1 he, ?_⟩
    rw [note_pt]
    cases he with
    | failed pt' htext hgrow hw hl hdoc =>
      rw [htext.undo, htext.redo, hdoc]
      exact h.2
    | noop => exact h.2
    | lost => exact .inr rfl
    | recorded pt₁ kind offset len spans =>
      right
      have hr := recordEdit_recorded pt₁ kind offset len spans
      generalize recordEdit pt₁ kind offset len spans = r at hr
      cases hr <;> rfl
  groupBegin {t} h := by
    refine ⟨@runInvariant_sound.groupBegin t h.1, ?_⟩
    rw [undoGroupBegin]
    split <;> exact h.2
  groupEnd {t} h := ⟨@runInvariant_sound.groupEnd t h.1, h.2⟩

/-- An edit, alone or in a batch, that changes anything empties the redo stack. -/
theorem untouched_exec (hs : Sound pt) {op : Op}
    (hop : (∃ o d, op = .insert o d) ∨ (∃ o n, op = .delete o n) ∨ ∃ es, op = .applyEdits es) :
    Untouched pt ((Traced.start pt).exec op) := by
  have h₀ : Untouched pt (Traced.start pt) := ⟨hs, .inl ⟨rfl, rfl⟩⟩
  rcases hop with ⟨o, d, rfl⟩ | ⟨o, n, rfl⟩ | ⟨es, rfl⟩
  · exact (editInvariant_untouched pt).edited h₀ (insert_edited hs.wf o d)
  · exact (editInvariant_untouched pt).edited h₀ (delete_edited hs.wf o n)
  · exact (editInvariant_untouched pt).applyEdits h₀ es

/-! ## Exactness of the history -/

theorem regular_start (hs : Sound pt) (hg : pt.heap.Grants) (hro : pt.readOnly = false)
    (hu : pt.undo = []) (hr : pt.redo = []) (hl : pt.undoLimit = none) (hgr : ¬ grouped pt) :
    Regular (Traced.start pt) := by
  refine ⟨consistent_start hs hu hr, ⟨hs, hg, hro⟩, ⟨?_, ?_, ?_, ?_, fun h => absurd h hgr⟩, hl⟩
  · rw [show (Traced.start pt).pt.undo = [] from hu]
    exact .nil
  · rw [show (Traced.start pt).pt.redo = [] from hr]
    exact .nil
  · rw [show (Traced.start pt).pt.undo = [] from hu]
    simp
  · rw [show (Traced.start pt).pt.undo = [] from hu, show (Traced.start pt).pt.redo = [] from hr]
    simp

/-- **The history is exact.** For every file and every run of edits, batches,
groups, checkpoints, undos and redos with unlimited undo and all allocations
granted, in the state reached:

- a successful undo takes back the whole group on top, restores the document
  noted before the group's first edit, and a redo right after it restores the
  document before the undo;
- `k` successful undos and then `k` redos are the identity on the document, and
  so are any `k` undos and `k` redos when there was nothing to redo before;
- an edit either leaves stack and document alone or makes redo unavailable, and
  one that inserts or removes bytes does the latter. -/
theorem run_history_exact (view : List UInt8) (ops : List Op)
    (hops : ∀ op ∈ ops, op.keepsLimit = true) :
    ∃ pt₀, openView generous view = some pt₀ ∧
      ((Traced.start pt₀).run ops).pt = run pt₀ ops ∧
      ((undo (run pt₀ ops)).1 = .ok →
        (∃ newer first older, (run pt₀ ops).undo = newer ++ first :: older ∧
          (∀ e ∈ newer, e.group = first.group) ∧ (∀ e ∈ older, e.group ≠ first.group) ∧
          (undo (run pt₀ ops)).2.2.undo = older ∧
          doc (undo (run pt₀ ops)).2.2
            = ((Traced.start pt₀).run ops).before first.postState) ∧
        (redo (undo (run pt₀ ops)).2.2).1 = .ok ∧
        doc (redo (undo (run pt₀ ops)).2.2).2.2 = doc (run pt₀ ops)) ∧
      (∀ k pt₁, undoTimes k (run pt₀ ops) = some pt₁ →
        ∃ pt₂, redoTimes k pt₁ = some pt₂ ∧ doc pt₂ = doc (run pt₀ ops)) ∧
      (canRedo (run pt₀ ops) = false →
        ∀ k, doc (redoAll k (undoAll k (run pt₀ ops))) = doc (run pt₀ ops)) ∧
      (∀ op, (∃ o d, op = .insert o d) ∨ (∃ o n, op = .delete o n) ∨ (∃ es, op = .applyEdits es) →
        (exec (run pt₀ ops) op).undo = (run pt₀ ops).undo ∧
            doc (exec (run pt₀ ops) op) = doc (run pt₀ ops) ∨
          canRedo (exec (run pt₀ ops) op) = false ∧
            (redo (exec (run pt₀ ops) op)).1 = .err) ∧
      (∀ o d, d ≠ [] → canRedo (insert (run pt₀ ops) o d).2 = false) ∧
      ∀ o n, 0 < n → o < length (run pt₀ ops) → canRedo (delete (run pt₀ ops) o n).2 = false := by
  obtain ⟨hsome, hspec⟩ := openView_spec generous view
  obtain ⟨pt₀, hopen⟩ := Option.ne_none_iff_exists'.mp (hsome fun _ => rfl)
  obtain ⟨hs, -, hg, hu, hr, hl, hro, -, -, -, hgr⟩ := hspec pt₀ hopen
  have h₀ : Regular (Traced.start pt₀) :=
    regular_start hs (fun n => by rw [hg]; rfl) hro hu hr hl hgr
  have h := regular_run h₀ hops
  have hpt : ((Traced.start pt₀).run ops).pt = run pt₀ ops := run_pt _ ops
  refine ⟨pt₀, hopen, hpt, ?_⟩
  rw [← hpt]
  generalize (Traced.start pt₀).run ops = t at h
  have hw := h.consistent.sound.wf
  have hredo : ∀ pt : PieceTree, pt.redo = [] → canRedo pt = false ∧ (redo pt).1 = .err :=
    fun pt hnil => ⟨by simp [canRedo, hnil], by rw [redo_of_empty hnil]⟩
  have hedit : ∀ op, (∃ o d, op = .insert o d) ∨ (∃ o n, op = .delete o n) ∨
      (∃ es, op = .applyEdits es) → (exec t.pt op).undo = t.pt.undo ∧ doc (exec t.pt op) = doc t.pt ∨
        canRedo (exec t.pt op) = false ∧ (redo (exec t.pt op)).1 = .err := by
    intro op hop
    have hun := (untouched_exec h.consistent.sound hop).2
    rw [exec_pt] at hun
    exact hun.imp id (hredo _)
  -- an edit that changes the length of the document is not among the harmless ones
  have hlen : ∀ op, (∃ o d, op = .insert o d) ∨ (∃ o n, op = .delete o n) ∨
      (∃ es, op = .applyEdits es) → (doc (exec t.pt op)).length ≠ (doc t.pt).length →
        canRedo (exec t.pt op) = false := by
    intro op hop hne
    rcases hedit op hop with ⟨-, hd⟩ | ⟨hc, -⟩
    · exact absurd (by rw [hd]) hne
    · exact hc
  refine ⟨fun hok => ?_, fun k pt₁ hk => ?_, fun hr' k => ?_, hedit, fun o d hd => ?_,
    fun o n hn ho => ?_⟩
  · have hne : t.pt.undo ≠ [] := by
      intro hnil
      rw [undo_of_empty hnil] at hok
      cases hok
    obtain ⟨newer, first, older, hstack, hnew, hold, -, hu', -, hd', hreg⟩ := regular_undo h hne
    obtain ⟨hok', -, -, hd'', -⟩ := redo_after_undo h hne hreg rfl rfl
    refine ⟨⟨newer, first, older, ?_, hnew, hold, hu', hd'⟩, hok', hd''⟩
    rw [hstack]
    simp
  · obtain ⟨pt₃, hrt, -, -, hd₃, -⟩ :=
      redoTimes_undoTimes k h hk (regular_undoTimes k h hk) rfl rfl rfl
    exact ⟨pt₃, hrt, hd₃⟩
  · have hnil : t.pt.redo = [] := by simpa [canRedo] using hr'
    exact redoAll_undoAll k h hnil
  · refine hlen (.insert o d) (.inl ⟨o, d, rfl⟩) ?_
    obtain ⟨-, -, hok, hgr'⟩ := h.consistent.sound.edited (insert_edited hw o d)
    have : doc (exec t.pt (.insert o d)) = splice (doc t.pt) o d :=
      hok (hgr' h.ready.readOnly h.ready.grants)
    have hpos := length_pos_iff.mpr hd
    rw [this, splice, length_append, length_append, length_take, length_drop]
    omega
  · refine hlen (.delete o n) (.inr (.inl ⟨o, n, rfl⟩)) ?_
    obtain ⟨-, -, hok, hgr'⟩ := h.consistent.sound.edited (delete_edited hw o n)
    have : doc (exec t.pt (.delete o n)) = cut (doc t.pt) o n :=
      hok (hgr' h.ready.readOnly h.ready.grants)
    rw [hw.length_eq] at ho
    rw [this, cut, length_append, length_take, length_drop]
    omega

/-- The statement at work: two edits on a one-byte file, the second in a group. -/
theorem run_history_exact_two_edits :
    (∀ op ∈ ([.insert 1 [98, 10], .groupBegin, .delete 0 1] : List Op), op.keepsLimit = true) ∧
      ∃ pt₀, openView generous [97] = some pt₀ ∧
        ∀ k pt₁, undoTimes k (run pt₀ [.insert 1 [98, 10], .groupBegin, .delete 0 1]) = some pt₁ →
          ∃ pt₂, redoTimes k pt₁ = some pt₂ ∧
            doc pt₂ = doc (run pt₀ [.insert 1 [98, 10], .groupBegin, .delete 0 1]) := by
  have hops : ∀ op ∈ ([.insert 1 [98, 10], .groupBegin, .delete 0 1] : List Op),
      op.keepsLimit = true := by simp [Op.keepsLimit]
  obtain ⟨pt₀, hopen, -, -, hk, -⟩ :=
    run_history_exact [97] [.insert 1 [98, 10], .groupBegin, .delete 0 1] hops
  exact ⟨hops, pt₀, hopen, hk⟩

/-! ## Failing allocations -/

/-- Every record that the loop of `step` still meets can be applied. -/
def AppliesLoop (gid : Nat) (inverse : Bool) : Nat → PieceTree → Prop
  | 0, _ => True
  | fuel + 1, pt =>
    match fromStack pt inverse with
    | [] => True
    | e :: _ =>
      e.group = gid →
        match editApply pt e inverse with
        | (.err, _) => False
        | (.ok, pt₁) =>
          match moveRecord pt₁ inverse e with
          | (true, pt₂) => AppliesLoop gid inverse fuel pt₂
          | (false, _) => True

/-- Once the first record of the group has been moved, the others can be applied. -/
def AllOrNothing (pt : PieceTree) (inverse : Bool) : Prop :=
  match fromStack pt inverse with
  | [] => True
  | e :: es =>
    match editApply pt e inverse with
    | (.err, _) => True
    | (.ok, pt₁) =>
      match moveRecord pt₁ inverse e with
      | (true, pt₂) => AppliesLoop e.group inverse es.length pt₂
      | (false, _) => True

theorem stepLoop_ok {gid : Nat} {inverse : Bool} (fuel : Nat) (aff : Nat × Nat)
    (h : AppliesLoop gid inverse fuel pt) : (stepLoop gid inverse fuel pt aff).1 = .ok := by
  induction fuel generalizing pt aff with
  | zero => rfl
  | succ fuel ih =>
    rw [stepLoop]
    rw [AppliesLoop] at h
    cases hf : fromStack pt inverse with
    | nil => rfl
    | cons e es =>
      rw [hf] at h
      dsimp only at h ⊢
      split
      case isFalse hne => rfl
      case isTrue hgid =>
        replace h := h hgid
        generalize editApply pt e inverse = r at h
        obtain ⟨rc, pt₁⟩ := r
        cases rc with
        | err => cases h
        | ok =>
          dsimp only at h ⊢
          generalize moveRecord pt₁ inverse e = r at h
          obtain ⟨b, pt₂⟩ := r
          cases b with
          | true => exact ih _ h
          | false => rfl

/-- An undo or redo that fails, and that does not fail half way, leaves the
document alone. -/
theorem step_err_doc (hs : Sound pt) {inverse : Bool} (ha : AllOrNothing pt inverse)
    (herr : (step pt inverse).1 = .err) :
    doc (step pt inverse).2.2 = doc pt := by
  rw [step] at herr ⊢
  rw [AllOrNothing] at ha
  cases hf : fromStack pt inverse with
  | nil => rfl
  | cons e es =>
    rw [hf] at ha herr
    dsimp only at ha herr ⊢
    rw [length_cons, stepLoop, hf] at herr ⊢
    simp only [if_true] at herr ⊢
    obtain ⟨D, hout, -, -, -⟩ := editApply_outcome hs.wf (fromStack_sound hs hf) inverse
    generalize editApply pt e inverse = r at hout ha herr
    cases hout with
    | failed h hl => rfl
    | applied t h hl ht =>
      dsimp only at ha herr
      generalize moveRecord { pt with tree := t, heap := h } inverse e = r at ha herr
      obtain ⟨b, pt₂⟩ := r
      cases b with
      | true =>
        have := stepLoop_ok es.length
          (e.offset, if (e.kind = .insert) = (inverse = false) then e.length else 0) ha
        rw [this] at herr
        cases herr
      | false => cases herr

/-- `step` is not interrupted: it loses no record and does not stop half way. -/
def Uninterrupted (pt : PieceTree) (inverse : Bool) : Prop :=
  KeepsRecords pt inverse ∧ AllOrNothing pt inverse

/-- The condition on the calls of a run: undos and redos are not interrupted. -/
def CleanCall (pt : PieceTree) : Op → Prop
  | .undo => Uninterrupted pt true
  | .redo => Uninterrupted pt false
  | _ => True

/-- A timeline under the default undo limit. -/
def Unlimited (t : Traced) : Prop := Consistent t ∧ t.pt.undoLimit = none

theorem editInvariant_unlimited : EditInvariant Unlimited where
  sound h := h.1.sound
  heap h hl := ⟨h.1.regroup _ ⟨rfl, rfl, rfl, rfl, rfl, hl⟩ rfl rfl rfl, h.2⟩
  edited {t _ _} h he := by
    refine ⟨h.1.edited he fun h0 => ?_, ?_⟩
    · rw [h.2] at h0
      cases h0
    · rw [note_pt, he.undoLimit]
      exact h.2
  groupBegin {t} h := by
    refine ⟨consistent_undoGroupBegin h.1, ?_⟩
    rw [undoGroupBegin]
    split <;> exact h.2
  groupEnd h := ⟨h.1.regroup _ ⟨rfl, rfl, rfl, rfl, rfl, Heap.Later.refl _⟩ rfl rfl rfl, h.2⟩

theorem stepInvariant_unlimited : StepInvariant Unlimited where
  consistent h := h.1
  heap h hl := editInvariant_unlimited.heap h hl
  moved h hf hl ht hm hkeep := by
    refine ⟨(h.1.moved hf hl ht hm hkeep).1, ?_⟩
    cases hm <;> exact h.2

theorem unlimited_exec {op : Op} (h : Unlimited t) (hop : op.keepsLimit = true)
    (hc : CleanCall t.pt op) : Unlimited (t.exec op) := by
  have hw := h.1.sound.wf
  cases op with
  | insert offset data => exact editInvariant_unlimited.edited h (insert_edited hw offset data)
  | delete offset len => exact editInvariant_unlimited.edited h (delete_edited hw offset len)
  | applyEdits edits => exact editInvariant_unlimited.applyEdits h edits
  | groupBegin => exact editInvariant_unlimited.groupBegin h
  | groupEnd => exact editInvariant_unlimited.groupEnd h
  | setUndoLimit m => cases hop
  | undo => exact stepInvariant_unlimited.step h hc.1
  | redo => exact stepInvariant_unlimited.step h hc.1
  | checkpoint =>
    exact ⟨h.1.regroup _ ⟨rfl, rfl, rfl, rfl, rfl, Heap.Later.refl _⟩ rfl rfl rfl, h.2⟩
  | save =>
    obtain ⟨h₁, h₂, h₃, h₄⟩ :=
      h.1.regroup (savePoint t.pt) ⟨rfl, rfl, rfl, rfl, rfl, Heap.Later.refl _⟩ rfl rfl rfl
    refine ⟨⟨h₁, fun e he => ?_, h₃, h₄⟩, h.2⟩
    obtain ⟨k₁, k₂, k₃, k₄, k₅⟩ := h₂ e he
    exact ⟨k₁, k₂, k₃, k₄, k₅⟩

/-- **Out of memory.** For every pattern of allocation failures, every file that
could be opened and every run whose undos and redos are not interrupted: in the
state reached, a failing insert or delete, and a failing undo or redo that is
not interrupted, leaves the document as it was, and a successful one leads to a
document that existed next to a recorded edit of the run. -/
theorem run_history_safe (grant : Nat → Bool) (view : List UInt8) (pt₀ : PieceTree)
    (hopen : openView ⟨grant, 0⟩ view = some pt₀) (ops : List Op)
    (hops : ∀ op ∈ ops, op.keepsLimit = true) (hclean : RunMeets CleanCall pt₀ ops) :
    ((Traced.start pt₀).run ops).pt = run pt₀ ops ∧
      (∀ o d, (insert (run pt₀ ops) o d).1 = .err →
        doc (insert (run pt₀ ops) o d).2 = doc (run pt₀ ops)) ∧
      (∀ o n, (delete (run pt₀ ops) o n).1 = .err →
        doc (delete (run pt₀ ops) o n).2 = doc (run pt₀ ops)) ∧
      (Uninterrupted (run pt₀ ops) true →
        ((undo (run pt₀ ops)).1 = .err → doc (undo (run pt₀ ops)).2.2 = doc (run pt₀ ops)) ∧
        ((undo (run pt₀ ops)).1 = .ok →
          doc (undo (run pt₀ ops)).2.2 ∈ ((Traced.start pt₀).run ops).states)) ∧
      (Uninterrupted (run pt₀ ops) false →
        ((redo (run pt₀ ops)).1 = .err → doc (redo (run pt₀ ops)).2.2 = doc (run pt₀ ops)) ∧
        ((redo (run pt₀ ops)).1 = .ok →
          doc (redo (run pt₀ ops)).2.2 ∈ ((Traced.start pt₀).run ops).states)) := by
  obtain ⟨hs, -, -, hu, hr, hl, -⟩ := (openView_spec ⟨grant, 0⟩ view).2 pt₀ hopen
  have h₀ : Unlimited (Traced.start pt₀) := ⟨consistent_start hs hu hr, hl⟩
  have hboth : RunMeets (fun pt op => op.keepsLimit = true ∧ CleanCall pt op) pt₀ ops := by
    clear hopen hs hu hr hl h₀
    induction ops generalizing pt₀ with
    | nil => trivial
    | cons op ops ih =>
      exact ⟨⟨hops op (by simp), hclean.1⟩,
        ih (exec pt₀ op) (fun op' h' => hops op' (by simp [h'])) hclean.2⟩
  have h : Unlimited ((Traced.start pt₀).run ops) :=
    run_rule (fun hp hc => unlimited_exec hp hc.1 hc.2) h₀ hboth
  have hpt : ((Traced.start pt₀).run ops).pt = run pt₀ ops := run_pt _ ops
  refine ⟨hpt, ?_⟩
  rw [← hpt]
  generalize (Traced.start pt₀).run ops = t at h
  have hw := h.1.sound.wf
  exact ⟨fun o d => (h.1.sound.edited (insert_edited hw o d)).2.1,
    fun o n => (h.1.sound.edited (delete_edited hw o n)).2.1,
    fun hun => ⟨step_err_doc h.1.sound hun.2, (h.1.step true hun.1).2⟩,
    fun hun => ⟨step_err_doc h.1.sound hun.2, (h.1.step false hun.1).2⟩⟩

/-- An allocator that refuses one single request. -/
def oneRefusal (n : Nat) : Heap := ⟨fun k => k != n, 0⟩

/-- The statement at work: a delete that is out of memory between an insert and
its undo. -/
theorem run_history_safe_one_refusal :
    ∃ pt₀, openView (oneRefusal 6) [] = some pt₀ ∧
      (∀ op ∈ ([.insert 0 [97, 98], .delete 0 1, .undo] : List Op), op.keepsLimit = true) ∧
      RunMeets CleanCall pt₀ [.insert 0 [97, 98], .delete 0 1, .undo] ∧
      (delete (run pt₀ [.insert 0 [97, 98]]) 0 1).1 = .err ∧
      ∀ o n, (delete (run pt₀ [.insert 0 [97, 98], .delete 0 1, .undo]) o n).1 = .err →
        doc (delete (run pt₀ [.insert 0 [97, 98], .delete 0 1, .undo]) o n).2
          = doc (run pt₀ [.insert 0 [97, 98], .delete 0 1, .undo]) := by
  have hopen : openView (oneRefusal 6) [] = some ((openView (oneRefusal 6) []).get rfl) := rfl
  have hops : ∀ op ∈ ([.insert 0 [97, 98], .delete 0 1, .undo] : List Op),
      op.keepsLimit = true := by simp [Op.keepsLimit]
  have hclean : RunMeets CleanCall ((openView (oneRefusal 6) []).get rfl)
      [.insert 0 [97, 98], .delete 0 1, .undo] :=
    ⟨trivial, trivial, ⟨fun _ => trivial, trivial⟩, trivial⟩
  exact ⟨_, hopen, hops, hclean, by decide,
    (run_history_safe _ [] _ hopen _ hops hclean).2.2.1⟩

/-- Half an undo: the second record of a batch finds no memory, so the undo
fails with the first record already reverted. -/
theorem undo_err_half_reverted :
    ¬ ∀ (grant : Nat → Bool) (pt₀ : PieceTree), openView ⟨grant, 0⟩ [] = some pt₀ →
      ∀ ops : List Op, (∀ op ∈ ops, op.keepsLimit = true) →
        (undo (run pt₀ ops)).1 = .err → doc (undo (run pt₀ ops)).2.2 = doc (run pt₀ ops) := by
  intro h
  have hdoc := h (fun k => k != 13) ((openView (oneRefusal 13) []).get rfl) rfl
    [.insert 0 [97, 98, 99], .applyEdits [⟨0, 1, []⟩, ⟨1, 1, []⟩]]
    (by simp [Op.keepsLimit]) (by decide)
  revert hdoc
  decide

end PieceTree

end AxlSdk
