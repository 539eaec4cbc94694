import AxlSdk.Lib.AugTree

/-!
# The intrusive red-black tree (`src/data/axl-rb-tree.c`)

`AxlRBTree` keeps its nodes linked by `left`, `right` and `parent` pointers and
calls a `recompute` callback whenever a node's children changed. Here a node
pointer is a position (`AugTree.Tree` with its path to the root), so walking
`->parent` is popping a `Frame`; `rc` is the callback.

The structural half of the file is modelled in full: the two rotations,
`insert_fixup`, `delete_fixup` with the separately tracked parent, the
`transplant` cases of `axl_rb_erase`, `propagate`, and the in-order steps
`axl_rb_first`, `axl_rb_last`, `axl_rb_next`. What is proved here is what the
piece tree relies on: each operation changes the in-order contents exactly as
advertised, and leaves every stored aggregate equal to the measure of its
subtree.

A NULL sibling or grandparent that the C code would dereference cannot occur in
a red-black tree; the model leaves the tree as it is in those branches.
-/

namespace AxlSdk

namespace RbTree

open AugTree AugTree.Tree

variable {α σ : Type} (rc : α → Option σ → Option σ → σ)

/-! ## Rotations -/

/-- `left_rotate`: the right child becomes the upper node; the lower node is
recomputed first. -/
def leftRotate : Tree α σ → Tree α σ
  | node c x a _ (node cy yl b _ yr) => mk rc cy (mk rc c x a yl) b yr
  | t => t

/-- `right_rotate`. -/
def rightRotate : Tree α σ → Tree α σ
  | node c (node cy yl b _ yr) a _ x => mk rc cy yl b (mk rc c yr a x)
  | t => t

@[simp] theorem toList_leftRotate (t : Tree α σ) : (leftRotate rc t).toList = t.toList := by
  unfold leftRotate
  split <;> simp

@[simp] theorem toList_rightRotate (t : Tree α σ) : (rightRotate rc t).toList = t.toList := by
  unfold rightRotate
  split <;> simp

variable {rc} {m : List α → σ}

variable {t : Tree α σ}

theorem aug_leftRotate (hm : Measures rc m) (h : Aug m t) :
    Aug m (leftRotate rc t) := by
  unfold leftRotate
  split
  · obtain ⟨-, hx, -, hyl, hyr⟩ := h
    exact aug_mk hm (aug_mk hm hx hyl) hyr
  · exact h

theorem aug_rightRotate (hm : Measures rc m) (h : Aug m t) :
    Aug m (rightRotate rc t) := by
  unfold rightRotate
  split
  · obtain ⟨-, ⟨-, hyl, hyr⟩, hx⟩ := h
    exact aug_mk hm hyl (aug_mk hm hyr hx)
  · exact h

variable (rc)

/-! ## Insertion -/

/-- `insert_fixup`, with `z` at the position `z, k`. The loop climbs two levels
whenever the uncle is red and stops after at most two rotations otherwise; the
root is painted black on the way out. -/
def insertFixup : Tree α σ → List (Frame α σ) → Tree α σ
  | z, .left .red pa ps pr :: .left _ ga gs u :: k =>
    if u.isRed then
      insertFixup (node .red (node .black z pa ps pr) ga gs (u.setColor .black)) k
    else
      (zip (rightRotate rc (node .red (node .black z pa ps pr) ga gs u)) k).setColor .black
  | z, .right pl .red pa ps :: .left _ ga gs u :: k =>
    if u.isRed then
      insertFixup (node .red (node .black pl pa ps z) ga gs (u.setColor .black)) k
    else
      -- `z` is an inner grandchild: rotate it up over its parent first
      (zip (rightRotate rc
        (node .red ((leftRotate rc (node .red pl pa ps z)).setColor .black) ga gs u)) k).setColor
          .black
  | z, .right pl .red pa ps :: .right u _ ga gs :: k =>
    if u.isRed then
      insertFixup (node .red (u.setColor .black) ga gs (node .black pl pa ps z)) k
    else
      (zip (leftRotate rc (node .red u ga gs (node .black pl pa ps z))) k).setColor .black
  | z, .left .red pa ps pr :: .right u _ ga gs :: k =>
    if u.isRed then
      insertFixup (node .red (u.setColor .black) ga gs (node .black z pa ps pr)) k
    else
      (zip (leftRotate rc
        (node .red u ga gs ((rightRotate rc (node .red z pa ps pr)).setColor .black))) k).setColor
          .black
  | z, k => (zip z k).setColor .black

/-- `axl_rb_link_node` at the empty slot `k` followed by `axl_rb_insert`: a
fresh red leaf, aggregates recomputed up to the root, then the fixup. -/
def insert (a : α) (k : List (Frame α σ)) : Tree α σ :=
  let z := mk rc .red leaf a leaf
  insertFixup rc z (refresh rc z.agg k)

theorem toList_insertFixup (z : Tree α σ) (k : List (Frame α σ)) :
    (insertFixup rc z k).toList = before k ++ (z.toList ++ after k) := by
  induction z, k using insertFixup.induct with
  | case1 z pa ps pr c ga gs u k hu ih =>
    rw [insertFixup, if_pos hu, ih]
    simp [before, after]
  | case2 z pa ps pr c ga gs u k hu =>
    rw [insertFixup, if_neg hu]
    simp [toList_zip, before, after]
  | case3 z pl pa ps c ga gs u k hu ih =>
    rw [insertFixup, if_pos hu, ih]
    simp [before, after]
  | case4 z pl pa ps c ga gs u k hu =>
    rw [insertFixup, if_neg hu]
    simp [toList_zip, before, after]
  | case5 z pl pa ps u c ga gs k hu ih =>
    rw [insertFixup, if_pos hu, ih]
    simp [before, after]
  | case6 z pl pa ps u c ga gs k hu =>
    rw [insertFixup, if_neg hu]
    simp [toList_zip, before, after]
  | case7 z pa ps pr u c ga gs k hu ih =>
    rw [insertFixup, if_pos hu, ih]
    simp [before, after]
  | case8 z pa ps pr u c ga gs k hu =>
    rw [insertFixup, if_neg hu]
    simp [toList_zip, before, after]
  | case9 z k h₁ h₂ h₃ h₄ =>
    rw [insertFixup]
    · simp [toList_zip]
    · exact h₁
    · exact h₂
    · exact h₃
    · exact h₄

/-- The in-order contents gain exactly the linked node, at its slot. -/
theorem toList_insert (a : α) (k : List (Frame α σ)) :
    (insert rc a k).toList = before k ++ a :: after k := by
  rw [insert, toList_insertFixup]
  simp

variable {rc}

/-- The fixup keeps every aggregate correct: recolouring touches none, and a
rotation recomputes the two nodes it moves over unchanged contents. -/
theorem aug_insertFixup (hm : Measures rc m) (z : Tree α σ) (k : List (Frame α σ))
    (h : Aug m (zip z k)) : Aug m (insertFixup rc z k) := by
  induction z, k using insertFixup.induct with
  | case1 z pa ps pr c ga gs u k hu ih =>
    rw [insertFixup, if_pos hu]
    apply ih
    simp only [zip, plug, aug_zip, Aug, aug_setColor, toList_node, toList_setColor] at h ⊢
    exact h
  | case2 z pa ps pr c ga gs u k hu =>
    rw [insertFixup, if_neg hu, aug_setColor, aug_zip, toList_rightRotate]
    simp only [zip, plug, aug_zip] at h
    exact ⟨aug_rightRotate hm h.1, h.2⟩
  | case3 z pl pa ps c ga gs u k hu ih =>
    rw [insertFixup, if_pos hu]
    apply ih
    simp only [zip, plug, aug_zip, Aug, aug_setColor, toList_node, toList_setColor] at h ⊢
    exact h
  | case4 z pl pa ps c ga gs u k hu =>
    rw [insertFixup, if_neg hu, aug_setColor, aug_zip, toList_rightRotate]
    simp only [zip, plug, aug_zip] at h
    refine ⟨aug_rightRotate hm ⟨?_, ?_, h.1.2.2⟩, ?_⟩
    · simpa using h.1.1
    · rw [aug_setColor]
      exact aug_leftRotate hm h.1.2.1
    · simpa using h.2
  | case5 z pl pa ps u c ga gs k hu ih =>
    rw [insertFixup, if_pos hu]
    apply ih
    simp only [zip, plug, aug_zip, Aug, aug_setColor, toList_node, toList_setColor] at h ⊢
    exact h
  | case6 z pl pa ps u c ga gs k hu =>
    rw [insertFixup, if_neg hu, aug_setColor, aug_zip, toList_leftRotate]
    simp only [zip, plug, aug_zip] at h
    exact ⟨aug_leftRotate hm h.1, h.2⟩
  | case7 z pa ps pr u c ga gs k hu ih =>
    rw [insertFixup, if_pos hu]
    apply ih
    simp only [zip, plug, aug_zip, Aug, aug_setColor, toList_node, toList_setColor] at h ⊢
    exact h
  | case8 z pa ps pr u c ga gs k hu =>
    rw [insertFixup, if_neg hu, aug_setColor, aug_zip, toList_leftRotate]
    simp only [zip, plug, aug_zip] at h
    refine ⟨aug_leftRotate hm ⟨?_, h.1.2.1, ?_⟩, ?_⟩
    · simpa using h.1.1
    · rw [aug_setColor]
      exact aug_rightRotate hm h.1.2.2
    · simpa using h.2
  | case9 z k h₁ h₂ h₃ h₄ =>
    rw [insertFixup]
    · exact aug_setColor.mpr h
    · exact h₁
    · exact h₂
    · exact h₃
    · exact h₄

variable {k : List (Frame α σ)}

theorem aug_insert (hm : Measures rc m) (a : α) (h : AugSiblings m k) : Aug m (insert rc a k) := by
  refine aug_insertFixup hm _ _ ?_
  exact aug_zip_refresh hm (aug_mk hm trivial trivial) h

variable (rc)

/-! ## Deletion -/

/-- Paint the right child black (`if (w->right != NULL)`). -/
def blackenRight : Tree α σ → Tree α σ
  | node c l a s r => node c l a s (r.setColor .black)
  | leaf => leaf

/-- Paint the left child black. -/
def blackenLeft : Tree α σ → Tree α σ
  | node c l a s r => node c (l.setColor .black) a s r
  | leaf => leaf

/-- The part of a `delete_fixup` round after the sibling `w` is known to be
black, for `x` a left child of a parent with colour `c`. The flag says that the
loop goes on with the parent as the new `x`. -/
def fixSiblingRight (x : Tree α σ) (c : Color) (a : α) (s : σ) (w : Tree α σ) :
    Tree α σ × Bool :=
  match w with
  | leaf => (node c x a s leaf, true)
  | node wc wl wa ws wr =>
    if wl.isBlack && wr.isBlack then
      (node c x a s (node .red wl wa ws wr), true)
    else
      let w' := if wr.isBlack then rightRotate rc (node .red (wl.setColor .black) wa ws wr)
        else node wc wl wa ws wr
      (leftRotate rc (node .black x a s ((blackenRight w').setColor c)), false)

/-- The mirror image: `x` is a right child and `w` its left sibling. -/
def fixSiblingLeft (w : Tree α σ) (c : Color) (a : α) (s : σ) (x : Tree α σ) :
    Tree α σ × Bool :=
  match w with
  | leaf => (node c leaf a s x, true)
  | node wc wl wa ws wr =>
    if wr.isBlack && wl.isBlack then
      (node c (node .red wl wa ws wr) a s x, true)
    else
      let w' := if wl.isBlack then leftRotate rc (node .red wl wa ws (wr.setColor .black))
        else node wc wl wa ws wr
      (rightRotate rc (node .black ((blackenLeft w').setColor c) a s x), false)

/-- `delete_fixup`, with the doubly black position `x, k`. A red sibling is
first rotated over the parent, which leaves a red parent: if the loop then
climbs, it stops there at once. -/
def deleteFixup : Tree α σ → List (Frame α σ) → Tree α σ
  | x, [] => x.setColor .black
  | x, f :: k =>
    if x.isRed then zip (x.setColor .black) (f :: k)
    else
      match f with
      | .left _ a _ (node .red wl wa _ wr) =>
        let lower := mk rc .red x a wl
        let upper := Frame.left Color.black wa (rc wa lower.agg wr.agg) wr
        match fixSiblingRight rc x .red a (rc a x.agg wl.agg) wl with
        | (t, true) => zip (t.setColor .black) (upper :: k)
        | (t, false) => (zip t (upper :: k)).setColor .black
      | .left c a s w =>
        match fixSiblingRight rc x c a s w with
        | (t, true) => deleteFixup t k
        | (t, false) => (zip t k).setColor .black
      | .right (node .red wl wa _ wr) _ a _ =>
        let lower := mk rc .red wr a x
        let upper := Frame.right wl Color.black wa (rc wa wl.agg lower.agg)
        match fixSiblingLeft rc wr .red a (rc a wr.agg x.agg) x with
        | (t, true) => zip (t.setColor .black) (upper :: k)
        | (t, false) => (zip t (upper :: k)).setColor .black
      | .right w c a s =>
        match fixSiblingLeft rc w c a s x with
        | (t, true) => deleteFixup t k
        | (t, false) => (zip t k).setColor .black

/-- `axl_rb_erase` of the node `z` at position `z, k`. With two children the
successor `y` is relinked in `z`'s place (taking `z`'s colour) and the fixup
starts where `y` was. -/
def erase : Tree α σ → List (Frame α σ) → Tree α σ
  | leaf, k => zip leaf k
  | node c leaf _ _ r, k =>
    let k' := refresh rc r.agg k
    if c = .black then deleteFixup rc r k' else zip r k'
  | node c l _ _ leaf, k =>
    let k' := refresh rc l.agg k
    if c = .black then deleteFixup rc l k' else zip l k'
  | node c l _ _ r, k =>
    match leftmost r [] with
    | (node cy _ ya ys yr, ky) =>
      let k' := refresh rc yr.agg (ky ++ .right l c ya ys :: k)
      if cy = .black then deleteFixup rc yr k' else zip yr k'
    | (leaf, ky) => zip leaf (ky ++ k)

/-- `t'` holds the contents of `t` and keeps its aggregates correct. -/
structure Keeps (m : List α → σ) (t t' : Tree α σ) : Prop where
  toList : t'.toList = t.toList
  aug : Aug m t → Aug m t'

variable {rc}

theorem Keeps.trans {t' t'' : Tree α σ} (h : Keeps m t t') (h' : Keeps m t' t'') :
    Keeps m t t'' :=
  ⟨h'.toList.trans h.toList, fun ha => h'.aug (h.aug ha)⟩

theorem Keeps.zip {t' : Tree α σ} (h : Keeps m t t') (k : List (Frame α σ)) :
    Keeps m (zip t k) (zip t' k) := by
  constructor
  · rw [toList_zip, toList_zip, h.toList]
  · rw [aug_zip, aug_zip, h.toList]
    exact fun ⟨ht, hk⟩ => ⟨h.aug ht, hk⟩

theorem keeps_setColor (c : Color) (t : Tree α σ) : Keeps m t (t.setColor c) :=
  ⟨toList_setColor c t, aug_setColor.mpr⟩

theorem keeps_leftRotate (hm : Measures rc m) (t : Tree α σ) : Keeps m t (leftRotate rc t) :=
  ⟨toList_leftRotate rc t, aug_leftRotate hm⟩

theorem keeps_rightRotate (hm : Measures rc m) (t : Tree α σ) : Keeps m t (rightRotate rc t) :=
  ⟨toList_rightRotate rc t, aug_rightRotate hm⟩

theorem keeps_blackenRight (t : Tree α σ) : Keeps m t (blackenRight t) := by
  cases t with
  | leaf => exact ⟨rfl, id⟩
  | node c l a s r => exact ⟨by simp [blackenRight], by simp [blackenRight, Aug, aug_setColor]⟩

theorem keeps_blackenLeft (t : Tree α σ) : Keeps m t (blackenLeft t) := by
  cases t with
  | leaf => exact ⟨rfl, id⟩
  | node c l a s r => exact ⟨by simp [blackenLeft], by simp [blackenLeft, Aug, aug_setColor]⟩

variable {r : Tree α σ}

theorem Keeps.nodeRight {r' : Tree α σ} (h : Keeps m r r') (c c' : Color) (l : Tree α σ) (a : α)
    (s : σ) : Keeps m (node c l a s r) (node c' l a s r') := by
  constructor
  · simp [h.toList]
  · simp only [Aug, h.toList]
    rintro ⟨hs, hl, hr⟩
    exact ⟨hs, hl, h.aug hr⟩

variable {l : Tree α σ}

theorem Keeps.nodeLeft {l' : Tree α σ} (h : Keeps m l l') (c c' : Color) (a : α) (s : σ)
    (r : Tree α σ) : Keeps m (node c l a s r) (node c' l' a s r) := by
  constructor
  · simp [h.toList]
  · simp only [Aug, h.toList]
    rintro ⟨hs, hl, hr⟩
    exact ⟨hs, h.aug hl, hr⟩

theorem Keeps.refl (t : Tree α σ) : Keeps m t t := ⟨rfl, id⟩

theorem keeps_fixSiblingRight (hm : Measures rc m) (x : Tree α σ) (c : Color) (a : α) (s : σ)
    (w : Tree α σ) : Keeps m (node c x a s w) (fixSiblingRight rc x c a s w).1 := by
  cases w with
  | leaf => exact Keeps.refl _
  | node wc wl wa ws wr =>
    unfold fixSiblingRight
    by_cases h : (wl.isBlack && wr.isBlack) = true
    · simp only [h, if_true]
      exact (keeps_setColor .red (node wc wl wa ws wr)).nodeRight _ _ _ _ _
    · simp only [h, if_false, Bool.false_eq_true]
      refine Keeps.trans (Keeps.nodeRight (Keeps.trans ?_ (keeps_setColor c _)) c .black x a s)
        (keeps_leftRotate hm _)
      refine Keeps.trans ?_ (keeps_blackenRight _)
      by_cases hr : wr.isBlack = true
      · simp only [hr, if_true]
        exact ((keeps_setColor .black wl).nodeLeft _ _ _ _ _).trans (keeps_rightRotate hm _)
      · simp only [hr, if_false, Bool.false_eq_true]
        exact Keeps.refl _

theorem keeps_fixSiblingLeft (hm : Measures rc m) (w : Tree α σ) (c : Color) (a : α) (s : σ)
    (x : Tree α σ) : Keeps m (node c w a s x) (fixSiblingLeft rc w c a s x).1 := by
  cases w with
  | leaf => exact Keeps.refl _
  | node wc wl wa ws wr =>
    unfold fixSiblingLeft
    by_cases h : (wr.isBlack && wl.isBlack) = true
    · simp only [h, if_true]
      exact (keeps_setColor .red (node wc wl wa ws wr)).nodeLeft _ _ _ _ _
    · simp only [h, if_false, Bool.false_eq_true]
      refine Keeps.trans (Keeps.nodeLeft (Keeps.trans ?_ (keeps_setColor c _)) c .black a s x)
        (keeps_rightRotate hm _)
      refine Keeps.trans ?_ (keeps_blackenLeft _)
      by_cases hl : wl.isBlack = true
      · simp only [hl, if_true]
        exact ((keeps_setColor .black wr).nodeRight _ _ _ _ _).trans (keeps_leftRotate hm _)
      · simp only [hl, if_false, Bool.false_eq_true]
        exact Keeps.refl _

/-- Rotating a red right sibling over the parent. -/
theorem keeps_redRight (hm : Measures rc m) (c : Color) (x : Tree α σ) (a : α) (s : σ)
    (wl : Tree α σ) (wa : α) (ws : σ) (wr : Tree α σ) :
    Keeps m (node c x a s (node .red wl wa ws wr)) (mk rc .black (mk rc .red x a wl) wa wr) := by
  constructor
  · simp
  · rintro ⟨-, hx, -, hl, hr⟩
    exact aug_mk hm (aug_mk hm hx hl) hr

/-- Rotating a red left sibling over the parent. -/
theorem keeps_redLeft (hm : Measures rc m) (c : Color) (x : Tree α σ) (a : α) (s : σ)
    (wl : Tree α σ) (wa : α) (ws : σ) (wr : Tree α σ) :
    Keeps m (node c (node .red wl wa ws wr) a s x) (mk rc .black wl wa (mk rc .red wr a x)) := by
  constructor
  · simp
  · rintro ⟨-, ⟨-, hl, hr⟩, hx⟩
    exact aug_mk hm hl (aug_mk hm hr hx)

/-- The deletion fixup neither moves contents nor spoils an aggregate. -/
theorem keeps_deleteFixup (hm : Measures rc m) (x : Tree α σ) (k : List (Frame α σ)) :
    Keeps m (zip x k) (deleteFixup rc x k) := by
  induction k generalizing x with
  | nil => exact keeps_setColor .black x
  | cons f k ih =>
    rw [deleteFixup.eq_def]
    dsimp only
    by_cases hx : x.isRed = true
    · rw [if_pos hx]
      exact (keeps_setColor .black x).zip _
    · rw [if_neg hx]
      split
      · rename_i c a s wl wa ws wr
        have h₁ := (keeps_redRight hm c x a s wl wa ws wr).zip k
        have h₂ := ((keeps_fixSiblingRight hm x .red a (rc a x.agg wl.agg) wl).nodeLeft
          .black .black wa (rc wa (mk rc .red x a wl).agg wr.agg) wr).zip k
        split <;> rename_i t ht <;> rw [ht] at h₂
        · refine (h₁.trans h₂).trans ?_
          exact ((keeps_setColor .black t).nodeLeft _ _ _ _ _).zip k
        · exact (h₁.trans h₂).trans (keeps_setColor .black _)
      · rename_i c a s w _
        have h₁ := (keeps_fixSiblingRight hm x c a s w).zip k
        split <;> rename_i t ht <;> rw [ht] at h₁
        · exact h₁.trans (ih t)
        · exact h₁.trans (keeps_setColor .black _)
      · rename_i wl wa ws wr c a s
        have h₁ := (keeps_redLeft hm c x a s wl wa ws wr).zip k
        have h₂ := ((keeps_fixSiblingLeft hm wr .red a (rc a wr.agg x.agg) x).nodeRight
          .black .black wl wa (rc wa wl.agg (mk rc .red wr a x).agg)).zip k
        split <;> rename_i t ht <;> rw [ht] at h₂
        · refine (h₁.trans h₂).trans ?_
          exact ((keeps_setColor .black t).nodeRight _ _ _ _ _).zip k
        · exact (h₁.trans h₂).trans (keeps_setColor .black _)
      · rename_i w c a s _
        have h₁ := (keeps_fixSiblingLeft hm w c a s x).zip k
        split <;> rename_i t ht <;> rw [ht] at h₁
        · exact h₁.trans (ih t)
        · exact h₁.trans (keeps_setColor .black _)

theorem erase_spec_of (hm : Measures rc m) {x : Tree α σ} (c : Color) (hx : Aug m x)
    (hk : AugSiblings m k) :
    let t := if c = Color.black then deleteFixup rc x (refresh rc x.agg k)
      else zip x (refresh rc x.agg k)
    t.toList = before k ++ (x.toList ++ after k) ∧ Aug m t := by
  have hz := aug_zip_refresh hm hx hk
  have hl : (zip x (refresh rc x.agg k)).toList = before k ++ (x.toList ++ after k) := by
    rw [toList_zip, before_refresh, after_refresh]
  dsimp only
  split
  · have h := keeps_deleteFixup hm x (refresh rc x.agg k)
    exact ⟨h.toList.trans hl, h.aug hz⟩
  · exact ⟨hl, hz⟩

/-- `axl_rb_erase` removes exactly the erased node from the contents and leaves
every aggregate correct. -/
theorem erase_spec (hm : Measures rc m) {c : Color} {a : α} {s : σ}
    (h : Aug m (zip (node c l a s r) k)) :
    (erase rc (node c l a s r) k).toList = before k ++ (l.toList ++ (r.toList ++ after k)) ∧
      Aug m (erase rc (node c l a s r) k) := by
  rw [aug_zip] at h
  obtain ⟨⟨-, hl, hr⟩, hpath⟩ := h
  have hk := hpath.siblings
  cases l with
  | leaf => exact erase_spec_of hm c hr hk
  | node cl ll al sl rl =>
    cases r with
    | leaf =>
      have := erase_spec_of hm c hl hk
      simpa [erase] using this
    | node cr lr ar sr rr =>
      -- the successor's path within the right subtree, then `z`'s own place
      obtain ⟨cy, ya, ys, yr, ky, hlm, hz, hb⟩ := leftmost_spec cr lr ar sr rr []
      have hr' : Aug m (zip (node cy leaf ya ys yr) ky) := hz ▸ hr
      rw [aug_zip] at hr'
      obtain ⟨⟨-, -, hyr⟩, hky⟩ := hr'
      have hsib : AugSiblings m (ky ++ .right (node cl ll al sl rl) c ya ys :: k) := by
        rw [augSiblings_append]
        exact ⟨hky.siblings, hl, hk⟩
      have hlist : (node cr lr ar sr rr).toList = ya :: (yr.toList ++ after ky) := by
        have := congrArg toList hz
        rw [toList_zip, hb] at this
        simpa [zip, before] using this.symm
      have key := erase_spec_of hm cy hyr hsib
      simp only [erase, hlm]
      refine ⟨key.1.trans ?_, key.2⟩
      have hbef : before (ky ++ .right (node cl ll al sl rl) c ya ys :: k)
          = before k ++ ((node cl ll al sl rl).toList ++ [ya]) := by
        have : ∀ k' : List (Frame α σ), before (ky ++ k') = before k' ++ before ky := by
          intro k'
          clear hlm hz hb hky hsib hlist key
          induction ky with
          | nil => simp [before]
          | cons f ky ih => cases f <;> simp [before, ih]
        rw [this, hb]
        simp [before]
      have haft : after (ky ++ .right (node cl ll al sl rl) c ya ys :: k)
          = after ky ++ after k := by
        clear hlm hz hb hky hsib hlist key hbef
        induction ky with
        | nil => simp [after]
        | cons f ky ih => cases f <;> simp [after, ih]
      rw [hbef, haft, hlist]
      simp

/-! ## Updating a payload in place -/

variable (rc)

/-- Overwrite a node's payload and `axl_rb_update_augment` it: the node and
every ancestor are recomputed. -/
def update (f : α → α) : Tree α σ → List (Frame α σ) → Tree α σ
  | leaf, k => zip leaf k
  | node c l a _ r, k =>
    let t := mk rc c l (f a) r
    zip t (refresh rc t.agg k)

variable {rc}

theorem update_spec (hm : Measures rc m) (f : α → α) {c : Color} {a : α} {s : σ}
    (h : Aug m (zip (node c l a s r) k)) :
    (update rc f (node c l a s r) k).toList
        = before k ++ (l.toList ++ f a :: (r.toList ++ after k)) ∧
      Aug m (update rc f (node c l a s r) k) := by
  rw [aug_zip] at h
  obtain ⟨⟨-, hl, hr⟩, hpath⟩ := h
  refine ⟨?_, aug_zip_refresh hm (aug_mk hm hl hr) hpath.siblings⟩
  simp [update, toList_zip]

/-! ## In-order steps and slots -/

/-- The upward half of `axl_rb_next`: climb while coming from the right. -/
def climb : List (Frame α σ) → Option α
  | [] => none
  | .left _ a _ _ :: _ => some a
  | .right _ _ _ _ :: k => climb k

/-- `axl_rb_next`. -/
def next : Tree α σ → List (Frame α σ) → Option α
  | node _ _ _ _ (node c l a s r), _ =>
    match leftmost (node c l a s r) [] with
    | (node _ _ b _ _, _) => some b
    | (leaf, _) => none
  | _, k => climb k

/-- `axl_rb_last`. -/
def last (t : Tree α σ) : Option α :=
  match rightmost t [] with
  | (node _ _ a _ _, _) => some a
  | (leaf, _) => none

/-- `axl_rb_first`. -/
def first (t : Tree α σ) : Option α :=
  match leftmost t [] with
  | (node _ _ a _ _, _) => some a
  | (leaf, _) => none

theorem climb_eq (k : List (Frame α σ)) : climb k = (after k).head? := by
  induction k with
  | nil => rfl
  | cons f k ih => cases f <;> simp [climb, after, ih]

/-- `axl_rb_next` is the in-order successor. -/
theorem next_eq (c : Color) (l : Tree α σ) (a : α) (s : σ) (r : Tree α σ)
    (k : List (Frame α σ)) : next (node c l a s r) k = (r.toList ++ after k).head? := by
  cases r with
  | leaf => exact climb_eq k
  | node cr lr ar sr rr =>
    obtain ⟨cy, ya, ys, yr, ky, hlm, hz, hb⟩ := leftmost_spec cr lr ar sr rr []
    have := congrArg toList hz
    rw [toList_zip, hb] at this
    simp only [zip, before, toList_leaf, toList_node, List.nil_append, List.cons_append] at this
    simp only [next, hlm, toList_node, ← this, List.cons_append, List.head?_cons]

theorem first_eq (t : Tree α σ) : first t = t.toList.head? := by
  cases t with
  | leaf => rfl
  | node c l a s r =>
    obtain ⟨c', l', a', s', k', hlm, hz, hb⟩ := leftmost_spec c l a s r []
    have := congrArg toList hz
    rw [toList_zip, hb] at this
    simp only [zip, before, toList_leaf, toList_node, List.nil_append] at this
    simp only [first, hlm, toList_node, ← this, List.cons_append, List.head?_cons]

theorem last_eq (t : Tree α σ) : last t = t.toList.getLast? := by
  cases t with
  | leaf => rfl
  | node c l a s r =>
    obtain ⟨c', l', a', s', k', hrm, hz, ha⟩ := rightmost_spec c l a s r []
    have := congrArg toList hz
    rw [toList_zip, ha] at this
    simp only [zip, after, toList_leaf, toList_node, List.append_nil] at this
    simp only [last, hrm, toList_node, ← this]
    simp

/-- The empty child slot right after a node in order. -/
def slotAfter : Tree α σ → List (Frame α σ) → List (Frame α σ)
  | leaf, k => k
  | node c l a s leaf, k => .right l c a s :: k
  | node c l a s r, k =>
    match leftmost r (.right l c a s :: k) with
    | (node c' _ a' s' r', k') => .left c' a' s' r' :: k'
    | (leaf, k') => k'

/-- The empty child slot right before a node in order. -/
def slotBefore : Tree α σ → List (Frame α σ) → List (Frame α σ)
  | leaf, k => k
  | node c leaf a s r, k => .left c a s r :: k
  | node c l a s r, k =>
    match rightmost l (.left c a s r :: k) with
    | (node c' l' a' s' _, k') => .right l' c' a' s' :: k'
    | (leaf, k') => k'

theorem slotAfter_spec {c : Color} {a : α} {s : σ} (h : Aug m (zip (node c l a s r) k)) :
    before (slotAfter (node c l a s r) k) = before k ++ (l.toList ++ [a]) ∧
      after (slotAfter (node c l a s r) k) = r.toList ++ after k ∧
      AugSiblings m (slotAfter (node c l a s r) k) := by
  cases r with
  | leaf =>
    rw [aug_zip] at h
    exact ⟨rfl, rfl, h.1.2.1, h.2.siblings⟩
  | node cr lr ar sr rr =>
    obtain ⟨cy, ya, ys, yr, ky, hlm, hz, hb⟩ :=
      leftmost_spec cr lr ar sr rr (.right l c a s :: k)
    have haug : Aug m (zip (node cy leaf ya ys yr) ky) := hz ▸ h
    have hlist := congrArg toList hz
    rw [toList_zip, toList_zip, hb] at hlist
    have haft := List.append_cancel_left hlist
    rw [aug_zip] at haug
    simp only [slotAfter, hlm]
    refine ⟨hb, ?_, haug.1.2.2, haug.2.siblings⟩
    simpa [after] using haft

theorem slotBefore_spec {c : Color} {a : α} {s : σ} (h : Aug m (zip (node c l a s r) k)) :
    before (slotBefore (node c l a s r) k) = before k ++ l.toList ∧
      after (slotBefore (node c l a s r) k) = a :: (r.toList ++ after k) ∧
      AugSiblings m (slotBefore (node c l a s r) k) := by
  cases l with
  | leaf =>
    rw [aug_zip] at h
    exact ⟨(List.append_nil _).symm, rfl, h.1.2.2, h.2.siblings⟩
  | node cl ll al sl rl =>
    obtain ⟨cy, yl, ya, ys, ky, hrm, hz, ha⟩ :=
      rightmost_spec cl ll al sl rl (.left c a s r :: k)
    have haug : Aug m (zip (node cy yl ya ys leaf) ky) := hz ▸ h
    have hlist := congrArg toList hz
    rw [toList_zip, toList_zip, ha, ← List.append_assoc, ← List.append_assoc] at hlist
    have hbef := List.append_cancel_right hlist
    rw [aug_zip] at haug
    simp only [slotBefore, hrm]
    refine ⟨?_, ha, haug.1.2.1, haug.2.siblings⟩
    simpa [before] using hbef

end RbTree

end AxlSdk
