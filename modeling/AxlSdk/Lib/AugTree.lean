import Mathlib

/-!
# Coloured binary trees with stored aggregates

The data structure under any augmented balanced tree: every node carries a
colour, a payload and an *aggregate* that was computed once and is read back
later. Parent pointers are represented by the usual zipper: a position in a
tree is a subtree together with the list of `Frame`s from its parent up to the
root.

- `Tree.toList` is the in-order contents; `before`/`after` are the contents to
  the left and to the right of a position (`toList_zip`).
- `Aug m t`: every stored aggregate of `t` is the measure `m` of the contents
  of its subtree. `Measures rc m` says that the recomputation callback `rc`
  computes `m` from a payload and the aggregates of the children, which is
  what makes rotations and rebuilt spines keep `Aug`.
- `refresh` recomputes the aggregates on the path from a position to the root.
- `find` and `leftmost` navigate.
-/

namespace AxlSdk

namespace AugTree

inductive Color where
  | red
  | black
  deriving DecidableEq, Repr

/-- A coloured binary tree; `leaf` is the NULL link. -/
inductive Tree (α σ : Type) where
  | leaf
  | node (c : Color) (l : Tree α σ) (a : α) (s : σ) (r : Tree α σ)
  deriving Repr

/-- One step of the path to the root: the parent's own data and the sibling.
`left` means that the position is the parent's left child. -/
inductive Frame (α σ : Type) where
  | left (c : Color) (a : α) (s : σ) (r : Tree α σ)
  | right (l : Tree α σ) (c : Color) (a : α) (s : σ)
  deriving Repr

variable {α σ : Type}

namespace Tree

/-- In-order contents. -/
def toList : Tree α σ → List α
  | leaf => []
  | node _ l a _ r => l.toList ++ a :: r.toList

/-- The stored aggregate of a child link; NULL has none. -/
def agg : Tree α σ → Option σ
  | leaf => none
  | node _ _ _ s _ => some s

def isRed : Tree α σ → Bool
  | node .red _ _ _ _ => true
  | _ => false

def isBlack (t : Tree α σ) : Bool := !t.isRed

/-- Recolour the root node; NULL stays NULL. -/
def setColor (c : Color) : Tree α σ → Tree α σ
  | leaf => leaf
  | node _ l a s r => node c l a s r

@[simp] theorem toList_leaf : (leaf : Tree α σ).toList = [] := rfl

@[simp] theorem toList_node (c : Color) (l : Tree α σ) (a : α) (s : σ) (r : Tree α σ) :
    (node c l a s r).toList = l.toList ++ a :: r.toList := rfl

@[simp] theorem toList_setColor (c : Color) (t : Tree α σ) :
    (t.setColor c).toList = t.toList := by
  cases t <;> rfl

end Tree

open Tree

/-- Put a subtree below its parent. -/
def plug (t : Tree α σ) : Frame α σ → Tree α σ
  | .left c a s r => node c t a s r
  | .right l c a s => node c l a s t

/-- The whole tree around a position. -/
def zip (t : Tree α σ) : List (Frame α σ) → Tree α σ
  | [] => t
  | f :: k => zip (plug t f) k

/-- Contents to the left of a position. -/
def before : List (Frame α σ) → List α
  | [] => []
  | .left _ _ _ _ :: k => before k
  | .right l _ a _ :: k => before k ++ (l.toList ++ [a])

/-- Contents to the right of a position. -/
def after : List (Frame α σ) → List α
  | [] => []
  | .left _ a _ r :: k => a :: r.toList ++ after k
  | .right _ _ _ _ :: k => after k

theorem toList_zip (t : Tree α σ) (k : List (Frame α σ)) :
    (zip t k).toList = before k ++ (t.toList ++ after k) := by
  induction k generalizing t with
  | nil => simp [zip, before, after]
  | cons f k ih =>
    cases f <;> simp [zip, plug, before, after, ih, List.append_assoc]

/-! ## Aggregates -/

/-- The aggregate a child link carries when it measures `xs`. -/
def linkAgg (m : List α → σ) : List α → Option σ
  | [] => none
  | x :: xs => some (m (x :: xs))

/-- `rc` recomputes the measure `m` of a node's contents from its payload and
its children's aggregates. -/
def Measures (rc : α → Option σ → Option σ → σ) (m : List α → σ) : Prop :=
  ∀ xs a ys, rc a (linkAgg m xs) (linkAgg m ys) = m (xs ++ a :: ys)

/-- Every stored aggregate is the measure of its subtree. -/
def Aug (m : List α → σ) : Tree α σ → Prop
  | leaf => True
  | node _ l a s r => s = m (l.toList ++ a :: r.toList) ∧ Aug m l ∧ Aug m r

/-- The siblings on a path carry correct aggregates. -/
def AugSiblings (m : List α → σ) : List (Frame α σ) → Prop
  | [] => True
  | .left _ _ _ r :: k => Aug m r ∧ AugSiblings m k
  | .right l _ _ _ :: k => Aug m l ∧ AugSiblings m k

/-- The path itself carries correct aggregates, for a position whose contents
are `xs`. -/
def AugPath (m : List α → σ) : List α → List (Frame α σ) → Prop
  | _, [] => True
  | xs, .left _ a s r :: k =>
    s = m (xs ++ a :: r.toList) ∧ Aug m r ∧ AugPath m (xs ++ a :: r.toList) k
  | xs, .right l _ a s :: k =>
    s = m (l.toList ++ a :: xs) ∧ Aug m l ∧ AugPath m (l.toList ++ a :: xs) k

theorem Aug.agg_eq {m : List α → σ} {t : Tree α σ} (h : Aug m t) :
    t.agg = linkAgg m t.toList := by
  cases t with
  | leaf => rfl
  | node c l a s r =>
    obtain ⟨rfl, -, -⟩ := h
    cases hl : l.toList with
    | nil => simp [agg, hl, linkAgg]
    | cons x xs => simp [agg, hl, linkAgg]

theorem aug_setColor {m : List α → σ} {t : Tree α σ} {c : Color} :
    Aug m (t.setColor c) ↔ Aug m t := by
  cases t <;> exact Iff.rfl

theorem aug_zip {m : List α → σ} (t : Tree α σ) (k : List (Frame α σ)) :
    Aug m (zip t k) ↔ Aug m t ∧ AugPath m t.toList k := by
  induction k generalizing t with
  | nil => simp [zip, AugPath]
  | cons f k ih =>
    cases f with
    | left c a s r =>
      simp only [zip, plug, ih, Aug, AugPath, toList_node]
      tauto
    | right l c a s =>
      simp only [zip, plug, ih, Aug, AugPath, toList_node]
      tauto

theorem AugPath.siblings {m : List α → σ} {xs : List α} {k : List (Frame α σ)}
    (h : AugPath m xs k) : AugSiblings m k := by
  induction k generalizing xs with
  | nil => trivial
  | cons f k ih =>
    cases f with
    | left c a s r => exact ⟨h.2.1, ih h.2.2⟩
    | right l c a s => exact ⟨h.2.1, ih h.2.2⟩

theorem augSiblings_append {m : List α → σ} {k k' : List (Frame α σ)} :
    AugSiblings m (k ++ k') ↔ AugSiblings m k ∧ AugSiblings m k' := by
  induction k with
  | nil => simp [AugSiblings]
  | cons f k ih => cases f <;> simp [AugSiblings, ih, and_assoc]

section Recompute

variable (rc : α → Option σ → Option σ → σ)

/-- A node whose aggregate is recomputed from its children. -/
def mk (c : Color) (l : Tree α σ) (a : α) (r : Tree α σ) : Tree α σ :=
  node c l a (rc a l.agg r.agg) r

@[simp] theorem toList_mk (c : Color) (l : Tree α σ) (a : α) (r : Tree α σ) :
    (mk rc c l a r).toList = l.toList ++ a :: r.toList := rfl

/-- Recompute the aggregates on the path to the root, from a position whose
own aggregate is `o`. -/
def refresh : Option σ → List (Frame α σ) → List (Frame α σ)
  | _, [] => []
  | o, .left c a _ r :: k =>
    .left c a (rc a o r.agg) r :: refresh (some (rc a o r.agg)) k
  | o, .right l c a _ :: k =>
    .right l c a (rc a l.agg o) :: refresh (some (rc a l.agg o)) k

@[simp] theorem before_refresh (o : Option σ) (k : List (Frame α σ)) :
    before (refresh rc o k) = before k := by
  induction k generalizing o with
  | nil => rfl
  | cons f k ih => cases f <;> simp [refresh, before, ih]

@[simp] theorem after_refresh (o : Option σ) (k : List (Frame α σ)) :
    after (refresh rc o k) = after k := by
  induction k generalizing o with
  | nil => rfl
  | cons f k ih => cases f <;> simp [refresh, after, ih]

variable {rc} {m : List α → σ}

theorem aug_mk (hm : Measures rc m) {c : Color} {l r : Tree α σ} {a : α}
    (hl : Aug m l) (hr : Aug m r) : Aug m (mk rc c l a r) := by
  refine ⟨?_, hl, hr⟩
  rw [hl.agg_eq, hr.agg_eq]
  exact hm _ _ _

private theorem linkAgg_mid (m : List α → σ) (xs : List α) (a : α) (ys : List α) :
    linkAgg m (xs ++ a :: ys) = some (m (xs ++ a :: ys)) := by
  cases xs <;> rfl

/-- Refreshing a path from a position with a correct aggregate makes the whole
path correct, whatever was stored on it before. -/
theorem augPath_refresh (hm : Measures rc m) {xs : List α} {k : List (Frame α σ)}
    (h : AugSiblings m k) : AugPath m xs (refresh rc (linkAgg m xs) k) := by
  induction k generalizing xs with
  | nil => trivial
  | cons f k ih =>
    cases f with
    | left c a s r =>
      have hs : rc a (linkAgg m xs) r.agg = m (xs ++ a :: r.toList) := by
        rw [h.1.agg_eq]
        exact hm _ _ _
      refine ⟨hs, h.1, ?_⟩
      rw [hs, ← linkAgg_mid]
      exact ih h.2
    | right l c a s =>
      have hs : rc a l.agg (linkAgg m xs) = m (l.toList ++ a :: xs) := by
        rw [h.1.agg_eq]
        exact hm _ _ _
      refine ⟨hs, h.1, ?_⟩
      rw [hs, ← linkAgg_mid]
      exact ih h.2

theorem aug_zip_refresh (hm : Measures rc m) {t : Tree α σ} {k : List (Frame α σ)}
    (ht : Aug m t) (hk : AugSiblings m k) : Aug m (zip t (refresh rc t.agg k)) := by
  rw [aug_zip, ht.agg_eq]
  exact ⟨ht, augPath_refresh hm hk⟩

end Recompute

/-! ## Navigation -/

/-- Find the position of the node whose payload satisfies `p`. -/
def find (p : α → Bool) : Tree α σ → List (Frame α σ) → Option (Tree α σ × List (Frame α σ))
  | leaf, _ => none
  | node c l a s r, k =>
    if p a then some (node c l a s r, k)
    else
      match find p l (.left c a s r :: k) with
      | some x => some x
      | none => find p r (.right l c a s :: k)

/-- A found position is a node of the same tree with the wanted payload. -/
theorem find_spec {p : α → Bool} {t u : Tree α σ} {k k' : List (Frame α σ)}
    (h : find p t k = some (u, k')) :
    zip u k' = zip t k ∧ ∃ c l a s r, u = node c l a s r ∧ p a = true := by
  induction t generalizing k with
  | leaf => cases h
  | node c l a s r ihl ihr =>
    rw [find] at h
    by_cases hp : p a = true
    · rw [if_pos hp] at h
      cases h
      exact ⟨rfl, _, _, _, _, _, rfl, hp⟩
    · rw [if_neg hp] at h
      cases hl : find p l (.left c a s r :: k) with
      | some x =>
        rw [hl] at h
        cases h
        exact ihl hl
      | none =>
        rw [hl] at h
        exact ihr h

theorem find_eq_none {p : α → Bool} {t : Tree α σ} {k : List (Frame α σ)} :
    find p t k = none ↔ ∀ a ∈ t.toList, p a = false := by
  induction t generalizing k with
  | leaf => simp [find]
  | node c l a s r ihl ihr =>
    rw [find]
    by_cases hp : p a = true
    · simp only [hp, if_true, reduceCtorEq, toList_node, List.mem_append, List.mem_cons, false_iff]
      intro h
      have := h a (.inr (.inl rfl))
      rw [hp] at this
      cases this
    · rw [if_neg hp]
      cases hl : find p l (.left c a s r :: k) with
      | some x =>
        have hne : ¬ ∀ b ∈ l.toList, p b = false := by
          rw [← ihl (k := .left c a s r :: k), hl]
          simp
        simp only [reduceCtorEq, toList_node, List.mem_append, List.mem_cons, false_iff]
        exact fun h => hne fun b hb => h b (.inl hb)
      | none =>
        have hl' := ihl.mp hl
        simp only [ihr, toList_node, List.mem_append, List.mem_cons]
        constructor
        · rintro h b (hb | rfl | hb)
          · exact hl' b hb
          · simpa using hp
          · exact h b hb
        · exact fun h b hb => h b (.inr (.inr hb))

/-- Descend along left links to the first node of a subtree. -/
def leftmost : Tree α σ → List (Frame α σ) → Tree α σ × List (Frame α σ)
  | node c (node c' l' a' s' r') a s r, k =>
    leftmost (node c' l' a' s' r') (.left c a s r :: k)
  | t, k => (t, k)

/-- `leftmost` stays in the tree and stops at a node without a left child. -/
theorem leftmost_spec (c : Color) (l : Tree α σ) (a : α) (s : σ) (r : Tree α σ)
    (k : List (Frame α σ)) :
    ∃ c' a' s' r' k', leftmost (node c l a s r) k = (node c' leaf a' s' r', k') ∧
      zip (node c' leaf a' s' r') k' = zip (node c l a s r) k ∧ before k' = before k := by
  induction l generalizing c a s r k with
  | leaf => exact ⟨c, a, s, r, k, rfl, rfl, rfl⟩
  | node c₁ l₁ a₁ s₁ r₁ ih _ =>
    obtain ⟨c', a', s', r', k', h, hz, hb⟩ := ih c₁ a₁ s₁ r₁ (.left c a s r :: k)
    exact ⟨c', a', s', r', k', h, hz, hb⟩

/-- Descend along right links to the last node of a subtree. -/
def rightmost : Tree α σ → List (Frame α σ) → Tree α σ × List (Frame α σ)
  | node c l a s (node c' l' a' s' r'), k =>
    rightmost (node c' l' a' s' r') (.right l c a s :: k)
  | t, k => (t, k)

theorem rightmost_spec (c : Color) (l : Tree α σ) (a : α) (s : σ) (r : Tree α σ)
    (k : List (Frame α σ)) :
    ∃ c' l' a' s' k', rightmost (node c l a s r) k = (node c' l' a' s' leaf, k') ∧
      zip (node c' l' a' s' leaf) k' = zip (node c l a s r) k ∧ after k' = after k := by
  induction r generalizing c l a s k with
  | leaf => exact ⟨c, l, a, s, k, rfl, rfl, rfl⟩
  | node c₁ l₁ a₁ s₁ r₁ _ ih =>
    obtain ⟨c', l', a', s', k', h, hz, ha⟩ := ih c₁ l₁ a₁ s₁ (.right l c a s :: k)
    exact ⟨c', l', a', s', k', h, hz, ha⟩

/-- Splitting a list around an element that a predicate singles out is unique. -/
theorem split_unique {p : α → Bool} {xs ys xs' ys' : List α} {a b : α}
    (h : xs ++ a :: ys = xs' ++ b :: ys') (hb : p b = true)
    (hx : ∀ c ∈ xs, p c = false) (hy : ∀ c ∈ ys, p c = false) :
    xs = xs' ∧ a = b ∧ ys = ys' := by
  induction xs generalizing xs' with
  | nil =>
    cases xs' with
    | nil =>
      obtain ⟨rfl, rfl⟩ := List.cons.inj h
      exact ⟨rfl, rfl, rfl⟩
    | cons x' xs' =>
      obtain ⟨-, rfl⟩ := List.cons.inj h
      have := hy b (by simp)
      rw [hb] at this
      cases this
  | cons x xs ih =>
    cases xs' with
    | nil =>
      obtain ⟨rfl, -⟩ := List.cons.inj h
      have := hx x (by simp)
      rw [hb] at this
      cases this
    | cons x' xs' =>
      obtain ⟨rfl, htl⟩ := List.cons.inj h
      obtain ⟨rfl, rfl, rfl⟩ := ih htl fun c hc => hx c (by simp [hc])
      exact ⟨rfl, rfl, rfl⟩

end AugTree

end AxlSdk
