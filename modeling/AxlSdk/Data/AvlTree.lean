import AxlSdk.Lib.SortedMap

/-!
# The sorted map (`src/data/axl-tree.c`)

An AVL tree over a comparator. Nodes cache the height of their subtree, and
insertion and removal rebalance on the way back up.

- `toList`: the entries in order; `Avl`: every cached height is right and
  sibling heights differ by at most one.
- `nodeRebalance_spec`: the four rotation shapes, in one statement.
- `run_map`: every run keeps the invariant, and the entries are the sorted list
  that the successful calls define.
- `fib_le`: an AVL tree of height `h` has at least `fib (h + 2) - 1` entries, so
  that the iterator's stack is deep enough.
-/

namespace AxlSdk

namespace AvlTree

open SortedMap List

variable {K V : Type}

/-! ## Nodes -/

/-- `AxlTreeNode *`; `nil` is NULL. -/
inductive Node (K V : Type) where
  | nil
  | node (key : K) (value : V) (left right : Node K V) (height : Nat)

/-- `node_height`. -/
def nodeHeight : Node K V → Nat
  | .nil => 0
  | .node _ _ _ _ h => h

/-- `node_update_height`. -/
def nodeUpdateHeight : Node K V → Node K V
  | .nil => .nil
  | .node k v l r _ =>
    .node k v l r ((if nodeHeight l > nodeHeight r then nodeHeight l else nodeHeight r) + 1)

/-- `node_balance`. -/
def nodeBalance : Node K V → Int
  | .nil => 0
  | .node _ _ l r _ => (nodeHeight l : Int) - nodeHeight r

/-- `rotate_right`. -/
def rotateRight : Node K V → Node K V
  | .node yk yv (.node xk xv a b xh) c yh =>
    nodeUpdateHeight (.node xk xv a (nodeUpdateHeight (.node yk yv b c yh)) xh)
  | y => y

/-- `rotate_left`. -/
def rotateLeft : Node K V → Node K V
  | .node xk xv a (.node yk yv b c yh) xh =>
    nodeUpdateHeight (.node yk yv (nodeUpdateHeight (.node xk xv a b xh)) c yh)
  | x => x

/-- `node_rebalance`. -/
def nodeRebalance (n : Node K V) : Node K V :=
  match nodeUpdateHeight n with
  | .nil => .nil
  | .node k v l r h =>
    if nodeBalance (.node k v l r h) > 1 then
      rotateRight (.node k v (if nodeBalance l < 0 then rotateLeft l else l) r h)
    else if nodeBalance (.node k v l r h) < -1 then
      rotateLeft (.node k v l (if nodeBalance r > 0 then rotateRight r else r) h)
    else .node k v l r h

/-! ## The map -/

/-- `AxlTree`. -/
structure Tree (K V : Type) where
  root : Node K V
  nnodes : UInt32

/-- What `node_insert` returns and reports. -/
structure Inserted (K V : Type) where
  node : Node K V
  inserted : Bool
  oom : Bool

/-- `node_insert`; `alloc` is whether `node_new` gets its memory. -/
def nodeInsert (cmp : K → K → Int) (alloc replace : Bool) (key : K) (value : V) :
    Node K V → Inserted K V
  | .nil => if alloc then ⟨.node key value .nil .nil 1, true, false⟩ else ⟨.nil, false, true⟩
  | .node k v l r h =>
    if cmp key k < 0 then
      let res := nodeInsert cmp alloc replace key value l
      if res.oom then ⟨.node k v l r h, res.inserted, true⟩
      else ⟨nodeRebalance (.node k v res.node r h), res.inserted, false⟩
    else if cmp key k > 0 then
      let res := nodeInsert cmp alloc replace key value r
      if res.oom then ⟨.node k v l r h, res.inserted, true⟩
      else ⟨nodeRebalance (.node k v l res.node h), res.inserted, false⟩
    else ⟨.node (if replace then key else k) value l r h, false, false⟩

/-- `tree_put`. -/
def treePut (cmp : K → K → Int) (alloc replace : Bool) (t : Tree K V) (key : K) (value : V) :
    Tree K V :=
  let res := nodeInsert cmp alloc replace key value t.root
  if res.oom then t
  else ⟨res.node, if res.inserted then t.nnodes + 1 else t.nnodes⟩

/-- `axl_tree_insert`. -/
def insert (cmp : K → K → Int) (alloc : Bool) (t : Tree K V) (key : K) (value : V) : Tree K V :=
  treePut cmp alloc false t key value

/-- `axl_tree_replace`. -/
def replace (cmp : K → K → Int) (alloc : Bool) (t : Tree K V) (key : K) (value : V) : Tree K V :=
  treePut cmp alloc true t key value

/-- `node_remove_min`. -/
def nodeRemoveMin : Node K V → Node K V
  | .nil => .nil
  | .node _ _ .nil r _ => r
  | .node k v (.node k' v' l' r' h') r h =>
    nodeRebalance (.node k v (nodeRemoveMin (.node k' v' l' r' h')) r h)

/-- The loop of `node_remove` to the in-order successor: its entry. -/
def successor : Node K V → Option (K × V)
  | .nil => none
  | .node k v .nil _ _ => some (k, v)
  | .node _ _ (.node k' v' l' r' h') _ _ => successor (.node k' v' l' r' h')

/-- `node_remove`. -/
def nodeRemove (cmp : K → K → Int) (key : K) : Node K V → Node K V × Bool
  | .nil => (.nil, false)
  | .node k v l r h =>
    if cmp key k < 0 then
      let res := nodeRemove cmp key l
      (nodeRebalance (.node k v res.1 r h), res.2)
    else if cmp key k > 0 then
      let res := nodeRemove cmp key r
      (nodeRebalance (.node k v l res.1 h), res.2)
    else
      -- the right subtree has a leftmost node unless it is NULL
      match l, successor r with
      | .nil, _ => (r, true)
      | l, none => (l, true)
      | l, some succ => (nodeRebalance (.node succ.1 succ.2 l (nodeRemoveMin r) h), true)

/-- `axl_tree_remove`. -/
def remove (cmp : K → K → Int) (t : Tree K V) (key : K) : Bool × Tree K V :=
  let res := nodeRemove cmp key t.root
  (res.2, ⟨res.1, if res.2 then t.nnodes - 1 else t.nnodes⟩)

/-! ## Queries -/

/-- `node_find`: the entry of the node. -/
def nodeFind (cmp : K → K → Int) (key : K) : Node K V → Option (K × V)
  | .nil => none
  | .node k v l r _ =>
    if cmp key k < 0 then nodeFind cmp key l
    else if cmp key k > 0 then nodeFind cmp key r
    else some (k, v)

/-- `axl_tree_lookup`. -/
def lookup (cmp : K → K → Int) (t : Tree K V) (key : K) : Option V :=
  (nodeFind cmp key t.root).map Prod.snd

/-- The keys that `tree_bound` accepts. -/
def satisfies (cmp : K → K → Int) (key : K) (strict : Bool) (k : K) : Bool :=
  if strict then cmp k key > 0 else cmp k key ≥ 0

/-- The descent of `tree_bound`, with the best entry so far. -/
def boundLoop (cmp : K → K → Int) (key : K) (strict : Bool) :
    Node K V → Option (K × V) → Option (K × V)
  | .nil, best => best
  | .node k v l r _, best =>
    if satisfies cmp key strict k then boundLoop cmp key strict l (some (k, v))
    else boundLoop cmp key strict r best

/-- `tree_bound`. -/
def treeBound (cmp : K → K → Int) (strict : Bool) (t : Tree K V) (key : K) : Option V :=
  (boundLoop cmp key strict t.root none).map Prod.snd

/-- `axl_tree_lower_bound`. -/
def lowerBound (cmp : K → K → Int) (t : Tree K V) (key : K) : Option V := treeBound cmp false t key

/-- `axl_tree_upper_bound`. -/
def upperBound (cmp : K → K → Int) (t : Tree K V) (key : K) : Option V := treeBound cmp true t key

/-! ## The iterator -/

/-- `AXL_TREE_ITER_MAX_DEPTH`. -/
def iterMaxDepth : Nat := 48

/-- `iter_push_left`, on the stack of pending nodes, the top first. -/
def iterPushLeft : Node K V → List (Node K V) → List (Node K V)
  | .nil, stack => stack
  | .node k v l r h, stack =>
    if stack.length < iterMaxDepth then iterPushLeft l (.node k v l r h :: stack) else stack

/-- `axl_tree_iter_init`. -/
def iterInit (t : Tree K V) : List (Node K V) := iterPushLeft t.root []

/-- `axl_tree_iter_next`; the stack never holds NULL. -/
def iterNext : List (Node K V) → Option ((K × V) × List (Node K V))
  | .node k v _ r _ :: stack => some ((k, v), iterPushLeft r stack)
  | _ => none

/-- What `fuel` calls of `axl_tree_iter_next` yield, up to the first that fails. -/
def iterate : Nat → List (Node K V) → List (K × V)
  | 0, _ => []
  | fuel + 1, stack =>
    match iterNext stack with
    | none => []
    | some (e, stack) => e :: iterate fuel stack

/-! ## Runs -/

/-- The calls of a run, with whether a node can be allocated. -/
inductive Op (K V : Type) where
  | insert (alloc : Bool) (key : K) (value : V)
  | replace (alloc : Bool) (key : K) (value : V)
  | remove (key : K)

/-- The tree after a call. -/
def exec (cmp : K → K → Int) (t : Tree K V) : Op K V → Tree K V
  | .insert alloc key value => insert cmp alloc t key value
  | .replace alloc key value => replace cmp alloc t key value
  | .remove key => (remove cmp t key).2

/-- `axl_tree_new`. -/
def new : Tree K V := ⟨.nil, 0⟩

/-- The tree after a run. -/
def run (cmp : K → K → Int) (ops : List (Op K V)) : Tree K V := ops.foldl (exec cmp) new

/-- The entries in order. -/
def toList : Node K V → List (K × V)
  | .nil => []
  | .node k v l r _ => toList l ++ (k, v) :: toList r

/-- The height of a tree. -/
def depth : Node K V → Nat
  | .nil => 0
  | .node _ _ l r _ => max (depth l) (depth r) + 1

/-- Cached heights are exact and sibling heights differ by at most one. -/
def Avl : Node K V → Prop
  | .nil => True
  | .node _ _ l r h => Avl l ∧ Avl r ∧ h = max (depth l) (depth r) + 1 ∧
    depth l ≤ depth r + 1 ∧ depth r ≤ depth l + 1

/-- What a call does to the entries: a key without an entry needs a node. -/
def apply (cmp : K → K → Int) (m : List (K × V)) : Op K V → List (K × V)
  | .insert alloc key value =>
    if alloc ∨ m.any fun e => cmp key e.1 = 0 then put cmp false key value m else m
  | .replace alloc key value =>
    if alloc ∨ m.any fun e => cmp key e.1 = 0 then put cmp true key value m else m
  | .remove key => del cmp key m

/-! ## Balance -/

theorem Avl.height {t : Node K V} (h : Avl t) : nodeHeight t = depth t := by
  cases t with
  | nil => rfl
  | node k v l r hh => exact h.2.2.1

theorem ite_max (a b : Nat) : (if a > b then a else b) = max a b := by
  split <;> omega

theorem nodeUpdateHeight_eq {k : K} {v : V} {l r : Node K V} {h : Nat} (hl : Avl l) (hr : Avl r) :
    nodeUpdateHeight (.node k v l r h) = .node k v l r (max (depth l) (depth r) + 1) := by
  rw [nodeUpdateHeight, hl.height, hr.height, ite_max]

/-- A node whose height was just updated. -/
theorem avl_node {k : K} {v : V} {l r : Node K V} (hl : Avl l) (hr : Avl r)
    (h₁ : depth l ≤ depth r + 1) (h₂ : depth r ≤ depth l + 1) :
    Avl (.node k v l r (max (depth l) (depth r) + 1)) := ⟨hl, hr, rfl, h₁, h₂⟩

/-- What `node_rebalance` makes of two subtrees. -/
structure Rebalanced (k : K) (v : V) (l r t : Node K V) : Prop where
  avl : Avl t
  toList : toList t = toList l ++ (k, v) :: toList r
  le : depth t ≤ max (depth l) (depth r) + 1
  ge : max (depth l) (depth r) ≤ depth t
  same : depth l ≤ depth r + 1 → depth r ≤ depth l + 1 → depth t = max (depth l) (depth r) + 1

/-- The left subtree is too high: one rotation, or two when its own right
subtree is the higher one. -/
theorem rebalanced_left {k : K} {v : V} {l r : Node K V} {h : Nat} (hl : Avl l) (hr : Avl r)
    (hd : depth l = depth r + 2) :
    Rebalanced k v l r
      (rotateRight (.node k v (if nodeBalance l < 0 then rotateLeft l else l) r h)) := by
  cases l with
  | nil => simp [depth] at hd
  | node xk xv a b xh =>
    obtain ⟨ha, hb, -, hab, hba⟩ := hl
    simp only [depth] at hd
    rw [nodeBalance, ha.height, hb.height]
    split
    · rename_i hneg
      cases b with
      | nil =>
        simp only [depth] at hneg
        omega
      | node yk yv c d yh =>
        obtain ⟨hc, hd', -, hcd, hdc⟩ := hb
        simp only [depth] at hd hneg hab hba
        have hx : Avl (.node xk xv a c (max (depth a) (depth c) + 1)) :=
          avl_node ha hc (by omega) (by omega)
        have hy : Avl (.node k v d r (max (depth d) (depth r) + 1)) :=
          avl_node hd' hr (by omega) (by omega)
        rw [rotateLeft, nodeUpdateHeight_eq ha hc]
        rw [nodeUpdateHeight, rotateRight, nodeUpdateHeight_eq hd' hr, nodeUpdateHeight_eq hx hy]
        refine ⟨avl_node hx hy (by simp only [depth]; omega) (by simp only [depth]; omega), ?_, ?_,
          ?_, ?_⟩
        · simp [AvlTree.toList]
        all_goals simp only [depth]; omega
    · rename_i hpos
      have hy : Avl (.node k v b r (max (depth b) (depth r) + 1)) :=
        avl_node hb hr (by omega) (by omega)
      rw [rotateRight, nodeUpdateHeight_eq hb hr, nodeUpdateHeight_eq ha hy]
      refine ⟨avl_node ha hy (by simp only [depth]; omega) (by simp only [depth]; omega), ?_, ?_,
        ?_, ?_⟩
      · simp [AvlTree.toList]
      all_goals simp only [depth]; omega

/-- The mirror image. -/
theorem rebalanced_right {k : K} {v : V} {l r : Node K V} {h : Nat} (hl : Avl l) (hr : Avl r)
    (hd : depth r = depth l + 2) :
    Rebalanced k v l r
      (rotateLeft (.node k v l (if nodeBalance r > 0 then rotateRight r else r) h)) := by
  cases r with
  | nil => simp [depth] at hd
  | node yk yv b c yh =>
    obtain ⟨hb, hc, -, hbc, hcb⟩ := hr
    simp only [depth] at hd
    rw [nodeBalance, hb.height, hc.height]
    split
    · rename_i hpos
      cases b with
      | nil =>
        simp only [depth] at hpos
        omega
      | node xk xv a d xh =>
        obtain ⟨ha, hd', -, had, hda⟩ := hb
        simp only [depth] at hd hpos hbc hcb
        have hx : Avl (.node k v l a (max (depth l) (depth a) + 1)) :=
          avl_node hl ha (by omega) (by omega)
        have hy : Avl (.node yk yv d c (max (depth d) (depth c) + 1)) :=
          avl_node hd' hc (by omega) (by omega)
        rw [rotateRight, nodeUpdateHeight_eq hd' hc]
        rw [nodeUpdateHeight, rotateLeft, nodeUpdateHeight_eq hl ha, nodeUpdateHeight_eq hx hy]
        refine ⟨avl_node hx hy (by simp only [depth]; omega) (by simp only [depth]; omega), ?_, ?_,
          ?_, ?_⟩
        · simp [AvlTree.toList]
        all_goals simp only [depth]; omega
    · rename_i hneg
      have hx : Avl (.node k v l b (max (depth l) (depth b) + 1)) :=
        avl_node hl hb (by omega) (by omega)
      rw [rotateLeft, nodeUpdateHeight_eq hl hb, nodeUpdateHeight_eq hx hc]
      refine ⟨avl_node hx hc (by simp only [depth]; omega) (by simp only [depth]; omega), ?_, ?_,
        ?_, ?_⟩
      · simp [AvlTree.toList]
      all_goals simp only [depth]; omega

/-- `node_rebalance` repairs a difference of two. -/
theorem nodeRebalance_spec {k : K} {v : V} {l r : Node K V} (h : Nat) (hl : Avl l) (hr : Avl r)
    (h₁ : depth l ≤ depth r + 2) (h₂ : depth r ≤ depth l + 2) :
    Rebalanced k v l r (nodeRebalance (.node k v l r h)) := by
  rw [nodeRebalance, nodeUpdateHeight_eq hl hr]
  simp only [nodeBalance, hl.height, hr.height]
  split
  · exact rebalanced_left hl hr (by omega)
  · split
    · exact rebalanced_right hl hr (by omega)
    · exact ⟨avl_node hl hr (by omega) (by omega), rfl, Nat.le_refl _, Nat.le_succ _,
        fun _ _ => rfl⟩

/-! ## Insertion -/

theorem nodeInsert_avl (cmp : K → K → Int) (alloc replace : Bool) (key : K) (value : V)
    {t : Node K V} (h : Avl t) :
    Avl (nodeInsert cmp alloc replace key value t).node ∧
      depth t ≤ depth (nodeInsert cmp alloc replace key value t).node ∧
      depth (nodeInsert cmp alloc replace key value t).node ≤ depth t + 1 := by
  induction t with
  | nil =>
    rw [nodeInsert]
    split
    · simp [Avl, depth]
    · simp [Avl, depth]
  | node k v l r hh ihl ihr =>
    have hself := h
    obtain ⟨hl, hr, -, hlr, hrl⟩ := h
    simp only [nodeInsert]
    split
    · obtain ⟨havl, hge, hle⟩ := ihl hl
      split
      · exact ⟨hself, Nat.le_refl _, Nat.le_succ _⟩
      · have hreb := @nodeRebalance_spec _ _ k v _ _ hh havl hr (by omega) (by omega)
        have h₁ := hreb.le
        have h₂ := hreb.ge
        have h₃ := hreb.same
        refine ⟨hreb.avl, ?_, ?_⟩
        all_goals simp only [depth]; omega
    · split
      · obtain ⟨havl, hge, hle⟩ := ihr hr
        split
        · exact ⟨hself, Nat.le_refl _, Nat.le_succ _⟩
        · have hreb := @nodeRebalance_spec _ _ k v _ _ hh hl havl (by omega) (by omega)
          have h₁ := hreb.le
          have h₂ := hreb.ge
          have h₃ := hreb.same
          refine ⟨hreb.avl, ?_, ?_⟩
          all_goals simp only [depth]; omega
      · exact ⟨hself, Nat.le_refl _, Nat.le_succ _⟩

section Order

variable {cmp : K → K → Int}

/-- A sorted node splits its entries around the comparison with a key. -/
theorem before_of_ge (ho : IsOrder cmp) {l r : List (K × V)} {e : K × V} {key : K}
    (hs : Sorted cmp (l ++ e :: r)) (h : 0 ≤ cmp key e.1) : ∀ a ∈ l, 0 < cmp key a.1 := by
  intro a ha
  have hae := (sorted_append_cons.mp hs).2.2.1 a ha
  have hek : cmp e.1 key ≤ 0 := ho.le_swap.mpr h
  exact (ho.swap _ _).mp (ho.lt_of_lt_of_le hae hek)

theorem after_of_le (ho : IsOrder cmp) {l r : List (K × V)} {e : K × V} {key : K}
    (hs : Sorted cmp (l ++ e :: r)) (h : cmp key e.1 ≤ 0) : ∀ b ∈ r, cmp key b.1 < 0 := by
  intro b hb
  have heb := (sorted_append_cons.mp hs).2.2.2.1 b hb
  exact ho.lt_of_le_of_lt h heb

/-- What `node_insert` does to the entries. -/
structure InsertSpec (cmp : K → K → Int) (alloc replace : Bool) (key : K) (value : V)
    (m : List (K × V)) (res : Inserted K V) : Prop where
  oom : res.oom = true ↔ alloc = false ∧ m.any (fun e => cmp key e.1 = 0) = false
  toList : res.oom = false → toList res.node = put cmp replace key value m
  inserted : res.oom = false →
    (AvlTree.toList res.node).length = m.length + if res.inserted then 1 else 0

theorem nodeInsert_spec (ho : IsOrder cmp) (alloc replace : Bool) (key : K) (value : V)
    {t : Node K V} (ha : Avl t) (hs : Sorted cmp (toList t)) :
    InsertSpec cmp alloc replace key value (toList t)
      (nodeInsert cmp alloc replace key value t) := by
  induction t with
  | nil =>
    rw [nodeInsert]
    split
    · rename_i halloc
      exact ⟨by simp [halloc, toList], fun _ => rfl, fun _ => rfl⟩
    · rename_i halloc
      refine ⟨by simp [halloc, toList], ?_, ?_⟩ <;> rintro ⟨⟩
  | node k v l r hh ihl ihr =>
    obtain ⟨hal, har, -, hlr, hrl⟩ := ha
    rw [toList] at hs ⊢
    obtain ⟨hsl, hsr, -⟩ := sorted_append_cons.mp hs
    simp only [nodeInsert]
    split
    · rename_i hlt
      obtain ⟨hoom, hlist, hins⟩ := ihl hal hsl
      obtain ⟨havl, hge, hle⟩ := nodeInsert_avl cmp alloc replace key value hal
      have hreb := @nodeRebalance_spec _ _ k v _ _ hh havl har (by omega) (by omega)
      -- the key is not in the right half
      have hright : (toList r).any (fun e => cmp key e.1 = 0) = false := by
        rw [any_eq_false]
        intro b hb
        have := after_of_le ho hs (Int.le_of_lt hlt) b hb
        simp
        omega
      have hany : ((toList l) ++ (k, v) :: (toList r)).any (fun e => cmp key e.1 = 0)
          = (toList l).any fun e => cmp key e.1 = 0 := by
        rw [any_append, any_cons, hright]
        have : ¬ cmp key k = 0 := by omega
        simp [this]
      split
      · rename_i ho'
        refine ⟨?_, ?_, ?_⟩
        · rw [hany, ← hoom, ho']
        · rintro ⟨⟩
        · rintro ⟨⟩
      · rename_i ho'
        have ho' : (nodeInsert cmp alloc replace key value l).oom = false := by simpa using ho'
        refine ⟨?_, fun _ => ?_, fun _ => ?_⟩
        · rw [hany, ← hoom, ho']
        · rw [hreb.toList, hlist ho', put_append_cons_lt hlt]
        · rw [hreb.toList]
          simp only [length_append, length_cons, hins ho']
          omega
    · rename_i hnlt
      split
      · rename_i hgt
        obtain ⟨hoom, hlist, hins⟩ := ihr har hsr
        obtain ⟨havl, hge, hle⟩ := nodeInsert_avl cmp alloc replace key value har
        have hreb := @nodeRebalance_spec _ _ k v _ _ hh hal havl (by omega) (by omega)
        have hbefore := before_of_ge ho hs (show 0 ≤ cmp key k by omega)
        have hleft : (toList l).any (fun e => cmp key e.1 = 0) = false := by
          rw [any_eq_false]
          intro a ha
          have := hbefore a ha
          simp
          omega
        have hany : ((toList l) ++ (k, v) :: (toList r)).any (fun e => cmp key e.1 = 0)
            = (toList r).any fun e => cmp key e.1 = 0 := by
          rw [any_append, any_cons, hleft]
          have : ¬ cmp key k = 0 := by omega
          simp [this]
        split
        · rename_i ho'
          refine ⟨?_, ?_, ?_⟩
          · rw [hany, ← hoom, ho']
          · rintro ⟨⟩
          · rintro ⟨⟩
        · rename_i ho'
          have ho' : (nodeInsert cmp alloc replace key value r).oom = false := by simpa using ho'
          refine ⟨?_, fun _ => ?_, fun _ => ?_⟩
          · rw [hany, ← hoom, ho']
          · rw [hreb.toList, hlist ho', put_append_cons_gt hbefore hgt]
          · rw [hreb.toList]
            simp only [length_append, length_cons, hins ho']
            omega
      · rename_i hngt
        have heq : cmp key k = 0 := by omega
        have hbefore := before_of_ge ho hs (show 0 ≤ cmp key k by omega)
        refine ⟨?_, fun _ => ?_, fun _ => ?_⟩
        · simp [heq]
        · rw [toList, put_append_cons_eq hbefore heq]
        · rw [toList]
          simp

/-! ## Removal -/

theorem successor_eq (t : Node K V) : successor t = (toList t).head? := by
  induction t with
  | nil => rfl
  | node k v l r h ihl ihr =>
    cases l with
    | nil => rfl
    | node k' v' l' r' h' =>
      rw [successor, ihl]
      conv_rhs => rw [toList]
      rw [head?_append]
      cases hl : (toList (.node k' v' l' r' h')).head? with
      | none =>
        rw [head?_eq_none_iff, toList] at hl
        simp at hl
      | some e => rfl

theorem nodeRemoveMin_spec {t : Node K V} (h : Avl t) :
    Avl (nodeRemoveMin t) ∧ toList (nodeRemoveMin t) = (toList t).tail ∧
      depth (nodeRemoveMin t) ≤ depth t ∧ depth t ≤ depth (nodeRemoveMin t) + 1 := by
  induction t with
  | nil => exact ⟨trivial, rfl, Nat.le_refl _, Nat.le_succ _⟩
  | node k v l r hh ihl ihr =>
    obtain ⟨hl, hr, -, hlr, hrl⟩ := h
    cases l with
    | nil =>
      simp only [depth] at hrl
      refine ⟨hr, rfl, ?_, ?_⟩
      all_goals simp only [nodeRemoveMin, depth]; omega
    | node k' v' l' r' h' =>
      obtain ⟨havl, hlist, hle, hge⟩ := ihl hl
      have hreb := @nodeRebalance_spec _ _ k v _ _ hh havl hr (by omega) (by omega)
      have h₁ := hreb.le
      have h₂ := hreb.ge
      have h₃ := hreb.same
      rw [nodeRemoveMin]
      refine ⟨hreb.avl, ?_, ?_, ?_⟩
      · rw [hreb.toList, hlist]
        conv_rhs => rw [toList]
        cases hl' : toList (.node k' v' l' r' h') with
        | nil =>
          rw [toList] at hl'
          simp at hl'
        | cons e es => rfl
      · conv_rhs => rw [depth]
        omega
      · conv_lhs => rw [depth]
        omega

theorem nodeRemove_avl (cmp : K → K → Int) (key : K) {t : Node K V} (h : Avl t) :
    Avl (nodeRemove cmp key t).1 ∧ depth (nodeRemove cmp key t).1 ≤ depth t ∧
      depth t ≤ depth (nodeRemove cmp key t).1 + 1 := by
  induction t with
  | nil => exact ⟨trivial, Nat.le_refl _, Nat.le_succ _⟩
  | node k v l r hh ihl ihr =>
    obtain ⟨hal, har, -, hlr, hrl⟩ := h
    -- one subtree is one level lower at most
    have hreb : ∀ {k : K} {v : V} {l' r' : Node K V}, Avl l' → Avl r' →
        depth l' ≤ depth l ∧ depth l ≤ depth l' + 1 ∧ r' = r ∨
          l' = l ∧ depth r' ≤ depth r ∧ depth r ≤ depth r' + 1 →
        Avl (nodeRebalance (.node k v l' r' hh)) ∧
          depth (nodeRebalance (.node k v l' r' hh)) ≤ max (depth l) (depth r) + 1 ∧
          max (depth l) (depth r) + 1 ≤ depth (nodeRebalance (.node k v l' r' hh)) + 1 := by
      intro k v l' r' hl' hr' hd
      rcases hd with ⟨hle, hge, rfl⟩ | ⟨rfl, hle, hge⟩
      all_goals
        have hreb := @nodeRebalance_spec _ _ k v _ _ hh hl' hr' (by omega) (by omega)
        have h₁ := hreb.le
        have h₂ := hreb.ge
        have h₃ := hreb.same
        exact ⟨hreb.avl, by omega, by omega⟩
    simp only [nodeRemove, depth]
    split
    · obtain ⟨havl, hle, hge⟩ := ihl hal
      exact hreb havl har (.inl ⟨hle, hge, rfl⟩)
    split
    · obtain ⟨havl, hle, hge⟩ := ihr har
      exact hreb hal havl (.inr ⟨rfl, hle, hge⟩)
    rw [successor_eq]
    split
    · simp only [depth] at hrl ⊢
      exact ⟨har, by omega, by omega⟩
    · rename_i hnil
      obtain rfl : r = .nil := by
        cases r with
        | nil => rfl
        | node k' v' l' r' h' => simp [toList] at hnil
      simp only [depth] at hlr ⊢
      exact ⟨hal, by omega, by omega⟩
    · obtain ⟨havl, -, hle, hge⟩ := nodeRemoveMin_spec har
      exact hreb hal havl (.inr ⟨rfl, hle, hge⟩)

/-- What `node_remove` does to a balanced tree. -/
structure RemoveSpec (cmp : K → K → Int) (key : K) (t : Node K V) (res : Node K V × Bool) :
    Prop where
  avl : Avl res.1
  le : depth res.1 ≤ depth t
  ge : depth t ≤ depth res.1 + 1
  toList : toList res.1 = del cmp key (toList t)
  removed : (AvlTree.toList res.1).length + (if res.2 then 1 else 0) = (AvlTree.toList t).length

theorem nodeRemove_spec (ho : IsOrder cmp) (key : K) {t : Node K V} (ha : Avl t)
    (hs : Sorted cmp (toList t)) : RemoveSpec cmp key t (nodeRemove cmp key t) := by
  obtain ⟨havl, hle, hge⟩ := nodeRemove_avl cmp key ha
  suffices h : toList (nodeRemove cmp key t).1 = del cmp key (toList t) ∧
      (toList (nodeRemove cmp key t).1).length + (if (nodeRemove cmp key t).2 then 1 else 0)
        = (toList t).length from ⟨havl, hle, hge, h.1, h.2⟩
  clear havl hle hge
  induction t with
  | nil => exact ⟨rfl, rfl⟩
  | node k v l r hh ihl ihr =>
    obtain ⟨hal, har, -, hlr, hrl⟩ := ha
    rw [toList] at hs
    obtain ⟨hsl, hsr, -⟩ := sorted_append_cons.mp hs
    simp only [nodeRemove]
    split
    · rename_i hlt
      obtain ⟨hlist, hrem⟩ := ihl hal hsl
      obtain ⟨havl, hle, hge⟩ := nodeRemove_avl cmp key hal
      have hreb := @nodeRebalance_spec _ _ k v _ _ hh havl har (by omega) (by omega)
      have hright : del cmp key (toList r) = (toList r) := by
        refine del_eq_self fun b hb => ?_
        have := after_of_le ho hs (Int.le_of_lt hlt) b hb
        omega
      constructor
      · rw [hreb.toList, hlist, toList, del_append_cons, if_neg (show ¬ cmp key k = 0 by omega),
          hright]
      · rw [hreb.toList, toList, length_append, length_append, length_cons]
        dsimp only
        omega
    · rename_i hnlt
      have hbefore := before_of_ge ho hs (show 0 ≤ cmp key k by omega)
      have hleft : del cmp key (toList l) = (toList l) := by
        refine del_eq_self fun a ha => ?_
        have := hbefore a ha
        omega
      split
      · rename_i hgt
        obtain ⟨hlist, hrem⟩ := ihr har hsr
        obtain ⟨havl, hle, hge⟩ := nodeRemove_avl cmp key har
        have hreb := @nodeRebalance_spec _ _ k v _ _ hh hal havl (by omega) (by omega)
        constructor
        · rw [hreb.toList, hlist, toList, del_append_cons, if_neg (show ¬ cmp key k = 0 by omega),
            hleft]
        · rw [hreb.toList, toList, length_append, length_append, length_cons,
            length_cons]
          dsimp only
          omega
      · rename_i hngt
        have heq : cmp key k = 0 := by omega
        have hright : del cmp key (toList r) = (toList r) := by
          refine del_eq_self fun b hb => ?_
          have := after_of_le ho hs (show cmp key k ≤ 0 by omega) b hb
          omega
        have hdel : del cmp key (toList (.node k v l r hh)) = (toList l) ++ (toList r) := by
          rw [toList, del_append_cons, if_pos heq, hleft, hright]
        rw [successor_eq]
        split
        · exact ⟨by rw [hdel]; rfl, by simp [toList]⟩
        · rename_i hnil
          rw [head?_eq_none_iff] at hnil
          exact ⟨by rw [hdel, hnil, append_nil], by simp [toList, hnil]⟩
        · rename_i succ _ hsucc
          obtain ⟨havl, hlist, hle, hge⟩ := nodeRemoveMin_spec har
          have hreb := @nodeRebalance_spec _ _ succ.1 succ.2 _ _ hh hal havl (by omega) (by omega)
          obtain ⟨rest, hrest⟩ : ∃ rest, (toList r) = succ :: rest := by
            cases hr : (toList r) with
            | nil =>
              rw [hr] at hsucc
              cases hsucc
            | cons e es =>
              rw [hr] at hsucc
              obtain rfl : e = succ := Option.some.inj hsucc
              exact ⟨es, rfl⟩
          constructor
          · rw [hdel, hreb.toList, hlist, hrest]
            rfl
          · rw [hreb.toList, hlist, toList, hrest]
            simp only [length_append, length_cons, tail_cons, if_true]
            omega

/-! ## Queries -/

theorem nodeFind_eq (ho : IsOrder cmp) (key : K) {t : Node K V} (hs : Sorted cmp (toList t)) :
    nodeFind cmp key t = (toList t).find? fun e => cmp key e.1 = 0 := by
  induction t with
  | nil => rfl
  | node k v l r h ihl ihr =>
    rw [toList] at hs ⊢
    obtain ⟨hsl, hsr, -⟩ := sorted_append_cons.mp hs
    have hnone : ∀ {m : List (K × V)}, (∀ e ∈ m, cmp key e.1 ≠ 0) →
        m.find? (fun e => cmp key e.1 = 0) = none := by
      intro m hm
      rw [find?_eq_none]
      intro e he
      simpa using hm e he
    rw [nodeFind, find?_append, find?_cons]
    split
    · rename_i hlt
      have hr := @hnone (toList r) fun b hb => by
        have := after_of_le ho hs (Int.le_of_lt hlt) b hb
        omega
      rw [ihl hsl, hr]
      have : ¬ cmp key k = 0 := by omega
      simp [this]
    · rename_i hnlt
      have hl := @hnone (toList l) fun a ha => by
        have := before_of_ge ho hs (show 0 ≤ cmp key k by omega) a ha
        omega
      rw [hl]
      split
      · rename_i hgt
        rw [ihr hsr]
        have : ¬ cmp key k = 0 := by omega
        simp [this]
      · rename_i hngt
        have : cmp key k = 0 := by omega
        simp [this]

theorem satisfies_mono (ho : IsOrder cmp) {key : K} {strict : Bool} {a b : K}
    (h : satisfies cmp key strict a = true) (hab : cmp a b < 0) :
    satisfies cmp key strict b = true := by
  cases strict with
  | true =>
    simp only [satisfies, if_true, decide_eq_true_eq] at h ⊢
    have hka : cmp key a < 0 := (ho.swap _ _).mpr h
    exact (ho.swap _ _).mp (ho.lt_of_lt_of_le hka (Int.le_of_lt hab))
  | false =>
    simp only [satisfies, Bool.false_eq_true, if_false, decide_eq_true_eq] at h ⊢
    have hka : cmp key a ≤ 0 := ho.le_swap.mpr h
    exact Int.le_of_lt ((ho.swap _ _).mp (ho.lt_of_le_of_lt hka hab))

/-- The descent returns the first accepted entry, or the best so far. -/
theorem boundLoop_eq (ho : IsOrder cmp) (key : K) (strict : Bool) {t : Node K V}
    (hs : Sorted cmp (toList t)) (best : Option (K × V)) :
    (boundLoop cmp key strict t best = best ∧
        ∀ e ∈ toList t, satisfies cmp key strict e.1 = false) ∨
      ∃ e ∈ toList t, boundLoop cmp key strict t best = some e ∧ satisfies cmp key strict e.1 = true ∧
        ∀ e' ∈ toList t, satisfies cmp key strict e'.1 = true → cmp e.1 e'.1 ≤ 0 := by
  induction t generalizing best with
  | nil => exact .inl ⟨rfl, by simp [toList]⟩
  | node k v l r h ihl ihr =>
    rw [toList] at hs ⊢
    obtain ⟨hsl, hsr, hle, her, -⟩ := sorted_append_cons.mp hs
    simp only [mem_append, mem_cons]
    rw [boundLoop]
    split
    · rename_i hsat
      right
      rcases ihl hsl (some (k, v)) with ⟨hres, hnone⟩ | ⟨e, he, hres, hesat, hmin⟩
      · refine ⟨(k, v), .inr (.inl rfl), hres, hsat, ?_⟩
        rintro e' (he' | rfl | he') hsat'
        · exact absurd hsat' (by rw [hnone e' he']; simp)
        · exact Int.le_of_eq (ho.self k)
        · exact Int.le_of_lt (her e' he')
      · refine ⟨e, .inl he, hres, hesat, ?_⟩
        have hek := hle e he
        rintro e' (he' | rfl | he') hsat'
        · exact hmin e' he' hsat'
        · exact Int.le_of_lt hek
        · exact Int.le_of_lt (ho.lt_of_lt_of_le hek (Int.le_of_lt (her e' he')))
    · rename_i hsat
      have hsat : satisfies cmp key strict k = false := by simpa using hsat
      -- nothing before a rejected key is accepted
      have hleft : ∀ e ∈ toList l, satisfies cmp key strict e.1 = false :=
        fun e he => by
          by_contra he'
          have := satisfies_mono ho (by simpa using he') (hle e he)
          rw [hsat] at this
          cases this
      rcases ihr hsr best with ⟨hres, hnone⟩ | ⟨e, he, hres, hesat, hmin⟩
      · left
        refine ⟨hres, ?_⟩
        rintro e (he | rfl | he)
        · exact hleft e he
        · exact hsat
        · exact hnone e he
      · right
        refine ⟨e, .inr (.inr he), hres, hesat, ?_⟩
        rintro e' (he' | rfl | he') hsat'
        · exact absurd hsat' (by rw [hleft e' he']; simp)
        · exact absurd hsat' (by rw [hsat]; simp)
        · exact hmin e' he' hsat'

end Order

/-! ## The iterator -/

/-- The entries that are still to come. -/
def pending : List (Node K V) → List (K × V)
  | [] => []
  | .nil :: stack => pending stack
  | .node k v _ r _ :: stack => (k, v) :: (toList r ++ pending stack)

/-- Every stacked node is a real one, and the nodes below it leave room for the
whole of its subtree. -/
def Fits (H : Nat) : List (Node K V) → Prop
  | [] => True
  | .nil :: _ => False
  | .node k v l r h :: stack => depth (.node k v l r h) + stack.length ≤ H ∧ Fits H stack

theorem iterPushLeft_spec {H : Nat} (hH : H ≤ iterMaxDepth) (t : Node K V)
    {stack : List (Node K V)} (hd : depth t + stack.length ≤ H) (hf : Fits H stack) :
    Fits H (iterPushLeft t stack) ∧ pending (iterPushLeft t stack) = toList t ++ pending stack := by
  induction t generalizing stack with
  | nil => exact ⟨hf, rfl⟩
  | node k v l r h ihl ihr =>
    have hroom : stack.length < iterMaxDepth := by
      simp only [depth] at hd
      omega
    have hdl : depth l + (.node k v l r h :: stack).length ≤ H := by
      simp only [depth] at hd
      rw [length_cons]
      omega
    obtain ⟨hfits, hpend⟩ := @ihl (.node k v l r h :: stack) hdl ⟨hd, hf⟩
    rw [iterPushLeft, if_pos hroom]
    refine ⟨hfits, ?_⟩
    rw [hpend, pending, toList, append_assoc, cons_append]

/-- The iterator yields what is pending and then stops. -/
theorem iterate_eq {H : Nat} (hH : H ≤ iterMaxDepth) (fuel : Nat) {stack : List (Node K V)}
    (hf : Fits H stack) (hfuel : (pending stack).length < fuel) :
    iterate fuel stack = pending stack := by
  induction fuel generalizing stack with
  | zero => omega
  | succ fuel ih =>
    match stack, hf with
    | [], _ => rfl
    | .node k v l r h :: stack, hf =>
      obtain ⟨hd, hf⟩ := hf
      have hdr : depth r + stack.length ≤ H := by
        simp only [depth] at hd
        omega
      obtain ⟨hfits, hpend⟩ := iterPushLeft_spec hH r hdr hf
      rw [pending, length_cons] at hfuel
      rw [iterate, iterNext, pending]
      dsimp only
      rw [ih hfits (by rw [hpend]; omega), hpend]

/-- A tree of height `h` has at least `fib (h + 2) - 1` entries. -/
theorem fib_le {t : Node K V} (h : Avl t) : Nat.fib (depth t + 2) ≤ (toList t).length + 1 := by
  induction t with
  | nil => simp [depth, toList]
  | node k v l r hh ihl ihr =>
    obtain ⟨hl, hr, -, hlr, hrl⟩ := h
    have hl := ihl hl
    have hr := ihr hr
    simp only [depth, toList, length_append, length_cons]
    have hfib : ∀ a b, a ≤ b + 1 → b ≤ a →
        Nat.fib (a + 1 + 2) ≤ Nat.fib (a + 2) + Nat.fib (b + 2) := by
      intro a b hab hba
      have hstep : Nat.fib (a + 1 + 2) = Nat.fib (a + 1) + Nat.fib (a + 2) := Nat.fib_add_two
      have hmono : Nat.fib (a + 1) ≤ Nat.fib (b + 2) := Nat.fib_mono (by omega)
      omega
    rcases Nat.le_total (depth r) (depth l) with hle | hle
    · rw [Nat.max_eq_left hle]
      have := hfib (depth l) (depth r) hlr hle
      omega
    · rw [Nat.max_eq_right hle]
      have := hfib (depth r) (depth l) hrl hle
      omega

/-- Fewer than `2 ^ 32` entries: at most 45 levels. -/
theorem depth_le {t : Node K V} (h : Avl t) (hlen : (toList t).length < 2 ^ 32) :
    depth t ≤ 45 := by
  by_contra hgt
  have hmono : Nat.fib 48 ≤ Nat.fib (depth t + 2) := Nat.fib_mono (by omega)
  have hfib : Nat.fib 48 = 4807526976 := by norm_num
  have := fib_le h
  omega

/-! ## Runs -/

/-- Whatever the comparator answers, the tree stays balanced: its height is
logarithmic in its entries. -/
theorem run_balanced (cmp : K → K → Int) (ops : List (Op K V)) :
    Avl (run cmp ops).root ∧
      Nat.fib (depth (run cmp ops).root + 2) ≤ (toList (run cmp ops).root).length + 1 := by
  have hrun : ∀ {t : Tree K V}, Avl t.root → Avl (ops.foldl (exec cmp) t).root := by
    induction ops with
    | nil => exact fun h => h
    | cons op ops ih =>
      refine fun h => ih ?_
      cases op with
      | remove key => exact (nodeRemove_avl cmp key h).1
      | insert alloc key value | replace alloc key value =>
        simp only [exec, insert, replace, treePut]
        split
        · exact h
        · exact (nodeInsert_avl cmp alloc _ key value h).1
  have h : Avl (run cmp ops).root := hrun trivial
  exact ⟨h, fib_le h⟩

/-- The value of the least entry with `p`, or none. -/
def IsBound (cmp : K → K → Int) (m : List (K × V)) (p : K → Prop) (res : Option V) : Prop :=
  (res = none ∧ ∀ e ∈ m, ¬ p e.1) ∨
    ∃ e ∈ m, res = some e.2 ∧ p e.1 ∧ ∀ e' ∈ m, p e'.1 → cmp e.1 e'.1 ≤ 0

/-- The tree holds the entries `m`. The counter is a `uint32_t`. -/
structure Holds (cmp : K → K → Int) (t : Tree K V) (m : List (K × V)) : Prop where
  entries : toList t.root = m
  sorted : Sorted cmp m
  avl : Avl t.root
  nnodes : t.nnodes.toNat = m.length % 2 ^ 32

section Run

variable {cmp : K → K → Int} {t : Tree K V} {m : List (K × V)}

theorem Holds.treePut (ho : IsOrder cmp) (h : Holds cmp t m) (alloc replace : Bool) (key : K)
    (value : V) :
    Holds cmp (treePut cmp alloc replace t key value)
      (if alloc ∨ m.any fun e => cmp key e.1 = 0 then put cmp replace key value m else m) := by
  obtain ⟨rfl, hs, ha, hn⟩ := h
  have hspec := nodeInsert_spec ho alloc replace key value ha hs
  have hoom := hspec.oom
  rw [AvlTree.treePut]
  split
  · rename_i ho'
    obtain ⟨halloc, hany⟩ := hoom.mp ho'
    rw [if_neg (by simp [halloc, hany])]
    exact ⟨rfl, hs, ha, hn⟩
  · rename_i ho'
    have hok : (nodeInsert cmp alloc replace key value t.root).oom = false := by simpa using ho'
    have hcond : alloc = true ∨ ((toList t.root).any fun e => cmp key e.1 = 0) = true := by
      by_contra hnot
      rw [not_or] at hnot
      exact ho' (hoom.mpr (by simpa using hnot))
    rw [if_pos hcond]
    refine ⟨hspec.toList hok, hs.put ho, (nodeInsert_avl cmp alloc replace key value ha).1, ?_⟩
    have hlen := hspec.inserted hok
    rw [hspec.toList hok] at hlen
    rw [hlen]
    split
    · rw [UInt32.toNat_add, hn]
      simp
    · exact hn

theorem Holds.remove (ho : IsOrder cmp) (h : Holds cmp t m) (key : K) :
    Holds cmp (remove cmp t key).2 (del cmp key m) := by
  obtain ⟨rfl, hs, ha, hn⟩ := h
  have hspec := nodeRemove_spec ho key ha hs
  refine ⟨hspec.toList, hs.del, hspec.avl, ?_⟩
  have hlen := hspec.removed
  rw [hspec.toList] at hlen
  rw [AvlTree.remove]
  dsimp only
  split at hlen
  · rename_i hrem
    rw [if_pos hrem, UInt32.toNat_sub, hn, ← hlen]
    have : UInt32.toNat 1 = 1 := rfl
    omega
  · rename_i hrem
    rw [if_neg hrem, hn, ← hlen, Nat.add_zero]

theorem Holds.exec (ho : IsOrder cmp) (h : Holds cmp t m) (op : Op K V) :
    Holds cmp (exec cmp t op) (apply cmp m op) := by
  cases op with
  | insert alloc key value => exact h.treePut ho alloc false key value
  | replace alloc key value => exact h.treePut ho alloc true key value
  | remove key => exact h.remove ho key

theorem holds_run (ho : IsOrder cmp) (ops : List (Op K V)) :
    Holds cmp (run cmp ops) (ops.foldl (apply cmp) []) := by
  have hrun : ∀ {t : Tree K V} {m : List (K × V)}, Holds cmp t m →
      Holds cmp (ops.foldl (AvlTree.exec cmp) t) (ops.foldl (apply cmp) m) := by
    induction ops with
    | nil => exact fun h => h
    | cons op ops ih => exact fun h => ih (h.exec ho op)
  exact hrun ⟨rfl, List.Pairwise.nil, trivial, rfl⟩

theorem Holds.lookup (ho : IsOrder cmp) (h : Holds cmp t m) (key : K) :
    lookup cmp t key = (m.find? fun e => cmp key e.1 = 0).map Prod.snd := by
  have hs := h.sorted
  rw [← h.entries] at hs ⊢
  rw [AvlTree.lookup, nodeFind_eq ho key hs]

theorem Holds.bound (ho : IsOrder cmp) (h : Holds cmp t m) (strict : Bool) (key : K) :
    IsBound cmp m (fun k => satisfies cmp key strict k = true) (treeBound cmp strict t key) := by
  have hs := h.sorted
  rw [← h.entries] at hs ⊢
  rw [treeBound]
  rcases boundLoop_eq ho key strict hs none with ⟨hres, hnone⟩ | ⟨e, he, hres, hsat, hmin⟩
  · refine .inl ⟨by rw [hres]; rfl, fun e he => ?_⟩
    simp [hnone e he]
  · exact .inr ⟨e, he, by rw [hres]; rfl, hsat, hmin⟩

theorem Holds.iterate (h : Holds cmp t m) (hlen : m.length < 2 ^ 32) {fuel : Nat}
    (hfuel : m.length < fuel) : iterate fuel (iterInit t) = m := by
  obtain ⟨rfl, -, ha, -⟩ := h
  have hd := depth_le ha hlen
  have hroom : depth t.root + ([] : List (Node K V)).length ≤ 45 := by simpa using hd
  obtain ⟨hf, hp⟩ := iterPushLeft_spec (show 45 ≤ iterMaxDepth by decide) t.root hroom trivial
  rw [pending, append_nil] at hp
  rw [iterInit, iterate_eq (show 45 ≤ iterMaxDepth by decide) fuel hf (by rw [hp]; exact hfuel), hp]

end Run

/-- **The map.** After every run, whatever allocations fail, the tree holds the
entries that the calls define, in strictly ascending order and balanced; its
counter is their number modulo `2 ^ 32`; lookups and bounds answer for them; and
below `2 ^ 32` entries the iterator yields each of them once, in order. -/
theorem run_map {cmp : K → K → Int} (ho : IsOrder cmp) (ops : List (Op K V)) :
    Holds cmp (run cmp ops) (ops.foldl (apply cmp) []) ∧
      (∀ key, lookup cmp (run cmp ops) key
        = ((ops.foldl (apply cmp) []).find? fun e => cmp key e.1 = 0).map Prod.snd) ∧
      (∀ key, IsBound cmp (ops.foldl (apply cmp) []) (fun k => cmp k key ≥ 0)
        (lowerBound cmp (run cmp ops) key)) ∧
      (∀ key, IsBound cmp (ops.foldl (apply cmp) []) (fun k => cmp k key > 0)
        (upperBound cmp (run cmp ops) key)) ∧
      ((ops.foldl (apply cmp) []).length < 2 ^ 32 →
        ∀ fuel, (ops.foldl (apply cmp) []).length < fuel →
          iterate fuel (iterInit (run cmp ops)) = ops.foldl (apply cmp) []) := by
  have h := holds_run ho ops
  refine ⟨h, h.lookup ho, fun key => ?_, fun key => ?_, fun hlen fuel hfuel => h.iterate hlen hfuel⟩
  · simpa [satisfies, lowerBound] using h.bound ho false key
  · simpa [satisfies, upperBound] using h.bound ho true key

/-- The comparator of natural numbers. -/
def natCmp (a b : Nat) : Int := (a : Int) - b

theorem isOrder_natCmp : IsOrder natCmp := by
  constructor
  · intro a b
    simp only [natCmp]
    omega
  · intro a b c
    simp only [natCmp]
    omega

/-- Three keys and a removal. -/
theorem run_map_three :
    Holds natCmp (run natCmp [.insert true 2 "b", .insert false 3 "c", .replace true 1 "a",
      .remove 2]) [(1, "a")] :=
  (run_map isOrder_natCmp [.insert true 2 "b", .insert false 3 "c", .replace true 1 "a",
    .remove 2]).1

/-- The keys below `n`, each inserted once. -/
def inserts (n : Nat) : List (Op Nat Unit) := (List.range n).map fun k => .insert true k ()

theorem inserts_entries (n : Nat) :
    (inserts n).foldl (apply natCmp) [] = (List.range n).map fun k => (k, ()) := by
  induction n with
  | zero => rfl
  | succ n ih =>
    have hlast : ∀ a ∈ (List.range n).map fun k => (k, ()), 0 < natCmp n a.1 := by
      simp [natCmp]
    have hput := @put_append_of_gt _ _ natCmp false n () _ [] hlast
    rw [append_nil] at hput
    rw [inserts, range_succ, map_append, foldl_append]
    rw [inserts] at ih
    rw [ih]
    simp [apply, hput, put]

/-- With `2 ^ 32` entries `nnodes` is 0. -/
theorem nnodes_wraps :
    (run natCmp (inserts (2 ^ 32))).nnodes.toNat = 0 ∧
      (toList (run natCmp (inserts (2 ^ 32))).root).length = 2 ^ 32 := by
  have h := holds_run isOrder_natCmp (inserts (2 ^ 32))
  rw [inserts_entries] at h
  have hlen : ((List.range (2 ^ 32)).map fun k => (k, ())).length = 2 ^ 32 := by
    rw [length_map, length_range]
  refine ⟨?_, ?_⟩
  · rw [h.nnodes, hlen, Nat.mod_self]
  · rw [h.entries, hlen]

end AvlTree

end AxlSdk
