import AxlSdk.Data.NTree
import AxlSdk.Lib.PreOrder

/-!
# Traversals and iterators of the n-ary tree (`src/data/axl-ntree.c`)

`axl_ntree_traverse` is recursive, or scans the tree once for each level; the iterators walk
along the links and keep no stack. No callback changes the tree here.

- `axlNtreeTraverse`: the nodes that are given to the callback.
- `Ready`: where an iterator stands, and the nodes that it has still in front of it.
- `iterators_agree`: the two iterators and the level-order against the pre-order.
-/

namespace AxlSdk

namespace NTree

open Linked PreOrder Store List

variable {α : Type}

/-! ## Traversals -/

/-- `AxlNTreeTraverseType` -/
inductive TraverseType where
  | preOrder
  | postOrder
  | inOrder
  | levelOrder
  deriving DecidableEq, Repr

/-- `AXL_NTREE_LEAVES` -/
def leaves : Nat := 1

/-- `AXL_NTREE_NON_LEAVES` -/
def nonLeaves : Nat := 2

/-- `ntree_flags_match` -/
def flagsMatch (s : Store α) (node flags : Nat) : Bool :=
  if s.children node = none then flags &&& leaves != 0 else flags &&& nonLeaves != 0

/-- The nodes of a loop `for (c = node->children; c != NULL; c = c->next)`. -/
def childList (s : Store α) (node : Nat) : List Nat := walk s.next s.count (s.children node)

/-- What a traversal has done so far: the nodes given to the callback, whether it wants to
stop, and `*any`. -/
structure Walked where
  visited : List Nat
  stop : Bool
  any : Bool

/-- Nothing. -/
def Walked.nothing : Walked := ⟨[], false, false⟩

/-- One after the other, unless the first one stops. -/
def Walked.andThen (w next : Walked) : Walked :=
  if w.stop then w else ⟨w.visited ++ next.visited, next.stop, w.any || next.any⟩

/-- A call of the callback. -/
def visit (func : Nat → Bool) (node : Nat) : Walked := ⟨[node], func node, false⟩

/-- The same for all nodes of a list. -/
def inTurn (f : Nat → Walked) : List Nat → Walked
  | [] => .nothing
  | c :: cs => (f c).andThen (inTurn f cs)

/-- `ntree_traverse_dfs`; the recursion goes no deeper than there are nodes. -/
def traverseDfs (s : Store α) (order : TraverseType) (flags : Nat) (maxDepth : Int)
    (func : Nat → Bool) : Nat → Nat → Int → Walked
  | 0, _, _ => .nothing
  | fuel + 1, node, depth =>
    let descend := maxDepth ≤ 0 ∨ depth < maxDepth
    let here := if flagsMatch s node flags then visit func node else .nothing
    let below := fun c => traverseDfs s order flags maxDepth func fuel c (depth + 1)
    let children := if descend then childList s node else []
    match order with
    | .preOrder => here.andThen (inTurn below children)
    | .postOrder => (inTurn below children).andThen here
    | .inOrder =>
      match children with
      | [] => here
      | child :: rest => (below child).andThen (here.andThen (inTurn below rest))
    -- not called with this order
    | .levelOrder => inTurn below children

/-- `ntree_level_scan`; it goes no deeper than `target`. -/
def levelScan (s : Store α) (flags : Nat) (func : Nat → Bool) : Nat → Nat → Int → Int → Walked
  | 0, _, _, _ => .nothing
  | fuel + 1, node, depth, target =>
    if depth = target then
      { (if flagsMatch s node flags then visit func node else .nothing) with any := true }
    else inTurn (fun c => levelScan s flags func fuel c (depth + 1) target) (childList s node)

/-- The loop of `ntree_traverse_level`; no tree has more levels than nodes. -/
def levelLoop (s : Store α) (root flags : Nat) (maxDepth : Int) (func : Nat → Bool) :
    Nat → Int → List Nat
  | 0, _ => []
  | fuel + 1, target =>
    if maxDepth ≤ 0 ∨ target ≤ maxDepth then
      let w := levelScan s flags func target.toNat root 1 target
      if w.stop then w.visited
      else if !w.any then w.visited
      else w.visited ++ levelLoop s root flags maxDepth func fuel (target + 1)
    else []

/-- `axl_ntree_traverse`: the nodes that the callback is given. -/
def axlNtreeTraverse (s : Store α) (root : Option Nat) (order : TraverseType) (flags : Nat)
    (maxDepth : Int) (func : Nat → Bool) : List Nat :=
  match root with
  | none => []
  | some root =>
    match order with
    | .levelOrder => levelLoop s root flags maxDepth func (s.count + 2) 1
    | order => (traverseDfs s order flags maxDepth func (s.count + 1) root 1).visited

/-! ## Iterators -/

/-- `AxlNTreeIter` -/
structure Iter where
  root : Option Nat
  current : Option Nat
  flags : Nat
  started : Bool
  reverse : Bool

/-- `axl_ntree_iter_init` -/
def iterInit (root : Option Nat) (flags : Nat) : Iter := ⟨root, none, flags, false, false⟩

/-- `axl_ntree_iter_init_reverse` -/
def iterInitReverse (root : Option Nat) (flags : Nat) : Iter :=
  { iterInit root flags with reverse := true }

/-- The climb of `ntree_preorder_succ`. -/
def climb (s : Store α) (root : Nat) : Nat → Nat → Option Nat
  | 0, _ => none
  | fuel + 1, n =>
    if n = root then none
    else
      match s.next n with
      | some m => some m
      | none =>
        match s.parent n with
        | some p => climb s root fuel p
        | none => none

/-- `ntree_preorder_succ` -/
def preorderSucc (s : Store α) (node root : Nat) : Option Nat :=
  match s.children node with
  | some c => some c
  | none => climb s root (s.count + 1) node

/-- `ntree_lastdeepest` -/
def lastDeepest (s : Store α) : Nat → Nat → Nat
  | 0, node => node
  | fuel + 1, node =>
    match s.children node with
    | none => node
    | some c => lastDeepest s fuel (lastLoop s s.count c)

/-- `ntree_preorder_pred` -/
def preorderPred (s : Store α) (node root : Nat) : Option Nat :=
  if node = root then none
  else
    match s.prev node with
    | some q => some (lastDeepest s (s.count + 1) q)
    | none => s.parent node

/-- One move of `axl_ntree_iter_next` along the links. -/
def advance (s : Store α) (root : Nat) (it : Iter) : Iter :=
  if !it.started then
    { it with
      started := true
      current := some (if it.reverse then lastDeepest s (s.count + 1) root else root) }
  else
    match it.current with
    | none => it -- already exhausted
    | some n =>
      { it with current := if it.reverse then preorderPred s n root else preorderSucc s n root }

/-- The loop of `axl_ntree_iter_next`, which passes over nodes that do not match. -/
def nextLoop (s : Store α) (root : Nat) : Nat → Iter → Option Nat × Iter
  | 0, it => (none, it)
  | fuel + 1, it =>
    let it := advance s root it
    match it.current with
    | none => (none, it)
    | some n => if flagsMatch s n it.flags then (some n, it) else nextLoop s root fuel it

/-- `axl_ntree_iter_next` -/
def iterNext (s : Store α) (it : Iter) : Option Nat × Iter :=
  match it.root with
  | none => (none, it)
  | some root => nextLoop s root (s.count + 2) it

/-- What `k` calls return, NULLs included, and the iterator behind them. -/
def iterCalls (s : Store α) : Nat → Iter → List (Option Nat) × Iter
  | 0, it => ([], it)
  | k + 1, it =>
    let r := iterNext s it
    let rest := iterCalls s k r.2
    (r.1 :: rest.1, rest.2)

/-! ## Nodes below a node -/

/-- The number of steps from a node up to `root`, and 1: the depth that the traversals
count. -/
def depthBelow (s : Store α) (root : Nat) : Nat → Nat → Nat
  | 0, _ => 0
  | fuel + 1, x =>
    if x = root then 1
    else
      match s.parent x with
      | none => 0
      | some p => depthBelow s root fuel p + 1

/-- A node of the subtree of `root`. -/
def InSubtree (s : Store α) (root x : Nat) : Prop := Relation.ReflTransGen (Up s.parent) x root

theorem seg_path {prev next : Nat → Option Nat} {p : Option Nat} {l : List Nat}
    (h : Seg prev next p l none) : Path next l.head? l none := by
  induction l generalizing p with
  | nil => rfl
  | cons c cs ih =>
    obtain ⟨-, hnext, hrest⟩ := h
    refine ⟨rfl, ?_⟩
    rw [hnext, Option.or_none]
    exact ih hrest

/-- The walk to the last child. -/
theorem lastLoop_last {s : Store α} {p : Option Nat} {l : List Nat} {c d : Nat} {fuel : Nat}
    (h : Seg s.prev s.next p (l ++ [d]) none) (hc : (l ++ [d]).head? = some c)
    (hfuel : l.length ≤ fuel) : lastLoop s fuel c = d := by
  induction l generalizing p c fuel with
  | nil =>
    cases hc
    have hnext : s.next d = none := h.2.1
    cases fuel with
    | zero => rfl
    | succ fuel => rw [lastLoop, hnext]
  | cons e l ih =>
    cases hc
    obtain ⟨f, hhead⟩ : ∃ f, (l ++ [d]).head? = some f := by cases l <;> exact ⟨_, rfl⟩
    have hnext : s.next e = some f := by
      rw [← hhead, ← Option.or_none (o := (l ++ [d]).head?)]
      exact h.2.1
    cases fuel with
    | zero => cases hfuel
    | succ fuel =>
      rw [lastLoop, hnext]
      exact ih h.2.2 hhead (Nat.le_of_succ_le_succ hfuel)

section Below

variable {s : Store α} {kids : Nat → List Nat} (h : Wf s kids)

include h

theorem Wf.childList_eq (n : Nat) : childList s n = kids n := by
  rw [childList, h.first]
  exact (seg_path (h.seg n)).walk_eq (h.length_le n)

/-- The path of a node with a parent is no longer than there are nodes. -/
theorem Wf.exists_above (x : Nat) :
    ∃ l, Above s.parent x l ∧ l.length ≤ s.count + 1 ∧ (s.parent x ≠ none → l.length ≤ s.count) := by
  obtain ⟨l, habove, hnodup, hmem⟩ := h.ranked.exists_above x
  have hrange : s.parent x ≠ none → l.length ≤ s.count := by
    intro hx
    have hsub : l ⊆ List.range s.count := by
      intro y hy
      rw [mem_range]
      rcases Relation.ReflTransGen.cases_tail ((hmem y).mp hy) with rfl | ⟨z, -, hz⟩
      · obtain ⟨p, hp⟩ := Option.ne_none_iff_exists'.mp hx
        exact (h.bound y p hp).1
      · exact (h.bound z y hz).2
    simpa using (hnodup.subperm hsub).length_le
  refine ⟨l, habove, ?_, hrange⟩
  cases hp : s.parent x with
  | some p => exact Nat.le_succ_of_le (hrange (by rw [hp]; exact Option.some_ne_none p))
  | none =>
    -- a root is the only node on its path
    cases l with
    | nil => exact Nat.zero_le _
    | cons y l =>
      obtain ⟨rfl, hrest⟩ := habove
      rw [hp] at hrest
      subst hrest
      exact Nat.succ_le_succ (Nat.zero_le _)

variable {n : Nat}

theorem Wf.lt_of_up {k x : Nat} (hup : up s.parent (k + 1) x = some n) : k + 1 < s.count := by
  obtain ⟨l, habove, -, hlen⟩ := h.exists_above x
  have hparent : s.parent x ≠ none := by
    intro hx
    rw [up, hx] at hup
    cases hup
  exact Nat.lt_of_lt_of_le (lt_length_of_up habove hup) (hlen hparent)

/-- No more than `count` nodes are above each other. -/
theorem Wf.deep (n : Nat) : levelAt kids (s.count + 1) n = [] := by
  refine eq_nil_iff_forall_not_mem.mpr fun x hx => ?_
  have := h.lt_of_up ((mem_levelAt h.mem).mp hx)
  omega

/-- The pre-order of the nodes below a node. -/
theorem Wf.pre_eq (n : Nat) : upTo kids (s.count + 1) n
    = n :: (kids n).flatMap (upTo kids (s.count + 1)) :=
  (upTo_succ (h.deep n)).symm

/-! ## The traversals -/

omit h in
theorem inTurn_eq {f : Nat → Walked} {v : Nat → List Nat} {a : Nat → Bool} {l : List Nat}
    (hf : ∀ c ∈ l, f c = ⟨v c, false, a c⟩) : inTurn f l = ⟨l.flatMap v, false, l.any a⟩ := by
  induction l with
  | nil => rfl
  | cons c cs ih =>
    obtain ⟨hc, hcs⟩ := forall_mem_cons.mp hf
    rw [inTurn, hc, ih hcs]
    rfl

/-- A callback that never stops. -/
def goOn : Nat → Bool := fun _ => false

omit h in
theorem visit_goOn (node flags : Nat) :
    (if flagsMatch s node flags then visit goOn node else .nothing)
      = ⟨[node].filter fun x => flagsMatch s x flags, false, false⟩ := by
  cases hm : flagsMatch s node flags <;> simp [visit, goOn, Walked.nothing, hm]

/-- The number of levels that a depth-first traversal visits from a given depth on. -/
def room (maxDepth depth : Int) (fuel : Nat) : Nat :=
  if maxDepth ≤ 0 then fuel else min fuel (maxDepth - depth + 1).toNat

variable {flags fuel : Nat}

theorem Wf.traverseDfs_pre {maxDepth : Int} {depth : Int} (hdepth : maxDepth ≤ 0 ∨ depth ≤ maxDepth)
    :
    traverseDfs s .preOrder flags maxDepth goOn fuel n depth =
      ⟨(upTo kids (room maxDepth depth fuel) n).filter (fun x => flagsMatch s x flags), false, false⟩ := by
  induction fuel generalizing n depth with
  | zero =>
    have hroom : room maxDepth depth 0 = 0 := by
      unfold room
      split
      · rfl
      · exact Nat.zero_min _
    rw [hroom]
    rfl
  | succ fuel ih =>
    simp only [traverseDfs, visit_goOn, h.childList_eq]
    by_cases hdesc : maxDepth ≤ 0 ∨ depth < maxDepth
    · have hroom : room maxDepth depth (fuel + 1) = room maxDepth (depth + 1) fuel + 1 := by
        unfold room
        split
        · rfl
        · omega
      have hbelow : ∀ c ∈ kids n, traverseDfs s .preOrder flags maxDepth goOn fuel c (depth + 1) =
          ⟨(upTo kids (room maxDepth (depth + 1) fuel) c).filter fun x => flagsMatch s x flags, false,
            false⟩ := fun c _ => ih (hdesc.imp id Int.add_one_le_of_lt)
      have hcons : upTo kids (room maxDepth (depth + 1) fuel + 1) n
          = [n] ++ (kids n).flatMap (upTo kids (room maxDepth (depth + 1) fuel)) := rfl
      rw [if_pos hdesc, inTurn_eq hbelow, hroom, hcons, filter_append, filter_flatMap]
      simp [Walked.andThen]
    · have hroom : room maxDepth depth (fuel + 1) = 1 := by
        unfold room
        rw [if_neg (fun hle => hdesc (.inl hle))]
        omega
      have hone : upTo kids 1 n = [n] := by simp [upTo]
      rw [if_neg hdesc, hroom, hone]
      simp [inTurn, Walked.andThen, Walked.nothing]

/-- What a scan finds `k` levels down. -/
theorem Wf.levelScan_eq {k : Nat} {depth : Int} :
    levelScan s flags goOn (k + 1) n depth (depth + k) =
      ⟨(levelAt kids k n).filter (fun x => flagsMatch s x flags), false,
        !(levelAt kids k n).isEmpty⟩ := by
  induction k generalizing n depth with
  | zero =>
    rw [levelScan, if_pos (by simp), visit_goOn]
    rfl
  | succ k ih =>
    have hne : ¬ depth = depth + (k + 1 : Nat) := by omega
    have hstep : depth + ((k + 1 : Nat) : Int) = depth + 1 + (k : Nat) := by omega
    have hbelow : ∀ c ∈ kids n, levelScan s flags goOn (k + 1) c (depth + 1) (depth + 1 + (k : Nat)) =
        ⟨(levelAt kids k c).filter (fun x => flagsMatch s x flags), false,
          !(levelAt kids k c).isEmpty⟩ := fun c _ => ih
    rw [levelScan, if_neg hne, h.childList_eq, hstep, inTurn_eq hbelow, levelAt,
      filter_flatMap]
    have hany : ((kids n).any fun c => !(levelAt kids k c).isEmpty)
        = !((kids n).flatMap (levelAt kids k)).isEmpty := by
      rw [Bool.eq_iff_iff]
      simp
    rw [hany]

/-- The loop over the levels from `i` on: it ends at the depth limit, or where the tree does. -/
theorem Wf.levelLoop_eq {i : Nat} {maxDepth : Int} (hfuel : s.count + 1 < i + fuel)
    (hi : maxDepth ≤ 0 ∨ i ≤ maxDepth.toNat) :
    ∃ m, levelLoop s n flags maxDepth goOn fuel ((i + 1 : Nat) : Int) =
        (List.range' i m).flatMap (fun j => (levelAt kids j n).filter fun x => flagsMatch s x flags) ∧
      ((0 < maxDepth ∧ i + m = maxDepth.toNat) ∨
        levelAt kids (i + m) n = [] ∧ (maxDepth ≤ 0 ∨ i + m ≤ maxDepth.toNat)) := by
  induction fuel generalizing i with
  | zero =>
    exact ⟨0, rfl, .inr ⟨(upTo_of_le (h.deep n) (by omega)).2, hi⟩⟩
  | succ fuel ih =>
    have htarget : ((i + 1 : Nat) : Int) = 1 + (i : Nat) := by omega
    by_cases hgo : maxDepth ≤ 0 ∨ ((i + 1 : Nat) : Int) ≤ maxDepth
    · rw [levelLoop, if_pos hgo, Int.toNat_natCast]
      simp only [htarget, h.levelScan_eq, Bool.false_eq_true, if_false, Bool.not_not]
      by_cases hempty : levelAt kids i n = []
      · -- nothing at this depth
        refine ⟨0, by simp [hempty], .inr ⟨hempty, hi⟩⟩
      · obtain ⟨m, hm, hend⟩ := ih (i := i + 1) (by omega) (by omega)
        have hnext : (1 + (i : Int) + 1) = ((i + 1 + 1 : Nat) : Int) := by omega
        have hsum : i + (m + 1) = i + 1 + m := by omega
        refine ⟨m + 1, ?_, hsum ▸ hend⟩
        rw [if_neg (by simpa using hempty), hnext, hm, range'_succ, flatMap_cons]
    · rw [levelLoop, if_neg hgo]
      exact ⟨0, rfl, .inl (by omega)⟩

/-- The levels that a traversal visits. -/
def depthLimit (s : Store α) (maxDepth : Int) : Nat :=
  if maxDepth ≤ 0 then s.count + 1 else min (s.count + 1) maxDepth.toNat

theorem Wf.preOrder_eq (n flags : Nat) (maxDepth : Int) :
    axlNtreeTraverse s (some n) .preOrder flags maxDepth goOn
      = (upTo kids (depthLimit s maxDepth) n).filter fun x => flagsMatch s x flags := by
  have hroom : room maxDepth 1 (s.count + 1) = depthLimit s maxDepth := by
    unfold room depthLimit
    split
    · rfl
    · omega
  show (traverseDfs s .preOrder flags maxDepth goOn (s.count + 1) n 1).visited = _
  rw [h.traverseDfs_pre (by omega), hroom]

theorem Wf.levelOrder_eq (n flags : Nat) (maxDepth : Int) :
    ∃ m, axlNtreeTraverse s (some n) .levelOrder flags maxDepth goOn
        = ((List.range m).flatMap fun j => levelAt kids j n).filter (fun x => flagsMatch s x flags) ∧
      upTo kids m n = upTo kids (depthLimit s maxDepth) n := by
  have hfuel : s.count + 1 < 0 + (s.count + 2) := by omega
  have hstart : maxDepth ≤ 0 ∨ 0 ≤ maxDepth.toNat := Or.inr (Nat.zero_le _)
  obtain ⟨m, hm, hend⟩ := h.levelLoop_eq hfuel hstart
  rw [Nat.zero_add] at hend
  refine ⟨m, ?_, ?_⟩
  · rw [filter_flatMap, range_eq_range']
    exact hm
  have hdeep := h.deep n
  -- behind the end of the tree, one more level makes no difference
  have hsame : ∀ {a b}, levelAt kids a n = [] → levelAt kids b n = [] →
      upTo kids a n = upTo kids b n := by
    intro a b ha hb
    rcases Nat.le_total a b with hab | hba
    · exact (upTo_of_le ha hab).1.symm
    · exact (upTo_of_le hb hba).1
  unfold depthLimit
  rcases hend with ⟨hpos, hlimit⟩ | ⟨hempty, hle⟩
  · rw [if_neg (by omega), ← hlimit]
    rcases Nat.le_total m (s.count + 1) with hm | hm
    · rw [Nat.min_eq_right hm]
    · rw [Nat.min_eq_left hm]
      exact (upTo_of_le hdeep hm).1
  · split
    next => exact hsame hempty hdeep
    next hlim =>
      rcases Nat.le_total (s.count + 1) maxDepth.toNat with hc | hc
      · rw [Nat.min_eq_left hc]
        exact hsame hempty hdeep
      · rw [Nat.min_eq_right hc]
        exact (upTo_of_le hempty (hle.resolve_left hlim)).1.symm

theorem Wf.depthBelow_eq {x k : Nat} (hup : up s.parent k x = some n) (hfuel : k < fuel) :
    depthBelow s n fuel x = k + 1 := by
  induction k generalizing x fuel with
  | zero =>
    cases hup
    cases fuel with
    | zero => cases hfuel
    | succ fuel => rw [depthBelow, if_pos rfl]
  | succ k ih =>
    obtain ⟨p, hp, hpn⟩ := Option.bind_eq_some_iff.mp hup
    cases fuel with
    | zero => cases hfuel
    | succ fuel =>
      have hne : x ≠ n := by
        rintro rfl
        exact h.ranked.acyclic x (.head' hp (reach_of_up hpn))
      rw [depthBelow, if_neg hne, hp]
      exact congrArg (· + 1) (ih hpn (Nat.lt_of_succ_lt_succ hfuel))

/-- Level by level the depth does not fall. -/
theorem Wf.levels_sorted (n m : Nat) :
    ((List.range m).flatMap fun j => levelAt kids j n).Pairwise fun x y =>
      depthBelow s n (s.count + 1) x ≤ depthBelow s n (s.count + 1) y := by
  have hdepth : ∀ {j x}, x ∈ levelAt kids j n → depthBelow s n (s.count + 1) x = j + 1 := by
    intro j x hx
    have hup := (mem_levelAt h.mem).mp hx
    refine h.depthBelow_eq hup ?_
    cases j with
    | zero => exact Nat.succ_pos _
    | succ j => exact Nat.lt_succ_of_lt (h.lt_of_up hup)
  refine pairwise_flatMap.mpr ⟨fun j _ => ?_, ?_⟩
  · refine pairwise_of_forall_mem_list fun x hx y hy => ?_
    rw [hdepth hx, hdepth hy]
  · refine pairwise_lt_range.imp fun hij x hx y hy => ?_
    rw [hdepth hx, hdepth hy]
    omega

/-! ## The iterators -/

variable {root : Nat}

/-- The climb stops at the node that comes next. -/
theorem Wf.climb_eq {rest l : List Nat} (hafter : After kids (upTo kids (s.count + 1)) root n rest)
    (habove : Above s.parent n l) (hfuel : l.length ≤ fuel) : climb s root fuel n = rest.head? := by
  induction hafter generalizing l fuel with
  | root =>
    cases l with
    | nil => exact habove.elim
    | cons y l =>
      cases fuel with
      | zero => cases hfuel
      | succ fuel => rw [climb, if_pos rfl, head?_nil]
  | @child p n pre r rest hp hk ih =>
    have hparent : s.parent n = some p :=
      (h.mem n p).mp (hk ▸ mem_append_right _ mem_cons_self)
    have hne : n ≠ root := by
      rintro rfl
      exact h.ranked.acyclic n (.head' hparent (hp.reach h.mem))
    have hnext : s.next n = r.head? := by
      have hseg := h.seg p
      rw [hk] at hseg
      rw [hseg.mid.2, Option.or_none]
    cases l with
    | nil => exact habove.elim
    | cons y l =>
      obtain ⟨rfl, hrest⟩ := habove
      rw [hparent] at hrest
      cases fuel with
      | zero => cases hfuel
      | succ fuel =>
        rw [climb, if_neg hne, hnext]
        cases r with
        | nil =>
          rw [head?_nil, hparent]
          exact ih hrest (Nat.le_of_succ_le_succ hfuel)
        | cons m r => rw [flatMap_cons, h.pre_eq m]; rfl

theorem Wf.succ_eq {rest : List Nat} (hafter : After kids (upTo kids (s.count + 1)) root n rest) :
    preorderSucc s n root = ((kids n).flatMap (upTo kids (s.count + 1)) ++ rest).head? := by
  unfold preorderSucc
  rw [h.first]
  cases hk : kids n with
  | nil =>
    obtain ⟨l, habove, hlen, -⟩ := h.exists_above n
    exact h.climb_eq hafter habove hlen
  | cons c cs => rw [flatMap_cons, h.pre_eq c]; rfl

/-- The last of the nodes below a node. -/
theorem Wf.lastDeepest_spec {q : Nat} {front : List Nat} (hdeep : levelAt kids fuel q = [])
    (hbefore : Before kids (upTo kids (s.count + 1)) root q front) :
    ∃ front', front ++ upTo kids (s.count + 1) q = front' ++ [lastDeepest s fuel q] ∧
      Before kids (upTo kids (s.count + 1)) root (lastDeepest s fuel q) front' := by
  induction fuel generalizing q front with
  | zero => cases hdeep
  | succ fuel ih =>
    rw [lastDeepest, h.first, h.pre_eq q]
    rcases eq_nil_or_concat' (kids q) with hk | ⟨l, c, hk⟩
    · rw [hk]
      exact ⟨front, rfl, hbefore⟩
    · obtain ⟨first, hfirst⟩ : ∃ first, (kids q).head? = some first := by
        rw [hk]
        cases l <;> exact ⟨_, rfl⟩
      have hseg := h.seg q
      have hlen := h.length_le q
      rw [hk] at hseg hfirst hlen
      rw [length_append] at hlen
      have hlast : lastLoop s s.count first = c :=
        lastLoop_last hseg hfirst (Nat.le_of_add_right_le hlen)
      have hc : levelAt kids fuel c = [] :=
        flatMap_eq_nil_iff.mp hdeep c (hk ▸ mem_append_right _ mem_cons_self)
      obtain ⟨front', hfront, hb⟩ := ih hc (.child hbefore hk)
      rw [hk, hfirst]
      show ∃ front', _ = front' ++ [lastDeepest s fuel (lastLoop s s.count first)] ∧
        Before _ _ _ (lastDeepest s fuel (lastLoop s s.count first)) _
      rw [hlast]
      refine ⟨front', ?_, hb⟩
      rw [← hfront, flatMap_append, flatMap_cons, flatMap_nil, append_nil,
        append_assoc front, cons_append]

theorem Wf.pred_spec {front : List Nat}
    (hbefore : Before kids (upTo kids (s.count + 1)) root n front) :
    (front = [] ∧ preorderPred s n root = none) ∨
    ∃ m front', front = front' ++ [m] ∧ preorderPred s n root = some m ∧
      Before kids (upTo kids (s.count + 1)) root m front' := by
  cases hbefore with
  | root => exact .inl ⟨rfl, if_pos rfl⟩
  | @child p _ l r front hp hk =>
    have hparent : s.parent n = some p :=
      (h.mem n p).mp (hk ▸ mem_append_right _ mem_cons_self)
    have hne : n ≠ root := by
      rintro rfl
      exact h.ranked.acyclic n (.head' hparent (hp.reach h.mem))
    have hprev : s.prev n = l.getLast? := by
      have hseg := h.seg p
      rw [hk] at hseg
      rw [hseg.mid.1, Option.or_none]
    unfold preorderPred
    rw [if_neg hne, hprev]
    right
    rcases eq_nil_or_concat' l with rfl | ⟨l, q, rfl⟩
    · exact ⟨p, front, rfl, hparent, hp⟩
    · -- the deepest node of the sibling in front
      have hk' : kids p = l ++ q :: n :: r := by rw [hk, append_assoc]; rfl
      obtain ⟨front', hfront, hb⟩ := h.lastDeepest_spec (h.deep q) (.child hp hk')
      rw [getLast?_concat]
      refine ⟨_, front', ?_, rfl, hb⟩
      rw [← hfront, flatMap_append, flatMap_cons, flatMap_nil, append_nil,
        append_assoc front, cons_append]

omit h in
/-- Where an iterator stands, and the nodes that it has in front of it. -/
inductive Ready (s : Store α) (kids : Nat → List Nat) (root flags : Nat) :
    Iter → List Nat → Prop where
  | start : Ready s kids root flags ⟨some root, none, flags, false, false⟩
      (upTo kids (s.count + 1) root)
  | startReverse : Ready s kids root flags ⟨some root, none, flags, false, true⟩
      (upTo kids (s.count + 1) root).reverse
  | here {n : Nat} {rest : List Nat} (hafter : After kids (upTo kids (s.count + 1)) root n rest) :
      Ready s kids root flags ⟨some root, some n, flags, true, false⟩
        ((kids n).flatMap (upTo kids (s.count + 1)) ++ rest)
  | hereReverse {n : Nat} {front : List Nat}
      (hbefore : Before kids (upTo kids (s.count + 1)) root n front) :
      Ready s kids root flags ⟨some root, some n, flags, true, true⟩ front.reverse
  | done (reverse : Bool) : Ready s kids root flags ⟨some root, none, flags, true, reverse⟩ []

variable {it : Iter} {ahead : List Nat}

omit h in
theorem Ready.flags_eq (hready : Ready s kids root flags it ahead) : it.flags = flags := by
  cases hready <;> rfl

omit h in
theorem Ready.root_eq (hready : Ready s kids root flags it ahead) : it.root = some root := by
  cases hready <;> rfl

theorem Ready.inside {x : Nat} (hready : Ready s kids root flags it ahead)
    (hx : it.current = some x) :
    InSubtree s root x := by
  cases hready with
  | start => cases hx
  | startReverse => cases hx
  | here hafter =>
    cases hx
    exact hafter.reach h.mem
  | hereReverse hbefore =>
    cases hx
    exact hbefore.reach h.mem
  | done => cases hx

/-- One move: to the first of the nodes in front. -/
theorem Ready.advance (hready : Ready s kids root flags it ahead) :
    (NTree.advance s root it).current = ahead.head? ∧
      Ready s kids root flags (NTree.advance s root it) ahead.tail := by
  cases hready with
  | start =>
    rw [h.pre_eq root]
    refine ⟨rfl, ?_⟩
    have hafter : After kids (upTo kids (s.count + 1)) root root [] := .root
    have hhere : Ready s kids root flags ⟨some root, some root, flags, true, false⟩ _ :=
      .here hafter
    rwa [append_nil] at hhere
  | startReverse =>
    obtain ⟨front, hfront, hb⟩ := h.lastDeepest_spec (h.deep root) .root
    rw [nil_append] at hfront
    rw [hfront, reverse_append]
    exact ⟨rfl, .hereReverse hb⟩
  | @here n rest hafter =>
    have hsucc := h.succ_eq hafter
    have hmove : NTree.advance s root ⟨some root, some n, flags, true, false⟩
        = ⟨some root, preorderSucc s n root, flags, true, false⟩ := rfl
    rw [hmove, hsucc]
    refine ⟨rfl, ?_⟩
    rcases hafter.ahead_kids with hnil | ⟨m, rest', hm, heq⟩
    · rw [hnil]
      exact .done false
    · rw [heq, h.pre_eq m]
      exact .here hm
  | @hereReverse n front hbefore =>
    have hmove : NTree.advance s root ⟨some root, some n, flags, true, true⟩
        = ⟨some root, preorderPred s n root, flags, true, true⟩ := rfl
    rw [hmove]
    rcases h.pred_spec hbefore with ⟨rfl, hpred⟩ | ⟨m, front', rfl, hpred, hm⟩
    · rw [hpred]
      exact ⟨rfl, .done true⟩
    · rw [hpred, reverse_append]
      exact ⟨rfl, .hereReverse hm⟩
  | done reverse => exact ⟨rfl, .done reverse⟩

/-- A call returns the first of the nodes in front that matches. -/
theorem Ready.nextLoop (hready : Ready s kids root flags it ahead) (hfuel : ahead.length < fuel) :
    (NTree.nextLoop s root fuel it).1 = (ahead.filter fun x => flagsMatch s x flags).head? ∧
      ∃ ahead', Ready s kids root flags (NTree.nextLoop s root fuel it).2 ahead' ∧
        (ahead'.filter fun x => flagsMatch s x flags)
          = (ahead.filter fun x => flagsMatch s x flags).tail ∧ ahead'.length ≤ ahead.length := by
  induction fuel generalizing it ahead with
  | zero => cases hfuel
  | succ fuel ih =>
    obtain ⟨hcurrent, hnext⟩ := hready.advance h
    rw [NTree.nextLoop, hcurrent, hnext.flags_eq]
    cases ahead with
    | nil => exact ⟨rfl, [], hnext, rfl, Nat.le_refl _⟩
    | cons x ahead =>
      rw [head?_cons]
      by_cases hm : flagsMatch s x flags = true
      · simp only [hm, if_true]
        rw [filter_cons_of_pos (p := fun x => flagsMatch s x flags) hm]
        exact ⟨rfl, ahead, hnext, rfl, Nat.le_succ _⟩
      · simp only [hm]
        rw [filter_cons_of_neg (p := fun x => flagsMatch s x flags) hm]
        obtain ⟨hfirst, ahead', hr, htail, hlen⟩ := ih hnext (Nat.lt_of_succ_lt_succ hfuel)
        exact ⟨hfirst, ahead', hr, htail, Nat.le_succ_of_le hlen⟩

/-- The calls of a run return the matching nodes in front, and then NULL. -/
theorem Ready.iterCalls (hready : Ready s kids root flags it ahead)
    (hlen : ahead.length ≤ s.count + 1) (k : Nat) :
    (NTree.iterCalls s k it).1 = (((ahead.filter fun x => flagsMatch s x flags).map some) ++
        List.replicate k none).take k ∧
      ∃ ahead', Ready s kids root flags (NTree.iterCalls s k it).2 ahead' := by
  induction k generalizing it ahead with
  | zero => exact ⟨by simp [NTree.iterCalls], ahead, hready⟩
  | succ k ih =>
    have hcall : iterNext s it = NTree.nextLoop s root (s.count + 2) it := by
      rw [iterNext, hready.root_eq]
    obtain ⟨hfirst, ahead', hr, htail, hshort⟩ := hready.nextLoop h (Nat.lt_succ_of_le hlen)
    obtain ⟨hrest, hend⟩ := ih hr (Nat.le_trans hshort hlen)
    rw [NTree.iterCalls, hcall]
    refine ⟨?_, hend⟩
    show (NTree.nextLoop s root (s.count + 2) it).1 :: (NTree.iterCalls s k _).1 = _
    rw [hrest, hfirst, htail]
    cases ahead.filter fun x => flagsMatch s x flags with
    | nil => simp [replicate_succ]
    | cons x xs => simp [take_append, take_replicate]; omega

/-- No pre-order has more nodes than there are, but for a start node that does not exist. -/
theorem Wf.pre_length (n : Nat) : (upTo kids (s.count + 1) n).length ≤ s.count + 1 := by
  have hsub : upTo kids (s.count + 1) n ⊆ n :: List.range s.count := by
    intro x hx
    obtain ⟨i, -, hi⟩ := (mem_upTo_iff h.mem).mp hx
    cases i with
    | zero =>
      cases hi
      exact mem_cons_self
    | succ i =>
      obtain ⟨p, hp, -⟩ := Option.bind_eq_some_iff.mp hi
      exact mem_cons_of_mem _ (mem_range.mpr (h.bound x p hp).1)
  simpa using ((upTo_nodup h.mem h.nodup h.ranked _ n).subperm hsub).length_le

end Below

/-- The iterators and the level-order agree with the pre-order, below a start node. -/
structure IteratorsAgree (s : Store α) (root flags : Nat) : Prop where
  /-- The calls return the nodes of the pre-order, and then NULL. -/
  forward : ∀ k maxDepth, maxDepth ≤ 0 → (iterCalls s k (iterInit (some root) flags)).1 =
    ((axlNtreeTraverse s (some root) .preOrder flags maxDepth goOn).map some ++
      List.replicate k none).take k
  /-- The reverse iterator returns them from the last to the first. -/
  backward : ∀ k maxDepth, maxDepth ≤ 0 → (iterCalls s k (iterInitReverse (some root) flags)).1 =
    ((axlNtreeTraverse s (some root) .preOrder flags maxDepth goOn).reverse.map some ++
      List.replicate k none).take k
  inside : ∀ k x, (iterCalls s k (iterInit (some root) flags)).2.current = some x →
    InSubtree s root x
  insideReverse : ∀ k x, (iterCalls s k (iterInitReverse (some root) flags)).2.current = some x →
    InSubtree s root x
  /-- The level-order visits the same nodes, -/
  levels : ∀ maxDepth, (axlNtreeTraverse s (some root) .levelOrder flags maxDepth goOn).Perm
    (axlNtreeTraverse s (some root) .preOrder flags maxDepth goOn)
  /-- each once, -/
  once : ∀ maxDepth, (axlNtreeTraverse s (some root) .levelOrder flags maxDepth goOn).Nodup
  /-- by their depth. -/
  sorted : ∀ maxDepth, (axlNtreeTraverse s (some root) .levelOrder flags maxDepth goOn).Pairwise
    fun x y => depthBelow s root (s.count + 1) x ≤ depthBelow s root (s.count + 1) y

/-- **The iterators agree with the traversals**, in every forest, from every node. -/
theorem iterators_agree {s : Store α} {kids : Nat → List Nat} (h : Wf s kids) (root flags : Nat) :
    IteratorsAgree s root flags := by
  have hlen := h.pre_length root
  have hpre : ∀ {maxDepth : Int}, maxDepth ≤ 0 →
      axlNtreeTraverse s (some root) .preOrder flags maxDepth goOn
        = (upTo kids (s.count + 1) root).filter fun x => flagsMatch s x flags := by
    intro maxDepth hmax
    rw [h.preOrder_eq, depthLimit, if_pos hmax]
  have hforward : Ready s kids root flags (iterInit (some root) flags) _ := .start
  have hbackward : Ready s kids root flags (iterInitReverse (some root) flags) _ := .startReverse
  have hnodup := fun k => upTo_nodup h.mem h.nodup h.ranked k root
  have hperm : ∀ maxDepth, (axlNtreeTraverse s (some root) .levelOrder flags maxDepth goOn).Perm
      (axlNtreeTraverse s (some root) .preOrder flags maxDepth goOn) := by
    intro maxDepth
    obtain ⟨m, hlevel, hm⟩ := h.levelOrder_eq root flags maxDepth
    rw [hlevel, h.preOrder_eq, ← hm]
    exact (levels_perm m root).filter _
  constructor
  case forward =>
    intro k maxDepth hmax
    rw [hpre hmax]
    exact (hforward.iterCalls h hlen k).1
  case backward =>
    intro k maxDepth hmax
    rw [hpre hmax, ← filter_reverse]
    exact (hbackward.iterCalls h (by rwa [length_reverse]) k).1
  case inside =>
    intro k x hx
    obtain ⟨ahead, hr⟩ := (hforward.iterCalls h hlen k).2
    exact hr.inside h hx
  case insideReverse =>
    intro k x hx
    obtain ⟨ahead, hr⟩ := (hbackward.iterCalls h (by rwa [length_reverse]) k).2
    exact hr.inside h hx
  case levels => exact hperm
  case once =>
    intro maxDepth
    rw [(hperm maxDepth).nodup_iff, h.preOrder_eq]
    exact (hnodup _).filter _
  case sorted =>
    intro maxDepth
    obtain ⟨m, hlevel, -⟩ := h.levelOrder_eq root flags maxDepth
    rw [hlevel]
    exact (h.levels_sorted root m).filter _

/-- Two nodes, one below the other. -/
theorem iterators_agree_two_nodes : ∃ kids, Wf (run (Store.empty : Store Nat)
      [.new (some 7), .new none, .link .append (some 0) none (some 1)]) kids ∧
    IteratorsAgree (run (Store.empty : Store Nat)
      [.new (some 7), .new none, .link .append (some 0) none (some 1)]) 0 3 := by
  have hops : Always (fun s op => Existing s op ∧ ¬ BelowItself s op) (Store.empty : Store Nat)
      [.new (some 7), .new none, .link .append (some 0) none (some 1)] := by
    refine ⟨⟨trivial, not_false⟩, ⟨trivial, not_false⟩, ⟨?_, ?_⟩, trivial⟩
    · refine ⟨?_, ?_, ?_⟩ <;> rintro i ⟨⟩ <;> decide
    · rintro ⟨-, -, p, c, ⟨⟩, ⟨⟩, -, -, h | h⟩
      · cases h
      · revert h
        decide
  obtain ⟨kids, hwf⟩ := wf_empty.run hops
  exact ⟨kids, hwf, iterators_agree hwf 0 3⟩

end NTree

end AxlSdk
