import Mathlib

/-!
# The radix tree (`src/data/axl-radix-tree.c`)

Keys are strings without NUL; a node has the part of the keys on the edge to it.
The nodes are a tree here, and what the code writes through a pointer to a node is
written into the tree at the place of that node. Allocations succeed.

- `insert`, `lookup`, `lookupPrefix`, `remove`, `foreach`: the calls.
- `Has n s v`: below `n`, the string `s` leads to a node with the value `v`.
- `run_live_keys`: in every run the tree is the map of the insertions that were not
  removed, also where `axl_radix_tree_remove` has more nodes on its way than it
  records.
-/

namespace AxlSdk

namespace RadixTree

open List

/-! ## Nodes -/

/-- `RadixNode`, with the children up to `child_count`. -/
structure Node where
  edge : List UInt8
  value : Option Nat
  hasValue : Bool
  children : List Node

/-- `AxlRadixTree`; `value_free` is set or NULL. -/
structure Tree where
  root : Node
  size : Nat
  valueFree : Bool

/-- `RADIX_MAX_DEPTH` -/
def maxDepth : Nat := 128

/-- `radix_node_new` -/
def nodeNew (edge : List UInt8) : Node := ⟨edge, none, false, []⟩

/-- `axl_radix_tree_new_full` -/
def treeNew (valueFree : Bool) : Tree := ⟨nodeNew [], 0, valueFree⟩

/-- `radix_node_find_child`: the first child with that byte, and the children before
and after it in the array. A string is followed by NUL. -/
def findChild (c : UInt8) : List Node → Option (List Node × Node × List Node)
  | [] => none
  | x :: xs =>
    if x.edge.headD 0 = c then some ([], x, xs)
    else (findChild c xs).map fun p => (x :: p.1, p.2)

/-- `radix_node_remove_child`: the last child takes the place. -/
def removeChild (before after : List Node) : List Node :=
  match after.getLast? with
  | none => before
  | some last => before ++ last :: after.dropLast

/-- `axl_strncmp(a, b, n) != 0` -/
def strncmp : List UInt8 → List UInt8 → Nat → Bool
  | _, _, 0 => false
  | a, b, n + 1 =>
    if a.headD 0 ≠ b.headD 0 then true
    else if a.headD 0 = 0 then false
    else strncmp a.tail b.tail n

/-- The step of the loops of `axl_radix_tree_lookup`, `axl_radix_tree_lookup_prefix` and
`axl_radix_tree_remove`: the child whose edge starts the key. -/
def descend (node : Node) (key : List UInt8) : Option (List Node × Node × List Node) :=
  match findChild (key.headD 0) node.children with
  | none => none
  | some (before, child, after) =>
    if key.length < child.edge.length then none
    else if strncmp child.edge key child.edge.length then none
    else some (before, child, after)

/-! ## Insertion -/

/-- What an insertion leaves: the node, whether the size grows, the values freed. -/
structure Inserted where
  node : Node
  added : Bool
  freed : List Nat

/-- The loop over `match_len`. -/
def matchLen : List UInt8 → List UInt8 → Nat
  | a :: as, b :: bs => if a = b then matchLen as bs + 1 else 0
  | _, _ => 0

/-- The end of `axl_radix_tree_insert`: the key ends at this node. -/
def setValue (valueFree : Bool) (node : Node) (value : Option Nat) : Inserted :=
  { node := { node with value := value, hasValue := true }
    added := !node.hasValue
    freed := if node.hasValue && valueFree then node.value.toList else [] }

/-- A leaf with a value. -/
def leafNew (edge : List UInt8) (value : Option Nat) : Node :=
  { nodeNew edge with value := value, hasValue := true }

/-- The split of the edge of a child after `len` bytes; `rest` is what the key has behind
them. -/
def splitEdge (child : Node) (len : Nat) (rest : List UInt8) (value : Option Nat) : Node :=
  let lower := { child with edge := child.edge.drop len }
  let split := { nodeNew (child.edge.take len) with children := [lower] }
  if rest = [] then { split with value := value, hasValue := true }
  else { split with children := split.children ++ [leafNew rest value] }

/-- The loop of `axl_radix_tree_insert`; every round takes a byte of the key at least. -/
def insertLoop (valueFree : Bool) (value : Option Nat) : Nat → Node → List UInt8 → Inserted
  | 0, node, _ => setValue valueFree node value
  | fuel + 1, node, key =>
    if key = [] then setValue valueFree node value
    else
      match findChild (key.headD 0) node.children with
      | none =>
        ⟨{ node with children := node.children ++ [leafNew key value] }, true, []⟩
      | some (before, child, after) =>
        let len := matchLen child.edge key
        if len = child.edge.length then
          let r := insertLoop valueFree value fuel child (key.drop len)
          { r with node := { node with children := before ++ r.node :: after } }
        else
          let split := splitEdge child len (key.drop len) value
          ⟨{ node with children := before ++ split :: after }, true, []⟩

/-- `axl_radix_tree_insert`: the tree and the values freed. -/
def insert (tree : Tree) (key : List UInt8) (value : Option Nat) : Tree × List Nat :=
  let r := insertLoop tree.valueFree value key.length tree.root key
  ({ tree with root := r.node, size := tree.size + if r.added then 1 else 0 }, r.freed)

/-! ## Lookup -/

/-- The loop of `axl_radix_tree_lookup`. -/
def lookupLoop : Nat → Node → List UInt8 → Option Nat
  | 0, node, _ => if node.hasValue then node.value else none
  | fuel + 1, node, key =>
    if key = [] then if node.hasValue then node.value else none
    else
      match descend node key with
      | none => none
      | some (_, child, _) => lookupLoop fuel child (key.drop child.edge.length)

/-- `axl_radix_tree_lookup` -/
def lookup (tree : Tree) (key : List UInt8) : Option Nat := lookupLoop key.length tree.root key

/-- `last_value`, `last_pos` and `matched` of `axl_radix_tree_lookup_prefix`. -/
structure LastMatch where
  value : Option Nat
  pos : Nat
  matched : Bool
  deriving DecidableEq, Repr

/-- The match is at this node, if it ends a key. -/
def LastMatch.visit (last : LastMatch) (node : Node) (pos : Nat) : LastMatch :=
  if node.hasValue then ⟨node.value, pos, true⟩ else last

/-- The loop of `axl_radix_tree_lookup_prefix`. -/
def lookupPrefixLoop : Nat → Node → List UInt8 → Nat → LastMatch → LastMatch
  | 0, _, _, _, last => last
  | fuel + 1, node, key, pos, last =>
    if key = [] then last
    else
      match descend node key with
      | none => last
      | some (_, child, _) =>
        let len := child.edge.length
        lookupPrefixLoop fuel child (key.drop len) (pos + len) (last.visit child (pos + len))

/-- `axl_radix_tree_lookup_prefix`: the value, and the suffix if it is written. -/
def lookupPrefix (tree : Tree) (key : List UInt8) : Option Nat × Option (List UInt8) :=
  let last := lookupPrefixLoop key.length tree.root key 0
    (LastMatch.visit ⟨none, 0, false⟩ tree.root 0)
  (last.value, if last.matched then some (key.drop last.pos) else none)

/-! ## Removal -/

/-- The node `cur` and its only child as one. -/
def merge (cur only : Node) : Node := { only with edge := cur.edge ++ only.edge }

/-- One round of the loop that collapses: the children of the parent of `cur`, and
whether the loop goes on. -/
def collapse (before : List Node) (cur : Node) (after : List Node) : List Node × Bool :=
  if cur.hasValue then (before ++ cur :: after, false)
  else
    match cur.children with
    | [] => (removeChild before after, true)
    | [only] => (before ++ merge cur only :: after, true)
    | _ => (before ++ cur :: after, false)

/-- What a removal leaves: the node, whether the loop that collapses has got to it and
goes on, the values freed. -/
structure Removed where
  node : Node
  goesOn : Bool
  freed : List Nat

/-- `axl_radix_tree_remove` from a node at the given depth: the way down, and the loop
that collapses on the way back. The nodes from `maxDepth` on are not in `path`: the
loop starts above them. -/
def removeLoop (valueFree : Bool) : Nat → Nat → Node → List UInt8 → Option Removed
  | fuel, depth, node, key =>
    if key = [] then
      if node.hasValue then
        some ⟨{ node with value := none, hasValue := false }, true,
          if valueFree then node.value.toList else []⟩
      else none
    else
      match fuel with
      | 0 => none
      | fuel + 1 =>
        match descend node key with
        | none => none
        | some (before, child, after) =>
          (removeLoop valueFree fuel (depth + 1) child (key.drop child.edge.length)).map fun r =>
            if r.goesOn && depth + 1 < maxDepth then
              let c := collapse before r.node after
              { r with node := { node with children := c.1 }, goesOn := c.2 }
            else { r with node := { node with children := before ++ r.node :: after } }

/-- `axl_radix_tree_remove`: whether there was such a key, the tree, the values freed. -/
def remove (tree : Tree) (key : List UInt8) : Bool × Tree × List Nat :=
  match removeLoop tree.valueFree key.length 0 tree.root key with
  | none => (false, tree, [])
  | some r => (true, { tree with root := r.node, size := tree.size - 1 }, r.freed)

/-! ## Walking -/

/-- `ForeachCtx`: the buffer of `key_cap` bytes, the length of the key in it, and what
the callback was given. -/
structure ForeachCtx where
  keyBuf : List UInt8
  keyLen : Nat
  shown : List (List UInt8 × Option Nat)

/-- `foreach_grow`; the new memory has the bytes `fresh`. -/
def foreachGrow (fresh : Nat → UInt8) (ctx : ForeachCtx) (needed : Nat) : ForeachCtx :=
  if needed ≤ ctx.keyBuf.length then ctx
  else
    let newCap := max (ctx.keyBuf.length * 2) needed
    { ctx with keyBuf := ctx.keyBuf.take ctx.keyLen ++
        (List.range (newCap - ctx.keyLen)).map fun i => fresh (ctx.keyLen + i) }

/-- `axl_memcpy(buf + pos, bytes, ..)` -/
def writeAt (buf : List UInt8) (pos : Nat) (bytes : List UInt8) : List UInt8 :=
  buf.take pos ++ bytes ++ buf.drop (pos + bytes.length)

/-- The edge of a node comes to the key in the buffer, and a NUL behind it. -/
def pushEdge (fresh : Nat → UInt8) (ctx : ForeachCtx) (edge : List UInt8) : ForeachCtx :=
  let ctx :=
    if edge = [] then ctx
    else
      let ctx := foreachGrow fresh ctx (ctx.keyLen + edge.length + 1)
      { ctx with keyBuf := writeAt ctx.keyBuf ctx.keyLen edge, keyLen := ctx.keyLen + edge.length }
  { ctx with keyBuf := writeAt ctx.keyBuf ctx.keyLen [0] }

/-- The call of the callback, which gets the string in the buffer. -/
def call (ctx : ForeachCtx) (node : Node) : ForeachCtx :=
  if node.hasValue then
    { ctx with shown := ctx.shown ++ [(ctx.keyBuf.takeWhile (· ≠ 0), node.value)] }
  else ctx

mutual

/-- `foreach_walk` -/
def foreachWalk (fresh : Nat → UInt8) (ctx : ForeachCtx) : Node → ForeachCtx
  | ⟨edge, value, hasValue, children⟩ =>
    let saved := ctx.keyLen
    let ctx := call (pushEdge fresh ctx edge) ⟨edge, value, hasValue, children⟩
    { foreachChildren fresh ctx children with keyLen := saved }

/-- The loop of `foreach_walk` over the children. -/
def foreachChildren (fresh : Nat → UInt8) (ctx : ForeachCtx) : List Node → ForeachCtx
  | [] => ctx
  | c :: cs => foreachChildren fresh (foreachWalk fresh ctx c) cs

end

/-- `axl_radix_tree_foreach`: the calls of the callback. -/
def foreach (fresh : Nat → UInt8) (tree : Tree) : List (List UInt8 × Option Nat) :=
  (foreachWalk fresh ⟨(List.range 256).map fresh, 0, []⟩ tree.root).shown

/-! ## Strings below a node -/

/-- Below `n`, the string `s` leads to a node with the value `v`. -/
inductive Has : Node → List UInt8 → Option Nat → Prop where
  | here {n : Node} (h : n.hasValue = true) : Has n [] n.value
  | child {n c : Node} {s : List UInt8} {v : Option Nat} (hc : c ∈ n.children) (h : Has c s v) :
      Has n (c.edge ++ s) v

/-- One of the nodes `cs` is the start of a way with the string `s`. -/
def HasKids (cs : List Node) (s : List UInt8) (v : Option Nat) : Prop :=
  ∃ c ∈ cs, ∃ s', s = c.edge ++ s' ∧ Has c s' v

/-- Edges are strings, not empty, and the edges to the children of a node start with
different bytes. -/
inductive Wf : Node → Prop where
  | mk {n : Node} (edges : ∀ c ∈ n.children, c.edge ≠ [] ∧ 0 ∉ c.edge)
      (firsts : n.children.Pairwise fun a b => a.edge.headD 0 ≠ b.edge.headD 0)
      (children : ∀ c ∈ n.children, Wf c) : Wf n

/-- The children of a well-formed node. -/
structure WfKids (cs : List Node) : Prop where
  edges : ∀ c ∈ cs, c.edge ≠ [] ∧ 0 ∉ c.edge
  firsts : cs.Pairwise fun a b => a.edge.headD 0 ≠ b.edge.headD 0
  children : ∀ c ∈ cs, Wf c

theorem wf_iff {n : Node} : Wf n ↔ WfKids n.children := by
  constructor
  · rintro ⟨h₁, h₂, h₃⟩
    exact ⟨h₁, h₂, h₃⟩
  · rintro ⟨h₁, h₂, h₃⟩
    exact ⟨h₁, h₂, h₃⟩

theorem has_iff {n : Node} {s : List UInt8} {v : Option Nat} :
    Has n s v ↔ (s = [] ∧ n.hasValue = true ∧ v = n.value) ∨ HasKids n.children s v := by
  constructor
  · rintro (h | ⟨hc, h⟩)
    · exact .inl ⟨rfl, h, rfl⟩
    · exact .inr ⟨_, hc, _, rfl, h⟩
  · rintro (⟨rfl, h, rfl⟩ | ⟨c, hc, s', rfl, h⟩)
    · exact .here h
    · exact .child hc h

variable {cs l r : List Node} {x n : Node} {s key : List UInt8} {v w : Option Nat}

theorem hasKids_nil : ¬ HasKids [] s v := by
  rintro ⟨c, hc, -⟩
  cases hc

theorem hasKids_append : HasKids (l ++ r) s v ↔ HasKids l s v ∨ HasKids r s v := by
  simp only [HasKids, mem_append]
  constructor
  · rintro ⟨c, hc | hc, h⟩
    · exact .inl ⟨c, hc, h⟩
    · exact .inr ⟨c, hc, h⟩
  · rintro (⟨c, hc, h⟩ | ⟨c, hc, h⟩)
    · exact ⟨c, .inl hc, h⟩
    · exact ⟨c, .inr hc, h⟩

theorem hasKids_cons :
    HasKids (x :: cs) s v ↔ (∃ s', s = x.edge ++ s' ∧ Has x s' v) ∨ HasKids cs s v := by
  simp only [HasKids, mem_cons]
  constructor
  · rintro ⟨c, rfl | hc, h⟩
    · exact .inl h
    · exact .inr ⟨c, hc, h⟩
  · rintro (h | ⟨c, hc, h⟩)
    · exact ⟨x, .inl rfl, h⟩
    · exact ⟨c, .inr hc, h⟩

/-- The ways through one child, and those through the others. -/
theorem hasKids_middle :
    HasKids (l ++ x :: r) s v ↔ (∃ s', s = x.edge ++ s' ∧ Has x s' v) ∨ HasKids (l ++ r) s v := by
  rw [hasKids_append, hasKids_cons, hasKids_append]
  exact or_left_comm

variable {a b : List UInt8}

theorem headD_append (ha : a ≠ []) : (a ++ b).headD 0 = a.headD 0 := by
  cases a with
  | nil => exact absurd rfl ha
  | cons c a => rfl

/-- The first byte of a way is that of an edge. -/
theorem WfKids.headD (h : WfKids cs) (hs : HasKids cs s v) :
    s ≠ [] ∧ ∃ c ∈ cs, s.headD 0 = c.edge.headD 0 := by
  obtain ⟨c, hc, s', rfl, -⟩ := hs
  obtain ⟨hne, -⟩ := h.edges c hc
  exact ⟨by simp [hne], c, hc, headD_append hne⟩

theorem WfKids.perm {cs' : List Node} (h : WfKids cs) (hp : cs'.Perm cs) : WfKids cs' := by
  refine ⟨fun c hc => h.edges c (hp.mem_iff.mp hc), ?_, fun c hc => h.children c (hp.mem_iff.mp hc)⟩
  exact (hp.pairwise_iff fun h => Ne.symm h).mpr h.firsts

theorem hasKids_perm {cs' : List Node} (hp : cs'.Perm cs) : HasKids cs' s v ↔ HasKids cs s v := by
  simp only [HasKids, hp.mem_iff]

/-- A child comes to children with other first bytes. -/
theorem WfKids.cons (h : WfKids cs) (hx : Wf x) (hne : x.edge ≠ []) (hnul : 0 ∉ x.edge)
    (hfirst : ∀ c ∈ cs, c.edge.headD 0 ≠ x.edge.headD 0) : WfKids (x :: cs) := by
  refine ⟨?_, pairwise_cons.mpr ⟨fun c hc => (hfirst c hc).symm, h.firsts⟩, ?_⟩
  · intro c hc
    rcases mem_cons.mp hc with rfl | hc
    · exact ⟨hne, hnul⟩
    · exact h.edges c hc
  · intro c hc
    rcases mem_cons.mp hc with rfl | hc
    · exact hx
    · exact h.children c hc

theorem WfKids.uncons (h : WfKids (x :: cs)) :
    WfKids cs ∧ Wf x ∧ x.edge ≠ [] ∧ 0 ∉ x.edge ∧ ∀ c ∈ cs, c.edge.headD 0 ≠ x.edge.headD 0 := by
  obtain ⟨h₁, h₂⟩ := pairwise_cons.mp h.firsts
  obtain ⟨hne, hnul⟩ := h.edges x (by simp)
  refine ⟨⟨fun c hc => h.edges c (by simp [hc]), h₂, fun c hc => h.children c (by simp [hc])⟩,
    h.children x (by simp), hne, hnul, fun c hc => (h₁ c hc).symm⟩

theorem WfKids.middle (h : WfKids (l ++ x :: r)) :
    WfKids (l ++ r) ∧ Wf x ∧ x.edge ≠ [] ∧ 0 ∉ x.edge ∧
      ∀ c ∈ l ++ r, c.edge.headD 0 ≠ x.edge.headD 0 :=
  (h.perm perm_middle.symm).uncons

/-- Another child in the place of `x`, with the same first byte. -/
theorem WfKids.replace {y : Node} (h : WfKids (l ++ x :: r)) (hy : Wf y) (hne : y.edge ≠ [])
    (hnul : 0 ∉ y.edge) (hfirst : y.edge.headD 0 = x.edge.headD 0) : WfKids (l ++ y :: r) := by
  obtain ⟨hrest, -, -, -, hother⟩ := h.middle
  exact (hrest.cons hy hne hnul (hfirst ▸ hother)).perm perm_middle

/-- The ways of a string with the first byte of `x` go through `x`. -/
theorem WfKids.through (h : WfKids (l ++ x :: r)) (hs : s.headD 0 = x.edge.headD 0) :
    HasKids (l ++ x :: r) s v ↔ ∃ s', s = x.edge ++ s' ∧ Has x s' v := by
  obtain ⟨hrest, -, -, -, hother⟩ := h.middle
  rw [hasKids_middle]
  constructor
  · rintro (h | h)
    · exact h
    · obtain ⟨-, c, hc, hhead⟩ := hrest.headD h
      exact absurd (hhead.symm.trans hs) (hother c hc)
  · exact .inl

/-! ## Finding a child -/

theorem findChild_some {c : UInt8} (h : findChild c cs = some (l, x, r)) :
    cs = l ++ x :: r ∧ x.edge.headD 0 = c := by
  induction cs generalizing l with
  | nil => cases h
  | cons y cs ih =>
    rw [findChild] at h
    split at h
    · rename_i hy
      obtain ⟨rfl, rfl, rfl⟩ : [] = l ∧ y = x ∧ cs = r := by simpa using h
      exact ⟨rfl, hy⟩
    · obtain ⟨⟨l', x', r'⟩, hf, heq⟩ := Option.map_eq_some_iff.mp h
      obtain ⟨rfl, rfl, rfl⟩ : y :: l' = l ∧ x' = x ∧ r' = r := by simpa using heq
      obtain ⟨rfl, hx⟩ := ih hf
      exact ⟨rfl, hx⟩

theorem findChild_none {c : UInt8} (h : findChild c cs = none) : ∀ y ∈ cs, y.edge.headD 0 ≠ c := by
  induction cs with
  | nil => simp
  | cons y cs ih =>
    rw [findChild] at h
    split at h
    · cases h
    · rename_i hy
      intro z hz
      rcases mem_cons.mp hz with rfl | hz
      · exact hy
      · exact ih (Option.map_eq_none_iff.mp h) z hz

/-- Without a child for the first byte there is no way. -/
theorem WfKids.no_way (h : WfKids cs) (hf : findChild (s.headD 0) cs = none) : ¬ HasKids cs s v := by
  intro hs
  obtain ⟨-, c, hc, hhead⟩ := h.headD hs
  exact findChild_none hf c hc hhead.symm

theorem strncmp_eq_false (ha : 0 ∉ a) : strncmp a b a.length = false ↔ a <+: b := by
  induction a generalizing b with
  | nil => simp [strncmp]
  | cons c a ih =>
    have hc : c ≠ 0 := fun h => ha (by simp [h])
    have ha : 0 ∉ a := fun h => ha (by simp [h])
    cases b with
    | nil => simp [strncmp, hc]
    | cons d b =>
      by_cases hcd : c = d
      · subst hcd
        simp [strncmp, hc, ih ha, cons_prefix_cons]
      · simp [strncmp, hcd, cons_prefix_cons]

/-- The descent finds the child whose edge starts the key. -/
theorem descend_cases (h : WfKids n.children) (key : List UInt8) :
    (∃ l x r s', descend n key = some (l, x, r) ∧ n.children = l ++ x :: r ∧
      key = x.edge ++ s') ∨
    descend n key = none ∧ ∀ c ∈ n.children, ¬ c.edge <+: key := by
  rw [descend]
  cases hf : findChild (key.headD 0) n.children with
  | none =>
    refine .inr ⟨rfl, ?_⟩
    rintro c hc ⟨s', rfl⟩
    exact findChild_none hf c hc (headD_append (h.edges c hc).1).symm
  | some p =>
    obtain ⟨l, x, r⟩ := p
    obtain ⟨hsplit, hx⟩ := findChild_some hf
    obtain ⟨hxne, hxnul⟩ := h.edges x (hsplit ▸ by simp)
    -- an edge that starts the key has its first byte
    have hother : ¬ x.edge <+: key → ∀ c ∈ n.children, ¬ c.edge <+: key := by
      rintro hno c hc ⟨s', rfl⟩
      have hfirst : c.edge.headD 0 = x.edge.headD 0 := by
        rw [hx, headD_append (h.edges c hc).1]
      rw [hsplit] at h hc
      obtain ⟨-, -, -, -, hne⟩ := h.middle
      by_cases hcx : c = x
      · exact hno (hcx ▸ prefix_append c.edge s')
      · refine hne c ?_ hfirst
        simp only [mem_append, mem_cons] at hc ⊢
        tauto
    have hiff := strncmp_eq_false (b := key) hxnul
    simp only
    split
    · rename_i hlt
      refine .inr ⟨rfl, hother fun hp => ?_⟩
      have := hp.length_le
      omega
    · split
      · rename_i hcmp
        refine .inr ⟨rfl, hother fun hp => ?_⟩
        rw [hiff.mpr hp] at hcmp
        cases hcmp
      · rename_i hcmp
        obtain ⟨s', rfl⟩ := hiff.mp (by simpa using hcmp)
        exact .inl ⟨l, x, r, s', rfl, hsplit, rfl⟩

/-- Where the descent finds nothing, no string starts as the key does. -/
theorem hasKids_of_prefix {p : List UInt8} (hs : HasKids cs p v) (hp : p <+: key) :
    ∃ c ∈ cs, c.edge <+: key := by
  obtain ⟨c, hc, s', rfl, -⟩ := hs
  exact ⟨c, hc, (prefix_append _ _).trans hp⟩

/-! ## Lookup -/

theorem has_nil (h : Wf n) : Has n [] v ↔ n.hasValue = true ∧ v = n.value := by
  rw [has_iff]
  constructor
  · rintro (⟨-, h⟩ | hk)
    · exact h
    · exact absurd rfl ((wf_iff.mp h).headD hk).1
  · exact fun h => .inl ⟨rfl, h⟩

theorem has_of_ne (hs : s ≠ []) : Has n s v ↔ HasKids n.children s v := by
  rw [has_iff]
  constructor
  · rintro (⟨h, -⟩ | h)
    · exact absurd h hs
    · exact h
  · exact .inr

/-- The ways of a string with the edge of a child. -/
theorem has_append (h : Wf n) (hsplit : n.children = l ++ x :: r) :
    Has n (x.edge ++ s) v ↔ Has x s v := by
  have hkids := wf_iff.mp h
  rw [hsplit] at hkids
  obtain ⟨-, -, hne, -, -⟩ := hkids.middle
  rw [has_of_ne (by simp [hne]), hsplit, hkids.through (headD_append hne)]
  constructor
  · rintro ⟨s', heq, h⟩
    obtain rfl := append_cancel_left heq
    exact h
  · exact fun h => ⟨s, rfl, h⟩

variable {fuel : Nat}

/-- What `lookup` returns: the value of a string that is there, else NULL. -/
theorem lookupLoop_spec (h : Wf n) (hfuel : key.length ≤ fuel) :
    (∀ v, Has n key v → lookupLoop fuel n key = v) ∧
    ((∀ v, ¬ Has n key v) → lookupLoop fuel n key = none) := by
  induction fuel generalizing n key with
  | zero =>
    obtain rfl : key = [] := eq_nil_of_length_eq_zero (by omega)
    simp only [has_nil h, lookupLoop]
    cases n.hasValue <;> simp
  | succ fuel ih =>
    rw [lookupLoop]
    by_cases hkey : key = []
    · subst hkey
      simp only [has_nil h, if_true]
      cases n.hasValue <;> simp
    · rw [if_neg hkey]
      rcases descend_cases (wf_iff.mp h) key with ⟨l, x, r, s', hd, hsplit, rfl⟩ | ⟨hd, hno⟩
      · have hx := (wf_iff.mp h).children x (hsplit ▸ by simp)
        obtain ⟨hne, -⟩ := (wf_iff.mp h).edges x (hsplit ▸ by simp)
        have hlen : s'.length ≤ fuel := by
          have := length_pos_iff.mpr hne
          simp only [length_append] at hfuel
          omega
        simp only [hd, has_append h hsplit, drop_left]
        exact ih hx hlen
      · have hnone : ∀ v, ¬ Has n key v := by
          intro v hv
          rw [has_of_ne hkey] at hv
          obtain ⟨c, hc, hp⟩ := hasKids_of_prefix hv (prefix_refl key)
          exact hno c hc hp
        simp only [hd]
        exact ⟨fun v hv => absurd hv (hnone v), fun _ => trivial⟩

/-! ### The longest prefix -/

/-- `p` is the longest string with a value that starts `s`. -/
def IsLongest (P : List UInt8 → Option Nat → Prop) (s p : List UInt8) (v : Option Nat) : Prop :=
  P p v ∧ p <+: s ∧ ∀ q w, P q w → q <+: s → q.length ≤ p.length

/-- A string that starts the key goes the way of the key. -/
theorem has_prefix_through {q : List UInt8} (h : Wf n) (hsplit : n.children = l ++ x :: r)
    (hq : Has n q w) (hne : q ≠ []) (hp : q <+: x.edge ++ s) :
    ∃ q', q = x.edge ++ q' ∧ Has x q' w ∧ q' <+: s := by
  have hkids := wf_iff.mp h
  rw [hsplit] at hkids
  obtain ⟨-, -, hxne, -, -⟩ := hkids.middle
  have hhead : q.headD 0 = x.edge.headD 0 := by
    obtain ⟨t, ht⟩ := hp
    rw [← headD_append (b := t) hne, ht, headD_append hxne]
  rw [has_of_ne hne, hsplit, hkids.through hhead] at hq
  obtain ⟨q', rfl, hq'⟩ := hq
  exact ⟨q', rfl, hq', (prefix_append_right_inj x.edge).mp hp⟩

theorem lookupPrefixLoop_spec (pos : Nat) (last : LastMatch) (h : Wf n) (hfuel : key.length ≤ fuel)
    :
    (∃ p v, p ≠ [] ∧ IsLongest (Has n) key p v ∧
      lookupPrefixLoop fuel n key pos last = ⟨v, pos + p.length, true⟩) ∨
    (∀ p v, p ≠ [] → p <+: key → ¬ Has n p v) ∧ lookupPrefixLoop fuel n key pos last = last := by
  induction fuel generalizing n key pos last with
  | zero =>
    obtain rfl : key = [] := eq_nil_of_length_eq_zero (by omega)
    refine .inr ⟨?_, rfl⟩
    intro p v hne hp
    exact absurd (prefix_nil.mp hp) hne
  | succ fuel ih =>
    rw [lookupPrefixLoop]
    by_cases hkey : key = []
    · subst hkey
      refine .inr ⟨?_, if_pos rfl⟩
      intro p v hne hp
      exact absurd (prefix_nil.mp hp) hne
    · rw [if_neg hkey]
      rcases descend_cases (wf_iff.mp h) key with ⟨l, x, r, s', hd, hsplit, rfl⟩ | ⟨hd, hno⟩
      · have hx := (wf_iff.mp h).children x (hsplit ▸ by simp)
        obtain ⟨hne, -⟩ := (wf_iff.mp h).edges x (hsplit ▸ by simp)
        have hpos := length_pos_iff.mpr hne
        have hlen : s'.length ≤ fuel := by
          simp only [length_append] at hfuel
          omega
        simp only [hd, drop_left]
        rcases ih (pos + x.edge.length) (last.visit x (pos + x.edge.length)) hx hlen with
          ⟨p, v, hpne, ⟨hv, hp, hmax⟩, hres⟩ | ⟨hnone, hres⟩
        · refine .inl ⟨x.edge ++ p, v, by simp [hpne], ⟨(has_append h hsplit).mpr hv, ?_, ?_⟩, ?_⟩
          · exact (prefix_append_right_inj x.edge).mpr hp
          · intro q w hq hqp
            by_cases hqne : q = []
            · simp [hqne]
            · obtain ⟨q', rfl, hq', hqp'⟩ := has_prefix_through h hsplit hq hqne hqp
              have := hmax q' w hq' hqp'
              simp only [length_append]
              omega
          · rw [hres, length_append, Nat.add_assoc]
        · -- the child ends the longest string, or there is none
          rw [hres, LastMatch.visit]
          by_cases hval : x.hasValue = true
          · rw [if_pos hval]
            refine .inl ⟨x.edge, x.value, hne, ⟨?_, prefix_append _ _, ?_⟩, rfl⟩
            · have := (has_append (s := []) (v := x.value) h hsplit).mpr (.here hval)
              rwa [append_nil] at this
            · intro q w hq hqp
              by_cases hqne : q = []
              · simp [hqne]
              · obtain ⟨q', rfl, hq', hqp'⟩ := has_prefix_through h hsplit hq hqne hqp
                by_cases hq'ne : q' = []
                · simp [hq'ne]
                · exact absurd hq' (hnone q' w hq'ne hqp')
          · rw [if_neg hval]
            refine .inr ⟨?_, rfl⟩
            intro q w hqne hqp hq
            obtain ⟨q', rfl, hq', hqp'⟩ := has_prefix_through h hsplit hq hqne hqp
            by_cases hq'ne : q' = []
            · subst hq'ne
              exact hval ((has_nil hx).mp hq').1
            · exact hnone q' w hq'ne hqp' hq'
      · simp only [hd]
        refine .inr ⟨?_, trivial⟩
        intro p v hne hp hv
        rw [has_of_ne hne] at hv
        obtain ⟨c, hc, hcp⟩ := hasKids_of_prefix hv hp
        exact hno c hc hcp

variable {tree : Tree}

theorem lookupPrefix_spec (h : Wf tree.root) (key : List UInt8) :
    (∃ p v, IsLongest (Has tree.root) key p v ∧
      lookupPrefix tree key = (v, some (key.drop p.length))) ∨
    (∀ p v, p <+: key → ¬ Has tree.root p v) ∧ lookupPrefix tree key = (none, none) := by
  rw [lookupPrefix]
  rcases lookupPrefixLoop_spec 0 (LastMatch.visit ⟨none, 0, false⟩ tree.root 0) h
    (Nat.le_refl key.length) with ⟨p, v, -, hlong, hres⟩ | ⟨hnone, hres⟩
  · rw [hres]
    exact .inl ⟨p, v, hlong, by simp⟩
  · rw [hres, LastMatch.visit]
    by_cases hval : tree.root.hasValue = true
    · rw [if_pos hval]
      refine .inl ⟨[], tree.root.value, ⟨.here hval, nil_prefix, ?_⟩, by simp⟩
      intro q w hq hqp
      by_cases hqne : q = []
      · simp [hqne]
      · exact absurd hq (hnone q w hqne hqp)
    · rw [if_neg hval]
      refine .inr ⟨?_, by simp⟩
      intro q w hqp hq
      by_cases hqne : q = []
      · subst hqne
        exact hval ((has_nil h).mp hq).1
      · exact hnone q w hqne hqp hq

/-! ## Insertion -/

theorem matchLen_le : matchLen a b ≤ a.length ∧ matchLen a b ≤ b.length := by
  induction a generalizing b with
  | nil => simp [matchLen]
  | cons c a ih =>
    cases b with
    | nil => simp [matchLen]
    | cons d b =>
      rw [matchLen]
      split
      · have := ih (b := b)
        simp only [length_cons]
        omega
      · simp

theorem matchLen_take (a b : List UInt8) : a.take (matchLen a b) = b.take (matchLen a b) := by
  induction a generalizing b with
  | nil => simp [matchLen]
  | cons c a ih =>
    cases b with
    | nil => simp [matchLen]
    | cons d b =>
      rw [matchLen]
      split
      · rename_i hcd
        rw [take_succ_cons, take_succ_cons, ih, hcd]
      · simp

/-- Behind the common bytes the two strings differ. -/
theorem matchLen_differ (ha : matchLen a b < a.length) (hnul : 0 ∉ a) :
    (a.drop (matchLen a b)).headD 0 ≠ (b.drop (matchLen a b)).headD 0 := by
  induction a generalizing b with
  | nil => simp at ha
  | cons c a ih =>
    have hc : c ≠ 0 := fun h => hnul (by simp [h])
    cases b with
    | nil => simpa [matchLen] using hc
    | cons d b =>
      rw [matchLen] at ha ⊢
      split at ha
      · rename_i hcd
        rw [if_pos hcd, drop_succ_cons, drop_succ_cons]
        exact ih (by simpa using ha) fun h => hnul (by simp [h])
      · rename_i hcd
        rw [if_neg hcd]
        simpa using hcd

theorem matchLen_pos (ha : a ≠ []) (hb : b ≠ []) (h : a.headD 0 = b.headD 0) :
    0 < matchLen a b := by
  cases a with
  | nil => exact absurd rfl ha
  | cons c a =>
    cases b with
    | nil => exact absurd rfl hb
    | cons d b =>
      have hcd : c = d := h
      simp [matchLen, hcd]

theorem has_leaf {edge : List UInt8} : Has (leafNew edge v) s w ↔ s = [] ∧ w = v := by
  rw [has_iff]
  constructor
  · rintro (⟨h₁, -, h₂⟩ | h)
    · exact ⟨h₁, h₂⟩
    · exact absurd h hasKids_nil
  · rintro ⟨rfl, rfl⟩
    exact .inl ⟨rfl, rfl, rfl⟩

theorem wf_leaf (edge : List UInt8) (v : Option Nat) : Wf (leafNew edge v) :=
  wf_iff.mpr ⟨by simp [leafNew, nodeNew], by simp [leafNew, nodeNew], by simp [leafNew, nodeNew]⟩

/-- After an insertion, `key` has the value `v` and the other strings theirs. -/
def Inserts (key : List UInt8) (v : Option Nat) (n n' : Node) : Prop :=
  ∀ s w, Has n' s w ↔ if s = key then w = v else Has n s w

theorem setValue_inserts (valueFree : Bool) (h : Wf n) (v : Option Nat) :
    Wf (setValue valueFree n v).node ∧ Inserts [] v n (setValue valueFree n v).node := by
  have hkids : WfKids n.children := wf_iff.mp h
  have hwf : Wf (setValue valueFree n v).node := wf_iff.mpr hkids
  refine ⟨hwf, fun s w => ?_⟩
  by_cases hs : s = []
  · subst hs
    rw [if_pos rfl, has_nil hwf]
    simp [setValue]
  · rw [if_neg hs, has_of_ne hs, has_of_ne hs]
    rfl

/-- The other edge of a node has the ways of the node. -/
theorem has_edge (edge : List UInt8) : Has { n with edge := edge } s v ↔ Has n s v := by
  rw [has_iff, has_iff]

theorem wf_edge (edge : List UInt8) (h : Wf n) : Wf { n with edge := edge } := by
  have hkids : WfKids n.children := wf_iff.mp h
  exact wf_iff.mpr hkids

/-- The split of an edge: the ways of the child, and one more. -/
theorem splitEdge_inserts (h : Wf x) (hnul : 0 ∉ x.edge) (hkey : key ≠ []) (hkeyNul : 0 ∉ key)
    (hhead : x.edge.headD 0 = key.headD 0) (hxne : x.edge ≠ [])
    (hlen : matchLen x.edge key < x.edge.length) (v : Option Nat) :
    let y := splitEdge x (matchLen x.edge key) (key.drop (matchLen x.edge key)) v
    Wf y ∧ y.edge ≠ [] ∧ 0 ∉ y.edge ∧ y.edge.headD 0 = x.edge.headD 0 ∧
      (∀ s w, (∃ s', s = y.edge ++ s' ∧ Has y s' w) ↔
        if s = key then w = v else ∃ s', s = x.edge ++ s' ∧ Has x s' w) := by
  intro y
  let m := matchLen x.edge key
  have hpos : 0 < m := matchLen_pos hxne hkey hhead
  have hedge : y.edge = x.edge.take m := by
    simp only [y, splitEdge]
    split <;> rfl
  have hkeySplit : key = x.edge.take m ++ key.drop m := by
    rw [matchLen_take x.edge key]
    exact (take_append_drop m key).symm
  have hxSplit : x.edge = x.edge.take m ++ x.edge.drop m := (take_append_drop m x.edge).symm
  have hlower : x.edge.drop m ≠ [] := by
    intro hnil
    have := drop_eq_nil_iff.mp hnil
    omega
  have hdiffer := matchLen_differ hlen hnul
  have htakeNe : x.edge.take m ≠ [] := by
    intro hnil
    rcases take_eq_nil_iff.mp hnil with hm | hx
    · omega
    · exact hxne hx
  let lower : Node := { x with edge := x.edge.drop m }
  have hlowerKids : WfKids [lower] := by
    refine ⟨?_, by simp, ?_⟩
    · intro c hc
      obtain rfl := mem_singleton.mp hc
      exact ⟨hlower, fun h => hnul (mem_of_mem_drop h)⟩
    · intro c hc
      obtain rfl := mem_singleton.mp hc
      exact wf_edge _ h
  -- the ways through the lower part
  have hways : ∀ s w, HasKids [lower] s w ↔ ∃ s', s = x.edge.drop m ++ s' ∧ Has x s' w := by
    intro s w
    rw [hasKids_cons]
    constructor
    · rintro (⟨s', hs, hw⟩ | hk)
      · exact ⟨s', hs, (has_edge _).mp hw⟩
      · exact absurd hk hasKids_nil
    · rintro ⟨s', hs, hw⟩
      exact .inl ⟨s', hs, (has_edge _).mpr hw⟩
  -- the ways of `y` are those of `x`, and that of the key
  have hy : Wf y ∧ ∀ s w, Has y s w ↔
      (s = key.drop m ∧ w = v) ∨ ∃ s', s = x.edge.drop m ++ s' ∧ Has x s' w := by
    by_cases hrest : key.drop m = []
    · have hyEq : y = { nodeNew (x.edge.take m) with
          value := v, hasValue := true, children := [lower] } := by
        simp only [y, splitEdge]
        exact if_pos hrest
      have hyWf : Wf y := by
        rw [hyEq]
        exact wf_iff.mpr hlowerKids
      refine ⟨hyWf, fun s w => ?_⟩
      rw [has_iff, hyEq, hrest]
      refine or_congr ?_ (hways s w)
      constructor
      · rintro ⟨h₁, -, h₂⟩
        exact ⟨h₁, h₂⟩
      · rintro ⟨h₁, h₂⟩
        exact ⟨h₁, rfl, h₂⟩
    · have hyEq : y = { nodeNew (x.edge.take m) with
          children := [lower] ++ [leafNew (key.drop m) v] } := by
        simp only [y, splitEdge]
        exact if_neg hrest
      have hyWf : Wf y := by
        rw [hyEq]
        refine wf_iff.mpr ?_
        have hcons := hlowerKids.cons (wf_leaf (key.drop m) v) hrest
          (fun h => hkeyNul (mem_of_mem_drop h)) (by
            intro c hc
            obtain rfl := mem_singleton.mp hc
            exact hdiffer)
        exact hcons.perm perm_append_comm
      refine ⟨hyWf, fun s w => ?_⟩
      rw [has_iff, hyEq]
      constructor
      · rintro (⟨-, hfalse, -⟩ | hk)
        · cases hfalse
        · rcases hasKids_append.mp hk with hk | hk
          · exact .inr ((hways s w).mp hk)
          · rcases hasKids_cons.mp hk with ⟨s', hs, hw⟩ | hk
            · obtain ⟨rfl, rfl⟩ := has_leaf.mp hw
              exact .inl ⟨by simpa [leafNew, nodeNew] using hs, rfl⟩
            · exact absurd hk hasKids_nil
      · rintro (⟨rfl, rfl⟩ | hk)
        · refine .inr (hasKids_append.mpr (.inr (hasKids_cons.mpr (.inl ⟨[], ?_, ?_⟩))))
          · simp [leafNew, nodeNew]
          · exact has_leaf.mpr ⟨rfl, rfl⟩
        · exact .inr (hasKids_append.mpr (.inl ((hways s w).mpr hk)))
  obtain ⟨hyWf, hyWays⟩ := hy
  refine ⟨hyWf, ?_, ?_, ?_, fun s w => ?_⟩
  · rw [hedge]
    exact htakeNe
  · rw [hedge]
    exact fun h => hnul (mem_of_mem_take h)
  · rw [hedge]
    conv_rhs => rw [hxSplit, headD_append htakeNe]
  · rw [hedge]
    constructor
    · rintro ⟨s', rfl, hs'⟩
      rcases (hyWays s' w).mp hs' with ⟨rfl, rfl⟩ | ⟨s'', rfl, hw⟩
      · rw [if_pos hkeySplit.symm]
      · rw [if_neg]
        · exact ⟨s'', by rw [← append_assoc, ← hxSplit], hw⟩
        · -- the key leaves the edge of `x`
          intro heq
          have hdrop : x.edge.drop m ++ s'' = key.drop m := by
            rw [hkeySplit] at heq
            exact append_cancel_left heq
          exact hdiffer (by rw [← hdrop, headD_append hlower])
    · intro hif
      by_cases hs : s = key
      · rw [if_pos hs] at hif
        exact ⟨key.drop m, by rw [hs]; exact hkeySplit, (hyWays _ w).mpr (.inl ⟨rfl, hif⟩)⟩
      · rw [if_neg hs] at hif
        obtain ⟨s', rfl, hw⟩ := hif
        refine ⟨x.edge.drop m ++ s', ?_, (hyWays _ w).mpr (.inr ⟨s', rfl, hw⟩)⟩
        rw [← append_assoc, ← hxSplit]

/-- A child that has the ways of another one and that of the key. -/
theorem replace_inserts {y : Node} (h : Wf n) (hsplit : n.children = l ++ x :: r) (hkey : key ≠ [])
    (hhead : key.headD 0 = x.edge.headD 0) (hy : Wf y) (hne : y.edge ≠ []) (hnul : 0 ∉ y.edge)
    (hfirst : y.edge.headD 0 = x.edge.headD 0)
    (hways : ∀ s w, (∃ s', s = y.edge ++ s' ∧ Has y s' w) ↔
      if s = key then w = v else ∃ s', s = x.edge ++ s' ∧ Has x s' w) :
    Wf { n with children := l ++ y :: r } ∧ Inserts key v n { n with children := l ++ y :: r } := by
  have hkids := wf_iff.mp h
  rw [hsplit] at hkids
  obtain ⟨hrest, -, -, -, hother⟩ := hkids.middle
  refine ⟨wf_iff.mpr (hkids.replace hy hne hnul hfirst), fun s w => ?_⟩
  rw [has_iff, hasKids_middle, hways s w]
  by_cases hs : s = key
  · subst hs
    rw [if_pos rfl, if_pos rfl]
    constructor
    · rintro (⟨hnil, -⟩ | hw | hk)
      · exact absurd hnil hkey
      · exact hw
      · obtain ⟨-, c, hc, hch⟩ := hrest.headD hk
        exact absurd (hch.symm.trans hhead) (hother c hc)
    · exact fun hw => .inr (.inl hw)
  · rw [if_neg hs, if_neg hs, has_iff, hsplit, hasKids_middle]

/-- A new leaf for a key whose first byte no child has. -/
theorem leaf_inserts (h : Wf n) (hkey : key ≠ []) (hnul : 0 ∉ key)
    (hf : findChild (key.headD 0) n.children = none) (v : Option Nat) :
    let n' := { n with children := n.children ++ [leafNew key v] }
    Wf n' ∧ Inserts key v n n' ∧ ∀ w, ¬ Has n key w := by
  intro n'
  have hkids := wf_iff.mp h
  have hno : ∀ w, ¬ HasKids n.children key w := fun w => hkids.no_way hf
  -- the ways through the leaf
  have hleaf : ∀ s w, HasKids [leafNew key v] s w ↔ s = key ∧ w = v := by
    intro s w
    rw [hasKids_cons]
    constructor
    · rintro (⟨s', hs, hw⟩ | hk)
      · obtain ⟨rfl, rfl⟩ := has_leaf.mp hw
        exact ⟨by simpa [leafNew, nodeNew] using hs, rfl⟩
      · exact absurd hk hasKids_nil
    · rintro ⟨rfl, rfl⟩
      exact .inl ⟨[], by simp [leafNew, nodeNew], has_leaf.mpr ⟨rfl, rfl⟩⟩
  refine ⟨?_, fun s w => ?_, fun w hw => hno w ((has_of_ne hkey).mp hw)⟩
  · refine wf_iff.mpr ((hkids.cons (wf_leaf key v) hkey hnul ?_).perm perm_append_comm)
    exact findChild_none hf
  · have hn' : Has n' s w ↔ (s = [] ∧ n.hasValue = true ∧ w = n.value) ∨
        HasKids n.children s w ∨ (s = key ∧ w = v) := by
      rw [has_iff, ← hleaf s w, ← hasKids_append]
    rw [hn']
    by_cases hs : s = key
    · subst hs
      rw [if_pos rfl]
      constructor
      · rintro (⟨hnil, -⟩ | hk | ⟨-, hw⟩)
        · exact absurd hnil hkey
        · exact absurd hk (hno w)
        · exact hw
      · exact fun hw => .inr (.inr ⟨rfl, hw⟩)
    · rw [if_neg hs, has_iff]
      constructor
      · rintro (hv | hk | ⟨heq, -⟩)
        · exact .inl hv
        · exact .inr hk
        · exact absurd heq hs
      · rintro (hv | hk)
        · exact .inl hv
        · exact .inr (.inl hk)

/-- An insertion below a child, seen from above its edge. -/
theorem Inserts.above {y : Node} {rest : List UInt8} (h : Inserts rest v x y)
    (hedge : y.edge = x.edge) (s : List UInt8) (w : Option Nat) :
    (∃ s', s = y.edge ++ s' ∧ Has y s' w) ↔
      if s = x.edge ++ rest then w = v else ∃ s', s = x.edge ++ s' ∧ Has x s' w := by
  rw [hedge]
  constructor
  · rintro ⟨s', rfl, hw⟩
    rw [h s' w] at hw
    by_cases hs : s' = rest
    · rw [if_pos hs] at hw
      rw [if_pos (by rw [hs])]
      exact hw
    · rw [if_neg hs] at hw
      rw [if_neg fun heq => hs (append_cancel_left heq)]
      exact ⟨s', rfl, hw⟩
  · intro hif
    by_cases hs : s = x.edge ++ rest
    · rw [if_pos hs] at hif
      exact ⟨rest, hs, (h rest w).mpr (by rw [if_pos rfl]; exact hif)⟩
    · rw [if_neg hs] at hif
      obtain ⟨s', rfl, hw⟩ := hif
      refine ⟨s', rfl, (h s' w).mpr ?_⟩
      rw [if_neg fun heq => hs (by rw [heq])]
      exact hw

/-- A key that leaves the edge of its child has no value. -/
theorem no_value_of_split (h : Wf n) (hsplit : n.children = l ++ x :: r) (hkey : key ≠ [])
    (hhead : x.edge.headD 0 = key.headD 0) (hnul : 0 ∉ x.edge)
    (hlt : matchLen x.edge key < x.edge.length) : ¬ Has n key w := by
  have hkids := wf_iff.mp h
  rw [hsplit] at hkids
  rw [has_of_ne hkey, hsplit, hkids.through hhead.symm]
  rintro ⟨s', hs', -⟩
  have hdrop : ∀ m ≤ x.edge.length, key.drop m = x.edge.drop m ++ s' := by
    intro m hm
    rw [hs', drop_append_of_le_length hm]
  refine matchLen_differ hlt hnul ?_
  rw [hdrop _ (Nat.le_of_lt hlt), headD_append]
  intro hnil
  have := drop_eq_nil_iff.mp hnil
  omega

theorem insertLoop_spec (valueFree : Bool) (h : Wf n) (hnul : 0 ∉ key) (hfuel : key.length ≤ fuel)
    (v : Option Nat) :
    let r := insertLoop valueFree v fuel n key
    Wf r.node ∧ r.node.edge = n.edge ∧ Inserts key v n r.node ∧
      (r.added = true ↔ ∀ w, ¬ Has n key w) := by
  have hnil : ∀ {n : Node}, Wf n → Wf (setValue valueFree n v).node ∧
      (setValue valueFree n v).node.edge = n.edge ∧ Inserts [] v n (setValue valueFree n v).node ∧
      ((setValue valueFree n v).added = true ↔ ∀ w, ¬ Has n [] w) := by
    intro n h
    obtain ⟨h₁, h₂⟩ := setValue_inserts valueFree h v
    refine ⟨h₁, rfl, h₂, ?_⟩
    simp only [has_nil h, setValue]
    cases n.hasValue <;> simp
  induction fuel generalizing n key with
  | zero =>
    obtain rfl : key = [] := eq_nil_of_length_eq_zero (by omega)
    exact hnil h
  | succ fuel ih =>
    rw [insertLoop]
    by_cases hkey : key = []
    · subst hkey
      rw [if_pos rfl]
      exact hnil h
    · rw [if_neg hkey]
      cases hf : findChild (key.headD 0) n.children with
      | none =>
        obtain ⟨h₁, h₂, h₃⟩ := leaf_inserts h hkey hnul hf v
        exact ⟨h₁, rfl, h₂, iff_of_true rfl h₃⟩
      | some p =>
        obtain ⟨l, x, r⟩ := p
        obtain ⟨hsplit, hxhead⟩ := findChild_some hf
        have hkids := wf_iff.mp h
        rw [hsplit] at hkids
        obtain ⟨-, hx, hxne, hxnul, -⟩ := hkids.middle
        simp only
        by_cases hlen : matchLen x.edge key = x.edge.length
        · -- the whole edge: the insertion is below the child
          rw [if_pos hlen, hlen]
          have hkeySplit : key = x.edge ++ key.drop x.edge.length := by
            have htake := matchLen_take x.edge key
            rw [hlen, take_length] at htake
            conv_lhs => rw [← take_append_drop x.edge.length key, ← htake]
          have hpos := length_pos_iff.mpr hxne
          generalize key.drop x.edge.length = rest at hkeySplit
          subst hkeySplit
          have hrestNul : 0 ∉ rest := fun hmem => hnul (by simp [hmem])
          have hrestLen : rest.length ≤ fuel := by
            simp only [length_append] at hfuel
            omega
          obtain ⟨h₁, h₂, h₃, h₄⟩ := ih hx hrestNul hrestLen
          obtain ⟨h₅, h₆⟩ := replace_inserts h hsplit hkey hxhead.symm h₁ (h₂ ▸ hxne)
            (h₂ ▸ hxnul) (by rw [h₂]) (h₃.above h₂)
          refine ⟨h₅, rfl, h₆, ?_⟩
          simp only [has_append h hsplit]
          exact h₄
        · rw [if_neg hlen]
          have hlt : matchLen x.edge key < x.edge.length := by
            have := (matchLen_le (a := x.edge) (b := key)).1
            omega
          obtain ⟨h₁, h₂, h₃, h₄, h₅⟩ := splitEdge_inserts hx hxnul hkey hnul hxhead hxne hlt v
          obtain ⟨h₆, h₇⟩ := replace_inserts h hsplit hkey hxhead.symm h₁ h₂ h₃ h₄ h₅
          exact ⟨h₆, rfl, h₇,
            iff_of_true rfl fun w => no_value_of_split h hsplit hkey hxhead hxnul hlt⟩

/-! ## Removal -/

theorem removeChild_perm (before after : List Node) :
    (removeChild before after).Perm (before ++ after) := by
  rw [removeChild]
  rcases eq_nil_or_concat' after with rfl | ⟨init, last, rfl⟩
  · simp
  · simp only [getLast?_concat, dropLast_concat]
    exact (perm_append_singleton last init).symm.append_left before

/-- The ways through two nodes are those through the two as one. -/
theorem merge_ways {only : Node} (hval : n.hasValue = false) (hkids : n.children = [only]) :
    (∃ s', s = (merge n only).edge ++ s' ∧ Has (merge n only) s' w) ↔
      ∃ s', s = n.edge ++ s' ∧ Has n s' w := by
  have hn : ∀ s', Has n s' w ↔ ∃ t, s' = only.edge ++ t ∧ Has only t w := by
    intro s'
    rw [has_iff, hkids, hasKids_cons, hval]
    simp [hasKids_nil]
  constructor
  · rintro ⟨s', rfl, h⟩
    refine ⟨only.edge ++ s', by simp [merge], (hn _).mpr ⟨s', rfl, ?_⟩⟩
    exact (has_edge _).mp h
  · rintro ⟨s', rfl, h⟩
    obtain ⟨t, rfl, ht⟩ := (hn _).mp h
    exact ⟨t, by simp [merge], (has_edge _).mpr ht⟩

/-- A round of the loop that collapses keeps every way. -/
theorem collapse_spec (h : WfKids (l ++ n :: r)) :
    WfKids (collapse l n r).1 ∧ ∀ s w, HasKids (collapse l n r).1 s w ↔ HasKids (l ++ n :: r) s w := by
  obtain ⟨hrest, hn, hne, hnul, -⟩ := h.middle
  rw [collapse]
  cases hval : n.hasValue with
  | true => exact ⟨h, fun s w => Iff.rfl⟩
  | false =>
    simp only [Bool.false_eq_true, if_false]
    match hkids : n.children with
    | [] =>
      have hperm := removeChild_perm l r
      refine ⟨hrest.perm hperm, fun s w => ?_⟩
      rw [hasKids_perm hperm, hasKids_middle]
      constructor
      · exact .inr
      · rintro (⟨s', -, hs'⟩ | hk)
        · rw [has_iff, hval, hkids] at hs'
          rcases hs' with ⟨-, hfalse, -⟩ | hk
          · cases hfalse
          · exact absurd hk hasKids_nil
        · exact hk
    | [only] =>
      have honly : Wf only := (wf_iff.mp hn).children only (by simp [hkids])
      obtain ⟨-, honlyNul⟩ := (wf_iff.mp hn).edges only (by simp [hkids])
      refine ⟨h.replace (wf_edge _ honly) ?_ ?_ ?_, fun s w => ?_⟩
      · simp [merge, hne]
      · simp only [merge, mem_append]
        rintro (hmem | hmem)
        · exact hnul hmem
        · exact honlyNul hmem
      · exact headD_append hne
      · rw [hasKids_middle, hasKids_middle, merge_ways hval hkids]
    | _ :: _ :: _ => exact ⟨h, fun s w => Iff.rfl⟩

/-- After a removal, `key` has no value and the other strings theirs. -/
def Removes (key : List UInt8) (n n' : Node) : Prop := ∀ s w, Has n' s w ↔ s ≠ key ∧ Has n s w

/-- What a removal comes back with. -/
def RemoveSpec (key : List UInt8) (n : Node) : Option Removed → Prop
  | none => ∀ w, ¬ Has n key w
  | some r => (∃ w, Has n key w) ∧ Wf r.node ∧ r.node.edge = n.edge ∧ Removes key n r.node

/-- A child without the rest of the key, in its place. -/
theorem replace_removes {y : Node} {rest : List UInt8} (h : Wf n)
    (hsplit : n.children = l ++ x :: r) (hy : Wf y) (hedge : y.edge = x.edge)
    (hrem : Removes rest x y) :
    WfKids (l ++ y :: r) ∧ Removes (x.edge ++ rest) n { n with children := l ++ y :: r } := by
  have hkids := wf_iff.mp h
  rw [hsplit] at hkids
  obtain ⟨hother, -, hxne, hxnul, hne⟩ := hkids.middle
  refine ⟨hkids.replace hy (hedge ▸ hxne) (hedge ▸ hxnul) (by rw [hedge]), fun s w => ?_⟩
  rw [has_iff, hasKids_middle, has_iff (n := n), hsplit, hasKids_middle, hedge]
  constructor
  · rintro (⟨rfl, hv⟩ | ⟨s', rfl, hs'⟩ | hk)
    · exact ⟨fun heq => by simp [hxne] at heq, .inl ⟨rfl, hv⟩⟩
    · obtain ⟨hs, hs'⟩ := (hrem s' w).mp hs'
      exact ⟨fun heq => hs (append_cancel_left heq), .inr (.inl ⟨s', rfl, hs'⟩)⟩
    · refine ⟨?_, .inr (.inr hk)⟩
      rintro rfl
      obtain ⟨-, c, hc, hhead⟩ := hother.headD hk
      rw [headD_append hxne] at hhead
      exact hne c hc hhead.symm
  · rintro ⟨hs, ⟨rfl, hv⟩ | ⟨s', rfl, hs'⟩ | hk⟩
    · exact .inl ⟨rfl, hv⟩
    · refine .inr (.inl ⟨s', rfl, (hrem s' w).mpr ⟨?_, hs'⟩⟩)
      rintro rfl
      exact hs rfl
    · exact .inr (.inr hk)

/-- The key ends at this node. -/
theorem remove_here (valueFree : Bool) (h : Wf n) : RemoveSpec [] n (
    if n.hasValue then
      some ⟨{ n with value := none, hasValue := false }, true,
        if valueFree then n.value.toList else []⟩
    else none) := by
  cases hval : n.hasValue with
  | true =>
    have hkids : WfKids n.children := wf_iff.mp h
    have hwf : Wf { n with value := none, hasValue := false } := wf_iff.mpr hkids
    refine ⟨⟨_, .here hval⟩, hwf, rfl, fun s w => ?_⟩
    by_cases hs : s = []
    · subst hs
      rw [has_nil hwf]
      simp
    · rw [has_of_ne hs, has_of_ne hs]
      exact (and_iff_right hs).symm
  | false =>
    intro w
    rw [has_nil h, hval]
    simp

theorem removeLoop_spec (valueFree : Bool) (depth : Nat) (h : Wf n) (hfuel : key.length ≤ fuel) :
    RemoveSpec key n (removeLoop valueFree fuel depth n key) := by
  induction fuel generalizing n key depth with
  | zero =>
    obtain rfl : key = [] := eq_nil_of_length_eq_zero (by omega)
    rw [removeLoop, if_pos rfl]
    exact remove_here valueFree h
  | succ fuel ih =>
    rw [removeLoop]
    by_cases hkey : key = []
    · subst hkey
      rw [if_pos rfl]
      exact remove_here valueFree h
    · rw [if_neg hkey]
      rcases descend_cases (wf_iff.mp h) key with ⟨l, x, r, rest, hd, hsplit, rfl⟩ | ⟨hd, hno⟩
      · have hx := (wf_iff.mp h).children x (hsplit ▸ by simp)
        obtain ⟨hne, -⟩ := (wf_iff.mp h).edges x (hsplit ▸ by simp)
        have hpos := length_pos_iff.mpr hne
        have hlen : rest.length ≤ fuel := by
          simp only [length_append] at hfuel
          omega
        have hspec := ih (depth + 1) hx hlen
        simp only [hd, drop_left]
        cases hrem : removeLoop valueFree fuel (depth + 1) x rest with
        | none =>
          rw [hrem] at hspec
          intro w
          rw [has_append h hsplit]
          exact hspec w
        | some res =>
          rw [hrem] at hspec
          obtain ⟨⟨w, hw⟩, hwf, hedge, hremoves⟩ := hspec
          obtain ⟨h₁, h₂⟩ := replace_removes h hsplit hwf hedge hremoves
          simp only [Option.map_some]
          refine ⟨⟨w, (has_append h hsplit).mpr hw⟩, ?_⟩
          by_cases hgo : (res.goesOn && decide (depth + 1 < maxDepth)) = true
          · -- the child is collapsed, if it can be
            rw [if_pos hgo]
            obtain ⟨h₃, h₄⟩ := collapse_spec h₁
            refine ⟨wf_iff.mpr h₃, rfl, fun s w => ?_⟩
            rw [← h₂ s w, has_iff, has_iff]
            exact or_congr_right (h₄ s w)
          · rw [if_neg hgo]
            exact ⟨wf_iff.mpr h₁, rfl, h₂⟩
      · simp only [hd]
        intro w hw
        rw [has_of_ne hkey] at hw
        obtain ⟨c, hc, hp⟩ := hasKids_of_prefix hw (prefix_refl key)
        exact hno c hc hp

/-! ## Walking -/

mutual

/-- The strings below a node with their values, in the order of the walk. -/
def below : Node → List (List UInt8 × Option Nat)
  | ⟨_, value, hasValue, children⟩ =>
    (if hasValue then [([], value)] else []) ++ belowKids children

/-- The strings through some nodes. -/
def belowKids : List Node → List (List UInt8 × Option Nat)
  | [] => []
  | c :: cs => (below c).map (fun p => (c.edge ++ p.1, p.2)) ++ belowKids cs

end

theorem below_eq (n : Node) :
    below n = (if n.hasValue then [([], n.value)] else []) ++ belowKids n.children := by
  cases n
  rw [below]

mutual

theorem mem_below (n : Node) (s : List UInt8) (v : Option Nat) : (s, v) ∈ below n ↔ Has n s v := by
  match n with
  | ⟨edge, value, hasValue, children⟩ =>
    rw [below, mem_append, mem_belowKids children, has_iff]
    cases hasValue <;> simp

theorem mem_belowKids (cs : List Node) (s : List UInt8) (v : Option Nat) :
    (s, v) ∈ belowKids cs ↔ HasKids cs s v := by
  match cs with
  | [] => simp [belowKids, hasKids_nil]
  | c :: cs =>
    rw [belowKids, mem_append, mem_belowKids cs, hasKids_cons, mem_map]
    refine or_congr_left ⟨?_, ?_⟩
    · rintro ⟨⟨s', v'⟩, hmem, heq⟩
      obtain ⟨rfl, rfl⟩ := Prod.mk.inj heq
      exact ⟨s', rfl, (mem_below c s' v').mp hmem⟩
    · rintro ⟨s', rfl, h⟩
      exact ⟨(s', v), (mem_below c s' v).mpr h, rfl⟩

end

theorem mem_keys {cs : List Node} (hs : s ∈ (belowKids cs).map Prod.fst) : ∃ v, HasKids cs s v := by
  obtain ⟨⟨s', v⟩, hmem, rfl⟩ := mem_map.mp hs
  exact ⟨v, (mem_belowKids cs s' v).mp hmem⟩

mutual

theorem below_nodup (n : Node) (h : Wf n) : ((below n).map Prod.fst).Nodup := by
  match n with
  | ⟨edge, value, hasValue, children⟩ =>
    have hkids : WfKids children := wf_iff.mp h
    rw [below, map_append]
    refine nodup_append.mpr ⟨?_, belowKids_nodup children hkids, ?_⟩
    · cases hasValue <;> simp
    · -- no way over an edge has the empty string
      intro a ha b hb hab
      obtain ⟨v, hv⟩ := mem_keys hb
      cases hasValue with
      | false => simp at ha
      | true =>
        obtain rfl : a = [] := by simpa using ha
        exact (hkids.headD hv).1 hab.symm

theorem belowKids_nodup (cs : List Node) (h : WfKids cs) : ((belowKids cs).map Prod.fst).Nodup := by
  match cs with
  | [] => simp [belowKids]
  | c :: cs =>
    obtain ⟨hcs, hc, hne, -, hother⟩ := h.uncons
    rw [belowKids, map_append, map_map]
    refine nodup_append.mpr ⟨?_, belowKids_nodup cs hcs, ?_⟩
    · have hmap : ((below c).map (Prod.fst ∘ fun p => (c.edge ++ p.1, p.2)))
          = ((below c).map Prod.fst).map (c.edge ++ ·) := by
        rw [map_map]
        rfl
      rw [hmap]
      exact (below_nodup c hc).map fun _ _ => append_cancel_left
    · intro a ha b hb hab
      obtain ⟨p, -, rfl⟩ := mem_map.mp ha
      obtain ⟨v, hv⟩ := mem_keys hb
      obtain ⟨-, d, hd, hhead⟩ := hcs.headD hv
      refine hother d hd ?_
      rw [← hhead, ← hab]
      exact headD_append hne

end

/-! ### The buffer of the walk -/

theorem writeAt_length {buf bytes : List UInt8} {pos : Nat} (h : pos + bytes.length ≤ buf.length) :
    (writeAt buf pos bytes).length = buf.length := by
  simp only [writeAt, length_append, length_take, length_drop]
  omega

theorem writeAt_take {buf : List UInt8} (bytes : List UInt8) {pos : Nat} (h : pos ≤ buf.length) :
    (writeAt buf pos bytes).take (pos + bytes.length) = buf.take pos ++ bytes := by
  have hlen : (buf.take pos ++ bytes).length = pos + bytes.length := by
    simp only [length_append, length_take]
    omega
  rw [writeAt, ← hlen, take_left]

/-- The buffer has the string `k`, and room for a NUL. -/
structure Buffers (ctx : ForeachCtx) (k : List UInt8) : Prop where
  len : ctx.keyLen = k.length
  room : k.length < ctx.keyBuf.length
  key : ctx.keyBuf.take k.length = k

variable {ctx : ForeachCtx} {k : List UInt8}

theorem foreachGrow_buffers (fresh : Nat → UInt8) (h : Buffers ctx k) (needed : Nat) :
    Buffers (foreachGrow fresh ctx needed) k ∧
      needed ≤ (foreachGrow fresh ctx needed).keyBuf.length ∧
      (foreachGrow fresh ctx needed).shown = ctx.shown := by
  have hroom := h.room
  rw [foreachGrow]
  split
  · rename_i hle
    exact ⟨h, hle, rfl⟩
  · rename_i hgt
    have hlen : ((ctx.keyBuf.take ctx.keyLen) ++ (List.range (max (ctx.keyBuf.length * 2) needed
        - ctx.keyLen)).map fun i => fresh (ctx.keyLen + i)).length
        = max (ctx.keyBuf.length * 2) needed := by
      simp only [length_append, length_take, length_map, length_range, h.len]
      omega
    refine ⟨⟨h.len, ?_, ?_⟩, ?_, rfl⟩
    · simp only [hlen]
      omega
    · simp only [h.len, h.key]
      exact take_left
    · simp only [hlen]
      omega

/-- The callback gets the string of the node. -/
theorem pushEdge_buffers (fresh : Nat → UInt8) (h : Buffers ctx k) (edge : List UInt8)
    (hnul : 0 ∉ k ++ edge) :
    Buffers (pushEdge fresh ctx edge) (k ++ edge) ∧
      (pushEdge fresh ctx edge).keyBuf.takeWhile (· ≠ 0) = k ++ edge ∧
      (pushEdge fresh ctx edge).shown = ctx.shown := by
  -- the string is in the buffer before the NUL is
  have hedge : ∃ ctx' : ForeachCtx, Buffers ctx' (k ++ edge) ∧ ctx'.shown = ctx.shown ∧
      pushEdge fresh ctx edge = { ctx' with keyBuf := writeAt ctx'.keyBuf ctx'.keyLen [0] } := by
    by_cases he : edge = []
    · subst he
      exact ⟨ctx, by rwa [append_nil], rfl, rfl⟩
    · obtain ⟨hbuf, hroom, hshown⟩ :=
        foreachGrow_buffers fresh h (ctx.keyLen + edge.length + 1)
      let ctx₁ := foreachGrow fresh ctx (ctx.keyLen + edge.length + 1)
      have hlen₁ : ctx₁.keyLen = k.length := hbuf.len
      have hroom₁ : k.length + edge.length + 1 ≤ ctx₁.keyBuf.length := by
        rw [← h.len]
        exact hroom
      refine ⟨⟨writeAt ctx₁.keyBuf ctx₁.keyLen edge, ctx₁.keyLen + edge.length, ctx₁.shown⟩,
        ⟨?_, ?_, ?_⟩, hshown, ?_⟩
      · simp only [hlen₁, length_append]
      · simp only [hlen₁]
        rw [writeAt_length (by omega), length_append]
        omega
      · simp only [hlen₁]
        rw [length_append, writeAt_take edge (by omega), hbuf.key]
      · rw [pushEdge, if_neg he]
  obtain ⟨ctx', hbuf, hshown, heq⟩ := hedge
  have hroom := hbuf.room
  have htake : (writeAt ctx'.keyBuf ctx'.keyLen [0]).take ((k ++ edge).length + 1)
      = k ++ edge ++ [0] := by
    have := writeAt_take [0] (Nat.le_of_lt hroom)
    rw [hbuf.key] at this
    rw [hbuf.len]
    exact this
  rw [heq]
  refine ⟨⟨hbuf.len, ?_, ?_⟩, ?_, hshown⟩
  · simp only
    rw [writeAt_length (by rw [hbuf.len, length_singleton]; omega)]
    exact hroom
  · have := congrArg (List.take (k ++ edge).length) htake
    rw [take_take, Nat.min_eq_left (Nat.le_succ _), take_left] at this
    exact this
  · simp only
    rw [← take_append_drop ((k ++ edge).length + 1) (writeAt ctx'.keyBuf ctx'.keyLen [0]), htake,
      append_assoc, takeWhile_append_of_pos]
    · simp
    · intro c hc
      simp only [ne_eq, decide_eq_true_eq]
      rintro rfl
      exact hnul hc

theorem call_buffers (h : Buffers ctx k) (n : Node) :
    Buffers (call ctx n) k := by
  rw [call]
  split
  · exact ⟨h.len, h.room, h.key⟩
  · exact h

/-- Back at the parent, the buffer has the shorter string. -/
theorem Buffers.back {edge : List UInt8} (h : Buffers ctx (k ++ edge)) :
    Buffers { ctx with keyLen := k.length } k := by
  have hroom := h.room
  refine ⟨rfl, ?_, ?_⟩
  · simp only [length_append] at hroom
    exact Nat.lt_of_le_of_lt (Nat.le_add_right _ _) hroom
  · have := congrArg (List.take k.length) h.key
    rw [take_take, length_append, Nat.min_eq_left (Nat.le_add_right _ _),
      take_left] at this
    exact this

/-- The edges below are strings. -/
inductive NulFree : Node → Prop where
  | mk {n : Node} (edges : ∀ c ∈ n.children, 0 ∉ c.edge) (children : ∀ c ∈ n.children, NulFree c) :
      NulFree n

theorem Wf.nulFree {n : Node} (h : Wf n) : NulFree n := by
  induction h with
  | mk edges _ _ ih => exact ⟨fun c hc => (edges c hc).2, ih⟩

mutual

theorem foreachWalk_spec (fresh : Nat → UInt8) (n : Node) (h : NulFree n) {ctx : ForeachCtx}
    {k : List UInt8} (hnul : 0 ∉ k ++ n.edge) (hbuf : Buffers ctx k) :
    Buffers (foreachWalk fresh ctx n) k ∧
      (foreachWalk fresh ctx n).shown
        = ctx.shown ++ (below n).map fun p => (k ++ n.edge ++ p.1, p.2) := by
  match n with
  | ⟨edge, value, hasValue, children⟩ =>
    obtain ⟨hedges, hkids⟩ := h
    obtain ⟨hpush, hstring, hshown⟩ := pushEdge_buffers fresh hbuf edge hnul
    let ctx₁ := call (pushEdge fresh ctx edge) ⟨edge, value, hasValue, children⟩
    have hcall : ctx₁.shown = ctx.shown ++ if hasValue then [(k ++ edge, value)] else [] := by
      simp only [ctx₁, call]
      cases hasValue with
      | true => simp only [if_true, hstring, hshown]
      | false => simp only [Bool.false_eq_true, if_false, hshown, append_nil]
    obtain ⟨h₁, h₂⟩ :=
      foreachChildren_spec fresh children hedges hkids hnul (call_buffers hpush _)
    rw [foreachWalk]
    refine ⟨?_, ?_⟩
    · rw [hbuf.len]
      exact h₁.back
    · show (foreachChildren fresh ctx₁ children).shown = _
      rw [h₂, hcall, below, map_append, append_assoc]
      congr 2
      cases hasValue <;> simp

theorem foreachChildren_spec (fresh : Nat → UInt8) (cs : List Node) (hedges : ∀ c ∈ cs, 0 ∉ c.edge)
    (h : ∀ c ∈ cs, NulFree c) {ctx : ForeachCtx} {k : List UInt8} (hnul : 0 ∉ k)
    (hbuf : Buffers ctx k) :
    Buffers (foreachChildren fresh ctx cs) k ∧
      (foreachChildren fresh ctx cs).shown
        = ctx.shown ++ (belowKids cs).map fun p => (k ++ p.1, p.2) := by
  match cs with
  | [] => exact ⟨by rwa [foreachChildren], by simp [foreachChildren, belowKids]⟩
  | c :: cs =>
    have hknul : 0 ∉ k ++ c.edge := by
      rw [mem_append]
      rintro (hmem | hmem)
      · exact hnul hmem
      · exact hedges c mem_cons_self hmem
    obtain ⟨h₁, h₂⟩ := foreachWalk_spec fresh c (h c mem_cons_self) hknul hbuf
    obtain ⟨h₃, h₄⟩ := foreachChildren_spec fresh cs
      (fun x hx => hedges x (mem_cons_of_mem c hx))
      (fun x hx => h x (mem_cons_of_mem c hx)) hnul h₁
    rw [foreachChildren]
    refine ⟨h₃, ?_⟩
    rw [h₄, h₂, belowKids, map_append, map_map, append_assoc]
    congr 2
    refine map_congr_left fun p _ => ?_
    simp

end

theorem foreach_eq (fresh : Nat → UInt8) (h : NulFree tree.root) (hedge : tree.root.edge = []) :
    foreach fresh tree = below tree.root := by
  have hbuf : Buffers ⟨(List.range 256).map fresh, 0, []⟩ [] := ⟨rfl, by simp, rfl⟩
  obtain ⟨-, hshown⟩ := foreachWalk_spec fresh tree.root h (k := []) (by simp [hedge]) hbuf
  rw [foreach, hshown, hedge]
  simp

/-! ## Runs -/

/-- A string: bytes without NUL. -/
structure Str where
  bytes : List UInt8
  noNul : 0 ∉ bytes

/-- The calls of a run. -/
inductive Op where
  | insert (key : Str) (value : Option Nat)
  | remove (key : Str)

/-- The tree after a call. -/
def exec (tree : Tree) : Op → Tree
  | .insert key value => (insert tree key.bytes value).1
  | .remove key => (remove tree key.bytes).2.1

/-- The tree after a run. -/
def run (tree : Tree) (ops : List Op) : Tree := ops.foldl exec tree

/-- The value of the latest insertion of a key that was not removed after it. -/
def live (m : List UInt8 → Option (Option Nat)) : Op → List UInt8 → Option (Option Nat)
  | .insert key value, s => if s = key.bytes then some value else m s
  | .remove key, s => if s = key.bytes then none else m s

/-- The live keys after a run. -/
def liveAfter (ops : List Op) : List UInt8 → Option (Option Nat) := ops.foldl live fun _ => none

/-- The tree holds the map `m`. -/
structure Holds (tree : Tree) (m : List UInt8 → Option (Option Nat)) : Prop where
  wf : Wf tree.root
  edge : tree.root.edge = []
  has : ∀ s v, Has tree.root s v ↔ m s = some v
  size : tree.size = (below tree.root).length

theorem holds_new (valueFree : Bool) : Holds (treeNew valueFree) fun _ => none := by
  have hnone : ∀ s v, ¬ Has (nodeNew []) s v := by
    intro s v hv
    rcases has_iff.mp hv with ⟨-, hfalse, -⟩ | hk
    · cases hfalse
    · exact hasKids_nil hk
  refine ⟨wf_iff.mpr ⟨by simp [treeNew, nodeNew], by simp [treeNew, nodeNew],
    by simp [treeNew, nodeNew]⟩, rfl, fun s v => ?_, ?_⟩
  · exact iff_of_false (hnone s v) (by simp)
  · rw [below_eq]
    simp [treeNew, nodeNew, belowKids]

/-- The strings with a value. -/
def keys (n : Node) : List (List UInt8) := (below n).map Prod.fst

theorem mem_keys_iff : s ∈ keys n ↔ ∃ v, Has n s v := by
  rw [keys, mem_map]
  constructor
  · rintro ⟨⟨s', v⟩, hmem, rfl⟩
    exact ⟨v, (mem_below n s' v).mp hmem⟩
  · rintro ⟨v, hv⟩
    exact ⟨(s, v), (mem_below n s v).mpr hv, rfl⟩

theorem keys_length : (keys n).length = (below n).length := length_map _

variable {m : List UInt8 → Option (Option Nat)}

theorem Holds.insert (h : Holds tree m) (key : Str) (value : Option Nat) :
    Holds (insert tree key.bytes value).1 (live m (.insert key value)) := by
  obtain ⟨hwf, hedge, hins, hadded⟩ :=
    insertLoop_spec tree.valueFree h.wf key.noNul (Nat.le_refl _) value
  refine ⟨hwf, hedge.trans h.edge, fun s v => ?_, ?_⟩
  · rw [live]
    refine (hins s v).trans ?_
    split
    · rw [Option.some.injEq]
      exact eq_comm
    · exact h.has s v
  · have hnodup := below_nodup _ hwf
    have hold := below_nodup _ h.wf
    have hmem : ∀ s, s ∈ keys (insertLoop tree.valueFree value key.bytes.length tree.root key.bytes).node
        ↔ s = key.bytes ∨ s ∈ keys tree.root := by
      intro s
      rw [mem_keys_iff, mem_keys_iff]
      by_cases hs : s = key.bytes
      · refine iff_of_true ⟨value, (hins s value).mpr ?_⟩ (.inl hs)
        rw [if_pos hs]
      · have hsame : ∀ v, _ ↔ Has tree.root s v := fun v => (hins s v).trans (by rw [if_neg hs])
        simp only [hsame, hs, false_or]
    show tree.size + (if _ then 1 else 0) = _
    rw [h.size, ← keys_length, ← keys_length]
    by_cases hin : key.bytes ∈ keys tree.root
    · have hfalse : ¬ (insertLoop tree.valueFree value key.bytes.length tree.root key.bytes).added
          = true := by
        intro htrue
        obtain ⟨v, hv⟩ := mem_keys_iff.mp hin
        exact hadded.mp htrue v hv
      rw [if_neg hfalse]
      refine (List.Perm.length_eq ((perm_ext_iff_of_nodup hold hnodup).mpr fun s => ?_))
      rw [← keys, ← keys, hmem s]
      constructor
      · exact .inr
      · rintro (rfl | hs)
        · exact hin
        · exact hs
    · have htrue : (insertLoop tree.valueFree value key.bytes.length tree.root key.bytes).added
          = true := by
        refine hadded.mpr fun v hv => hin (mem_keys_iff.mpr ⟨v, hv⟩)
      rw [if_pos htrue, ← length_cons (a := key.bytes)]
      refine (List.Perm.length_eq ((perm_ext_iff_of_nodup ?_ hnodup).mpr fun s => ?_))
      · exact nodup_cons.mpr ⟨hin, hold⟩
      · rw [mem_cons, ← keys, hmem s]

theorem Holds.remove (h : Holds tree m) (key : Str) :
    Holds (remove tree key.bytes).2.1 (live m (.remove key)) := by
  have hspec := removeLoop_spec tree.valueFree 0 h.wf (Nat.le_refl key.bytes.length)
  rw [RadixTree.remove]
  cases hrem : removeLoop tree.valueFree key.bytes.length 0 tree.root key.bytes with
  | none =>
    rw [hrem] at hspec
    have hsame : live m (.remove key) = m := by
      funext s
      rw [live]
      split
      · rename_i hs
        subst hs
        cases hm : m key.bytes with
        | none => rfl
        | some v => exact absurd ((h.has _ v).mpr hm) (hspec v)
      · rfl
    rw [hsame]
    exact h
  | some r =>
    rw [hrem] at hspec
    obtain ⟨⟨w, hw⟩, hwf, hedge, hremoves⟩ := hspec
    refine ⟨hwf, hedge.trans h.edge, fun s v => ?_, ?_⟩
    · rw [live]
      refine (hremoves s v).trans ?_
      split
      · rename_i hs
        exact iff_of_false (fun hand => hand.1 hs) (by simp)
      · rename_i hs
        rw [h.has s v]
        exact and_iff_right hs
    · have hnodup := below_nodup _ hwf
      have hmem : ∀ s, s ∈ keys r.node ↔ s ≠ key.bytes ∧ s ∈ keys tree.root := by
        intro s
        rw [mem_keys_iff, mem_keys_iff]
        constructor
        · rintro ⟨v, hv⟩
          obtain ⟨hs, hv⟩ := (hremoves s v).mp hv
          exact ⟨hs, v, hv⟩
        · rintro ⟨hs, v, hv⟩
          exact ⟨v, (hremoves s v).mpr ⟨hs, hv⟩⟩
      have hperm : (key.bytes :: keys r.node).Perm (keys tree.root) := by
        refine (perm_ext_iff_of_nodup ?_ (below_nodup _ h.wf)).mpr fun s => ?_
        · exact nodup_cons.mpr ⟨fun hin => ((hmem _).mp hin).1 rfl, hnodup⟩
        · rw [mem_cons, hmem s, ← keys]
          constructor
          · rintro (rfl | hs)
            · exact mem_keys_iff.mpr ⟨w, hw⟩
            · exact hs.2
          · intro hs
            by_cases heq : s = key.bytes
            · exact .inl heq
            · exact .inr ⟨heq, hs⟩
      have hlength := hperm.length_eq
      rw [length_cons, keys_length, keys_length] at hlength
      have hsize := h.size
      show tree.size - 1 = (below r.node).length
      omega

theorem Holds.run (h : Holds tree m) (ops : List Op) : Holds (run tree ops) (ops.foldl live m) := by
  induction ops generalizing tree m with
  | nil => exact h
  | cons op ops ih =>
    cases op with
    | insert key value => exact ih (h.insert key value)
    | remove key => exact ih (h.remove key)

/-- In every run, the tree is the map of the live keys: `lookup` returns the value of a
key, `size` counts the keys, `foreach` shows each once, and `lookupPrefix` finds the
longest one that starts the string, with what is behind it. -/
theorem run_live_keys (valueFree : Bool) (ops : List Op) (fresh : Nat → UInt8) :
    let tree := run (treeNew valueFree) ops
    let m := liveAfter ops
    (∀ key : Str, lookup tree key.bytes = (m key.bytes).join) ∧
    tree.size = (foreach fresh tree).length ∧
    ((foreach fresh tree).map Prod.fst).Nodup ∧
    (∀ s v, (s, v) ∈ foreach fresh tree ↔ m s = some v) ∧
    ∀ key : Str,
      (∃ p v, IsLongest (fun s v => m s = some v) key.bytes p v ∧
        lookupPrefix tree key.bytes = (v, some (key.bytes.drop p.length))) ∨
      (∀ p, p <+: key.bytes → m p = none) ∧ lookupPrefix tree key.bytes = (none, none) := by
  intro tree m
  have h : Holds tree m := (holds_new valueFree).run ops
  have hforeach := foreach_eq fresh h.wf.nulFree h.edge
  refine ⟨fun key => ?_, ?_, ?_, fun s v => ?_, fun key => ?_⟩
  · obtain ⟨h₁, h₂⟩ := lookupLoop_spec h.wf (Nat.le_refl key.bytes.length)
    cases hm : m key.bytes with
    | none =>
      refine h₂ fun v hv => ?_
      rw [h.has, hm] at hv
      cases hv
    | some v => exact h₁ v ((h.has _ v).mpr hm)
  · rw [hforeach]
    exact h.size
  · rw [hforeach]
    exact below_nodup _ h.wf
  · rw [hforeach, mem_below]
    exact h.has s v
  · have hhas : Has tree.root = fun s v => m s = some v := by
      funext s v
      exact propext (h.has s v)
    rcases lookupPrefix_spec h.wf key.bytes with ⟨p, v, hlong, hres⟩ | ⟨hnone, hres⟩
    · exact .inl ⟨p, v, hhas ▸ hlong, hres⟩
    · refine .inr ⟨fun p hp => ?_, hres⟩
      cases hm : m p with
      | none => rfl
      | some v => exact absurd ((h.has p v).mpr hm) (hnone p v hp)

end RadixTree

end AxlSdk
