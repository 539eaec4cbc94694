import AxlSdk.Data.RadixTree

/-!
# How far a radix tree is compressed

A removal takes the nodes that are of no more use off the way to its key, as far as
`axl_radix_tree_remove` has recorded them: the first `RADIX_MAX_DEPTH`.

- `Dense`, `Compressed`: what a node other than the root is for.
- `insertLoop_compressed`: insertions keep the tree compressed.
- `exec_compressed_iff`: a removal does unless its key is deep and has little below it.
- `run_compressed_iff`: so in a run every tree is compressed just when no removal is such.
-/

namespace AxlSdk

namespace RadixTree

open List

/-- A node that carries a value or branches. -/
def Dense (n : Node) : Prop := n.hasValue = true ∨ 2 ≤ n.children.length

/-- All nodes below are dense. -/
inductive Compressed : Node → Prop where
  | mk {n : Node} (dense : ∀ c ∈ n.children, Dense c) (below : ∀ c ∈ n.children, Compressed c) :
      Compressed n

theorem compressed_iff {n : Node} : Compressed n ↔ ∀ c ∈ n.children, Dense c ∧ Compressed c := by
  constructor
  · rintro ⟨hdense, hbelow⟩ c hc
    exact ⟨hdense c hc, hbelow c hc⟩
  · exact fun h => ⟨fun c hc => (h c hc).1, fun c hc => (h c hc).2⟩

variable {m : Node}

theorem Compressed.of_children {n : Node} (h : Compressed n) (hm : m.children = n.children) :
    Compressed m := by
  rw [compressed_iff, hm]
  exact compressed_iff.mp h

variable {l r : List Node} {x y n : Node} {key : List UInt8}

theorem compressed_middle (hn : n.children = l ++ x :: r) :
    Compressed n ↔ (∀ c ∈ l ++ r, Dense c ∧ Compressed c) ∧ Dense x ∧ Compressed x := by
  rw [compressed_iff, hn]
  constructor
  · intro h
    refine ⟨fun c hc => h c ?_, h x (by simp)⟩
    simp only [mem_append, mem_cons] at hc ⊢
    tauto
  · rintro ⟨hrest, hx⟩ c hc
    rw [mem_append, mem_cons] at hc
    rcases hc with hc | rfl | hc
    · exact hrest c (mem_append_left r hc)
    · exact hx
    · exact hrest c (mem_append_right l hc)

/-- As many children, and the same value. -/
theorem Dense.replace (h : Dense n) (hn : n.children = l ++ x :: r) (y : Node) :
    Dense { n with children := l ++ y :: r } := by
  refine h.imp id fun hlen => ?_
  rw [hn] at hlen
  simpa using hlen

/-! ## Insertion -/

theorem dense_leaf (edge : List UInt8) (v : Option Nat) :
    Dense (leafNew edge v) ∧ Compressed (leafNew edge v) :=
  ⟨.inl rfl, .mk nofun nofun⟩

theorem splitEdge_dense (h : Dense x ∧ Compressed x) (len : Nat) (rest : List UInt8)
    (v : Option Nat) : Dense (splitEdge x len rest v) ∧ Compressed (splitEdge x len rest v) := by
  have hlower : Dense { x with edge := x.edge.drop len } ∧
      Compressed { x with edge := x.edge.drop len } := ⟨h.1, h.2.of_children rfl⟩
  rw [splitEdge]
  split
  · refine ⟨.inl rfl, compressed_iff.mpr fun c hc => ?_⟩
    rw [mem_singleton.mp hc]
    exact hlower
  · refine ⟨.inr (Nat.le_refl 2), compressed_iff.mpr fun c hc => ?_⟩
    rcases mem_append.mp hc with hc | hc
    · rw [mem_singleton.mp hc]
      exact hlower
    · rw [mem_singleton.mp hc]
      exact dense_leaf rest v

variable {fuel : Nat}

theorem insertLoop_compressed (valueFree : Bool) (v : Option Nat) (h : Compressed n) :
    Compressed (insertLoop valueFree v fuel n key).node ∧
      (Dense n → Dense (insertLoop valueFree v fuel n key).node) := by
  have hset : ∀ {n : Node}, Compressed n → Compressed (setValue valueFree n v).node ∧
      (Dense n → Dense (setValue valueFree n v).node) :=
    fun h => ⟨h.of_children rfl, fun _ => .inl rfl⟩
  induction fuel generalizing n key with
  | zero => exact hset h
  | succ fuel ih =>
    rw [insertLoop]
    split
    · exact hset h
    cases hf : findChild (key.headD 0) n.children with
    | none =>
      refine ⟨compressed_iff.mpr fun c hc => ?_, fun hn => hn.imp id fun hlen => ?_⟩
      · rcases mem_append.mp hc with hc | hc
        · exact compressed_iff.mp h c hc
        · rw [mem_singleton.mp hc]
          exact dense_leaf key v
      · show 2 ≤ (n.children ++ [leafNew key v]).length
        rw [length_append]
        omega
    | some p =>
      obtain ⟨l, x, r⟩ := p
      obtain ⟨hsplit, -⟩ := findChild_some hf
      obtain ⟨hrest, hx⟩ := (compressed_middle hsplit).mp h
      simp only
      split
      · obtain ⟨h₁, h₂⟩ := @ih _ (key.drop (matchLen x.edge key)) hx.2
        exact ⟨(compressed_middle rfl).mpr ⟨hrest, h₂ hx.1, h₁⟩, fun hn => hn.replace hsplit _⟩
      · exact ⟨(compressed_middle rfl).mpr ⟨hrest, splitEdge_dense hx _ _ v⟩,
          fun hn => hn.replace hsplit _⟩

/-! ## Removal -/

/-- The node that `axl_radix_tree_remove` gets to, and its depth. -/
def nodeAt : Nat → Nat → Node → List UInt8 → Option (Nat × Node)
  | fuel, depth, node, key =>
    if key = [] then some (depth, node)
    else
      match fuel with
      | 0 => none
      | fuel + 1 =>
        match descend node key with
        | none => none
        | some (_, child, _) => nodeAt fuel (depth + 1) child (key.drop child.edge.length)

/-- The node of the key is off the recorded way and would be collapsed. -/
def Lost (found : Option (Nat × Node)) : Prop :=
  ∃ depth node, found = some (depth, node) ∧ node.hasValue = true ∧ maxDepth ≤ depth ∧
    node.children.length < 2

/-- The loop that collapses stops at a dense node, and goes on behind another. -/
theorem collapse_of_dense (hx : Dense x) : collapse l x r = (l ++ x :: r, false) := by
  rw [collapse]
  split
  · rfl
  next hval =>
  have hlen : 2 ≤ x.children.length := hx.resolve_left hval
  split
  · next hkids =>
    rw [hkids] at hlen
    exact absurd hlen (Nat.not_succ_le_zero 1)
  · next hkids =>
    rw [hkids] at hlen
    exact absurd hlen (Nat.not_succ_le_self 1)
  · rfl

/-- What it leaves of other nodes is dense too. -/
theorem collapse_of_not_dense (hrest : ∀ c ∈ l ++ r, Dense c ∧ Compressed c) (hx : Compressed x)
    (hfew : ¬ Dense x) :
    (∀ c ∈ (collapse l x r).1, Dense c ∧ Compressed c) ∧ (collapse l x r).2 = true := by
  rw [collapse, if_neg fun hval => hfew (.inl hval)]
  split
  · exact ⟨fun c hc => hrest c ((removeChild_perm l r).mem_iff.mp hc), rfl⟩
  · next only hkids =>
    obtain ⟨hdense, hcomp⟩ :=
      compressed_iff.mp hx only (by rw [hkids]; exact mem_singleton_self _)
    have hmerge : Dense (merge x only) ∧ Compressed (merge x only) :=
      ⟨hdense, hcomp.of_children rfl⟩
    have hone : Compressed { x with children := l ++ merge x only :: r } :=
      (compressed_middle rfl).mpr ⟨hrest, hmerge⟩
    exact ⟨compressed_iff.mp hone, rfl⟩
  · next hnil hone =>
    refine absurd (.inr ?_) hfew
    cases hkids : x.children with
    | nil => exact absurd hkids hnil
    | cons only rest =>
      cases rest with
      | nil => exact absurd hkids (hone only)
      | cons _ _ => exact Nat.le_add_left 2 _

theorem descend_split (h : descend n key = some (l, x, r)) : n.children = l ++ x :: r := by
  rw [descend] at h
  cases hf : findChild (key.headD 0) n.children with
  | none =>
    rw [hf] at h
    cases h
  | some p =>
    obtain ⟨l', x', r'⟩ := p
    rw [hf] at h
    simp only at h
    split at h
    · cases h
    split at h
    · cases h
    cases h
    exact (findChild_some hf).1

/-- What the step at the end of the key leaves. -/
def cleared (valueFree : Bool) (n : Node) : Removed :=
  ⟨{ n with value := none, hasValue := false }, true, if valueFree then n.value.toList else []⟩

theorem removeLoop_nil (valueFree : Bool) (fuel depth : Nat) (n : Node) :
    removeLoop valueFree fuel depth n [] =
      if n.hasValue then some (cleared valueFree n) else none := by
  cases fuel <;> rfl

theorem nodeAt_nil (fuel depth : Nat) (n : Node) : nodeAt fuel depth n [] = some (depth, n) := by
  cases fuel <;> rfl

theorem removeLoop_zero (valueFree : Bool) (depth : Nat) (n : Node) (hkey : key ≠ []) :
    removeLoop valueFree 0 depth n key = none := by
  rw [removeLoop, if_neg hkey]

variable {res : Removed}

/-- The removal below a child, and the round of the loop that collapses. -/
theorem removeLoop_succ (valueFree : Bool) (fuel depth : Nat) (hkey : key ≠ [])
    (hres : removeLoop valueFree (fuel + 1) depth n key = some res) :
    ∃ l x r sub, n.children = l ++ x :: r ∧
      removeLoop valueFree fuel (depth + 1) x (key.drop x.edge.length) = some sub ∧
      nodeAt (fuel + 1) depth n key = nodeAt fuel (depth + 1) x (key.drop x.edge.length) ∧
      ((sub.goesOn = true ∧ depth + 1 < maxDepth ∧
          res.node = { n with children := (collapse l sub.node r).1 } ∧
          res.goesOn = (collapse l sub.node r).2) ∨
        ((sub.goesOn = true → maxDepth ≤ depth + 1) ∧
          res.node = { n with children := l ++ sub.node :: r } ∧ res.goesOn = sub.goesOn)) := by
  rw [removeLoop, if_neg hkey] at hres
  simp only at hres
  cases hd : descend n key with
  | none =>
    rw [hd] at hres
    cases hres
  | some p =>
    obtain ⟨l, x, r⟩ := p
    rw [hd] at hres
    obtain ⟨sub, hsub, hmade⟩ := Option.map_eq_some_iff.mp hres
    refine ⟨l, x, r, sub, descend_split hd, hsub, by rw [nodeAt, if_neg hkey, hd], ?_⟩
    split at hmade
    · next hgo =>
      rw [Bool.and_eq_true, decide_eq_true_eq] at hgo
      subst hmade
      exact .inl ⟨hgo.1, hgo.2, rfl, rfl⟩
    · next hgo =>
      rw [Bool.and_eq_true, decide_eq_true_eq] at hgo
      subst hmade
      exact .inr ⟨fun hgoes => Nat.le_of_not_lt fun hlt => hgo ⟨hgoes, hlt⟩, rfl, rfl⟩

variable {depth : Nat}

theorem removeLoop_nil_found (valueFree : Bool) {d : Nat} (h : nodeAt fuel depth n [] = some (d, m))
    (hval : m.hasValue = true) :
    removeLoop valueFree fuel depth n [] ≠ none := by
  rw [nodeAt_nil] at h
  cases h
  rw [removeLoop_nil, if_pos hval]
  nofun

/-- A key with a value is removed. -/
theorem removeLoop_found (valueFree : Bool) {d : Nat} (h : nodeAt fuel depth n key = some (d, m))
    (hval : m.hasValue = true) :
    removeLoop valueFree fuel depth n key ≠ none := by
  induction fuel generalizing n key depth with
  | zero =>
    by_cases hkey : key = []
    · subst hkey
      exact removeLoop_nil_found valueFree h hval
    · rw [nodeAt, if_neg hkey] at h
      cases h
  | succ fuel ih =>
    by_cases hkey : key = []
    · subst hkey
      exact removeLoop_nil_found valueFree h hval
    · rw [nodeAt, if_neg hkey] at h
      rw [removeLoop, if_neg hkey]
      simp only at h ⊢
      cases hd : descend n key with
      | none =>
        rw [hd] at h
        cases h
      | some p =>
        rw [hd] at h
        intro hnone
        exact ih h (Option.map_eq_none_iff.mp hnone)

theorem nodeAt_depth {d : Nat} (h : nodeAt fuel depth n key = some (d, m)) :
    depth ≤ d := by
  induction fuel generalizing depth n key with
  | zero =>
    rw [nodeAt] at h
    split at h
    · cases h
      exact Nat.le_refl _
    · cases h
  | succ fuel ih =>
    rw [nodeAt] at h
    split at h
    · cases h
      exact Nat.le_refl _
    · split at h
      · cases h
      · exact Nat.le_of_succ_le (ih h)

/-- At the end of the key nothing is lost, at the depth where the way is recorded or where the
node branches. -/
theorem removeLoop_nil_keeps (valueFree : Bool) (h : Compressed n)
    (hres : removeLoop valueFree fuel depth n [] = some res)
    (hsafe : ¬ Lost (nodeAt fuel depth n [])) :
    Compressed res.node ∧ (Dense res.node ∨ res.goesOn = true ∧ depth < maxDepth) := by
  rw [removeLoop_nil] at hres
  rw [nodeAt_nil] at hsafe
  split at hres
  · next hval =>
    cases hres
    refine ⟨h.of_children rfl, ?_⟩
    by_cases hdepth : depth < maxDepth
    · exact .inr ⟨rfl, hdepth⟩
    · refine .inl (.inr ?_)
      by_contra hfew
      exact hsafe ⟨depth, n, rfl, hval, Nat.le_of_not_lt hdepth, Nat.lt_of_not_le hfew⟩
  · cases hres

theorem removeLoop_nil_loses (valueFree : Bool)
    (hres : removeLoop valueFree fuel depth n [] = some res) (hlost : Lost (nodeAt fuel depth n []))
    : maxDepth ≤ depth ∧ ¬ Dense res.node := by
  rw [removeLoop_nil] at hres
  rw [nodeAt_nil] at hlost
  obtain ⟨d, m, hfound, hval, hdeep, hfew⟩ := hlost
  cases hfound
  rw [if_pos hval] at hres
  cases hres
  refine ⟨hdeep, ?_⟩
  rintro (hv | hlen)
  · cases hv
  · exact absurd hlen (Nat.not_le_of_lt hfew)

/-- Where nothing is lost, what is below is compressed, and the node itself is as dense as it
was unless the loop that collapses is going to look at it. -/
theorem removeLoop_keeps (valueFree : Bool) (h : Compressed n)
    (hres : removeLoop valueFree fuel depth n key = some res)
    (hsafe : ¬ Lost (nodeAt fuel depth n key)) :
    Compressed res.node ∧ (Dense n → Dense res.node ∨
      res.goesOn = true ∧ ∃ d m, nodeAt fuel depth n key = some (d, m) ∧ d < maxDepth) := by
  by_cases hkey : key = []
  · subst hkey
    obtain ⟨hcomp, hnode⟩ := removeLoop_nil_keeps valueFree h hres hsafe
    exact ⟨hcomp, fun _ => hnode.imp id fun hgo => ⟨hgo.1, depth, n, nodeAt_nil _ _ _, hgo.2⟩⟩
  induction fuel generalizing n key depth res with
  | zero =>
    rw [removeLoop_zero valueFree depth n hkey] at hres
    cases hres
  | succ fuel ih =>
    obtain ⟨l, x, r, sub, hsplit, hsub, hat, hnode⟩ := removeLoop_succ valueFree fuel depth hkey hres
    rw [hat] at hsafe ⊢
    obtain ⟨hrest, hx⟩ := (compressed_middle hsplit).mp h
    have hbelow : Compressed sub.node ∧ (Dense x → Dense sub.node ∨ sub.goesOn = true ∧
        ∃ d m, nodeAt fuel (depth + 1) x (key.drop x.edge.length) = some (d, m) ∧
          d < maxDepth) := by
      by_cases hend : key.drop x.edge.length = []
      · rw [hend] at hsub hsafe ⊢
        obtain ⟨hcomp, hnode⟩ := removeLoop_nil_keeps valueFree hx.2 hsub hsafe
        exact ⟨hcomp, fun _ => hnode.imp id fun hgo => ⟨hgo.1, _, x, nodeAt_nil _ _ _, hgo.2⟩⟩
      · exact ih hx.2 hsub hsafe hend
    obtain ⟨hcomp, hdense⟩ := hbelow
    rcases hnode with ⟨-, -, hnode, hgoes⟩ | ⟨hdeep, hnode, hgoes⟩
    · -- the child is looked at
      rw [hnode, hgoes]
      by_cases hd : Dense sub.node
      · rw [collapse_of_dense hd]
        exact ⟨(compressed_middle rfl).mpr ⟨hrest, hd, hcomp⟩, fun hn => .inl (hn.replace hsplit _)⟩
      · obtain ⟨hchildren, hgo⟩ := collapse_of_not_dense hrest hcomp hd
        exact ⟨compressed_iff.mpr hchildren,
          fun _ => .inr ⟨hgo, ((hdense hx.1).resolve_left hd).2⟩⟩
    · -- it is left as it is
      have hd : Dense sub.node := by
        rcases hdense hx.1 with hd | ⟨hgo, d, m, hfound, hlt⟩
        · exact hd
        · have := nodeAt_depth hfound
          have := hdeep hgo
          omega
      rw [hnode]
      exact ⟨(compressed_middle rfl).mpr ⟨hrest, hd, hcomp⟩, fun hn => .inl (hn.replace hsplit _)⟩

/-- Where something is lost, the node of the key stays, of no use, below a node that is as dense
as it was. -/
theorem removeLoop_loses (valueFree : Bool) (h : Compressed n) (hkey : key ≠ [])
    (hres : removeLoop valueFree fuel depth n key = some res)
    (hlost : Lost (nodeAt fuel depth n key)) :
    ¬ Compressed res.node ∧ (Dense n → Dense res.node) := by
  induction fuel generalizing n key depth res with
  | zero =>
    rw [removeLoop_zero valueFree depth n hkey] at hres
    cases hres
  | succ fuel ih =>
    obtain ⟨l, x, r, sub, hsplit, hsub, hat, hnode⟩ := removeLoop_succ valueFree fuel depth hkey hres
    rw [hat] at hlost
    obtain ⟨-, hx⟩ := (compressed_middle hsplit).mp h
    -- the child is in its place, and is not dense or has something below it that is not
    have hplace : res.node = { n with children := l ++ sub.node :: r } ∧
        ¬ (Dense sub.node ∧ Compressed sub.node) := by
      by_cases hend : key.drop x.edge.length = []
      · rw [hend] at hsub hlost
        obtain ⟨hdeep, hfew⟩ := removeLoop_nil_loses valueFree hsub hlost
        rcases hnode with ⟨-, hlt, -⟩ | ⟨-, hnode, -⟩
        · omega
        · exact ⟨hnode, fun hd => hfew hd.1⟩
      · obtain ⟨hloose, hdense⟩ := ih hx.2 hend hsub hlost
        refine ⟨?_, fun hd => hloose hd.2⟩
        rcases hnode with ⟨-, -, hnode, -⟩ | ⟨-, hnode, -⟩
        · rw [hnode, collapse_of_dense (hdense hx.1)]
        · exact hnode
    rw [hplace.1]
    exact ⟨fun hcomp => hplace.2 ((compressed_middle rfl).mp hcomp).2,
      fun hn => hn.replace hsplit _⟩

/-! ## Runs -/

/-- Edges are not empty, the edges to the children of a node start with different bytes, and all
nodes but the root carry a value or branch. -/
structure Tight (tree : Tree) : Prop where
  wf : Wf tree.root
  compressed : Compressed tree.root

/-- The call removes a key whose node is `maxDepth` nodes or more below the root and has not two
children. -/
def Loses (tree : Tree) : Op → Prop
  | .insert _ _ => False
  | .remove key => Lost (nodeAt key.bytes.length 0 tree.root key.bytes)

theorem exec_compressed_iff {tree : Tree} (h : Tight tree) (op : Op) :
    Tight (exec tree op) ↔ ¬ Loses tree op := by
  cases op with
  | insert key value =>
    have hwf := (insertLoop_spec tree.valueFree h.wf key.noNul (Nat.le_refl _) value).1
    exact iff_of_true ⟨hwf, (insertLoop_compressed tree.valueFree value h.compressed).1⟩ id
  | remove key =>
    have hspec := removeLoop_spec tree.valueFree 0 h.wf (Nat.le_refl key.bytes.length)
    show Tight (remove tree key.bytes).2.1 ↔ ¬ Lost (nodeAt key.bytes.length 0 tree.root key.bytes)
    rw [remove]
    cases hrem : removeLoop tree.valueFree key.bytes.length 0 tree.root key.bytes with
    | none =>
      -- there is no such key
      refine iff_of_true h ?_
      rintro ⟨d, m, hfound, hval, -, -⟩
      exact removeLoop_found tree.valueFree hfound hval hrem
    | some res =>
      rw [hrem] at hspec
      constructor
      · intro htight hlost
        have hkey : key.bytes ≠ [] := by
          intro hnil
          rw [hnil] at hrem hlost
          have := (removeLoop_nil_loses _ hrem hlost).1
          exact absurd this (by decide)
        exact (removeLoop_loses _ h.compressed hkey hrem hlost).1 htight.compressed
      · intro hsafe
        exact ⟨hspec.2.1, (removeLoop_keeps _ h.compressed hrem hsafe).1⟩

theorem run_concat (tree : Tree) (ops : List Op) (op : Op) :
    run tree (ops ++ [op]) = exec (run tree ops) op := by
  rw [RadixTree.run, foldl_append]
  rfl

theorem tight_new (valueFree : Bool) : Tight (treeNew valueFree) :=
  ⟨(holds_new valueFree).wf, .mk nofun nofun⟩

theorem Tight.run {tree : Tree} (h : Tight tree) (ops : List Op)
    (hsafe : ∀ k op, ops[k]? = some op → ¬ Loses (run tree (ops.take k)) op) :
    Tight (run tree ops) := by
  induction ops generalizing tree with
  | nil => exact h
  | cons op ops ih =>
    have hstep : Tight (exec tree op) := (exec_compressed_iff h op).mpr (hsafe 0 op rfl)
    exact ih hstep fun k op' hk => hsafe (k + 1) op' hk

/-- In a run all trees are compressed just when no call of it loses a node. -/
theorem run_compressed_iff (valueFree : Bool) (ops : List Op) :
    (∀ k, Tight (run (treeNew valueFree) (ops.take k))) ↔
      ∀ k op, ops[k]? = some op → ¬ Loses (run (treeNew valueFree) (ops.take k)) op := by
  constructor
  · intro htight k op hk
    have hnext : run (treeNew valueFree) (ops.take (k + 1)) =
        exec (run (treeNew valueFree) (ops.take k)) op := by
      rw [take_add_one, hk]
      exact run_concat _ _ op
    rw [← exec_compressed_iff (htight k), ← hnext]
    exact htight (k + 1)
  · intro hsafe k
    refine (tight_new valueFree).run _ fun i op hi => ?_
    rw [getElem?_take] at hi
    split at hi
    · next hlt =>
      rw [take_take, Nat.min_eq_left (Nat.le_of_lt hlt)]
      exact hsafe i op hi
    · cases hi

/-! ## A deep key -/

def letterA : UInt8 := 0x61

/-- `a`, `aa`, and so on. -/
def manyAs (n : Nat) : Str := ⟨List.replicate n letterA, by
  intro h
  exact absurd (eq_of_mem_replicate h) (by decide)⟩

def chain (n : Nat) : List Op := (List.range n).map fun i => .insert (manyAs (i + 1)) none

/-- Nodes with a value, one below the other. -/
def stalk : Nat → Node
  | 0 => leafNew [letterA] none
  | n + 1 => { leafNew [letterA] none with children := [stalk n] }

theorem stalk_edge (n : Nat) : (stalk n).edge = [letterA] := by
  cases n <;> rfl

theorem stalk_findChild (n : Nat) :
    findChild letterA [stalk n] = some ([], stalk n, []) := by
  rw [findChild, stalk_edge]
  rfl

/-- The first byte of the key leads to the one child. -/
theorem insertLoop_through {n : Nat} (hm : m.children = [stalk n]) (fuel : Nat) :
    (insertLoop false none (fuel + 1) m (List.replicate (n + 2) letterA)).node =
      { m with children :=
        [(insertLoop false none fuel (stalk n) (List.replicate (n + 1) letterA)).node] } := by
  have hfind : findChild ((List.replicate (n + 2) letterA).headD 0) m.children =
      some ([], stalk n, []) := by
    rw [hm]
    exact stalk_findChild n
  have hmatch : matchLen (stalk n).edge (List.replicate (n + 2) letterA) = 1 := by
    rw [stalk_edge]
    rfl
  have hlen : 1 = (stalk n).edge.length := by
    rw [stalk_edge]
    rfl
  rw [insertLoop, if_neg (by simp)]
  simp only [hfind, hmatch]
  rw [if_pos hlen]
  rfl

theorem insertLoop_stalk (n fuel : Nat) (hfuel : n < fuel) :
    (insertLoop false none fuel (stalk n) (List.replicate (n + 1) letterA)).node =
      stalk (n + 1) := by
  obtain ⟨fuel, rfl⟩ : ∃ m, fuel = m + 1 := Nat.exists_eq_succ_of_ne_zero (by omega)
  induction n generalizing fuel with
  | zero => rfl
  | succ n ih =>
    obtain ⟨fuel, rfl⟩ : ∃ m, fuel = m + 1 := Nat.exists_eq_succ_of_ne_zero (by omega)
    rw [insertLoop_through rfl, ih fuel (by omega)]
    rfl

theorem run_chain (n : Nat) :
    (run (treeNew false) (chain (n + 1))).root = { nodeNew [] with children := [stalk n] } ∧
      (run (treeNew false) (chain (n + 1))).valueFree = false := by
  induction n with
  | zero => exact ⟨rfl, rfl⟩
  | succ n ih =>
    have hchain : chain (n + 2) = chain (n + 1) ++ [.insert (manyAs (n + 2)) none] := by
      rw [chain, range_succ, map_append]
      rfl
    rw [hchain, run_concat]
    generalize run (treeNew false) (chain (n + 1)) = tree at ih ⊢
    obtain ⟨hroot, hfree⟩ := ih
    refine ⟨?_, hfree⟩
    show (insertLoop tree.valueFree none (List.replicate (n + 2) letterA).length tree.root
      (List.replicate (n + 2) letterA)).node = _
    rw [hroot, hfree, length_replicate, insertLoop_through rfl,
      insertLoop_stalk n _ (Nat.lt_succ_self n)]

theorem nodeAt_through {n : Nat} (hm : m.children = [stalk n]) (fuel depth k : Nat) :
    nodeAt (fuel + 1) depth m (List.replicate (k + 1) letterA) =
      nodeAt fuel (depth + 1) (stalk n) (List.replicate k letterA) := by
  have hdescend : descend m (List.replicate (k + 1) letterA) = some ([], stalk n, []) := by
    have hfind : findChild ((List.replicate (k + 1) letterA).headD 0) m.children =
        some ([], stalk n, []) := by
      rw [hm]
      exact stalk_findChild n
    rw [descend, hfind]
    simp only [stalk_edge]
    rw [if_neg (by simp), if_neg (by simp [strncmp, replicate_succ])]
  rw [nodeAt, if_neg (by simp), hdescend]
  simp only [stalk_edge]
  rfl

theorem nodeAt_stalk (n fuel depth : Nat) (hfuel : n ≤ fuel) :
    nodeAt fuel depth (stalk n) (List.replicate n letterA) = some (depth + n, stalk 0) := by
  induction n generalizing fuel depth with
  | zero => exact nodeAt_nil _ _ _
  | succ n ih =>
    obtain ⟨fuel, rfl⟩ : ∃ m, fuel = m + 1 := Nat.exists_eq_succ_of_ne_zero (by omega)
    rw [nodeAt_through rfl, ih fuel _ (by omega)]
    congr 2
    omega

/-- The last of 128 keys, each a byte longer than the one before, leaves a node without a value
and without children. -/
theorem deep_key_stays :
    ¬ ∀ k, Tight (run (treeNew false) ((chain 128 ++ [Op.remove (manyAs 128)]).take k)) := by
  have hchain : Tight (run (treeNew false) (chain 128)) := by
    refine (tight_new false).run _ fun k op hk => ?_
    obtain ⟨i, -, rfl⟩ := mem_map.mp (mem_of_getElem? hk)
    exact id
  have hloses : Loses (run (treeNew false) (chain 128)) (.remove (manyAs 128)) := by
    rw [Loses, (run_chain 127).1]
    refine ⟨128, stalk 0, ?_, rfl, by rw [maxDepth], Nat.zero_lt_two⟩
    rw [manyAs, length_replicate, nodeAt_through rfl, nodeAt_stalk _ _ _ (Nat.le_refl _)]
  intro htight
  have hlast := htight 129
  rw [take_of_length_le (by simp [chain]), run_concat] at hlast
  exact (exec_compressed_iff hchain _).mp hlast hloses

end RadixTree

end AxlSdk
