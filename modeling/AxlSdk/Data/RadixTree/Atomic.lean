import AxlSdk.Data.RadixTree

/-!
# Insertion with failing allocations

`ok i` says whether the `i`-th allocation of a call succeeds, and `full` whether the array
of children of a node has no room for one more (`child_count >= child_cap`).

- `tryInsertLoop`, `tryInsert`: `axl_radix_tree_insert` with its error paths.
- `tryInsert_ok`: where the allocations succeed it is `insert`.
- `Same`: what an insertion that is given up leaves, also where the edge stays split.
- `insert_atomic_iff`: it leaves that unless an edge has been shortened and cannot be
  put together again.
-/

namespace AxlSdk

namespace RadixTree

open List

/-! ## The code -/

/-- What a call leaves, and whether it succeeds. -/
structure Attempt extends Inserted where
  ok : Bool

/-- The call is given up and leaves the node. -/
def Attempt.failed (node : Node) : Attempt := ⟨⟨node, false, []⟩, false⟩

/-- A new leaf takes the place behind the other children. -/
def tryLeaf (ok : Nat → Bool) (full : Node → Bool) (node : Node) (key : List UInt8)
    (value : Option Nat) : Attempt :=
  if ok 0 = false ∨ ok 1 = false then .failed node
  else if full node = true ∧ ok 2 = false then .failed node
  else ⟨⟨{ node with children := node.children ++ [leafNew key value] }, true, []⟩, true⟩

/-- The split of the edge of a child after `len` bytes, with the error paths: what takes the
place of the child. -/
def trySplit (ok : Nat → Bool) (child : Node) (len : Nat) (rest : List UInt8)
    (value : Option Nat) : Attempt :=
  if ok 0 = false ∨ ok 1 = false then .failed child
  else if ok 2 = false then .failed child
  else
    let lower := { child with edge := child.edge.drop len }
    let split := nodeNew (child.edge.take len)
    if ok 3 = false then
      -- the original edge, where there is memory for it
      if ok 4 then .failed { lower with edge := split.edge ++ lower.edge } else .failed lower
    else
      let split := { split with children := [lower] }
      if rest = [] then ⟨⟨{ split with value := value, hasValue := true }, true, []⟩, true⟩
      else if ok 4 = false ∨ ok 5 = false then .failed split
      else ⟨⟨{ split with children := split.children ++ [leafNew rest value] }, true, []⟩, true⟩

/-- The loop of `axl_radix_tree_insert`. -/
def tryInsertLoop (ok : Nat → Bool) (full : Node → Bool) (valueFree : Bool) (value : Option Nat) :
    Nat → Node → List UInt8 → Attempt
  | 0, node, _ => ⟨setValue valueFree node value, true⟩
  | fuel + 1, node, key =>
    if key = [] then ⟨setValue valueFree node value, true⟩
    else
      match findChild (key.headD 0) node.children with
      | none => tryLeaf ok full node key value
      | some (before, child, after) =>
        let len := matchLen child.edge key
        let r :=
          if len = child.edge.length then
            tryInsertLoop ok full valueFree value fuel child (key.drop len)
          else trySplit ok child len (key.drop len) value
        { r with node := { node with children := before ++ r.node :: after } }

/-- `axl_radix_tree_insert`: whether it succeeds, the tree and the values freed. -/
def tryInsert (ok : Nat → Bool) (full : Node → Bool) (tree : Tree) (key : List UInt8)
    (value : Option Nat) : Bool × Tree × List Nat :=
  let r := tryInsertLoop ok full tree.valueFree value key.length tree.root key
  (r.ok, { tree with root := r.node, size := tree.size + if r.added then 1 else 0 }, r.freed)

/-! ## When all allocations succeed -/

variable {ok : Nat → Bool} {full : Node → Bool} {valueFree : Bool} {value : Option Nat}
  {l r : List Node} {x y n n' : Node} {key : List UInt8}

/-! ## What a failed call leaves -/

/-- The child whose edge the insertion splits. -/
def splitChild : Nat → Node → List UInt8 → Option Node
  | 0, _, _ => none
  | fuel + 1, node, key =>
    if key = [] then none
    else
      match findChild (key.headD 0) node.children with
      | none => none
      | some (_, child, _) =>
        let len := matchLen child.edge key
        if len = child.edge.length then splitChild fuel child (key.drop len) else some child

/-- There is memory to shorten an edge, and then neither for what comes next nor for the original
edge. -/
structure NoWayBack (ok : Nat → Bool) : Prop where
  shortened : ok 0 = true ∧ ok 1 = true ∧ ok 2 = true
  stuck : ok 3 = false ∧ ok 4 = false

/-- The strings through a node, with their values. -/
def strings (n : Node) : List (List UInt8 × Option Nat) :=
  (below n).map fun p => (n.edge ++ p.1, p.2)

theorem belowKids_cons (x : Node) (cs : List Node) :
    belowKids (x :: cs) = strings x ++ belowKids cs := by
  rw [belowKids]
  rfl

theorem belowKids_append (l r : List Node) : belowKids (l ++ r) = belowKids l ++ belowKids r := by
  induction l with
  | nil => rfl
  | cons x l ih => rw [cons_append, belowKids_cons, belowKids_cons, ih, append_assoc]

theorem belowKids_middle (l : List Node) (x : Node) (r : List Node) :
    belowKids (l ++ x :: r) = belowKids l ++ (strings x ++ belowKids r) := by
  rw [belowKids_append, belowKids_cons]

/-- A node that can take the place of `x`, and leads to the same. -/
structure Same (x y : Node) : Prop where
  wf : Wf y
  first : y.edge.headD 0 = x.edge.headD 0
  edge : x.edge ≠ [] → y.edge ≠ []
  nul : 0 ∉ x.edge → 0 ∉ y.edge
  strings : strings y = strings x

theorem Same.refl (h : Wf x) : Same x x := ⟨h, rfl, id, id, rfl⟩

theorem Same.through (h : Wf n) (hsplit : n.children = l ++ x :: r) (hs : Same x y) :
    Same n { n with children := l ++ y :: r } := by
  have hkids := wf_iff.mp h
  rw [hsplit] at hkids
  obtain ⟨-, -, hne, hnul, -⟩ := hkids.middle
  refine ⟨wf_iff.mpr (hkids.replace hs.wf (hs.edge hne) (hs.nul hnul) hs.first), rfl, id, id, ?_⟩
  rw [RadixTree.strings, RadixTree.strings, below_eq, below_eq n, hsplit, belowKids_middle,
    belowKids_middle, hs.strings]

/-- An edge in two parts leads to the same as a whole one. -/
theorem Same.split (h : Wf x) (hnul : 0 ∉ x.edge) {len : Nat} (hpos : 0 < len)
    (hlen : len < x.edge.length) :
    Same x { nodeNew (x.edge.take len) with children := [{ x with edge := x.edge.drop len }] } := by
  have hsplit : x.edge.take len ++ x.edge.drop len = x.edge := take_append_drop len x.edge
  have hlower : x.edge.drop len ≠ [] := by
    rw [ne_eq, drop_eq_nil_iff]
    omega
  have hupper : x.edge.take len ≠ [] := by
    refine length_pos_iff.mp ?_
    rw [length_take]
    omega
  refine ⟨wf_iff.mpr ⟨?_, pairwise_singleton _ _, ?_⟩, ?_, fun _ => hupper,
    fun _ hmem => hnul (mem_of_mem_take hmem), ?_⟩
  · intro c hc
    rw [mem_singleton.mp hc]
    exact ⟨hlower, fun hmem => hnul (mem_of_mem_drop hmem)⟩
  · intro c hc
    rw [mem_singleton.mp hc]
    exact wf_edge _ h
  · show (x.edge.take len).headD 0 = x.edge.headD 0
    conv_rhs => rw [← hsplit]
    exact (headD_append hupper).symm
  · have hbelow : below { nodeNew (x.edge.take len) with
        children := [{ x with edge := x.edge.drop len }] } =
        (below x).map fun p => (x.edge.drop len ++ p.1, p.2) := by
      rw [below_eq]
      show [] ++ belowKids [{ x with edge := x.edge.drop len }] = _
      rw [belowKids_cons, nil_append, belowKids, append_nil, RadixTree.strings, below_eq,
        below_eq x]
    rw [RadixTree.strings, hbelow, map_map, RadixTree.strings]
    refine map_congr_left fun p _ => ?_
    show (x.edge.take len ++ (x.edge.drop len ++ p.1), p.2) = (x.edge ++ p.1, p.2)
    rw [← append_assoc, hsplit]

theorem edge_parts (x : Node) (len : Nat) :
    ({ x with edge := (nodeNew (x.edge.take len)).edge ++ x.edge.drop len } : Node) = x := by
  cases x
  simp [nodeNew]

theorem trySplit_same (h : Wf x) (hnul : 0 ∉ x.edge) {len : Nat} (hpos : 0 < len)
    (hlen : len < x.edge.length) {rest : List UInt8} (hback : ¬ NoWayBack ok)
    (hfail : (trySplit ok x len rest value).ok = false) :
    Same x (trySplit ok x len rest value).node ∧ (trySplit ok x len rest value).added = false := by
  rw [trySplit] at hfail ⊢
  by_cases h₀₁ : ok 0 = false ∨ ok 1 = false
  · rw [if_pos h₀₁]
    exact ⟨.refl h, rfl⟩
  rw [if_neg h₀₁] at hfail ⊢
  by_cases h₂ : ok 2 = false
  · rw [if_pos h₂]
    exact ⟨.refl h, rfl⟩
  rw [if_neg h₂] at hfail ⊢
  simp only at hfail ⊢
  by_cases h₃ : ok 3 = false
  · -- the edge is put together again
    rw [if_pos h₃]
    have h₄ : ok 4 = true := by
      by_contra h₄
      rw [not_or, Bool.not_eq_false, Bool.not_eq_false] at h₀₁
      rw [Bool.not_eq_false] at h₂
      exact hback ⟨⟨h₀₁.1, h₀₁.2, h₂⟩, h₃, Bool.eq_false_iff.mpr h₄⟩
    rw [if_pos h₄]
    exact ⟨(edge_parts x len).symm ▸ .refl h, rfl⟩
  rw [if_neg h₃] at hfail ⊢
  by_cases hrest : rest = []
  · rw [if_pos hrest] at hfail
    cases hfail
  rw [if_neg hrest] at hfail ⊢
  by_cases h₄₅ : ok 4 = false ∨ ok 5 = false
  · rw [if_pos h₄₅]
    exact ⟨.split h hnul hpos hlen, rfl⟩
  · rw [if_neg h₄₅] at hfail
    cases hfail

theorem tryInsertLoop_same {fuel : Nat} (h : Wf n)
    (hback : ¬ (NoWayBack ok ∧ (splitChild fuel n key).isSome))
    (hfail : (tryInsertLoop ok full valueFree value fuel n key).ok = false) :
    Same n (tryInsertLoop ok full valueFree value fuel n key).node ∧
      (tryInsertLoop ok full valueFree value fuel n key).node.edge = n.edge ∧
      (tryInsertLoop ok full valueFree value fuel n key).added = false := by
  induction fuel generalizing n key with
  | zero => cases hfail
  | succ fuel ih =>
    rw [splitChild] at hback
    rw [tryInsertLoop] at hfail ⊢
    by_cases hkey : key = []
    · rw [if_pos hkey] at hfail
      cases hfail
    rw [if_neg hkey] at hback hfail ⊢
    cases hf : findChild (key.headD 0) n.children with
    | none =>
      rw [hf] at hfail
      change (tryLeaf ok full n key value).ok = false at hfail
      show Same n (tryLeaf ok full n key value).node ∧ _ ∧ (tryLeaf ok full n key value).added = false
      obtain hfailed : tryLeaf ok full n key value = .failed n := by
        rw [tryLeaf] at hfail ⊢
        split
        · rfl
        next h₀₁ =>
        rw [if_neg h₀₁] at hfail
        split
        · rfl
        next hfull =>
        rw [if_neg hfull] at hfail
        cases hfail
      rw [hfailed]
      exact ⟨.refl h, rfl, rfl⟩
    | some p =>
      obtain ⟨l, x, r⟩ := p
      obtain ⟨hsplit, hhead⟩ := findChild_some hf
      obtain ⟨hne, hnul⟩ := (wf_iff.mp h).edges x (hsplit ▸ by simp)
      have hx := (wf_iff.mp h).children x (hsplit ▸ by simp)
      rw [hf] at hback hfail
      simp only at hback hfail ⊢
      by_cases hlen : matchLen x.edge key = x.edge.length
      · rw [if_pos hlen] at hback hfail ⊢
        obtain ⟨hsame, -, hadded⟩ := ih hx hback hfail
        exact ⟨hsame.through h hsplit, trivial, hadded⟩
      · rw [if_neg hlen] at hback hfail ⊢
        have hlt : matchLen x.edge key < x.edge.length :=
          lt_of_le_of_ne matchLen_le.1 hlen
        obtain ⟨hsame, hadded⟩ := trySplit_same hx hnul (matchLen_pos hne hkey hhead) hlt
          (fun hno => hback ⟨hno, rfl⟩) hfail
        exact ⟨hsame.through h hsplit, trivial, hadded⟩

/-! ## An edge that stays short -/

/-- The bytes of some strings. -/
def weight (ps : List (List UInt8 × Option Nat)) : Nat := (ps.map fun p => p.1.length).sum

theorem weight_append (ps qs : List (List UInt8 × Option Nat)) :
    weight (ps ++ qs) = weight ps + weight qs := by
  rw [weight, map_append, sum_append]
  rfl

theorem weight_map (edge : List UInt8) (ps : List (List UInt8 × Option Nat)) :
    weight (ps.map fun p => (edge ++ p.1, p.2)) = ps.length * edge.length + weight ps := by
  induction ps with
  | nil => rw [map_nil, length_nil, Nat.zero_mul, Nat.zero_add]
  | cons p ps ih =>
    simp only [weight, map_cons, sum_cons, length_append, length_cons] at ih ⊢
    rw [ih, Nat.succ_mul]
    omega

/-- A node in the place of `x` that leads to as many strings, with fewer bytes. -/
structure Shorter (x y : Node) : Prop where
  nulFree : NulFree y
  nul : 0 ∉ x.edge → 0 ∉ y.edge
  count : (strings y).length = (strings x).length
  weight : weight (strings y) < weight (strings x)

theorem Shorter.through (h : Wf n) (hsplit : n.children = l ++ x :: r) (hs : Shorter x y) :
    Shorter n { n with children := l ++ y :: r } := by
  have hkids := wf_iff.mp h
  have hother : ∀ c ∈ l ++ y :: r, c = y ∨ c ∈ n.children := by
    intro c hc
    rw [hsplit]
    simp only [mem_append, mem_cons] at hc ⊢
    tauto
  have hnul : 0 ∉ x.edge := (hkids.edges x (hsplit ▸ by simp)).2
  refine ⟨⟨fun c hc => ?_, fun c hc => ?_⟩, id, ?_, ?_⟩
  · rcases hother c hc with rfl | hc
    · exact hs.nul hnul
    · exact (hkids.edges c hc).2
  · rcases hother c hc with rfl | hc
    · exact hs.nulFree
    · exact (hkids.children c hc).nulFree
  · rw [strings, strings, below_eq, below_eq n, hsplit, belowKids_middle, belowKids_middle]
    simp only [length_map, length_append, hs.count]
  · have hweight := hs.weight
    rw [strings, strings, below_eq, below_eq n, hsplit, belowKids_middle, belowKids_middle]
    simp only [weight_map, weight_append, length_append, hs.count]
    omega

theorem trySplit_shorter (h : Wf x) {len : Nat} (hpos : 0 < len) (hlen : len < x.edge.length)
    (hlive : below x ≠ []) (hback : NoWayBack ok) (rest : List UInt8) :
    Shorter x (trySplit ok x len rest value).node ∧ (trySplit ok x len rest value).ok = false := by
  obtain ⟨⟨h₀, h₁, h₂⟩, h₃, h₄⟩ := hback
  have hfailed : trySplit ok x len rest value = .failed { x with edge := x.edge.drop len } := by
    simp [trySplit, h₀, h₁, h₂, h₃, h₄]
  rw [hfailed]
  have hbelow : below { x with edge := x.edge.drop len } = below x := by
    rw [below_eq, below_eq x]
  have hkids := wf_iff.mp h
  refine ⟨⟨⟨fun c hc => (hkids.edges c hc).2, fun c hc => (hkids.children c hc).nulFree⟩,
    fun hnul hmem => hnul (mem_of_mem_drop hmem), ?_, ?_⟩, rfl⟩
  · show (strings { x with edge := x.edge.drop len }).length = _
    rw [strings, strings, hbelow, length_map, length_map]
  · show weight (strings { x with edge := x.edge.drop len }) < _
    rw [strings, strings, hbelow, weight_map, weight_map]
    refine Nat.add_lt_add_right (Nat.mul_lt_mul_of_pos_left ?_ (length_pos_iff.mpr hlive)) _
    show (x.edge.drop len).length < x.edge.length
    rw [length_drop]
    omega

theorem tryInsertLoop_shorter (full : Node → Bool) (valueFree : Bool) (value : Option Nat)
    {fuel : Nat} (h : Wf n) (hback : NoWayBack ok) {child : Node}
    (hchild : splitChild fuel n key = some child) (hlive : below child ≠ []) :
    Shorter n (tryInsertLoop ok full valueFree value fuel n key).node ∧
      (tryInsertLoop ok full valueFree value fuel n key).node.edge = n.edge ∧
      (tryInsertLoop ok full valueFree value fuel n key).ok = false := by
  induction fuel generalizing n key with
  | zero => cases hchild
  | succ fuel ih =>
    rw [splitChild] at hchild
    rw [tryInsertLoop]
    by_cases hkey : key = []
    · rw [if_pos hkey] at hchild
      cases hchild
    rw [if_neg hkey] at hchild ⊢
    cases hf : findChild (key.headD 0) n.children with
    | none =>
      rw [hf] at hchild
      cases hchild
    | some p =>
      obtain ⟨l, x, r⟩ := p
      obtain ⟨hsplit, hhead⟩ := findChild_some hf
      obtain ⟨hne, -⟩ := (wf_iff.mp h).edges x (hsplit ▸ by simp)
      have hx := (wf_iff.mp h).children x (hsplit ▸ by simp)
      rw [hf] at hchild
      simp only at hchild ⊢
      by_cases hlen : matchLen x.edge key = x.edge.length
      · rw [if_pos hlen] at hchild ⊢
        obtain ⟨hshort, -, hfail⟩ := ih hx hchild
        exact ⟨hshort.through h hsplit, trivial, hfail⟩
      · rw [if_neg hlen] at hchild ⊢
        obtain rfl := Option.some.inj hchild
        obtain ⟨hshort, hfail⟩ := trySplit_shorter hx (matchLen_pos hne hkey hhead)
          (lt_of_le_of_ne matchLen_le.1 hlen) hlive hback (key.drop (matchLen x.edge key))
        exact ⟨hshort.through h hsplit, trivial, hfail⟩

/-! ## The tree -/

/-- The same to look up, to count and to list. -/
def Unchanged (fresh : Nat → UInt8) (tree tree' : Tree) : Prop :=
  (∀ key, lookup tree' key = lookup tree key) ∧ tree'.size = tree.size ∧
    foreach fresh tree' = foreach fresh tree

/-- An insertion that fails has changed nothing. -/
def Atomic (ok : Nat → Bool) (full : Node → Bool) (fresh : Nat → UInt8) (tree : Tree) (key : Str)
    (value : Option Nat) : Prop :=
  (tryInsert ok full tree key.bytes value).1 = false →
    Unchanged fresh tree (tryInsert ok full tree key.bytes value).2.1

theorem strings_root {tree : Tree} (hedge : tree.root.edge = []) :
    strings tree.root = below tree.root := by
  rw [strings, hedge]
  exact map_id _

theorem Same.unchanged {tree tree' : Tree} (fresh : Nat → UInt8) (h : Wf tree.root)
    (hedge : tree.root.edge = []) (hedge' : tree'.root.edge = []) (hsize : tree'.size = tree.size)
    (hs : Same tree.root tree'.root) : Unchanged fresh tree tree' := by
  have hbelow : below tree'.root = below tree.root := by
    rw [← strings_root hedge', ← strings_root hedge, hs.strings]
  refine ⟨fun key => ?_, hsize, ?_⟩
  · obtain ⟨h₁, h₂⟩ := lookupLoop_spec h (Nat.le_refl key.length)
    obtain ⟨h₃, h₄⟩ := lookupLoop_spec hs.wf (Nat.le_refl key.length)
    rw [lookup, lookup]
    by_cases hkey : ∃ v, Has tree.root key v
    · obtain ⟨v, hv⟩ := hkey
      rw [h₁ v hv, h₃ v ((mem_below _ _ _).mp (hbelow ▸ (mem_below _ _ _).mpr hv))]
    · rw [not_exists] at hkey
      rw [h₂ hkey, h₄ fun v hv => hkey v ((mem_below _ _ _).mp (hbelow ▸ (mem_below _ _ _).mpr hv))]
  · rw [foreach_eq fresh hs.wf.nulFree hedge', foreach_eq fresh h.nulFree hedge, hbelow]

/-- A failed insertion has changed nothing unless an edge stays short; and where strings go
through that edge, it has lost them. -/
theorem insert_atomic_iff (ok : Nat → Bool) (full : Node → Bool) (fresh : Nat → UInt8) {tree : Tree}
    (h : Wf tree.root) (hedge : tree.root.edge = []) (key : Str) (value : Option Nat) :
    (¬ (NoWayBack ok ∧ (splitChild key.bytes.length tree.root key.bytes).isSome) →
      Atomic ok full fresh tree key value) ∧
    ∀ child, splitChild key.bytes.length tree.root key.bytes = some child →
      (∃ s v, Has child s v) → (Atomic ok full fresh tree key value ↔ ¬ NoWayBack ok) := by
  have hsafe : ¬ (NoWayBack ok ∧ (splitChild key.bytes.length tree.root key.bytes).isSome) →
      Atomic ok full fresh tree key value := by
    intro hback hfail
    obtain ⟨hsame, hroot, hadded⟩ := tryInsertLoop_same h hback hfail
    refine hsame.unchanged fresh h hedge (hroot.trans hedge) ?_
    show tree.size + (if _ then 1 else 0) = tree.size
    rw [hadded]
    rfl
  refine ⟨hsafe, fun child hchild hlive => ⟨fun hatomic hback => ?_, fun hback =>
    hsafe fun hno => hback hno.1⟩⟩
  have hbelow : below child ≠ [] := by
    obtain ⟨s, v, hv⟩ := hlive
    exact ne_nil_of_mem ((mem_below child s v).mpr hv)
  obtain ⟨hshort, hroot, hfail⟩ := tryInsertLoop_shorter full tree.valueFree value h hback hchild
    hbelow
  obtain ⟨-, -, hlist⟩ := hatomic hfail
  have hedge' : (tryInsert ok full tree key.bytes value).2.1.root.edge = [] := hroot.trans hedge
  have hweight : weight (strings (tryInsert ok full tree key.bytes value).2.1.root) <
      weight (strings tree.root) := hshort.weight
  rw [strings_root hedge, strings_root hedge', ← foreach_eq fresh h.nulFree hedge,
    ← foreach_eq fresh hshort.nulFree hedge', hlist] at hweight
  exact Nat.lt_irrefl _ hweight

/-- `ab` is in the tree. -/
def onlyAb : Tree := (insert (treeNew false) [0x61, 0x62] (some 1)).1

def keyAc : Str := ⟨[0x61, 0x63], by decide⟩

theorem insert_atomic_iff_ac :
    Atomic (fun _ => false) (fun _ => false) (fun _ => 0) onlyAb keyAc (some 2) := by
  have hnul : (0 : UInt8) ∉ [0x61, 0x62] := by decide
  obtain ⟨hwf, hedge, -⟩ :=
    insertLoop_spec false (holds_new false).wf hnul (Nat.le_refl 2) (some 1)
  have hroot : Wf onlyAb.root := hwf
  refine (insert_atomic_iff (fun _ => false) (fun _ => false) (fun _ => 0) hroot hedge _ _).1 ?_
  rintro ⟨hback, -⟩
  cases hback.shortened.1

/-- There is memory for three allocations of the insertion of `ac`: the edge is shortened, and
neither the array of the children nor the whole edge can be had. -/
theorem edge_stays_short :
    ¬ Atomic (fun i => decide (i < 3)) (fun _ => false) (fun _ => 0) onlyAb keyAc (some 2) := by
  intro hatomic
  have hlost : (tryInsert (fun i => decide (i < 3)) (fun _ => false) onlyAb keyAc.bytes
      (some 2)).1 = false ∧ lookup onlyAb [0x61, 0x62] = some 1 ∧
      lookup (tryInsert (fun i => decide (i < 3)) (fun _ => false) onlyAb keyAc.bytes
        (some 2)).2.1 [0x61, 0x62] = none := by
    decide +kernel
  have hsame := (hatomic hlost.1).1 [0x61, 0x62]
  rw [hlost.2.1, hlost.2.2] at hsame
  cases hsame

end RadixTree

end AxlSdk
