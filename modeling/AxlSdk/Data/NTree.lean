import AxlSdk.Lib.Linked

/-!
# The n-ary tree (`src/data/axl-ntree.c`)

Nodes are linked by `parent`, `prev`, `next` and `children` pointers; here a
pointer is the number of a node in the `Store`, in the order of `axl_ntree_new`.
The link operations are modelled write by write.

- `IsForest`: no node is above itself, and the children of every node are the
  doubly linked list of the nodes that have it as parent.
- `run_forest`: every run keeps the forest, if no call attaches a root below
  itself; `append_to_itself` shows that `axl_ntree_append_child` does not check.
-/

namespace AxlSdk

namespace NTree

open Linked

/-! ## Nodes -/

/-- `AxlNTree`. -/
structure Node (α : Type) where
  data : Option α
  parent : Option Nat
  prev : Option Nat
  next : Option Nat
  children : Option Nat

/-- The nodes made so far. -/
structure Store (α : Type) where
  node : Nat → Node α
  count : Nat

variable {α : Type}

namespace Store

/-- No nodes. -/
def empty : Store α := ⟨fun _ => ⟨none, none, none, none, none⟩, 0⟩

def setParent (s : Store α) (i : Nat) (v : Option Nat) : Store α :=
  { s with node := Function.update s.node i { s.node i with parent := v } }

def setPrev (s : Store α) (i : Nat) (v : Option Nat) : Store α :=
  { s with node := Function.update s.node i { s.node i with prev := v } }

def setNext (s : Store α) (i : Nat) (v : Option Nat) : Store α :=
  { s with node := Function.update s.node i { s.node i with next := v } }

def setChildren (s : Store α) (i : Nat) (v : Option Nat) : Store α :=
  { s with node := Function.update s.node i { s.node i with children := v } }

def parent (s : Store α) (i : Nat) : Option Nat := (s.node i).parent

def prev (s : Store α) (i : Nat) : Option Nat := (s.node i).prev

def next (s : Store α) (i : Nat) : Option Nat := (s.node i).next

def children (s : Store α) (i : Nat) : Option Nat := (s.node i).children

end Store

open Store

/-- `axl_ntree_new`. -/
def ntreeNew (s : Store α) (data : Option α) : Nat × Store α :=
  (s.count, ⟨Function.update s.node s.count ⟨data, none, none, none, none⟩, s.count + 1⟩)

/-- Write through a pointer, if it is not NULL. -/
def through (p : Option Nat) (f : Nat → Store α) (s : Store α) : Store α :=
  match p with
  | none => s
  | some i => f i

/-- `axl_ntree_unlink`. -/
def unlink (s : Store α) (node : Option Nat) : Store α :=
  match node with
  | none => s
  | some n =>
    match s.parent n with
    | none => s
    | some p =>
      let s :=
        match s.prev n with
        | some q => s.setNext q (s.next n)
        | none => s.setChildren p (s.next n)
      let s := through (s.next n) (fun q => s.setPrev q (s.prev n)) s
      ((s.setParent n none).setPrev n none).setNext n none

/-- `axl_ntree_prepend_child`. -/
def prependChild (s : Store α) (parent child : Option Nat) : Option Nat × Store α :=
  match parent, child with
  | some p, some c =>
    if s.parent c ≠ none then (none, s)
    else
      let s := s.setParent c (some p)
      let s := s.setPrev c none
      let s := s.setNext c (s.children p)
      let s := through (s.children p) (fun x => s.setPrev x (some c)) s
      (some c, s.setChildren p (some c))
  | _, _ => (none, s)

/-- `axl_ntree_insert_after`. -/
def insertAfter (s : Store α) (parent sibling child : Option Nat) : Option Nat × Store α :=
  match parent, child with
  | some p, some c =>
    if s.parent c ≠ none then (none, s)
    else
      match sibling with
      | none => prependChild s (some p) (some c)
      | some b =>
        if s.parent b ≠ some p then (none, s)
        else
          let s := s.setParent c (some p)
          let s := s.setPrev c (some b)
          let s := s.setNext c (s.next b)
          let s := through (s.next b) (fun x => s.setPrev x (some c)) s
          (some c, s.setNext b (some c))
  | _, _ => (none, s)

/-- The loop of `axl_ntree_append_child` to the last child. -/
def lastLoop (s : Store α) : Nat → Nat → Nat
  | 0, last => last
  | fuel + 1, last =>
    match s.next last with
    | none => last
    | some x => lastLoop s fuel x

/-- `axl_ntree_append_child`. A child list has no more than `count` nodes. -/
def appendChild (s : Store α) (parent child : Option Nat) : Option Nat × Store α :=
  match parent, child with
  | some p, some c =>
    if s.parent c ≠ none then (none, s)
    else
      match s.children p with
      | none => prependChild s (some p) (some c)
      | some first => insertAfter s (some p) (some (lastLoop s s.count first)) (some c)
  | _, _ => (none, s)

/-- `axl_ntree_insert_before`. -/
def insertBefore (s : Store α) (parent sibling child : Option Nat) : Option Nat × Store α :=
  match parent, child with
  | some p, some c =>
    if s.parent c ≠ none then (none, s)
    else
      match sibling with
      | none => appendChild s (some p) (some c)
      | some b =>
        if s.parent b ≠ some p then (none, s)
        else insertAfter s (some p) (s.prev b) (some c)
  | _, _ => (none, s)

/-- The loop of `axl_ntree_is_ancestor`. -/
def isAncestorLoop (s : Store α) (node : Nat) : Nat → Option Nat → Bool
  | _, none => false
  | 0, some _ => false
  | fuel + 1, some p => if p = node then true else isAncestorLoop s node fuel (s.parent p)

/-- `axl_ntree_is_ancestor`. No node has more than `count` nodes above it. -/
def isAncestor (s : Store α) (node descendant : Option Nat) : Bool :=
  match node, descendant with
  | some n, some d => isAncestorLoop s n s.count (s.parent d)
  | _, _ => false

/-- `ntree_move_ok`. -/
def moveOk (s : Store α) (parent sibling node : Option Nat) : Bool :=
  match parent, node with
  | some p, some n =>
    if sibling = some n then false
    else if sibling.any fun b => s.parent b ≠ some p then false
    else !(n = p || isAncestor s (some n) (some p))
  | _, _ => false

/-- `axl_ntree_move_after`. -/
def moveAfter (s : Store α) (parent sibling node : Option Nat) : Option Nat × Store α :=
  if moveOk s parent sibling node then insertAfter (unlink s node) parent sibling node
  else (none, s)

/-- `axl_ntree_move_before`. -/
def moveBefore (s : Store α) (parent sibling node : Option Nat) : Option Nat × Store α :=
  if moveOk s parent sibling node then insertBefore (unlink s node) parent sibling node
  else (none, s)

/-! ## Runs -/

/-- The calls that link a node below another. -/
inductive LinkKind where
  | append
  | prepend
  | insertAfter
  | insertBefore
  | moveAfter
  | moveBefore
  deriving DecidableEq, Repr

/-- A link call; `append` and `prepend` have no sibling. -/
def link (s : Store α) (kind : LinkKind) (parent sibling node : Option Nat) :
    Option Nat × Store α :=
  match kind with
  | .append => appendChild s parent node
  | .prepend => prependChild s parent node
  | .insertAfter => insertAfter s parent sibling node
  | .insertBefore => insertBefore s parent sibling node
  | .moveAfter => moveAfter s parent sibling node
  | .moveBefore => moveBefore s parent sibling node

/-- The calls of a run. -/
inductive Op (α : Type) where
  | new (data : Option α)
  | unlink (node : Option Nat)
  | link (kind : LinkKind) (parent sibling node : Option Nat)

/-- The nodes after a call. -/
def exec (s : Store α) : Op α → Store α
  | .new data => (ntreeNew s data).2
  | .unlink node => unlink s node
  | .link kind parent sibling node => (link s kind parent sibling node).2

/-- The nodes after a run. -/
def run (s : Store α) (ops : List (Op α)) : Store α := ops.foldl exec s

/-- A pointer to one of the nodes made so far, or NULL. -/
def Points (s : Store α) (p : Option Nat) : Prop := ∀ i, p = some i → i < s.count

/-- The arguments of a call are nodes that exist. -/
def Existing (s : Store α) : Op α → Prop
  | .new _ => True
  | .unlink node => Points s node
  | .link _ parent sibling node => Points s parent ∧ Points s sibling ∧ Points s node

/-- The sibling a call reads. -/
def LinkKind.sibling (kind : LinkKind) (sibling : Option Nat) : Option Nat :=
  match kind with
  | .append | .prepend => none
  | _ => sibling

/-- The call links a root below itself. The two moves look for that with
`ntree_move_ok`, the other calls do not. -/
def BelowItself (s : Store α) : Op α → Prop
  | .link kind parent sibling node =>
    kind ≠ .moveAfter ∧ kind ≠ .moveBefore ∧
      ∃ p c, parent = some p ∧ node = some c ∧ s.parent c = none ∧
        (∀ b, kind.sibling sibling = some b → s.parent b = some p) ∧
        (c = p ∨ isAncestor s (some c) (some p) = true)
  | _ => False

/-- Every call of a run meets `P` in the state it is made in. -/
def Always (P : Store α → Op α → Prop) (s : Store α) : List (Op α) → Prop
  | [] => True
  | op :: ops => P s op ∧ Always P (exec s op) ops

/-! ## Forests -/

/-- The links form a forest. -/
structure IsForest (s : Store α) : Prop where
  acyclic : ∀ n, ¬ Relation.TransGen (Up s.parent) n n
  children : ∃ kids : Nat → List Nat, ∀ p, (kids p).Nodup ∧ s.children p = (kids p).head? ∧
    Seg s.prev s.next none (kids p) none ∧ ∀ c, c ∈ kids p ↔ s.parent c = some p

/-- The invariant: `kids p` lists the children of `p`. -/
structure Wf (s : Store α) (kids : Nat → List Nat) : Prop where
  first : ∀ p, s.children p = (kids p).head?
  seg : ∀ p, Seg s.prev s.next none (kids p) none
  mem : ∀ c p, c ∈ kids p ↔ s.parent c = some p
  nodup : ∀ p, (kids p).Nodup
  ranked : Ranked s.parent
  bound : ∀ c p, s.parent c = some p → c < s.count ∧ p < s.count

variable {kids : Nat → List Nat}

theorem Wf.isForest {s : Store α} (h : Wf s kids) : IsForest s :=
  ⟨h.ranked.acyclic, kids, fun p => ⟨h.nodup p, h.first p, h.seg p, fun c => h.mem c p⟩⟩

theorem wf_empty : Wf (Store.empty : Store α) fun _ => [] :=
  ⟨fun _ => rfl, fun _ => trivial, fun _ _ => by simp [Store.empty, parent], fun _ => List.nodup_nil,
    ⟨fun _ => 0, fun _ _ h => by simp [Store.empty, parent] at h⟩,
    fun _ _ h => by simp [Store.empty, parent] at h⟩

variable {p c : Nat}

/-- Children of different parents are different. -/
theorem Wf.disjoint {s : Store α} (h : Wf s kids) {q : Nat} (hp : c ∈ kids p) (hq : c ∈ kids q) :
    p = q :=
  Option.some.inj (((h.mem c p).mp hp).symm.trans ((h.mem c q).mp hq))

/-- No child list is longer than the number of nodes. -/
theorem Wf.length_le {s : Store α} (h : Wf s kids) (p : Nat) :
    (kids p).length ≤ s.count := by
  have hsub : kids p ⊆ List.range s.count := by
    intro c hc
    exact List.mem_range.mpr (h.bound c p ((h.mem c p).mp hc)).1
  have := ((h.nodup p).subperm hsub).length_le
  simpa using this

/-! ### A new node -/

theorem wf_new {s : Store α} (h : Wf s kids) (data : Option α) :
    Wf (ntreeNew s data).2 kids := by
  -- the address of the new node is not linked anywhere
  have hparent : s.parent s.count = none := by
    cases hp : s.parent s.count with
    | none => rfl
    | some p => exact absurd (h.bound _ _ hp).1 (Nat.lt_irrefl _)
  have hkids : kids s.count = [] := by
    cases hk : kids s.count with
    | nil => rfl
    | cons c cs =>
      have := (h.bound c s.count ((h.mem c s.count).mp (by simp [hk]))).2
      omega
  have hpar : (ntreeNew s data).2.parent = s.parent := by
    funext x
    by_cases hx : x = s.count
    · subst hx
      rw [hparent]
      simp [ntreeNew, parent]
    · simp [ntreeNew, parent, hx]
  have hmem : ∀ {c p}, c ∈ kids p → c ≠ s.count := by
    intro c p hc
    have := (h.bound c p ((h.mem c p).mp hc)).1
    omega
  refine ⟨?_, ?_, ?_, h.nodup, hpar ▸ h.ranked, ?_⟩
  · intro p
    by_cases hp : p = s.count
    · subst hp
      simp [ntreeNew, children, hkids]
    · rw [← h.first p]
      simp [ntreeNew, children, hp]
  · intro p
    refine (h.seg p).congr ?_ ?_
    · intro c hc
      simp [ntreeNew, prev, hmem hc]
    · intro c hc
      simp [ntreeNew, next, hmem hc]
  · intro c p
    rw [hpar]
    exact h.mem c p
  · intro c p hc
    rw [hpar] at hc
    have := h.bound c p hc
    simp only [ntreeNew]
    omega

/-! ### Attaching -/

/-- The root `c` comes between `l` and `r` among the children of `p`. -/
structure Attached (s s' : Store α) (p c : Nat) (l r : List Nat) : Prop where
  parent : s'.parent = Function.update s.parent c (some p)
  children : ∀ x, s'.children x = if x = p then (l ++ c :: r).head? else s.children x
  prev : ∀ x, s'.prev x =
    if x = c then l.getLast? else if r.head? = some x then some c else s.prev x
  next : ∀ x, s'.next x =
    if x = c then r.head? else if l.getLast? = some x then some c else s.next x
  count : s'.count = s.count

variable {l r : List Nat}

theorem Wf.attach {s s' : Store α} (h : Wf s kids) (ha : Attached s s' p c l r)
    (hkids : kids p = l ++ r) (hroot : s.parent c = none)
    (hfree : ¬ Relation.ReflTransGen (Up s.parent) p c) (hp : p < s.count) (hc : c < s.count) :
    Wf s' (Function.update kids p (l ++ c :: r)) := by
  have hnodup : (l ++ r).Nodup := hkids ▸ h.nodup p
  -- a root is in no child list
  have hnot : ∀ q, c ∉ kids q := by
    intro q hq
    rw [(h.mem c q).mp hq] at hroot
    cases hroot
  have hlast : ∀ {x}, l.getLast? = some x → x ∈ l := fun hx => List.mem_of_getLast? hx
  have hhead : ∀ {x}, r.head? = some x → x ∈ r := fun hx => List.mem_of_mem_head? hx
  refine ⟨?_, ?_, ?_, ?_, ?_, ?_⟩
  · intro q
    rw [ha.children]
    by_cases hq : q = p
    · subst hq
      rw [if_pos rfl, Function.update_self]
    · rw [if_neg hq, Function.update_of_ne hq]
      exact h.first q
  · intro q
    by_cases hq : q = p
    · subst hq
      rw [Function.update_self]
      exact (hkids ▸ h.seg q).insert hnodup (hkids ▸ hnot q) ha.prev ha.next
    · rw [Function.update_of_ne hq]
      -- the other lists are not touched
      have hother : ∀ x ∈ kids q, x ≠ c ∧ r.head? ≠ some x ∧ l.getLast? ≠ some x := by
        intro x hx
        refine ⟨fun h => hnot q (h ▸ hx), fun hr => ?_, fun hl => ?_⟩
        · exact hq (h.disjoint hx (hkids ▸ List.mem_append_right l (hhead hr)))
        · exact hq (h.disjoint hx (hkids ▸ List.mem_append_left r (hlast hl)))
      refine (h.seg q).congr ?_ ?_
      · intro x hx
        obtain ⟨h₁, h₂, -⟩ := hother x hx
        rw [ha.prev, if_neg h₁, if_neg h₂]
      · intro x hx
        obtain ⟨h₁, -, h₃⟩ := hother x hx
        rw [ha.next, if_neg h₁, if_neg h₃]
  · intro x q
    rw [ha.parent]
    by_cases hx : x = c
    · subst hx
      rw [Function.update_self, Option.some.injEq]
      by_cases hq : q = p
      · subst hq
        simp
      · rw [Function.update_of_ne hq]
        exact iff_of_false (hnot q) (fun h => hq h.symm)
    · rw [Function.update_of_ne hx, ← h.mem]
      by_cases hq : q = p
      · subst hq
        rw [Function.update_self, hkids]
        simp [hx]
      · rw [Function.update_of_ne hq]
  · intro q
    by_cases hq : q = p
    · subst hq
      rw [Function.update_self]
      exact List.nodup_middle.mpr (List.nodup_cons.mpr ⟨hkids ▸ hnot q, hnodup⟩)
    · rw [Function.update_of_ne hq]
      exact h.nodup q
  · rw [ha.parent]
    exact h.ranked.link hroot hfree
  · intro x q hx
    rw [ha.parent] at hx
    rw [ha.count]
    by_cases hxc : x = c
    · subst hxc
      rw [Function.update_self] at hx
      obtain rfl := Option.some.inj hx
      exact ⟨hc, hp⟩
    · rw [Function.update_of_ne hxc] at hx
      exact h.bound x q hx

/-! ### Detaching -/

/-- The child `n` of `p` between `l` and `r` becomes a root. -/
structure Detached (s s' : Store α) (p n : Nat) (l r : List Nat) : Prop where
  parent : s'.parent = Function.update s.parent n none
  children : ∀ x, s'.children x = if x = p then (l ++ r).head? else s.children x
  prev : ∀ x, x ≠ n → s'.prev x = if r.head? = some x then l.getLast? else s.prev x
  next : ∀ x, x ≠ n → s'.next x = if l.getLast? = some x then r.head? else s.next x
  count : s'.count = s.count

variable {n : Nat}

theorem Wf.detach {s s' : Store α} (h : Wf s kids) (hd : Detached s s' p n l r)
    (hkids : kids p = l ++ n :: r) :
    Wf s' (Function.update kids p (l ++ r)) := by
  have hnodup : (l ++ n :: r).Nodup := hkids ▸ h.nodup p
  obtain ⟨hn, hnodup'⟩ := List.nodup_cons.mp (List.nodup_middle.mp hnodup)
  have hnp : n ∈ kids p := by simp [hkids]
  have hlast : ∀ {x}, l.getLast? = some x → x ∈ kids p := fun hx => by
    simp [hkids, List.mem_of_getLast? hx]
  have hhead : ∀ {x}, r.head? = some x → x ∈ kids p := fun hx => by
    simp [hkids, List.mem_of_mem_head? hx]
  refine ⟨?_, ?_, ?_, ?_, ?_, ?_⟩
  · intro q
    rw [hd.children]
    by_cases hq : q = p
    · subst hq
      rw [if_pos rfl, Function.update_self]
    · rw [if_neg hq, Function.update_of_ne hq]
      exact h.first q
  · intro q
    by_cases hq : q = p
    · subst hq
      rw [Function.update_self]
      exact (hkids ▸ h.seg q).remove hnodup hd.prev hd.next
    · rw [Function.update_of_ne hq]
      have hother : ∀ {x y}, x ∈ kids q → y ∈ kids p → x ≠ y :=
        fun hx hy hxy => hq (h.disjoint hx (hxy ▸ hy))
      refine (h.seg q).congr ?_ ?_
      · intro x hx
        rw [hd.prev x (hother hx hnp), if_neg fun hr => hother hx (hhead hr) rfl]
      · intro x hx
        rw [hd.next x (hother hx hnp), if_neg fun hl => hother hx (hlast hl) rfl]
  · intro x q
    rw [hd.parent]
    by_cases hx : x = n
    · subst hx
      rw [Function.update_self]
      by_cases hq : q = p
      · subst hq
        rw [Function.update_self]
        exact iff_of_false hn (by simp)
      · rw [Function.update_of_ne hq]
        exact iff_of_false (fun hmem => hq (h.disjoint hmem hnp)) (by simp)
    · rw [Function.update_of_ne hx, ← h.mem]
      by_cases hq : q = p
      · subst hq
        rw [Function.update_self, hkids]
        simp [hx]
      · rw [Function.update_of_ne hq]
  · intro q
    by_cases hq : q = p
    · subst hq
      rw [Function.update_self]
      exact hnodup'
    · rw [Function.update_of_ne hq]
      exact h.nodup q
  · refine h.ranked.mono ?_
    intro x y hxy
    rw [hd.parent] at hxy
    by_cases hx : x = n
    · subst hx
      simp at hxy
    · rwa [Function.update_of_ne hx] at hxy
  · intro x q hx
    rw [hd.parent] at hx
    rw [hd.count]
    by_cases hxn : x = n
    · subst hxn
      simp at hx
    · rw [Function.update_of_ne hxn] at hx
      exact h.bound x q hx

/-! ## The calls -/

section Fields

variable (s : Store α) (i : Nat) (v : Option Nat)

@[simp] theorem parent_setParent : (s.setParent i v).parent = Function.update s.parent i v := by
  funext x
  by_cases hx : x = i <;> simp [setParent, parent, hx]

@[simp] theorem prev_setParent : (s.setParent i v).prev = s.prev := by
  funext x
  by_cases hx : x = i <;> simp [setParent, prev, hx]

@[simp] theorem next_setParent : (s.setParent i v).next = s.next := by
  funext x
  by_cases hx : x = i <;> simp [setParent, next, hx]

@[simp] theorem children_setParent : (s.setParent i v).children = s.children := by
  funext x
  by_cases hx : x = i <;> simp [setParent, children, hx]

@[simp] theorem parent_setPrev : (s.setPrev i v).parent = s.parent := by
  funext x
  by_cases hx : x = i <;> simp [setPrev, parent, hx]

@[simp] theorem prev_setPrev : (s.setPrev i v).prev = Function.update s.prev i v := by
  funext x
  by_cases hx : x = i <;> simp [setPrev, prev, hx]

@[simp] theorem next_setPrev : (s.setPrev i v).next = s.next := by
  funext x
  by_cases hx : x = i <;> simp [setPrev, next, hx]

@[simp] theorem children_setPrev : (s.setPrev i v).children = s.children := by
  funext x
  by_cases hx : x = i <;> simp [setPrev, children, hx]

@[simp] theorem parent_setNext : (s.setNext i v).parent = s.parent := by
  funext x
  by_cases hx : x = i <;> simp [setNext, parent, hx]

@[simp] theorem prev_setNext : (s.setNext i v).prev = s.prev := by
  funext x
  by_cases hx : x = i <;> simp [setNext, prev, hx]

@[simp] theorem next_setNext : (s.setNext i v).next = Function.update s.next i v := by
  funext x
  by_cases hx : x = i <;> simp [setNext, next, hx]

@[simp] theorem children_setNext : (s.setNext i v).children = s.children := by
  funext x
  by_cases hx : x = i <;> simp [setNext, children, hx]

@[simp] theorem parent_setChildren : (s.setChildren i v).parent = s.parent := by
  funext x
  by_cases hx : x = i <;> simp [setChildren, parent, hx]

@[simp] theorem prev_setChildren : (s.setChildren i v).prev = s.prev := by
  funext x
  by_cases hx : x = i <;> simp [setChildren, prev, hx]

@[simp] theorem next_setChildren : (s.setChildren i v).next = s.next := by
  funext x
  by_cases hx : x = i <;> simp [setChildren, next, hx]

@[simp] theorem children_setChildren :
    (s.setChildren i v).children = Function.update s.children i v := by
  funext x
  by_cases hx : x = i <;> simp [setChildren, children, hx]

@[simp] theorem count_setParent : (s.setParent i v).count = s.count := rfl

@[simp] theorem count_setPrev : (s.setPrev i v).count = s.count := rfl

@[simp] theorem count_setNext : (s.setNext i v).count = s.count := rfl

@[simp] theorem count_setChildren : (s.setChildren i v).count = s.count := rfl

end Fields

/-- `axl_ntree_prepend_child` on a root. -/
theorem prependChild_attached {s : Store α} (h : Wf s kids) (hroot : s.parent c = none)
    (hpc : c ≠ p) :
    ∃ s', prependChild s (some p) (some c) = (some c, s') ∧ Attached s s' p c [] (kids p) := by
  have hfirst := h.first p
  refine ⟨_, by simp only [prependChild, hroot, ne_eq, not_true_eq_false, if_false]; rfl, ?_⟩
  cases hk : kids p with
  | nil =>
    rw [hk] at hfirst
    have hchild : s.children p = none := hfirst
    refine ⟨?_, ?_, ?_, ?_, ?_⟩ <;> simp [through, hchild, Function.update_apply]
  | cons x xs =>
    rw [hk] at hfirst
    have hchild : s.children p = some x := hfirst
    have hx : x ≠ c := by
      rintro rfl
      have := (h.mem x p).mp (by simp [hk])
      rw [hroot] at this
      cases this
    refine ⟨?_, ?_, ?_, ?_, ?_⟩
    all_goals simp [through, hchild, Function.update_apply]
    intro y
    by_cases hy : y = x
    · subst hy
      simp [hx]
    · simp [hy, Ne.symm hy]

/-- `axl_ntree_insert_after` on a root and a child of `p`. -/
theorem insertAfter_attached {s : Store α} (h : Wf s kids) {b : Nat} (hroot : s.parent c = none)
    (hkids : kids p = l ++ b :: r) :
    ∃ s', insertAfter s (some p) (some b) (some c) = (some c, s') ∧
      Attached s s' p c (l ++ [b]) r := by
  have hparent : s.parent b = some p := (h.mem b p).mp (by simp [hkids])
  have hbc : b ≠ c := by
    rintro rfl
    rw [hroot] at hparent
    cases hparent
  have hnext : s.next b = r.head? := ((hkids ▸ h.seg p).mid).2.trans Option.or_none
  have hfirst : ∀ r', (l ++ [b] ++ c :: r').head? = s.children p := by
    intro r'
    rw [h.first p, hkids]
    cases l <;> simp
  refine ⟨_, by simp only [insertAfter, hroot, hparent, ne_eq, not_true_eq_false, if_false]; rfl,
    ?_⟩
  cases hr : r with
  | nil =>
    rw [hr] at hnext
    have hnext : s.next b = none := hnext
    refine ⟨?_, ?_, ?_, ?_, ?_⟩
    · simp [through, hnext, hbc]
    · intro x
      by_cases hx : x = p
      · subst hx
        rw [if_pos rfl, hfirst]
        simp [through, hnext, hbc]
      · rw [if_neg hx]
        simp [through, hnext, hbc]
    · intro x
      simp [through, hnext, hbc, Function.update_apply]
    · intro x
      by_cases hx : x = b
      · subst hx
        simp [through, hnext, hbc]
      · simp [through, hnext, hbc, Function.update_apply, hx, Ne.symm hx]
    · simp [through, hnext, hbc]
  | cons y ys =>
    rw [hr] at hnext
    have hnext : s.next b = some y := hnext
    have hyc : y ≠ c := by
      rintro rfl
      have := (h.mem y p).mp (by simp [hkids, hr])
      rw [hroot] at this
      cases this
    refine ⟨?_, ?_, ?_, ?_, ?_⟩
    · simp [through, hnext, hbc]
    · intro x
      by_cases hx : x = p
      · subst hx
        rw [if_pos rfl, hfirst]
        simp [through, hnext, hbc]
      · rw [if_neg hx]
        simp [through, hnext, hbc]
    · intro x
      by_cases hx : x = y
      · subst hx
        simp [through, hnext, hbc, hyc]
      · simp [through, hnext, hbc, Function.update_apply, hx, Ne.symm hx]
    · intro x
      by_cases hx : x = b
      · subst hx
        simp [through, hnext, hbc]
      · simp [through, hnext, hbc, Function.update_apply, hx, Ne.symm hx]
    · simp [through, hnext, hbc]

/-- `axl_ntree_unlink` on a child of `p`. -/
theorem unlink_detached {s : Store α} (h : Wf s kids) (hkids : kids p = l ++ n :: r) :
    Detached s (unlink s (some n)) p n l r := by
  have hparent : s.parent n = some p := (h.mem n p).mp (by simp [hkids])
  obtain ⟨hprev, hnext⟩ := (hkids ▸ h.seg p).mid
  rw [Option.or_none] at hprev hnext
  obtain ⟨hn, hnodup⟩ := List.nodup_cons.mp (List.nodup_middle.mp (hkids ▸ h.nodup p))
  have hfirst := h.first p
  rw [hkids] at hfirst
  rcases List.eq_nil_or_concat' l with rfl | ⟨l₀, b, rfl⟩
  · have hprev : s.prev n = none := hprev
    cases r with
    | nil =>
      have hnext : s.next n = none := hnext
      refine ⟨?_, ?_, ?_, ?_, ?_⟩
      all_goals simp +contextual [unlink, hparent, hprev, hnext, through, Function.update_apply]
    | cons y ys =>
      have hnext : s.next n = some y := hnext
      have hyn : y ≠ n := fun hy => hn (by simp [hy])
      refine ⟨?_, ?_, ?_, ?_, ?_⟩
      all_goals
        simp +contextual [unlink, hparent, hprev, hnext, through, Function.update_apply, eq_comm]
  · have hprev : s.prev n = some b := by simpa using hprev
    have hbn : b ≠ n := fun hb => hn (by simp [hb])
    have hhead : (l₀ ++ [b] ++ r).head? = s.children p := by
      rw [hfirst]
      cases l₀ <;> simp
    cases r with
    | nil =>
      have hnext : s.next n = none := hnext
      refine ⟨?_, ?_, ?_, ?_, ?_⟩
      · simp [unlink, hparent, hprev, hnext, through, hbn.symm]
      · intro x
        rw [hhead]
        by_cases hx : x = p
        · subst hx
          simp [unlink, hparent, hprev, hnext, through, hbn.symm]
        · simp [unlink, hparent, hprev, hnext, through, hbn.symm, hx]
      · intro x hx
        simp [unlink, hparent, hprev, hnext, through, hbn.symm, hx]
      · intro x hx
        simp [unlink, hparent, hprev, hnext, through, hbn.symm, hx, Function.update_apply, eq_comm]
      · simp [unlink, hparent, hprev, hnext, through, hbn.symm]
    | cons y ys =>
      have hnext : s.next n = some y := hnext
      have hyn : y ≠ n := fun hy => hn (by simp [hy])
      refine ⟨?_, ?_, ?_, ?_, ?_⟩
      · simp [unlink, hparent, hprev, hnext, through, hbn.symm]
      · intro x
        rw [hhead]
        by_cases hx : x = p
        · subst hx
          simp [unlink, hparent, hprev, hnext, through, hbn.symm]
        · simp [unlink, hparent, hprev, hnext, through, hbn.symm, hx]
      · intro x hx
        simp [unlink, hparent, hprev, hnext, through, hbn.symm, hx, Function.update_apply, eq_comm]
      · intro x hx
        simp [unlink, hparent, hprev, hnext, through, hbn.symm, hx, Function.update_apply, eq_comm]
      · simp [unlink, hparent, hprev, hnext, through, hbn.symm]

theorem Wf.unlink {s : Store α} (h : Wf s kids) (node : Option Nat) :
    ∃ kids', Wf (unlink s node) kids' := by
  cases node with
  | none => exact ⟨kids, h⟩
  | some n =>
    cases hp : s.parent n with
    | none => exact ⟨kids, by simpa [NTree.unlink, hp] using h⟩
    | some p =>
      obtain ⟨l, r, hkids⟩ := List.append_of_mem ((h.mem n p).mpr hp)
      exact ⟨_, h.detach (unlink_detached h hkids) hkids⟩

/-! ### Linking -/

/-- A call attached the root `c` somewhere among the children of `p`. -/
def Links (s : Store α) (kids : Nat → List Nat) (p c : Nat) (res : Option Nat × Store α) : Prop :=
  ∃ s' l r, res = (some c, s') ∧ kids p = l ++ r ∧ Attached s s' p c l r

theorem prependChild_links {s : Store α} (h : Wf s kids) (hroot : s.parent c = none) (hpc : c ≠ p) :
    Links s kids p c (prependChild s (some p) (some c)) := by
  obtain ⟨s', hres, ha⟩ := prependChild_attached h hroot hpc
  exact ⟨s', [], kids p, hres, rfl, ha⟩

variable {sibling : Option Nat}

theorem insertAfter_links {s : Store α} (h : Wf s kids) (hroot : s.parent c = none) (hpc : c ≠ p)
    (hsib : ∀ b, sibling = some b → s.parent b = some p) :
    Links s kids p c (insertAfter s (some p) sibling (some c)) := by
  cases sibling with
  | none =>
    have hres : insertAfter s (some p) none (some c) = prependChild s (some p) (some c) := by
      simp [insertAfter, hroot]
    rw [hres]
    exact prependChild_links h hroot hpc
  | some b =>
    obtain ⟨l, r, hkids⟩ := List.append_of_mem ((h.mem b p).mpr (hsib b rfl))
    obtain ⟨s', hres, ha⟩ := insertAfter_attached h hroot hkids
    exact ⟨s', l ++ [b], r, hres, by simp [hkids], ha⟩

theorem lastLoop_eq {s : Store α} {p : Option Nat} {cs : List Nat} {fuel : Nat}
    (h : Seg s.prev s.next p (c :: cs) none) (hf : cs.length ≤ fuel) :
    lastLoop s fuel c ∈ c :: cs := by
  induction cs generalizing p c fuel with
  | nil =>
    have hnext : s.next c = none := h.2.1
    cases fuel <;> simp [lastLoop, hnext]
  | cons d ds ih =>
    have hnext : s.next c = some d := h.2.1
    cases fuel with
    | zero => simp at hf
    | succ fuel =>
      rw [lastLoop, hnext]
      exact List.mem_cons_of_mem c (ih h.2.2 (by simpa using hf))

theorem appendChild_links {s : Store α} (h : Wf s kids) (hroot : s.parent c = none) (hpc : c ≠ p) :
    Links s kids p c (appendChild s (some p) (some c)) := by
  have hfirst := h.first p
  cases hk : kids p with
  | nil =>
    rw [hk] at hfirst
    have hres : appendChild s (some p) (some c) = prependChild s (some p) (some c) := by
      simp [appendChild, hroot, hfirst]
    rw [hres]
    exact prependChild_links h hroot hpc
  | cons x xs =>
    rw [hk] at hfirst
    have hres : appendChild s (some p) (some c)
        = insertAfter s (some p) (some (lastLoop s s.count x)) (some c) := by
      simp [appendChild, hroot, hfirst]
    have hlen := h.length_le p
    rw [hk, List.length_cons] at hlen
    have hmem : lastLoop s s.count x ∈ kids p := by
      rw [hk]
      exact lastLoop_eq (hk ▸ h.seg p) (by omega)
    rw [hres]
    refine insertAfter_links h hroot hpc ?_
    rintro b ⟨⟩
    exact (h.mem _ p).mp hmem

theorem insertBefore_links {s : Store α} (h : Wf s kids) (hroot : s.parent c = none) (hpc : c ≠ p)
    (hsib : ∀ b, sibling = some b → s.parent b = some p) :
    Links s kids p c (insertBefore s (some p) sibling (some c)) := by
  cases sibling with
  | none =>
    have hres : insertBefore s (some p) none (some c) = appendChild s (some p) (some c) := by
      simp [insertBefore, hroot]
    rw [hres]
    exact appendChild_links h hroot hpc
  | some b =>
    have hres : insertBefore s (some p) (some b) (some c)
        = insertAfter s (some p) (s.prev b) (some c) := by
      simp [insertBefore, hroot, hsib b rfl]
    rw [hres]
    refine insertAfter_links h hroot hpc ?_
    intro x hx
    -- the previous sibling is a child of the same node
    obtain ⟨l, r, hkids⟩ := List.append_of_mem ((h.mem b p).mpr (hsib b rfl))
    have hprev := ((hkids ▸ h.seg p).mid).1
    rw [hx, Option.or_none] at hprev
    exact (h.mem x p).mp (by simp [hkids, List.mem_of_getLast? hprev.symm])

/-! ### Ancestors -/

theorem isAncestorLoop_eq {s : Store α} {q : Nat} {fuel : Nat} (h : Above s.parent q l)
    (hf : l.length ≤ fuel) :
    isAncestorLoop s n fuel (some q) = true ↔ n ∈ l := by
  induction l generalizing q fuel with
  | nil => exact h.elim
  | cons y l ih =>
    obtain ⟨rfl, h⟩ := h
    cases fuel with
    | zero => simp at hf
    | succ fuel =>
      have hf : l.length ≤ fuel := by simpa using hf
      rw [isAncestorLoop]
      by_cases hy : y = n
      · simp [hy]
      · rw [if_neg hy, List.mem_cons, or_iff_right (Ne.symm hy)]
        cases hp : s.parent y with
        | none =>
          rw [hp] at h
          subst h
          cases fuel <;> simp [isAncestorLoop]
        | some z =>
          rw [hp] at h
          exact ih h hf

/-- `axl_ntree_is_ancestor` finds every node above. -/
theorem Wf.isAncestor_of_above {s : Store α} (h : Wf s kids) {d : Nat}
    (hd : Relation.ReflTransGen (Up s.parent) d n) (hne : n ≠ d) :
    isAncestor s (some n) (some d) = true := by
  rcases Relation.ReflTransGen.cases_head hd with rfl | ⟨q, hq, hqn⟩
  · exact absurd rfl hne
  · have hq : s.parent d = some q := hq
    obtain ⟨l, habove, hnodup, hmem⟩ := h.ranked.exists_above q
    have hsub : l ⊆ List.range s.count := by
      intro x hx
      rw [List.mem_range]
      rcases Relation.ReflTransGen.cases_tail ((hmem x).mp hx) with rfl | ⟨y, -, hy⟩
      · exact (h.bound d _ hq).2
      · exact (h.bound y x hy).2
    have hlen := (hnodup.subperm hsub).length_le
    rw [List.length_range] at hlen
    rw [isAncestor, hq]
    exact (isAncestorLoop_eq habove hlen).mpr ((hmem n).mpr hqn)

/-- A node that is neither `p` nor found above it may be attached to `p`. -/
theorem Wf.free {s : Store α} (h : Wf s kids) (hne : c ≠ p)
    (hanc : isAncestor s (some c) (some p) = false) :
    ¬ Relation.ReflTransGen (Up s.parent) p c := by
  intro hpc
  rw [h.isAncestor_of_above hpc hne] at hanc
  cases hanc

theorem Wf.links {s : Store α} (h : Wf s kids) {res : Option Nat × Store α}
    (hl : Links s kids p c res) (hroot : s.parent c = none)
    (hfree : ¬ Relation.ReflTransGen (Up s.parent) p c) (hp : p < s.count) (hc : c < s.count) :
    ∃ kids', Wf res.2 kids' := by
  obtain ⟨s', l, r, rfl, hkids, ha⟩ := hl
  exact ⟨_, h.attach ha hkids hroot hfree hp hc⟩

/-- What the first check of the insert calls asks for. -/
def Checked (s : Store α) (parent sibling node : Option Nat) (p c : Nat) : Prop :=
  parent = some p ∧ node = some c ∧ s.parent c = none ∧
    ∀ b, sibling = some b → s.parent b = some p

theorem prependChild_cases (s : Store α) (parent node : Option Nat) :
    prependChild s parent node = (none, s) ∨ ∃ p c, Checked s parent none node p c := by
  unfold prependChild
  split
  · rename_i p c
    split
    · exact .inl rfl
    · rename_i hroot
      exact .inr ⟨p, c, rfl, rfl, not_not.mp hroot, by simp⟩
  · exact .inl rfl

theorem insertAfter_cases (s : Store α) (parent sibling node : Option Nat) :
    insertAfter s parent sibling node = (none, s) ∨ ∃ p c, Checked s parent sibling node p c := by
  unfold insertAfter
  split
  · rename_i p c
    split
    · exact .inl rfl
    · rename_i hroot
      have hroot := not_not.mp hroot
      split
      · exact .inr ⟨p, c, rfl, rfl, hroot, by simp⟩
      · rename_i b
        split
        · exact .inl rfl
        · rename_i hb
          refine .inr ⟨p, c, rfl, rfl, hroot, ?_⟩
          rintro _ ⟨⟩
          exact not_not.mp hb
  · exact .inl rfl

theorem appendChild_cases (s : Store α) (parent node : Option Nat) :
    appendChild s parent node = (none, s) ∨ ∃ p c, Checked s parent none node p c := by
  unfold appendChild
  split
  · rename_i p c
    split
    · exact .inl rfl
    · rename_i hroot
      exact .inr ⟨p, c, rfl, rfl, not_not.mp hroot, by simp⟩
  · exact .inl rfl

theorem insertBefore_cases (s : Store α) (parent sibling node : Option Nat) :
    insertBefore s parent sibling node = (none, s) ∨ ∃ p c, Checked s parent sibling node p c := by
  unfold insertBefore
  split
  · rename_i p c
    split
    · exact .inl rfl
    · rename_i hroot
      have hroot := not_not.mp hroot
      split
      · exact .inr ⟨p, c, rfl, rfl, hroot, by simp⟩
      · rename_i b
        split
        · exact .inl rfl
        · rename_i hb
          refine .inr ⟨p, c, rfl, rfl, hroot, ?_⟩
          rintro _ ⟨⟩
          exact not_not.mp hb
  · exact .inl rfl

variable {parent node : Option Nat}

theorem moveOk_spec {s : Store α} (h : moveOk s parent sibling node = true) :
    ∃ p n, parent = some p ∧ node = some n ∧ sibling ≠ some n ∧
      (∀ b, sibling = some b → s.parent b = some p) ∧ n ≠ p ∧
      isAncestor s (some n) (some p) = false := by
  unfold moveOk at h
  split at h
  · rename_i p n
    split at h
    · cases h
    · rename_i hsib
      split at h
      · cases h
      · rename_i hb
        simp only [Bool.not_eq_true', Bool.or_eq_false_iff, decide_eq_false_iff_not] at h
        refine ⟨p, n, rfl, rfl, hsib, ?_, h.1, h.2⟩
        rintro b rfl
        simpa using hb
  · cases h

/-! ### After a move's unlink -/

theorem unlink_parent (s : Store α) (n : Nat) :
    (unlink s (some n)).parent = Function.update s.parent n none := by
  cases hp : s.parent n with
  | none =>
    have hs : unlink s (some n) = s := by simp [unlink, hp]
    rw [hs, ← hp, Function.update_eq_self]
  | some p =>
    cases hq : s.prev n <;> cases hr : s.next n <;>
      simp [unlink, hp, hq, hr, through, Function.update_apply, apply_ite]

theorem unlink_count (s : Store α) (n : Nat) : (unlink s (some n)).count = s.count := by
  cases hp : s.parent n with
  | none => simp [unlink, hp]
  | some p =>
    cases hq : s.prev n <;> cases hr : s.next n <;>
      simp [unlink, hp, hq, hr, through, Function.update_apply, apply_ite]

/-- The state between the two halves of a move: the node is a root, and the
sibling is still a child of `p`. -/
structure Loose (s s₁ : Store α) (p n : Nat) (sibling : Option Nat) : Prop where
  wf : ∃ kids, Wf s₁ kids
  root : s₁.parent n = none
  ne : n ≠ p
  free : ¬ Relation.ReflTransGen (Up s₁.parent) p n
  sibling : ∀ b, sibling = some b → s₁.parent b = some p
  count : s₁.count = s.count

theorem Wf.loose {s : Store α} (h : Wf s kids) (hok : moveOk s parent sibling node = true) :
    ∃ p n, parent = some p ∧ node = some n ∧ Loose s (NTree.unlink s node) p n sibling := by
  obtain ⟨p, n, rfl, rfl, hne, hsib, hnp, hanc⟩ := moveOk_spec hok
  refine ⟨p, n, rfl, rfl, h.unlink _, ?_, hnp, ?_, ?_, unlink_count s n⟩
  · rw [unlink_parent, Function.update_self]
  · intro hpn
    -- the unlinked node only loses its parent
    refine h.free hnp hanc (Relation.ReflTransGen.mono (fun x y hxy => ?_) _ _ hpn)
    rw [Up, unlink_parent] at hxy
    by_cases hx : x = n
    · subst hx
      simp at hxy
    · rwa [Function.update_of_ne hx] at hxy
  · intro b hb
    have hbn : b ≠ n := fun h => hne (h ▸ hb)
    rw [unlink_parent, Function.update_of_ne hbn]
    exact hsib b hb

/-- A move that passes `ntree_move_ok` links the node. -/
theorem Loose.links {s s₁ : Store α} (h : Loose s s₁ p n sibling) (hwf : Wf s₁ kids) :
    Links s₁ kids p n (insertAfter s₁ (some p) sibling (some n)) ∧
      Links s₁ kids p n (insertBefore s₁ (some p) sibling (some n)) :=
  ⟨insertAfter_links hwf h.root h.ne h.sibling, insertBefore_links hwf h.root h.ne h.sibling⟩

/-! ### One call -/

variable {kind : LinkKind}

/-- An insert call returns NULL, or its arguments pass the checks. -/
theorem link_checked (s : Store α) (ha : kind ≠ .moveAfter) (hb : kind ≠ .moveBefore)
    (parent sibling node : Option Nat) :
    link s kind parent sibling node = (none, s) ∨
      ∃ p c, Checked s parent (kind.sibling sibling) node p c := by
  cases kind with
  | append => exact appendChild_cases s parent node
  | prepend => exact prependChild_cases s parent node
  | insertAfter => exact insertAfter_cases s parent sibling node
  | insertBefore => exact insertBefore_cases s parent sibling node
  | moveAfter => exact absurd rfl ha
  | moveBefore => exact absurd rfl hb

/-- An insert call links a node whose arguments pass the checks. -/
theorem Wf.link_links {s : Store α} (h : Wf s kids) (ha : kind ≠ .moveAfter)
    (hb : kind ≠ .moveBefore) (hroot : s.parent c = none) (hpc : c ≠ p)
    (hsib : ∀ b, kind.sibling sibling = some b → s.parent b = some p) :
    Links s kids p c (link s kind (some p) sibling (some c)) := by
  cases kind with
  | append => exact appendChild_links h hroot hpc
  | prepend => exact prependChild_links h hroot hpc
  | insertAfter => exact insertAfter_links h hroot hpc hsib
  | insertBefore => exact insertBefore_links h hroot hpc hsib
  | moveAfter => exact absurd rfl ha
  | moveBefore => exact absurd rfl hb

theorem Wf.insert_link {s : Store α} (h : Wf s kids) (ha : kind ≠ .moveAfter)
    (hb : kind ≠ .moveBefore) (hex : Existing s (.link kind parent sibling node))
    (hnb : ¬ BelowItself s (.link kind parent sibling node)) :
    ∃ kids', Wf (link s kind parent sibling node).2 kids' := by
  rcases link_checked s ha hb parent sibling node with hnull | ⟨p, c, rfl, rfl, hroot, hsib⟩
  · rw [hnull]
    exact ⟨kids, h⟩
  · have hne : c ≠ p := by
      rintro rfl
      exact hnb ⟨ha, hb, c, c, rfl, rfl, hroot, hsib, .inl rfl⟩
    have hanc : isAncestor s (some c) (some p) = false := by
      rw [Bool.eq_false_iff]
      intro hanc
      exact hnb ⟨ha, hb, p, c, rfl, rfl, hroot, hsib, .inr hanc⟩
    obtain ⟨hp, -, hc⟩ := hex
    exact h.links (h.link_links ha hb hroot hne hsib) hroot (h.free hne hanc) (hp p rfl) (hc c rfl)

theorem Wf.move_link {s : Store α} (h : Wf s kids) (hk : kind = .moveAfter ∨ kind = .moveBefore)
    (hex : Existing s (.link kind parent sibling node)) :
    ∃ kids', Wf (link s kind parent sibling node).2 kids' := by
  by_cases hok : moveOk s parent sibling node = true
  · obtain ⟨p, n, rfl, rfl, hl⟩ := h.loose hok
    obtain ⟨kids₁, hwf⟩ := hl.wf
    obtain ⟨hafter, hbefore⟩ := hl.links hwf
    obtain ⟨hp, -, hn⟩ := hex
    have hp : p < (NTree.unlink s (some n)).count := by
      rw [hl.count]
      exact hp p rfl
    have hn : n < (NTree.unlink s (some n)).count := by
      rw [hl.count]
      exact hn n rfl
    rcases hk with rfl | rfl
    · rw [link, moveAfter, if_pos hok]
      exact hwf.links hafter hl.root hl.free hp hn
    · rw [link, moveBefore, if_pos hok]
      exact hwf.links hbefore hl.root hl.free hp hn
  · refine ⟨kids, ?_⟩
    rcases hk with rfl | rfl
    · rw [link, moveAfter, if_neg hok]
      exact h
    · rw [link, moveBefore, if_neg hok]
      exact h

/-- One call keeps the invariant. -/
theorem Wf.exec {s : Store α} (h : Wf s kids) {op : Op α} (hex : Existing s op)
    (hnb : ¬ BelowItself s op) : ∃ kids', Wf (exec s op) kids' := by
  cases op with
  | new data => exact ⟨kids, wf_new h data⟩
  | unlink node => exact h.unlink node
  | link kind parent sibling node =>
    by_cases ha : kind = .moveAfter
    · exact h.move_link (.inl ha) hex
    · by_cases hb : kind = .moveBefore
      · exact h.move_link (.inr hb) hex
      · exact h.insert_link ha hb hex hnb

theorem Wf.run {s : Store α} {kids : Nat → List Nat} (h : Wf s kids) {ops : List (Op α)}
    (hops : Always (fun s op => Existing s op ∧ ¬ BelowItself s op) s ops) :
    ∃ kids', Wf (run s ops) kids' := by
  induction ops generalizing s kids with
  | nil => exact ⟨kids, h⟩
  | cons op ops ih =>
    obtain ⟨⟨hex, hnb⟩, hops⟩ := hops
    obtain ⟨kids', h'⟩ := h.exec hex hnb
    exact ih h' hops

/-! ### Calls that return NULL -/

theorem prependChild_none {s : Store α} (h : (prependChild s parent node).1 = none) :
    (prependChild s parent node).2 = s := by
  unfold prependChild at h ⊢
  split at h
  · split at h
    · rename_i hroot
      rw [if_pos hroot]
    · cases h
  · rfl

theorem insertAfter_none {s : Store α} (h : (insertAfter s parent sibling node).1 = none) :
    (insertAfter s parent sibling node).2 = s := by
  unfold insertAfter at h ⊢
  split at h
  · split at h
    · rename_i hroot
      rw [if_pos hroot]
    · rename_i hroot
      rw [if_neg hroot]
      split at h
      · exact prependChild_none h
      · split at h
        · rename_i hb
          rw [if_pos hb]
        · cases h
  · rfl

theorem appendChild_none {s : Store α} (h : (appendChild s parent node).1 = none) :
    (appendChild s parent node).2 = s := by
  unfold appendChild at h ⊢
  split at h
  · split at h
    · rename_i hroot
      rw [if_pos hroot]
    · rename_i hroot
      rw [if_neg hroot]
      split at h
      · exact prependChild_none h
      · exact insertAfter_none h
  · rfl

theorem insertBefore_none {s : Store α} (h : (insertBefore s parent sibling node).1 = none) :
    (insertBefore s parent sibling node).2 = s := by
  unfold insertBefore at h ⊢
  split at h
  · split at h
    · rename_i hroot
      rw [if_pos hroot]
    · rename_i hroot
      rw [if_neg hroot]
      split at h
      · exact appendChild_none h
      · split at h
        · rename_i hb
          rw [if_pos hb]
        · rename_i hb
          rw [if_neg hb]
          exact insertAfter_none h
  · rfl

/-- A link call that returns NULL changes nothing. A move has unlinked its node
by then, so that it must not fail after `ntree_move_ok`. -/
theorem Wf.link_none {s : Store α} (h : Wf s kids)
    (hnull : (link s kind parent sibling node).1 = none) :
    (link s kind parent sibling node).2 = s := by
  cases kind with
  | append => exact appendChild_none hnull
  | prepend => exact prependChild_none hnull
  | insertAfter => exact insertAfter_none hnull
  | insertBefore => exact insertBefore_none hnull
  | moveAfter =>
    rw [link, moveAfter] at hnull ⊢
    split at hnull
    · rename_i hok
      obtain ⟨p, n, rfl, rfl, hl⟩ := h.loose hok
      obtain ⟨kids₁, hwf⟩ := hl.wf
      obtain ⟨s', l, r, hres, -, -⟩ := (hl.links hwf).1
      rw [hres] at hnull
      cases hnull
    · rename_i hok
      rw [if_neg hok]
  | moveBefore =>
    rw [link, moveBefore] at hnull ⊢
    split at hnull
    · rename_i hok
      obtain ⟨p, n, rfl, rfl, hl⟩ := h.loose hok
      obtain ⟨kids₁, hwf⟩ := hl.wf
      obtain ⟨s', l, r, hres, -, -⟩ := (hl.links hwf).2
      rw [hres] at hnull
      cases hnull
    · rename_i hok
      rw [if_neg hok]

/-- From no nodes at all, a run whose calls link no root below itself keeps the
links a forest, and in every state it reaches a call that returns NULL changes
nothing. -/
theorem run_forest (ops : List (Op α))
    (hops : Always (fun s op => Existing s op ∧ ¬ BelowItself s op) Store.empty ops) :
    IsForest (run Store.empty ops) ∧
      ∀ kind parent sibling node,
        (link (run Store.empty ops) kind parent sibling node).1 = none →
        (link (run Store.empty ops) kind parent sibling node).2 = run Store.empty ops := by
  obtain ⟨kids, hwf⟩ := wf_empty.run hops
  exact ⟨hwf.isForest, fun kind parent sibling node => hwf.link_none⟩

/-- Two nodes, the second below the first and then a root again. -/
theorem run_forest_two_nodes :
    IsForest (run (Store.empty : Store Nat) [.new (some 7), .new none,
      .link .append (some 0) none (some 1), .link .moveAfter (some 1) none (some 0),
      .unlink (some 1)]) :=
  (run_forest _ (by
    refine ⟨⟨trivial, not_false⟩, ⟨trivial, not_false⟩, ⟨?_, ?_⟩, ⟨?_, ?_⟩, ⟨?_, not_false⟩, trivial⟩
    · refine ⟨?_, ?_, ?_⟩ <;> rintro i ⟨⟩ <;> decide
    · rintro ⟨-, -, p, c, ⟨⟩, ⟨⟩, -, -, h | h⟩
      · cases h
      · revert h
        decide
    · refine ⟨?_, ?_, ?_⟩ <;> rintro i ⟨⟩ <;> decide
    · exact fun h => h.1 rfl
    · rintro i ⟨⟩
      decide)).1

/-- `axl_ntree_append_child` takes a root as its own child. -/
theorem append_to_itself :
    Always Existing (Store.empty : Store Nat) [.new none, .link .append (some 0) none (some 0)] ∧
      ¬ IsForest (run (Store.empty : Store Nat)
        [.new none, .link .append (some 0) none (some 0)]) := by
  constructor
  · refine ⟨trivial, ⟨?_, ?_, ?_⟩, trivial⟩ <;> rintro i ⟨⟩ <;> decide
  · intro h
    refine h.acyclic 0 (.single ?_)
    change (run (Store.empty : Store Nat) _).parent 0 = some 0
    decide

end NTree

end AxlSdk
