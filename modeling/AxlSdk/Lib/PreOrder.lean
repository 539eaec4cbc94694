import AxlSdk.Lib.Linked

/-!
# Orders on the nodes below a node

A forest is given by the list of the children of every node, and by the parent pointers that
agree with it.

- `upTo kids k n`: the nodes less than `k` steps below `n` in pre-order, `levelAt kids k n`
  those exactly `k` steps below it; `levels_perm` compares the two.
- `upTo_nodup`: no node comes twice.
- `After` and `Before`: what comes behind the nodes below a node, and what comes in front of
  it, in the pre-order of a whole tree.
-/

namespace AxlSdk

namespace PreOrder

open Linked List

variable {ι : Type}

/-! ## Levels -/

/-- The nodes `k` steps below a node, from left to right. -/
def levelAt (kids : ι → List ι) : Nat → ι → List ι
  | 0, n => [n]
  | k + 1, n => (kids n).flatMap (levelAt kids k)

/-- The nodes less than `k` steps below a node, each in front of the nodes below it. -/
def upTo (kids : ι → List ι) : Nat → ι → List ι
  | 0, _ => []
  | k + 1, n => n :: (kids n).flatMap (upTo kids k)

/-- The node `k` steps above. -/
def up (parent : ι → Option ι) : Nat → ι → Option ι
  | 0, x => some x
  | k + 1, x => (parent x).bind (up parent k)

variable {kids : ι → List ι}

/-- Behind an empty level there is nothing. -/
theorem upTo_succ {k : Nat} {n : ι} (h : levelAt kids k n = []) :
    upTo kids (k + 1) n = upTo kids k n := by
  induction k generalizing n with
  | zero => cases h
  | succ k ih =>
    rw [upTo, upTo]
    have hkids : ∀ c ∈ kids n, levelAt kids k c = [] := flatMap_eq_nil_iff.mp h
    rw [flatMap_congr fun c hc => ih (hkids c hc)]

theorem upTo_of_le {k j : Nat} {n : ι} (h : levelAt kids k n = []) (hkj : k ≤ j) :
    upTo kids j n = upTo kids k n ∧ levelAt kids j n = [] := by
  induction j, hkj using Nat.le_induction with
  | base => exact ⟨rfl, h⟩
  | succ j hkj ih =>
    refine ⟨(upTo_succ ih.2).trans ih.1, ?_⟩
    have hempty : ∀ (i : Nat) (m : ι), levelAt kids i m = [] → levelAt kids (i + 1) m = [] := by
      intro i
      induction i with
      | zero => exact fun m hm => (by cases hm)
      | succ i ihi =>
        intro m hm
        exact flatMap_eq_nil_iff.mpr fun c hc => ihi c (flatMap_eq_nil_iff.mp hm c hc)
    exact hempty j n ih.2

/-- Nested loops may be exchanged. -/
theorem flatMap_comm_perm {α β γ : Type} (xs : List α) (ys : List β) (f : α → β → List γ) :
    (xs.flatMap fun x => ys.flatMap (f x)).Perm (ys.flatMap fun y => xs.flatMap fun x => f x y) := by
  induction xs with
  | nil => simp
  | cons x xs ih =>
    rw [flatMap_cons]
    refine (ih.append_left _).trans ?_
    exact flatMap_append_perm ys (f x) fun y => xs.flatMap fun x => f x y

/-- Level by level, or in pre-order: the same nodes. -/
theorem levels_perm (k : Nat) (n : ι) :
    ((List.range k).flatMap fun i => levelAt kids i n).Perm (upTo kids k n) := by
  induction k generalizing n with
  | zero => exact .nil
  | succ k ih =>
    rw [range_succ_eq_map, flatMap_cons, upTo, flatMap_map]
    refine List.Perm.cons n ?_
    show ((List.range k).flatMap fun i => (kids n).flatMap (levelAt kids i)).Perm _
    refine (flatMap_comm_perm (List.range k) (kids n) _).trans ?_
    exact List.Perm.flatMap_left _ fun c _ => ih c

/-! ## Parents -/

variable {parent : ι → Option ι}

theorem up_succ (k : Nat) (x : ι) : up parent (k + 1) x = (up parent k x).bind parent := by
  induction k generalizing x with
  | zero => simp [up]
  | succ k ih =>
    rw [up]
    cases h : parent x with
    | none => simp [up, h]
    | some y =>
      simp only [up, h, Option.bind_some]
      exact ih y

/-- The nodes `k` steps below are those from which `k` steps lead up. -/
theorem mem_levelAt (hkids : ∀ c p, c ∈ kids p ↔ parent c = some p) {k : Nat} {x n : ι} :
    x ∈ levelAt kids k n ↔ up parent k x = some n := by
  induction k generalizing n with
  | zero => simp [levelAt, up]
  | succ k ih =>
    rw [levelAt, mem_flatMap, up_succ, Option.bind_eq_some_iff]
    refine exists_congr fun c => ?_
    rw [ih, hkids, and_comm]

theorem mem_upTo_iff (hkids : ∀ c p, c ∈ kids p ↔ parent c = some p) {k : Nat} {x n : ι} :
    x ∈ upTo kids k n ↔ ∃ i < k, up parent i x = some n := by
  rw [← (levels_perm k n).mem_iff, mem_flatMap]
  simp only [mem_range, mem_levelAt hkids]

theorem reach_of_up {k : Nat} {x n : ι} (h : up parent k x = some n) :
    Relation.ReflTransGen (Up parent) x n := by
  induction k generalizing x with
  | zero =>
    cases h
    exact .refl
  | succ k ih =>
    obtain ⟨y, hy, hyn⟩ := Option.bind_eq_some_iff.mp h
    exact .head hy (ih hyn)

/-- A node that is `k` steps below another has more than `k` nodes on its path. -/
theorem lt_length_of_up {k : Nat} {x n : ι} {l : List ι} (habove : Above parent x l)
    (h : up parent k x = some n) : k < l.length := by
  induction l generalizing k x with
  | nil => exact habove.elim
  | cons y l ih =>
    obtain ⟨rfl, hrest⟩ := habove
    cases k with
    | zero => exact Nat.succ_pos _
    | succ k =>
      obtain ⟨z, hz, hzn⟩ := Option.bind_eq_some_iff.mp h
      rw [hz] at hrest
      exact Nat.succ_lt_succ (ih hrest hzn)

/-- The nodes above a node are in a line. -/
theorem siblings_disjoint (hranked : Ranked parent) {c d p x : ι} (hc : parent c = some p)
    (hd : parent d = some p) (hxc : Relation.ReflTransGen (Up parent) x c)
    (hxd : Relation.ReflTransGen (Up parent) x d) : c = d := by
  have hunique : Relator.RightUnique (Up parent) := fun a b b' hb hb' =>
    Option.some.inj (hb.symm.trans hb')
  have hline : ∀ {a b}, parent a = some p → parent b = some p →
      Relation.ReflTransGen (Up parent) a b → a = b := by
    intro a b ha hb hab
    rcases Relation.ReflTransGen.cases_head hab with heq | ⟨z, hz, hzb⟩
    · exact heq
    · -- the way up from `a` to `b` leads through `p`, and from `b` back to it
      obtain rfl : z = p := Option.some.inj (Eq.symm (hz : parent a = some z) ▸ ha ▸ rfl)
      exact absurd (Relation.TransGen.tail' hzb hb) (hranked.acyclic z)
  rcases Relation.ReflTransGen.total_of_right_unique hunique hxc hxd with h | h
  · exact hline hc hd h
  · exact (hline hd hc h).symm

/-- No node comes twice. -/
theorem upTo_nodup (hkids : ∀ c p, c ∈ kids p ↔ parent c = some p) (hnodup : ∀ p, (kids p).Nodup)
    (hranked : Ranked parent) (k : Nat) (n : ι) : (upTo kids k n).Nodup := by
  induction k generalizing n with
  | zero => exact nodup_nil
  | succ k ih =>
    have hreach : ∀ {c x}, x ∈ upTo kids k c → Relation.ReflTransGen (Up parent) x c := by
      intro c x hx
      obtain ⟨i, -, hi⟩ := (mem_upTo_iff hkids).mp hx
      exact reach_of_up hi
    rw [upTo, nodup_cons, nodup_flatMap]
    refine ⟨fun hn => ?_, fun c _ => ih c, ?_⟩
    · obtain ⟨c, hc, hnc⟩ := mem_flatMap.mp hn
      exact hranked.acyclic n (Relation.TransGen.tail' (hreach hnc) ((hkids c n).mp hc))
    · refine (hnodup n).pairwise_of_forall_ne fun c hc d hd hne => ?_
      rintro x hxc hxd
      exact hne (siblings_disjoint hranked ((hkids c n).mp hc) ((hkids d n).mp hd) (hreach hxc)
        (hreach hxd))

/-! ## Places in a pre-order -/

variable (kids) (pre : ι → List ι)

/-- Below `root`, the nodes of `rest` come behind `n` and the nodes below it. -/
inductive After (root : ι) : ι → List ι → Prop where
  | root : After root root []
  | child {p n : ι} {l r rest : List ι} (hp : After root p rest) (hkids : kids p = l ++ n :: r) :
      After root n (r.flatMap pre ++ rest)

/-- Below `root`, the nodes of `front` come in front of `n`. -/
inductive Before (root : ι) : ι → List ι → Prop where
  | root : Before root root []
  | child {p n : ι} {l r front : List ι} (hp : Before root p front) (hkids : kids p = l ++ n :: r) :
      Before root n (front ++ p :: l.flatMap pre)

variable {kids pre} {root n : ι} {rest front : List ι}

theorem After.reach (h : After kids pre root n rest)
    (hkids : ∀ c p, c ∈ kids p ↔ parent c = some p) : Relation.ReflTransGen (Up parent) n root := by
  induction h with
  | root => exact .refl
  | child _ hk ih => exact .head ((hkids _ _).mp (hk ▸ mem_append_right _ mem_cons_self)) ih

theorem Before.reach (h : Before kids pre root n front)
    (hkids : ∀ c p, c ∈ kids p ↔ parent c = some p) : Relation.ReflTransGen (Up parent) n root := by
  induction h with
  | root => exact .refl
  | child _ hk ih => exact .head ((hkids _ _).mp (hk ▸ mem_append_right _ mem_cons_self)) ih

/-- The node that comes next, if there is one, has its own place. -/
def Ahead (kids : ι → List ι) (pre : ι → List ι) (root : ι) (rest : List ι) : Prop :=
  rest = [] ∨ ∃ m rest', After kids pre root m rest' ∧ rest = pre m ++ rest'

theorem After.ahead (h : After kids pre root n rest) : Ahead kids pre root rest := by
  induction h with
  | root => exact .inl rfl
  | @child p n l r rest hp hk ih =>
    cases r with
    | nil => exact ih
    | cons m r =>
      have hk' : kids p = (l ++ [n]) ++ m :: r := by rw [hk, append_assoc, singleton_append]
      refine .inr ⟨m, _, .child hp hk', ?_⟩
      rw [flatMap_cons, append_assoc]

/-- Behind a node come the nodes below it. -/
theorem After.ahead_kids (h : After kids pre root n rest) :
    Ahead kids pre root ((kids n).flatMap pre ++ rest) := by
  cases hk : kids n with
  | nil => exact h.ahead
  | cons c cs =>
    refine .inr ⟨c, _, .child (l := []) h hk, ?_⟩
    rw [flatMap_cons, append_assoc]

end PreOrder

end AxlSdk
