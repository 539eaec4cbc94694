import Mathlib

/-!
# Sorting in place, with a comparator as an oracle

An algorithm that sorts in place compares elements and swaps them, and sees nothing else of
the state: a `Machine` has these two operations, by the number of the element. What the
comparator does and answers is left open.

- `Closed m n I`: the operations on the first `n` elements keep `I`. An algorithm that keeps
  every such `I` touches these elements only.
- `View m n view`: what the elements are; a comparison leaves them alone.
- `Rearranged lo hi v w`: `w` is `v` with the elements from `lo` to below `hi` in some order.
- `Follows m n view le`: the answers are those of a total preorder.
-/

namespace AxlSdk

namespace InPlace

/-- Comparing and swapping elements in a state. -/
structure Machine (S : Type) where
  cmp : Nat → Nat → S → Int × S
  swap : Nat → Nat → S → S

variable {S α : Type}

/-- The elements from the one with number `k` on. -/
def Machine.shift (m : Machine S) (k : Nat) : Machine S :=
  ⟨fun i j => m.cmp (k + i) (k + j), fun i j => m.swap (k + i) (k + j)⟩

/-- The operations on the first `n` elements keep `I`. -/
structure Closed (m : Machine S) (n : Nat) (I : S → Prop) : Prop where
  cmp : ∀ i j s, i < n → j < n → I s → I (m.cmp i j s).2
  swap : ∀ i j s, i < n → j < n → I s → I (m.swap i j s)

variable {m : Machine S} {n' : Nat}

theorem Closed.shift {n : Nat} {I : S → Prop} (h : Closed m n I) {k : Nat} (hn : k + n' ≤ n) :
    Closed (m.shift k) n' I :=
  ⟨fun i j s hi hj => h.cmp _ _ s (by omega) (by omega),
    fun i j s hi hj => h.swap _ _ s (by omega) (by omega)⟩

/-- Fewer elements. -/
theorem Closed.mono {n : Nat} {I : S → Prop} (h : Closed m n I) (hn : n' ≤ n) : Closed m n' I :=
  ⟨fun i j s hi hj => h.cmp i j s (by omega) (by omega),
    fun i j s hi hj => h.swap i j s (by omega) (by omega)⟩

/-! ## Elements -/

/-- What the elements of a state are. -/
structure View (m : Machine S) (n : Nat) (view : S → Nat → α) : Prop where
  cmp : ∀ i j s, i < n → j < n → view (m.cmp i j s).2 = view s
  swap : ∀ i j s, i < n → j < n → view (m.swap i j s) = view s ∘ Equiv.swap i j

/-- The elements from the one with number `k` on. -/
def viewFrom (k : Nat) (view : S → Nat → α) : S → Nat → α := fun s i => view s (k + i)

theorem swap_shift (k i j x : Nat) :
    Equiv.swap (k + i) (k + j) (k + x) = k + Equiv.swap i j x := by
  simp only [Equiv.swap_apply_def, Nat.add_left_cancel_iff]
  split
  · rfl
  · split <;> rfl

variable {view : S → Nat → α}

theorem View.shift {n : Nat} (h : View m n view) {k : Nat} (hn : k + n' ≤ n) :
    View (m.shift k) n' (viewFrom k view) := by
  constructor
  · intro i j s hi hj
    funext x
    exact congrFun (h.cmp _ _ s (by omega) (by omega)) (k + x)
  · intro i j s hi hj
    funext x
    refine (congrFun (h.swap _ _ s (by omega) (by omega)) (k + x)).trans ?_
    rw [Function.comp_apply, swap_shift]
    rfl

theorem View.mono {n : Nat} (h : View m n view) (hn : n' ≤ n) : View m n' view :=
  ⟨fun i j s hi hj => h.cmp i j s (by omega) (by omega),
    fun i j s hi hj => h.swap i j s (by omega) (by omega)⟩

/-! ## Rearranging -/

/-- The elements from `lo` to below `hi` change places with each other. -/
def Rearranged (lo hi : Nat) (v w : Nat → α) : Prop :=
  ∃ e : Equiv.Perm Nat, (∀ i, i < lo ∨ hi ≤ i → e i = i) ∧ w = v ∘ e

variable {lo hi n : Nat} {v w : Nat → α}

theorem Rearranged.refl (lo hi : Nat) (v : Nat → α) : Rearranged lo hi v v :=
  ⟨1, fun _ _ => rfl, rfl⟩

theorem Rearranged.swap (h : Rearranged lo hi v w) {i j : Nat} (hi' : lo ≤ i ∧ i < hi)
    (hj : lo ≤ j ∧ j < hi) : Rearranged lo hi v (w ∘ Equiv.swap i j) := by
  obtain ⟨e, hfix, rfl⟩ := h
  refine ⟨e * Equiv.swap i j, fun k hk => ?_, rfl⟩
  rw [Equiv.Perm.mul_apply, Equiv.swap_apply_of_ne_of_ne (by omega) (by omega), hfix k hk]

theorem maps_inside {e : Equiv.Perm Nat} (hfix : ∀ i, i < lo ∨ hi ≤ i → e i = i) {i : Nat}
    (hi' : lo ≤ i ∧ i < hi) : lo ≤ e i ∧ e i < hi := by
  by_contra hout
  have heq : e (e i) = e i := hfix _ (by omega)
  rw [e.injective heq] at hout
  exact hout hi'

/-- What holds of all of these elements still does. -/
theorem Rearranged.all (h : Rearranged lo hi v w) {P : α → Prop}
    (hv : ∀ i, lo ≤ i → i < hi → P (v i)) : ∀ i, lo ≤ i → i < hi → P (w i) := by
  obtain ⟨e, hfix, rfl⟩ := h
  intro i hlo hhi
  obtain ⟨hlo', hhi'⟩ := maps_inside hfix ⟨hlo, hhi⟩
  exact hv _ hlo' hhi'

theorem Rearranged.perm (h : Rearranged 0 n v w) :
    ((List.range n).map w).Perm ((List.range n).map v) := by
  obtain ⟨e, hfix, rfl⟩ := h
  rw [← List.map_map]
  refine List.Perm.map v ?_
  refine (List.perm_ext_iff_of_nodup (List.nodup_range.map e.injective) List.nodup_range).mpr ?_
  intro i
  rw [List.mem_map, List.mem_range]
  constructor
  · rintro ⟨j, hj, rfl⟩
    exact (maps_inside hfix ⟨Nat.zero_le j, List.mem_range.mp hj⟩).2
  · intro hi'
    have hfix' : ∀ j, j < 0 ∨ n ≤ j → e.symm j = j := fun j hj => by
      rw [Equiv.symm_apply_eq, hfix j hj]
    have hin := maps_inside hfix' ⟨Nat.zero_le i, hi'⟩
    exact ⟨e.symm i, List.mem_range.mpr hin.2, e.apply_symm_apply i⟩

/-- The operations rearrange the elements, as an invariant. -/
theorem View.closed (h : View m n view) (hlo : lo + hi ≤ n) (v : Nat → α) :
    Closed (m.shift lo) hi fun s => Rearranged lo (lo + hi) v (view s) := by
  constructor
  · intro i j s hi' hj hs
    show Rearranged lo (lo + hi) v (view (m.cmp (lo + i) (lo + j) s).2)
    rw [h.cmp _ _ s (by omega) (by omega)]
    exact hs
  · intro i j s hi' hj hs
    show Rearranged lo (lo + hi) v (view (m.swap (lo + i) (lo + j) s))
    rw [h.swap _ _ s (by omega) (by omega)]
    exact hs.swap ⟨Nat.le_add_right _ _, by omega⟩ ⟨Nat.le_add_right _ _, by omega⟩

/-- A total preorder. -/
structure TotalPreorder (le : α → α → Prop) : Prop where
  total : ∀ x y, le x y ∨ le y x
  trans : ∀ {x y z}, le x y → le y z → le x z

theorem TotalPreorder.refl {le : α → α → Prop} (h : TotalPreorder le) (x : α) : le x x :=
  (h.total x x).elim id id

/-- The answers on the first `n` elements are those of a preorder. -/
structure Follows (m : Machine S) (n : Nat) (view : S → Nat → α) (le : α → α → Prop) : Prop where
  greater : ∀ i j s, i < n → j < n → ((m.cmp i j s).1 > 0 ↔ ¬ le (view s i) (view s j))
  less : ∀ i j s, i < n → j < n → ((m.cmp i j s).1 < 0 ↔ ¬ le (view s j) (view s i))

variable {le : α → α → Prop}

theorem Follows.shift (h : Follows m n view le) {k : Nat} (hn : k + n' ≤ n) :
    Follows (m.shift k) n' (viewFrom k view) le :=
  ⟨fun i j s hi hj => h.greater _ _ s (by omega) (by omega),
    fun i j s hi hj => h.less _ _ s (by omega) (by omega)⟩

theorem Follows.mono (h : Follows m n view le) (hn : n' ≤ n) : Follows m n' view le :=
  ⟨fun i j s hi hj => h.greater i j s (by omega) (by omega),
    fun i j s hi hj => h.less i j s (by omega) (by omega)⟩

/-- The first `n` elements do not decrease. -/
def SortedOn (le : α → α → Prop) (n : Nat) (v : Nat → α) : Prop :=
  ∀ i j, i < j → j < n → le (v i) (v j)

theorem SortedOn.pairwise (h : SortedOn le n v) : ((List.range n).map v).Pairwise le := by
  rw [List.pairwise_map]
  refine List.pairwise_lt_range.imp_of_mem ?_
  intro i j _ hj hij
  exact h i j hij (List.mem_range.mp hj)

end InPlace

end AxlSdk
