import AxlSdk.Lib.Alloc
import AxlSdk.Lib.Intervals

/-!
# Spans of a region (`src/gfx/axl-gfx-region.c`)

The x-spans of one strip of a region and the three ways to combine them. A span
list is kept in an `AxlArray`, whose appends may have to allocate.

- `Spans l`: the spans `l` are sorted and separated.
- `spanCanon_spec`, `combine_spec`: what is covered after sorting and merging, and
  after each of the three combinations.
-/

namespace AxlSdk

namespace Gfx

open AllocM List

/-! ## Arrays -/

/-- `AxlArray`; only the requests for memory matter of its buffer. Nothing here steals a
buffer (`axl_array_steal`), so that there is always one. -/
structure AxlArray (α : Type) where
  items : List α
  capacity : Nat
  room : 0 < capacity
  deriving DecidableEq, Repr

namespace AxlArray

variable {α : Type}

def initialCapacity : Nat := 16

theorem initialCapacity_pos : 0 < initialCapacity := by decide

/-- `axl_array_new`: the header and the buffer. -/
def new : AllocM (AxlArray α) := do
  request
  request
  pure ⟨[], initialCapacity, initialCapacity_pos⟩

/-- The next capacity in `ensure_capacity`. -/
def grown (capacity : Nat) : Nat := if capacity ≠ 0 then capacity * 2 else initialCapacity

theorem grown_pos (capacity : Nat) : 0 < grown capacity := by
  unfold grown initialCapacity
  split
  · omega
  · omega

/-- `ensure_capacity` -/
def ensureCapacity (a : AxlArray α) : AllocM (AxlArray α) :=
  if a.items.length < a.capacity then pure a
  else do
    request
    pure ⟨a.items, grown a.capacity, grown_pos a.capacity⟩

/-- `axl_array_append` -/
def append (a : AxlArray α) (x : α) : AllocM (AxlArray α) := do
  let a ← a.ensureCapacity
  pure { a with items := a.items ++ [x] }

/-- `axl_array_clear` -/
def clear (a : AxlArray α) : AxlArray α := { a with items := [] }

theorem new_spec : Returns (new : AllocM (AxlArray α)) fun a =>
    a = ⟨[], initialCapacity, initialCapacity_pos⟩ := by
  refine Returns.bind (P := fun _ => True) (fun _ _ _ _ _ => trivial) fun _ _ => ?_
  refine Returns.bind (P := fun _ => True) (fun _ _ _ _ _ => trivial) fun _ _ => ?_
  exact Returns.pure rfl

theorem append_spec (a : AxlArray α) (x : α) :
    Returns (a.append x) fun a' => a'.items = a.items ++ [x] := by
  have hensure : Returns a.ensureCapacity fun a' => a'.items = a.items := by
    refine Returns.ite (fun _ => Returns.pure rfl) fun _ => ?_
    refine Returns.bind (P := fun _ => True) (fun _ _ _ _ _ => trivial) fun _ _ => ?_
    exact Returns.pure rfl
  refine hensure.bind fun a' ha' => Returns.pure ?_
  dsimp only
  rw [ha']

theorem new_succeeds : Succeeds (new : AllocM (AxlArray α)) :=
  Succeeds.request.bind fun _ => Succeeds.request.bind fun _ => Succeeds.pure _

theorem append_succeeds (a : AxlArray α) (x : α) : Succeeds (a.append x) := by
  have hensure : Succeeds a.ensureCapacity :=
    Succeeds.ite (Succeeds.pure _) (Succeeds.request.bind fun _ => Succeeds.pure _)
  exact hensure.bind fun _ => Succeeds.pure _

/-- With room in the buffer nothing is requested. -/
theorem append_room {a : AxlArray α} (h : a.items.length < a.capacity) (x : α)
    (granted : Nat → Bool) (i : Nat) :
    a.append x granted i = some ({ a with items := a.items ++ [x] }, i) := by
  unfold append ensureCapacity
  rw [if_pos h]
  rfl

end AxlArray

/-! ## Spans -/

/-- Half-open. -/
structure Span where
  x0 : Int
  x1 : Int
  deriving DecidableEq, Repr

/-- `span_push` -/
def spanPush (sv : AxlArray Span) (x0 x1 : Int) : AllocM (AxlArray Span) :=
  if x1 ≤ x0 then pure sv else sv.append ⟨x0, x1⟩

section Sorting

variable {α : Type} (k : α → Int)

/-- One round of an insertion sort by `k`: `key` goes behind what is not greater. -/
def insertKey (key : α) : List α → List α
  | [] => [key]
  | s :: l => if k key < k s then key :: s :: l else s :: insertKey key l

/-- The insertion sorts of `span_canon` and `region_op`. -/
def sortKeys (l : List α) : List α := l.foldl (fun sorted key => insertKey k key sorted) []

end Sorting

/-- The second loop of `span_canon`, where `cur` is `a[w]`. -/
def coalesce (cur : Span) : List Span → List Span
  | [] => [cur]
  | s :: l =>
    if s.x0 ≤ cur.x1 then coalesce ⟨cur.x0, if cur.x1 < s.x1 then s.x1 else cur.x1⟩ l
    else cur :: coalesce s l

def canonItems (l : List Span) : List Span :=
  if l.length < 2 then l
  else
    match sortKeys Span.x0 l with
    | [] => []
    | s :: rest => coalesce s rest

/-- `span_canon` -/
def spanCanon (sv : AxlArray Span) : AxlArray Span := { sv with items := canonItems sv.items }

inductive RegionOp where
  | union
  | subtract
  | intersect
  deriving DecidableEq, Repr

/-- The loop of `combine` for `OP_INTERSECT`. -/
def intersectLoop : List Span → List Span → AxlArray Span → AllocM (AxlArray Span)
  | a :: as, b :: bs, out => do
    let lo := if b.x0 < a.x0 then a.x0 else b.x0
    let hi := if a.x1 < b.x1 then a.x1 else b.x1
    let out ← spanPush out lo hi
    if a.x1 < b.x1 then intersectLoop as (b :: bs) out else intersectLoop (a :: as) bs out
  | _, _, out => pure out
  termination_by as bs => as.length + bs.length

/-- The inner loop for `OP_SUBTRACT`, in a span that ends at `x1`. -/
def subtractLoop (x1 : Int) : List Span → Int → AxlArray Span → AllocM (Int × AxlArray Span)
  | [], cur, out => pure (cur, out)
  | b :: bs, cur, out =>
    if b.x0 < x1 then
      if b.x1 ≤ cur then subtractLoop x1 bs cur out
      else do
        let out ← (if cur < b.x0 then spanPush out cur b.x0 else pure out)
        let cur := if cur < b.x1 then b.x1 else cur
        if x1 ≤ cur then pure (cur, out) else subtractLoop x1 bs cur out
    else pure (cur, out)

/-- The body of the outer loop for `OP_SUBTRACT`. -/
def subtractSpan (bs : List Span) (out : AxlArray Span) (a : Span) : AllocM (AxlArray Span) := do
  let (cur, out) ← subtractLoop a.x1 bs a.x0 out
  if cur < a.x1 then spanPush out cur a.x1 else pure out

def pushAll (out : AxlArray Span) (l : List Span) : AllocM (AxlArray Span) :=
  l.foldlM (fun out s => spanPush out s.x0 s.x1) out

/-- `combine` -/
def combine (a b : AxlArray Span) (op : RegionOp) (out : AxlArray Span) :
    AllocM (AxlArray Span) :=
  match op with
  | .union => do
    let out ← pushAll out.clear a.items
    let out ← pushAll out b.items
    pure (spanCanon out)
  | .intersect => intersectLoop a.items b.items out.clear
  | .subtract => a.items.foldlM (subtractSpan b.items) out.clear

/-! ## What spans cover -/

/-- Sorted, separated and not empty. -/
abbrev Spans (l : List Span) : Prop := Intervals.Canon Span.x0 Span.x1 (fun _ => ()) l

def Covers (l : List Span) (x : Int) : Prop := ∃ s ∈ l, s.x0 ≤ x ∧ x < s.x1

/-- Every end of a span satisfies `R`. -/
def Ends (R : Int → Prop) (l : List Span) : Prop := ∀ s ∈ l, R s.x0 ∧ R s.x1

theorem covers_nil (x : Int) : ¬ Covers [] x := by
  rintro ⟨s, hs, -⟩
  cases hs

variable {l : List Span}

theorem covers_cons {s : Span} {x : Int} :
    Covers (s :: l) x ↔ (s.x0 ≤ x ∧ x < s.x1) ∨ Covers l x := by
  unfold Covers
  simp only [mem_cons, or_and_right, exists_or, exists_eq_left]

theorem covers_append {l' : List Span} {x : Int} :
    Covers (l ++ l') x ↔ Covers l x ∨ Covers l' x := by
  unfold Covers
  simp only [mem_append, or_and_right, exists_or]

theorem has_unit_iff {x : Int} :
    Intervals.Has Span.x0 Span.x1 (fun _ => ()) l x () ↔ Covers l x := by
  unfold Intervals.Has Covers
  simp only [and_true]

/-- Spans are determined by what they cover. -/
theorem Spans.ext {l' : List Span} (h : Spans l) (h' : Spans l')
    (hsame : ∀ x, Covers l x ↔ Covers l' x) : l = l' := by
  refine Intervals.Canon.ext ?_ h h' ?_
  · rintro ⟨p0, p1⟩ ⟨q0, q1⟩ rfl rfl -
    rfl
  · intro x v
    rw [has_unit_iff, has_unit_iff]
    exact hsame x

theorem spans_cons {s : Span} :
    Spans (s :: l) ↔ s.x0 < s.x1 ∧ (∀ t ∈ l, s.x1 < t.x0) ∧ Spans l := by
  constructor
  · intro h
    refine ⟨h.proper s mem_cons_self, fun t ht => ?_, h.tail⟩
    have hle := h.head_le t ht
    have hne := h.not_has_hi
    refine lt_of_le_of_ne hle fun heq => hne ⟨t, mem_cons_of_mem _ ht, heq.ge, ?_, rfl⟩
    rw [heq]
    exact h.proper t (mem_cons_of_mem _ ht)
  · rintro ⟨hs, hlt, hl⟩
    refine ⟨?_, ?_⟩
    · rw [isChain_cons]
      refine ⟨fun t ht => ?_, hl.chain⟩
      have := hlt t (mem_of_mem_head? ht)
      exact ⟨this.le, fun heq => absurd heq this.ne⟩
    · intro t ht
      rcases mem_cons.mp ht with rfl | ht
      · exact hs
      · exact hl.proper t ht

/-- A further span behind the others. -/
theorem Spans.concat (h : Spans l) {x0 x1 : Int} (hx : x0 < x1) (hlast : ∀ s ∈ l, s.x1 < x0) :
    Spans (l ++ [⟨x0, x1⟩]) := by
  refine Intervals.Canon.concat h hx fun s hs => ?_
  have := hlast s (mem_of_getLast? hs)
  exact ⟨this.le, fun heq => absurd heq this.ne⟩

/-! ## Sorting and merging -/

section Sorting

variable {α : Type} (k : α → Int)

theorem insertKey_perm (key : α) (l : List α) : (insertKey k key l).Perm (key :: l) := by
  induction l with
  | nil => exact List.Perm.refl _
  | cons s l ih =>
    unfold insertKey
    split
    · exact List.Perm.refl _
    · exact (ih.cons s).trans (List.Perm.swap key s l)

theorem insertKey_sorted (key : α) {l : List α} (h : l.Pairwise fun a b => k a ≤ k b) :
    (insertKey k key l).Pairwise fun a b => k a ≤ k b := by
  induction l with
  | nil => exact pairwise_singleton _ _
  | cons s l ih =>
    obtain ⟨hs, hl⟩ := pairwise_cons.mp h
    unfold insertKey
    split
    · rename_i hlt
      refine pairwise_cons.mpr ⟨fun t ht => ?_, h⟩
      rcases mem_cons.mp ht with rfl | ht
      · exact hlt.le
      · exact le_trans hlt.le (hs t ht)
    · rename_i hlt
      refine pairwise_cons.mpr ⟨fun t ht => ?_, ih hl⟩
      rcases mem_cons.mp ((insertKey_perm k key l).mem_iff.mp ht) with rfl | ht
      · exact not_lt.mp hlt
      · exact hs t ht

theorem sortKeys_spec (l : List α) :
    (sortKeys k l).Perm l ∧ (sortKeys k l).Pairwise fun a b => k a ≤ k b := by
  have hfold : ∀ sorted : List α, (sorted.Pairwise fun a b => k a ≤ k b) →
      (l.foldl (fun sorted key => insertKey k key sorted) sorted).Perm (sorted ++ l) ∧
      (l.foldl (fun sorted key => insertKey k key sorted) sorted).Pairwise
        fun a b => k a ≤ k b := by
    induction l with
    | nil =>
      intro sorted hsorted
      rw [foldl_nil, List.append_nil]
      exact ⟨List.Perm.refl _, hsorted⟩
    | cons key l ih =>
      intro sorted hsorted
      rw [foldl_cons]
      obtain ⟨h₁, h₂⟩ := ih (insertKey k key sorted) (insertKey_sorted k key hsorted)
      refine ⟨h₁.trans ?_, h₂⟩
      exact ((insertKey_perm k key sorted).append_right l).trans perm_middle.symm
  obtain ⟨h₁, h₂⟩ := hfold [] List.Pairwise.nil
  exact ⟨h₁, h₂⟩

end Sorting

/-- Merging sorted spans from `cur` on. -/
theorem coalesce_spec {cur : Span} (hcur : cur.x0 < cur.x1) (hproper : ∀ s ∈ l, s.x0 < s.x1)
    (hsorted : (cur :: l).Pairwise fun a b => a.x0 ≤ b.x0) :
    Spans (coalesce cur l) ∧ (∀ s ∈ coalesce cur l, cur.x0 ≤ s.x0) ∧
      ∀ x, Covers (coalesce cur l) x ↔ Covers (cur :: l) x := by
  induction l generalizing cur with
  | nil =>
    refine ⟨spans_cons.mpr ⟨hcur, by simp, Intervals.Canon.nil⟩, ?_, fun x => Iff.rfl⟩
    intro s hs
    rw [mem_singleton.mp hs]
  | cons s l ih =>
    obtain ⟨hle, hsorted'⟩ := pairwise_cons.mp hsorted
    obtain ⟨hs, hl⟩ := pairwise_cons.mp hsorted'
    have hs0 := hproper s mem_cons_self
    have hproper' : ∀ t ∈ l, t.x0 < t.x1 := fun t ht => hproper t (mem_cons_of_mem _ ht)
    unfold coalesce
    split
    · rename_i htouch
      have hhi : cur.x1 ≤ (if cur.x1 < s.x1 then s.x1 else cur.x1) ∧
          s.x1 ≤ (if cur.x1 < s.x1 then s.x1 else cur.x1) := by
        split
        · exact ⟨le_of_lt ‹_›, le_refl _⟩
        · exact ⟨le_refl _, not_lt.mp ‹_›⟩
      have hmerged : (⟨cur.x0, if cur.x1 < s.x1 then s.x1 else cur.x1⟩ :: l).Pairwise
          fun a b : Span => a.x0 ≤ b.x0 :=
        pairwise_cons.mpr ⟨fun t ht => hle t (mem_cons_of_mem _ ht), hl⟩
      have hlt : (⟨cur.x0, if cur.x1 < s.x1 then s.x1 else cur.x1⟩ : Span).x0 <
          (⟨cur.x0, if cur.x1 < s.x1 then s.x1 else cur.x1⟩ : Span).x1 :=
        lt_of_lt_of_le hcur hhi.1
      obtain ⟨h₁, h₂, h₃⟩ := ih hlt hproper' hmerged
      refine ⟨h₁, h₂, fun x => ?_⟩
      rw [h₃, covers_cons, covers_cons, covers_cons, ← or_assoc]
      have hcs := hle s mem_cons_self
      refine or_congr_left ?_
      dsimp only
      split
      · omega
      · omega
    · rename_i hgap
      obtain ⟨h₁, h₂, h₃⟩ := ih hs0 hproper' hsorted'
      refine ⟨spans_cons.mpr ⟨hcur, fun t ht => ?_, h₁⟩, ?_, fun x => ?_⟩
      · exact lt_of_lt_of_le (not_le.mp hgap) (h₂ t ht)
      · intro t ht
        rcases mem_cons.mp ht with rfl | ht
        · exact le_refl _
        · exact le_trans (hle s mem_cons_self) (h₂ t ht)
      · rw [covers_cons, h₃, ← covers_cons]

variable {R : Int → Prop}

theorem coalesce_ends {cur : Span} (h : Ends R (cur :: l)) :
    Ends R (coalesce cur l) := by
  induction l generalizing cur with
  | nil => exact h
  | cons s l ih =>
    have hcur := h cur mem_cons_self
    have hs := h s (by simp)
    have hl : Ends R l := fun t ht => h t (by simp [ht])
    unfold coalesce
    split
    · apply ih
      intro t ht
      rcases mem_cons.mp ht with rfl | ht
      · refine ⟨hcur.1, ?_⟩
        dsimp only
        split
        · exact hs.2
        · exact hcur.2
      · exact hl t ht
    · intro t ht
      rcases mem_cons.mp ht with rfl | ht
      · exact hcur
      · refine ih ?_ t ht
        intro u hu
        rcases mem_cons.mp hu with rfl | hu
        · exact hs
        · exact hl u hu

/-- `span_canon` makes the canonical list with the same cover. -/
theorem canonItems_spec (hproper : ∀ s ∈ l, s.x0 < s.x1) (hends : Ends R l) :
    Spans (canonItems l) ∧ Ends R (canonItems l) ∧
      ∀ x, Covers (canonItems l) x ↔ Covers l x := by
  unfold canonItems
  split
  · rename_i hshort
    refine ⟨?_, hends, fun x => Iff.rfl⟩
    match l, hproper, hshort with
    | [], _, _ => exact Intervals.Canon.nil
    | [s], hproper, _ =>
      exact spans_cons.mpr ⟨hproper s (mem_singleton_self _), by simp, Intervals.Canon.nil⟩
  · rename_i hlong
    obtain ⟨hperm, hsorted⟩ := sortKeys_spec Span.x0 l
    cases hs : sortKeys Span.x0 l with
    | nil =>
      rw [hs] at hperm
      rw [nil_perm.mp hperm] at hlong
      exact absurd (by decide) hlong
    | cons s rest =>
      rw [hs] at hperm hsorted
      have hmem : ∀ t ∈ s :: rest, t ∈ l := fun t ht => hperm.mem_iff.mp ht
      obtain ⟨h₁, -, h₃⟩ := coalesce_spec (hproper s (hmem s mem_cons_self))
        (fun t ht => hproper t (hmem t (mem_cons_of_mem _ ht))) hsorted
      refine ⟨h₁, coalesce_ends fun t ht => hends t (hmem t ht), fun x => ?_⟩
      dsimp only
      rw [h₃]
      unfold Covers
      simp only [hperm.mem_iff]

/-! ## Combinations -/

/-- What a combination of two sets covers. -/
def RegionOp.Holds (op : RegionOp) (p q : Prop) : Prop :=
  match op with
  | .union => p ∨ q
  | .subtract => p ∧ ¬ q
  | .intersect => p ∧ q

theorem spanPush_spec (sv : AxlArray Span) (x0 x1 : Int) :
    Returns (spanPush sv x0 x1) fun sv' =>
      sv'.items = if x1 ≤ x0 then sv.items else sv.items ++ [⟨x0, x1⟩] := by
  refine Returns.ite (fun h => Returns.pure ?_) fun h => ?_
  · rw [if_pos h]
  · refine (sv.append_spec ⟨x0, x1⟩).mono fun sv' hsv => ?_
    rw [if_neg h, hsv]

theorem spanPush_succeeds (sv : AxlArray Span) (x0 x1 : Int) : Succeeds (spanPush sv x0 x1) :=
  Succeeds.ite (Succeeds.pure _) (sv.append_succeeds _)

variable {out : AxlArray Span}

theorem pushAll_spec (hproper : ∀ s ∈ l, s.x0 < s.x1) :
    Returns (pushAll out l) fun out' => out'.items = out.items ++ l := by
  have hloop := Returns.foldlM (f := fun out (s : Span) => spanPush out s.x0 s.x1)
    (P := fun (b : AxlArray Span) as =>
      b.items ++ as = out.items ++ l ∧ ∀ s ∈ as, s.x0 < s.x1) ?_ ⟨rfl, hproper⟩
  · refine hloop.mono fun out' h => ?_
    rw [← h.1, List.append_nil]
  · rintro b s as ⟨hb, has⟩
    refine (spanPush_spec b s.x0 s.x1).mono fun b' hb' => ?_
    rw [if_neg (not_le.mpr (has s mem_cons_self))] at hb'
    refine ⟨?_, fun t ht => has t (mem_cons_of_mem _ ht)⟩
    rw [hb', List.append_assoc]
    exact hb

theorem Spans.lt_of_covers {s : Span} (h : Spans (s :: l)) {x : Int} (hx : Covers l x) :
    s.x1 < x := by
  obtain ⟨t, ht, hle, -⟩ := hx
  exact lt_of_lt_of_le ((spans_cons.mp h).2.1 t ht) hle

/-- A push behind the others. -/
theorem spanPush_concat {sv : AxlArray Span} {x0 x1 : Int} (hsv : Spans sv.items)
    (hends : Ends R sv.items) (h0 : R x0) (h1 : R x1) (hlast : ∀ s ∈ sv.items, s.x1 < x0) :
    Returns (spanPush sv x0 x1) fun sv' =>
      Spans sv'.items ∧ Ends R sv'.items ∧
      (∀ s ∈ sv'.items, s ∈ sv.items ∨ x0 < x1 ∧ s = ⟨x0, x1⟩) ∧
      ∀ x, Covers sv'.items x ↔ Covers sv.items x ∨ (x0 ≤ x ∧ x < x1) := by
  refine (spanPush_spec sv x0 x1).mono fun sv' hsv' => ?_
  rw [hsv']
  by_cases hle : x1 ≤ x0
  · rw [if_pos hle]
    refine ⟨hsv, hends, fun s hs => .inl hs, fun x => ?_⟩
    constructor
    · exact .inl
    · rintro (hx | hx)
      · exact hx
      · omega
  · rw [if_neg hle]
    have hlt : x0 < x1 := not_le.mp hle
    refine ⟨hsv.concat hlt hlast, ?_, ?_, fun x => ?_⟩
    · intro s hs
      rcases mem_append.mp hs with hs | hs
      · exact hends s hs
      · rw [mem_singleton.mp hs]
        exact ⟨h0, h1⟩
    · intro s hs
      rcases mem_append.mp hs with hs | hs
      · exact .inl hs
      · exact .inr ⟨hlt, mem_singleton.mp hs⟩
    · rw [covers_append, covers_cons]
      have := covers_nil x
      tauto

/-- What two span lists cover together, when the first span of `as` ends first. -/
theorem covers_heads {a b : Span} {as bs : List Span} (hbs : Spans (b :: bs))
    (hle : a.x1 ≤ b.x1) (x : Int) :
    Covers (a :: as) x ∧ Covers (b :: bs) x ↔
      (a.x0 ≤ x ∧ b.x0 ≤ x ∧ x < a.x1) ∨ (Covers as x ∧ Covers (b :: bs) x) := by
  constructor
  · rintro ⟨hx, hx'⟩
    rcases covers_cons.mp hx with hx | hx
    · left
      rcases covers_cons.mp hx' with hx' | hx'
      · exact ⟨hx.1, hx'.1, hx.2⟩
      · have := hbs.lt_of_covers hx'
        omega
    · exact .inr ⟨hx, hx'⟩
  · rintro (hx | ⟨hx, hx'⟩)
    · exact ⟨covers_cons.mpr (.inl ⟨hx.1, hx.2.2⟩),
        covers_cons.mpr (.inl ⟨hx.2.1, lt_of_lt_of_le hx.2.2 hle⟩)⟩
    · exact ⟨covers_cons.mpr (.inr hx), hx'⟩

theorem intersectLoop_spec (n : Nat) :
    ∀ {as bs : List Span} {out : AxlArray Span}, as.length + bs.length = n →
      Spans as → Spans bs → Spans out.items → Ends R as → Ends R bs → Ends R out.items →
      (∀ s ∈ out.items, ∀ a ∈ as, ∀ b ∈ bs, s.x1 < a.x0 ∨ s.x1 < b.x0) →
      Returns (intersectLoop as bs out) fun out' =>
        Spans out'.items ∧ Ends R out'.items ∧
        ∀ x, Covers out'.items x ↔ Covers out.items x ∨ (Covers as x ∧ Covers bs x) := by
  induction n with
  | zero =>
    intro as bs out hn has hbs hout ea eb eo hlast
    obtain rfl : as = [] := eq_nil_of_length_eq_zero (by omega)
    unfold intersectLoop
    refine Returns.pure ⟨hout, eo, fun x => ?_⟩
    have := covers_nil x
    tauto
  | succ n ih =>
    intro as bs out hn has hbs hout ea eb eo hlast
    match as, bs with
    | [], bs =>
      unfold intersectLoop
      refine Returns.pure ⟨hout, eo, fun x => ?_⟩
      have := covers_nil x
      tauto
    | a :: as, [] =>
      unfold intersectLoop
      refine Returns.pure ⟨hout, eo, fun x => ?_⟩
      have := covers_nil x
      tauto
    | a :: as, b :: bs =>
      have ha := ea a mem_cons_self
      have hb := eb b mem_cons_self
      obtain ⟨-, hagap, has'⟩ := spans_cons.mp has
      obtain ⟨-, hbgap, hbs'⟩ := spans_cons.mp hbs
      have hlo : R (if b.x0 < a.x0 then a.x0 else b.x0) := by
        split
        · exact ha.1
        · exact hb.1
      have hhi : R (if a.x1 < b.x1 then a.x1 else b.x1) := by
        split
        · exact ha.2
        · exact hb.2
      have hbefore : ∀ s ∈ out.items, s.x1 < (if b.x0 < a.x0 then a.x0 else b.x0) := by
        intro s hs
        have := hlast s hs a mem_cons_self b mem_cons_self
        split
        · omega
        · omega
      rw [intersectLoop]
      refine (spanPush_concat hout eo hlo hhi hbefore).bind fun out' hout' => ?_
      obtain ⟨h₁, h₂, h₃, h₄⟩ := hout'
      -- the span that ends first is done
      refine Returns.ite (fun hlt => ?_) fun hge => ?_
      · have hlast' : ∀ s ∈ out'.items, ∀ t ∈ as, ∀ u ∈ b :: bs, s.x1 < t.x0 ∨ s.x1 < u.x0 := by
          intro s hs t ht u hu
          rcases h₃ s hs with hs | ⟨-, rfl⟩
          · exact hlast s hs t (mem_cons_of_mem _ ht) u hu
          · left
            rw [if_pos hlt]
            exact hagap t ht
        have hlen : as.length + (b :: bs).length = n := by
          simp only [length_cons] at hn ⊢
          omega
        refine (ih hlen has' hbs h₁ (fun t ht => ea t (by simp [ht])) eb h₂ hlast').mono ?_
        rintro out'' ⟨h₅, h₆, h₇⟩
        refine ⟨h₅, h₆, fun x => ?_⟩
        rw [h₇, h₄, or_assoc, covers_heads hbs hlt.le, if_pos hlt]
        refine or_congr_right (or_congr_left ?_)
        split
        · omega
        · omega
      · have hlast' : ∀ s ∈ out'.items, ∀ t ∈ a :: as, ∀ u ∈ bs, s.x1 < t.x0 ∨ s.x1 < u.x0 := by
          intro s hs t ht u hu
          rcases h₃ s hs with hs | ⟨-, rfl⟩
          · exact hlast s hs t ht u (mem_cons_of_mem _ hu)
          · right
            rw [if_neg hge]
            exact hbgap u hu
        have hlen : (a :: as).length + bs.length = n := by
          simp only [length_cons] at hn ⊢
          omega
        refine (ih hlen has hbs' h₁ ea (fun t ht => eb t (by simp [ht])) h₂ hlast').mono ?_
        rintro out'' ⟨h₅, h₆, h₇⟩
        refine ⟨h₅, h₆, fun x => ?_⟩
        rw [h₇, h₄, or_assoc, and_comm (a := Covers (a :: as) x) (b := Covers (b :: bs) x),
          covers_heads has (not_lt.mp hge), if_neg hge, and_comm (a := Covers bs x)]
        refine or_congr_right (or_congr_left ?_)
        split
        · omega
        · omega

/-- What the loop of `OP_SUBTRACT` has written when it stands at `cur` in a span that
ends at `x1`. -/
structure Cut (R : Int → Prop) (x1 cur : Int) (out : List Span) : Prop where
  spans : Spans out
  ends : Ends R out
  edge : R cur
  before : ∀ s ∈ out, s.x1 < cur ∧ s.x1 ≤ x1

theorem subtractLoop_spec {x1 : Int} {bs : List Span} (hbs : Spans bs) (eb : Ends R bs) {cur : Int}
    (h : Cut R x1 cur out.items) :
    Returns (subtractLoop x1 bs cur out) fun p =>
      Cut R x1 p.1 p.2.items ∧
      ∀ x, Covers p.2.items x ∨ (p.1 ≤ x ∧ x < x1) ↔
        Covers out.items x ∨ (cur ≤ x ∧ x < x1 ∧ ¬ Covers bs x) := by
  induction bs generalizing cur out with
  | nil =>
    refine Returns.pure ⟨h, fun x => ?_⟩
    simp only [covers_nil, not_false_eq_true, and_true]
  | cons b bs ih =>
    have hb := eb b mem_cons_self
    obtain ⟨hb0, -, hbs'⟩ := spans_cons.mp hbs
    have eb' : Ends R bs := fun t ht => eb t (mem_cons_of_mem _ ht)
    have hlate := fun x h => hbs.lt_of_covers (x := x) h
    unfold subtractLoop
    refine Returns.ite (fun hlt => ?_) fun hge => ?_
    · refine Returns.ite (fun hskip => ?_) fun hcut => ?_
      · refine (ih hbs' eb' h).mono fun p hp => ⟨hp.1, fun x => ?_⟩
        rw [hp.2, covers_cons]
        refine or_congr_right ⟨fun hx => ⟨hx.1, hx.2.1, ?_⟩, fun hx => ⟨hx.1, hx.2.1, ?_⟩⟩
        · rintro (hb | hb)
          · omega
          · exact hx.2.2 hb
        · exact fun hb => hx.2.2 (.inr hb)
      · -- the part up to `b` is kept, the rest starts behind `b`
        have hpush : Returns (if cur < b.x0 then spanPush out cur b.x0 else pure out) fun out' =>
            Cut R x1 b.x1 out'.items ∧
            ∀ x, Covers out'.items x ↔ Covers out.items x ∨ (cur ≤ x ∧ x < b.x0) := by
          refine Returns.ite (fun hcur => ?_) fun hcur => Returns.pure ⟨?_, fun x => ?_⟩
          · refine (spanPush_concat h.spans h.ends h.edge hb.1
              fun s hs => (h.before s hs).1).mono fun out' hout' => ?_
            obtain ⟨h₁, h₂, h₃, h₄⟩ := hout'
            refine ⟨⟨h₁, h₂, hb.2, fun s hs => ?_⟩, h₄⟩
            rcases h₃ s hs with hs | ⟨-, rfl⟩
            · have := h.before s hs
              omega
            · exact ⟨hb0, hlt.le⟩
          · refine ⟨h.spans, h.ends, hb.2, fun s hs => ?_⟩
            have := h.before s hs
            omega
          · constructor
            · exact .inl
            · rintro (hx | hx)
              · exact hx
              · omega
        refine hpush.bind fun out' hout' => ?_
        obtain ⟨hcut', hcov⟩ := hout'
        rw [if_pos (not_le.mp hcut)]
        have hsplit : ∀ x, (cur ≤ x ∧ x < x1 ∧ ¬ Covers (b :: bs) x) ↔
            (cur ≤ x ∧ x < b.x0) ∨ (b.x1 ≤ x ∧ x < x1 ∧ ¬ Covers bs x) := by
          intro x
          rw [covers_cons]
          have := hlate x
          by_cases hx : Covers bs x
          · have := this hx
            simp only [hx, or_true, not_true_eq_false, and_false, or_false, false_iff]
            omega
          · simp only [hx, or_false, not_false_eq_true, and_true]
            omega
        refine Returns.ite (fun hdone => Returns.pure ⟨hcut', fun x => ?_⟩) fun hmore => ?_
        · rw [hcov, hsplit]
          constructor
          · rintro ((hx | hx) | hx)
            · exact .inl hx
            · exact .inr (.inl hx)
            · exact absurd hx (by dsimp only; omega)
          · rintro (hx | hx | hx)
            · exact .inl (.inl hx)
            · exact .inl (.inr hx)
            · exact absurd hx (by omega)
        · refine (ih hbs' eb' hcut').mono fun p hp => ⟨hp.1, fun x => ?_⟩
          rw [hp.2, hcov, hsplit, or_assoc]
    · refine Returns.pure ⟨h, fun x => or_congr_right ?_⟩
      have := hlate x
      rw [covers_cons]
      constructor
      · rintro ⟨h₁, h₂⟩
        refine ⟨h₁, h₂, ?_⟩
        rintro (hx | hx)
        · omega
        · have := this hx
          omega
      · exact fun hx => ⟨hx.1, hx.2.1⟩

theorem subtractSpan_spec {a : Span} {bs : List Span} (ha : a.x0 < a.x1) (ea : R a.x0 ∧ R a.x1)
    (hbs : Spans bs) (eb : Ends R bs) (hout : Spans out.items) (eo : Ends R out.items)
    (hlast : ∀ s ∈ out.items, s.x1 < a.x0) :
    Returns (subtractSpan bs out a) fun out' =>
      Spans out'.items ∧ Ends R out'.items ∧ (∀ s ∈ out'.items, s.x1 ≤ a.x1) ∧
      ∀ x, Covers out'.items x ↔
        Covers out.items x ∨ (a.x0 ≤ x ∧ x < a.x1 ∧ ¬ Covers bs x) := by
  have hstart : Cut R a.x1 a.x0 out.items :=
    ⟨hout, eo, ea.1, fun s hs => ⟨hlast s hs, (lt_trans (hlast s hs) ha).le⟩⟩
  refine (subtractLoop_spec hbs eb hstart).bind fun p hp => ?_
  obtain ⟨hcut, hcov⟩ := hp
  refine Returns.ite (fun hlt => ?_) fun hge => Returns.pure ⟨hcut.spans, hcut.ends, ?_, ?_⟩
  · refine (spanPush_concat hcut.spans hcut.ends hcut.edge ea.2
      fun s hs => (hcut.before s hs).1).mono fun out' hout' => ?_
    obtain ⟨h₁, h₂, h₃, h₄⟩ := hout'
    refine ⟨h₁, h₂, fun s hs => ?_, fun x => ?_⟩
    · rcases h₃ s hs with hs | ⟨-, rfl⟩
      · exact (hcut.before s hs).2
      · exact le_refl _
    · rw [h₄, hcov]
  · exact fun s hs => (hcut.before s hs).2
  · intro x
    rw [← hcov]
    constructor
    · exact .inl
    · rintro (hx | hx)
      · exact hx
      · omega

/-- `combine` gives the canonical spans of what the operation covers. -/
theorem combine_spec {a b : AxlArray Span} (op : RegionOp) (ha : Spans a.items) (hb : Spans b.items)
    (ea : Ends R a.items) (eb : Ends R b.items) :
    Returns (combine a b op out) fun out' =>
      Spans out'.items ∧ Ends R out'.items ∧
      ∀ x, Covers out'.items x ↔ op.Holds (Covers a.items x) (Covers b.items x) := by
  cases op with
  | union =>
    refine (pushAll_spec ha.proper).bind fun o₁ h₁ => ?_
    refine (pushAll_spec hb.proper).bind fun o₂ h₂ => Returns.pure ?_
    rw [h₁] at h₂
    have hitems : o₂.items = a.items ++ b.items := h₂
    have hproper : ∀ s ∈ o₂.items, s.x0 < s.x1 := by
      intro s hs
      rw [hitems] at hs
      exact (mem_append.mp hs).elim (ha.proper s) (hb.proper s)
    have hends : Ends R o₂.items := by
      intro s hs
      rw [hitems] at hs
      exact (mem_append.mp hs).elim (ea s) (eb s)
    obtain ⟨h₃, h₄, h₅⟩ := canonItems_spec hproper hends
    refine ⟨h₃, h₄, fun x => (h₅ x).trans ?_⟩
    rw [hitems, covers_append]
    rfl
  | intersect =>
    refine (intersectLoop_spec _ rfl ha hb Intervals.Canon.nil ea eb ?_ ?_).mono ?_
    · rintro s ⟨⟩
    · rintro s ⟨⟩
    · rintro out' ⟨h₁, h₂, h₃⟩
      refine ⟨h₁, h₂, fun x => (h₃ x).trans ?_⟩
      exact or_iff_right (covers_nil x)
  | subtract =>
    -- the spans of `a` that are done, and what has been written for them
    have hloop := Returns.foldlM (f := subtractSpan b.items)
      (P := fun (o : AxlArray Span) as => Spans as ∧ Ends R as ∧ Spans o.items ∧ Ends R o.items ∧
        (∀ s ∈ o.items, ∀ t ∈ as, s.x1 < t.x0) ∧
        ∀ x, Covers o.items x ∨ (Covers as x ∧ ¬ Covers b.items x) ↔
          Covers a.items x ∧ ¬ Covers b.items x) ?_ (b := out.clear) (l := a.items) ?_
    · refine hloop.mono ?_
      rintro out' ⟨-, -, h₁, h₂, -, h₃⟩
      refine ⟨h₁, h₂, fun x => Iff.trans ?_ (h₃ x)⟩
      have := covers_nil x
      tauto
    · rintro o t as ⟨has, eas, ho, eo, hlast, hcov⟩
      obtain ⟨ht, hgap, has'⟩ := spans_cons.mp has
      refine (subtractSpan_spec ht (eas t mem_cons_self) hb eb ho eo
        fun s hs => hlast s hs t mem_cons_self).mono ?_
      rintro o' ⟨h₁, h₂, h₃, h₄⟩
      refine ⟨has', fun u hu => eas u (mem_cons_of_mem _ hu), h₁, h₂, ?_, fun x => ?_⟩
      · exact fun s hs u hu => lt_of_le_of_lt (h₃ s hs) (hgap u hu)
      · rw [← hcov, h₄, covers_cons]
        tauto
    · refine ⟨ha, ea, Intervals.Canon.nil, ?_, ?_, fun x => or_iff_right (covers_nil x)⟩
      · rintro s ⟨⟩
      · rintro s ⟨⟩

theorem intersectLoop_succeeds (n : Nat) : ∀ {as bs : List Span} {out : AxlArray Span},
    as.length + bs.length = n → Succeeds (intersectLoop as bs out) := by
  induction n with
  | zero =>
    intro as bs out hn
    obtain rfl : as = [] := eq_nil_of_length_eq_zero (by omega)
    unfold intersectLoop
    exact Succeeds.pure _
  | succ n ih =>
    intro as bs out hn
    match as, bs with
    | [], bs =>
      unfold intersectLoop
      exact Succeeds.pure _
    | a :: as, [] =>
      unfold intersectLoop
      exact Succeeds.pure _
    | a :: as, b :: bs =>
      rw [intersectLoop]
      simp only [length_cons] at hn
      refine (spanPush_succeeds _ _ _).bind fun out' => Succeeds.ite (ih ?_) (ih ?_)
      · simp only [length_cons]
        omega
      · simp only [length_cons]
        omega

theorem subtractSpan_succeeds (bs : List Span) (out : AxlArray Span) (a : Span) :
    Succeeds (subtractSpan bs out a) := by
  have hloop : ∀ cur out, Succeeds (subtractLoop a.x1 bs cur out) := by
    induction bs with
    | nil => exact fun cur out => Succeeds.pure _
    | cons b bs ih =>
      intro cur out
      unfold subtractLoop
      refine Succeeds.ite (Succeeds.ite (ih _ _) ?_) (Succeeds.pure _)
      refine (Succeeds.ite (spanPush_succeeds _ _ _) (Succeeds.pure _)).bind fun out' => ?_
      exact Succeeds.ite (Succeeds.pure _) (ih _ _)
  exact (hloop _ _).bind fun p => Succeeds.ite (spanPush_succeeds _ _ _) (Succeeds.pure _)

theorem combine_succeeds (a b : AxlArray Span) (op : RegionOp) (out : AxlArray Span) :
    Succeeds (combine a b op out) := by
  have hpush : ∀ out l, Succeeds (pushAll out l) := fun out l =>
    Succeeds.foldlM (fun out (s : Span) => spanPush_succeeds out s.x0 s.x1) out l
  cases op with
  | union => exact (hpush _ _).bind fun o₁ => (hpush _ _).bind fun o₂ => Succeeds.pure _
  | intersect => exact intersectLoop_succeeds _ rfl
  | subtract => exact Succeeds.foldlM (subtractSpan_succeeds b.items) _ _

end Gfx

end AxlSdk
