import AxlSdk.Data.PieceTree.Model
import AxlSdk.Lib.EditHistory

/-!
# The tree as a list of pieces

Every tree operation of the piece tree is described by what it does to the
in-order list of pieces, so that no later proof looks at nodes again:

- `Summed t`: the stored byte and newline sums are right.
- `insertAfter_spec`, `erasePiece_spec`, … : the effect on the list, given that
  the addresses of the pieces are distinct.
- `findPiece_spec`: the descent finds the piece that covers an offset.
- `lowerCount_eq`, `countNlSpan_eq`, `nthNlInSpan_spec`: the binary searches in
  the newline indexes count and locate the newlines of a span.

The document of a tree is the concatenation of its pieces' bytes (`doc`), and
`Wf` is the invariant that ties sums, indexes and pieces to it. The last part
shows that under `Wf` each query answers for `doc`.
-/

namespace AxlSdk

namespace PieceTree

open AugTree AugTree.Tree EditHistory List

/-! ## Sums -/

/-- Byte and newline totals of a list of pieces. -/
def sums (ps : List Piece) : Sums :=
  ⟨(ps.map Piece.length).sum, (ps.map Piece.newlines).sum⟩

/-- Total byte length of a list of pieces. -/
def byteLen (ps : List Piece) : Nat := (ps.map Piece.length).sum

@[simp] theorem byteLen_nil : byteLen [] = 0 := rfl

@[simp] theorem byteLen_cons (p : Piece) (ps : List Piece) :
    byteLen (p :: ps) = p.length + byteLen ps := by
  simp [byteLen]

@[simp] theorem byteLen_append (ps qs : List Piece) :
    byteLen (ps ++ qs) = byteLen ps + byteLen qs := by
  simp [byteLen]

/-- Total of the cached newline counts. -/
def nlSum (ps : List Piece) : Nat := (ps.map Piece.newlines).sum

@[simp] theorem nlSum_nil : nlSum [] = 0 := rfl

@[simp] theorem nlSum_cons (p : Piece) (ps : List Piece) :
    nlSum (p :: ps) = p.newlines + nlSum ps := by
  simp [nlSum]

@[simp] theorem nlSum_append (ps qs : List Piece) :
    nlSum (ps ++ qs) = nlSum ps + nlSum qs := by
  simp [nlSum]

theorem elim_linkAgg_bytes (ps : List Piece) :
    (linkAgg sums ps).elim 0 Sums.bytes = byteLen ps := by
  cases ps <;> rfl

theorem elim_linkAgg_newlines (ps : List Piece) :
    (linkAgg sums ps).elim 0 Sums.newlines = nlSum ps := by
  cases ps <;> rfl

/-- `pt_recompute` computes the totals of a node's contents. -/
theorem measures_ptRecompute : Measures ptRecompute sums := by
  intro xs p ys
  simp only [ptRecompute, elim_linkAgg_bytes, elim_linkAgg_newlines, sums, Sums.mk.injEq]
  constructor
  · simp only [byteLen, map_append, map_cons, sum_append, sum_cons]
    omega
  · simp only [nlSum, map_append, map_cons, sum_append, sum_cons]
    omega

/-- The stored sums of every node are right. -/
abbrev Summed (t : Tree Piece Sums) : Prop := Aug sums t

variable {t : Tree Piece Sums}

theorem Summed.bytes (h : Summed t) :
    t.agg.elim 0 Sums.bytes = byteLen t.toList := by
  rw [h.agg_eq, elim_linkAgg_bytes]

theorem Summed.newlines (h : Summed t) :
    t.agg.elim 0 Sums.newlines = nlSum t.toList := by
  rw [h.agg_eq, elim_linkAgg_newlines]

/-! ## Positions -/

/-- Addresses are pairwise distinct. -/
def Distinct (ps : List Piece) : Prop := (ps.map Piece.addr).Nodup

variable {xs ys : List Piece} {p : Piece}

theorem Distinct.left (h : Distinct (xs ++ p :: ys)) :
    ∀ q ∈ xs, (q.addr == p.addr) = false := by
  intro q hq
  rw [Distinct, map_append, map_cons, nodup_append] at h
  have := h.2.2 q.addr (mem_map_of_mem hq) p.addr (by simp)
  simpa using this

theorem Distinct.right (h : Distinct (xs ++ p :: ys)) :
    ∀ q ∈ ys, (q.addr == p.addr) = false := by
  intro q hq
  rw [Distinct, map_append, map_cons, nodup_append] at h
  have hne := (nodup_cons.mp h.2.1).1
  have : q.addr ≠ p.addr := by
    rintro heq
    exact hne (heq ▸ mem_map_of_mem hq)
  simpa using this

/-- The position of a piece splits the list around it. -/
theorem locate_spec (ht : t.toList = xs ++ p :: ys) (hd : Distinct t.toList) :
    ∃ c l s r k, locate t p.addr = some (node c l p s r, k) ∧ zip (node c l p s r) k = t ∧
      before k ++ l.toList = xs ∧ r.toList ++ after k = ys := by
  cases hf : locate t p.addr with
  | none =>
    have := find_eq_none.mp hf p (by simp [ht])
    simp at this
  | some w =>
    obtain ⟨u, k⟩ := w
    obtain ⟨hz, c, l, q, s, r, rfl, hq⟩ := find_spec hf
    have hl : t.toList = (before k ++ l.toList) ++ q :: (r.toList ++ after k) := by
      rw [show t = zip (node c l q s r) k from hz.symm, toList_zip]
      simp
    rw [ht] at hd
    obtain ⟨h₁, rfl, h₃⟩ := split_unique (p := fun a => a.addr == p.addr)
      (ht.symm.trans hl) hq hd.left hd.right
    exact ⟨c, l, s, r, k, rfl, hz, h₁.symm, h₃.symm⟩

theorem insertAfter_spec (q : Piece) (ht : t.toList = xs ++ p :: ys) (hd : Distinct t.toList)
    (hs : Summed t) :
    (insertAfter t p.addr q).toList = xs ++ p :: q :: ys ∧ Summed (insertAfter t p.addr q) := by
  obtain ⟨c, l, s, r, k, hloc, hz, hx, hy⟩ := locate_spec ht hd
  rw [← hz] at hs
  obtain ⟨hb, ha, hsib⟩ := RbTree.slotAfter_spec hs
  simp only [insertAfter, hloc]
  refine ⟨?_, RbTree.aug_insert measures_ptRecompute q hsib⟩
  rw [RbTree.toList_insert, hb, ha, ← hx, ← hy]
  simp

theorem insertBefore_spec (q : Piece) (ht : t.toList = xs ++ p :: ys) (hd : Distinct t.toList)
    (hs : Summed t) :
    (insertBefore t p.addr q).toList = xs ++ q :: p :: ys ∧
      Summed (insertBefore t p.addr q) := by
  obtain ⟨c, l, s, r, k, hloc, hz, hx, hy⟩ := locate_spec ht hd
  rw [← hz] at hs
  obtain ⟨hb, ha, hsib⟩ := RbTree.slotBefore_spec hs
  simp only [insertBefore, hloc]
  refine ⟨?_, RbTree.aug_insert measures_ptRecompute q hsib⟩
  rw [RbTree.toList_insert, hb, ha, ← hx, ← hy]

theorem insertRoot_spec (q : Piece) :
    (insertRoot q).toList = [q] ∧ Summed (insertRoot q) :=
  ⟨RbTree.toList_insert _ _ _, RbTree.aug_insert measures_ptRecompute q trivial⟩

theorem updatePiece_spec (f : Piece → Piece) (ht : t.toList = xs ++ p :: ys)
    (hd : Distinct t.toList) (hs : Summed t) :
    (updatePiece t p.addr f).toList = xs ++ f p :: ys ∧ Summed (updatePiece t p.addr f) := by
  obtain ⟨c, l, s, r, k, hloc, hz, hx, hy⟩ := locate_spec ht hd
  rw [← hz] at hs
  simp only [updatePiece, hloc]
  obtain ⟨hl, ha⟩ := RbTree.update_spec measures_ptRecompute f hs
  refine ⟨?_, ha⟩
  rw [hl, ← hx, ← hy]
  simp

theorem erasePiece_spec (ht : t.toList = xs ++ p :: ys) (hd : Distinct t.toList) (hs : Summed t) :
    (erasePiece t p.addr).toList = xs ++ ys ∧ Summed (erasePiece t p.addr) := by
  obtain ⟨c, l, s, r, k, hloc, hz, hx, hy⟩ := locate_spec ht hd
  rw [← hz] at hs
  simp only [erasePiece, hloc]
  obtain ⟨hl, ha⟩ := RbTree.erase_spec measures_ptRecompute hs
  refine ⟨?_, ha⟩
  rw [hl, ← hx, ← hy]
  simp

theorem nextPiece_spec (ht : t.toList = xs ++ p :: ys) (hd : Distinct t.toList) :
    nextPiece t p.addr = ys.head? := by
  obtain ⟨c, l, s, r, k, hloc, -, -, hy⟩ := locate_spec ht hd
  simp only [nextPiece, hloc]
  rw [RbTree.next_eq, hy]

/-- Chaining pieces one after the other puts them in as a block. -/
theorem chainAfter_spec (ps : List Piece) (ht : t.toList = xs ++ p :: ys)
    (hd : Distinct (xs ++ p :: (ps ++ ys))) (hs : Summed t) :
    (chainAfter t p.addr ps).toList = xs ++ p :: (ps ++ ys) ∧
      Summed (chainAfter t p.addr ps) := by
  induction ps generalizing t xs p with
  | nil => exact ⟨ht, hs⟩
  | cons q ps ih =>
    have hd₁ : Distinct t.toList := by
      rw [ht]
      refine hd.sublist (List.Sublist.map _ ?_)
      refine List.Sublist.append_left (List.Sublist.cons_cons _ ?_) _
      exact sublist_append_right _ _
    obtain ⟨hl, hs'⟩ := insertAfter_spec q ht hd₁ hs
    have hl' : (insertAfter t p.addr q).toList = (xs ++ [p]) ++ q :: ys := by
      rw [hl]
      simp
    have := ih hl' (by simpa using hd) hs'
    simpa [chainAfter] using this

/-- Where the descent of `find_piece` ends. -/
inductive Found (ps : List Piece) (offset : Nat) : Option (Piece × Nat) → Prop where
  | inside (xs ys : List Piece) {p : Piece} {intra : Nat} (hps : ps = xs ++ p :: ys)
      (hoff : offset = byteLen xs + intra) (hlt : intra < p.length) :
      Found ps offset (some (p, intra))
  | beyond (h : byteLen ps ≤ offset) : Found ps offset none

theorem findPiece_spec (hs : Summed t) (offset : Nat) :
    Found t.toList offset (findPiece t offset) := by
  induction t generalizing offset with
  | leaf => exact .beyond (by simp)
  | node c l p s r ihl ihr =>
    obtain ⟨-, hl, hr⟩ := hs
    have hlb := Summed.bytes hl
    simp only [findPiece, hlb, toList_node]
    split
    case isTrue h =>
      -- the offset lies in the left subtree
      have := ihl hl offset
      generalize findPiece l offset = res at this
      cases this with
      | inside xs ys hps hoff hlt =>
        refine .inside xs (ys ++ p :: r.toList) ?_ hoff hlt
        rw [hps, append_assoc, cons_append]
      | beyond hb => omega
    case isFalse h =>
      split
      case isTrue h' => exact .inside _ _ rfl (by omega) (by omega)
      case isFalse h' =>
        have := ihr hr (offset - (byteLen l.toList + p.length))
        generalize findPiece r (offset - (byteLen l.toList + p.length)) = res at this
        cases this with
        | inside xs ys hps hoff hlt =>
          refine .inside (l.toList ++ p :: xs) ys (by simp [hps]) ?_ hlt
          simp only [byteLen_append, byteLen_cons]
          omega
        | beyond hb =>
          refine .beyond ?_
          simp only [byteLen_append, byteLen_cons]
          omega

/-! ## The newline indexes -/

theorem mem_newlineOffsets_ge {base : Nat} {bs : List UInt8} :
    ∀ i ∈ newlineOffsets base bs, base ≤ i := by
  induction bs generalizing base with
  | nil => simp [newlineOffsets]
  | cons b bs ih =>
    intro i hi
    rw [newlineOffsets] at hi
    split at hi
    · rcases mem_cons.mp hi with rfl | hi
      · exact Nat.le_refl _
      · exact Nat.le_of_succ_le (ih i hi)
    · exact Nat.le_of_succ_le (ih i hi)

theorem pairwise_newlineOffsets (base : Nat) (bs : List UInt8) :
    (newlineOffsets base bs).Pairwise (· < ·) := by
  induction bs generalizing base with
  | nil => simp [newlineOffsets]
  | cons b bs ih =>
    rw [newlineOffsets]
    split
    · exact pairwise_cons.mpr ⟨fun i hi => mem_newlineOffsets_ge i hi, ih _⟩
    · exact ih _

theorem newlineOffsets_append (base : Nat) (as bs : List UInt8) :
    newlineOffsets base (as ++ bs)
      = newlineOffsets base as ++ newlineOffsets (base + as.length) bs := by
  induction as generalizing base with
  | nil => simp [newlineOffsets]
  | cons a as ih =>
    simp only [cons_append, newlineOffsets, ih, length_cons]
    rw [show base + 1 + as.length = base + (as.length + 1) by omega]
    split <;> rfl

theorem length_newlineOffsets (base : Nat) (bs : List UInt8) :
    (newlineOffsets base bs).length = bs.count newline := by
  induction bs generalizing base with
  | nil => rfl
  | cons b bs ih =>
    rw [newlineOffsets, count_cons]
    by_cases hb : b = newline <;> simp [hb, ih]

/-- The entries below `base + v` are the newlines of the first `v` bytes. -/
theorem countP_newlineOffsets (base v : Nat) (bs : List UInt8) :
    (newlineOffsets base bs).countP (fun i => decide (i < base + v))
      = (bs.take v).count newline := by
  induction bs generalizing base v with
  | nil => simp [newlineOffsets]
  | cons b bs ih =>
    cases v with
    | zero =>
      rw [take_zero, count_nil, countP_eq_zero]
      intro i hi
      have := mem_newlineOffsets_ge i hi
      simpa using this
    | succ v =>
      have := ih (base + 1) v
      rw [show base + 1 + v = base + (v + 1) by omega] at this
      rw [newlineOffsets, take_succ_cons, count_cons]
      by_cases hb : b = newline
      · simp only [hb, if_true, countP_cons, this, beq_self_eq_true]
        simp
      · simp [hb, this]

/-- The binary search keeps every entry before `lo` below `val` and every entry
from `hi` on at least `val`, and ends where the two meet. -/
theorem lowerCountLoop_spec {arr : List Nat} (val : Nat) (hsort : arr.Pairwise (· < ·))
    (fuel : Nat) {lo hi : Nat} (hle : lo ≤ hi) (hhi : hi ≤ arr.length) (hfuel : hi - lo ≤ fuel)
    (hlow : ∀ i < lo, arr.getD i 0 < val)
    (hhigh : ∀ i, hi ≤ i → i < arr.length → val ≤ arr.getD i 0) :
    ∃ n, lowerCountLoop arr val fuel lo hi = n ∧ n ≤ arr.length ∧
      (∀ i < n, arr.getD i 0 < val) ∧ ∀ i, n ≤ i → i < arr.length → val ≤ arr.getD i 0 := by
  have hmono : ∀ i j, i ≤ j → j < arr.length → arr.getD i 0 ≤ arr.getD j 0 := by
    intro i j hij hj
    rcases Nat.lt_or_eq_of_le hij with hlt | rfl
    · have := pairwise_iff_getElem.mp hsort i j (by omega) hj hlt
      simp only [getD_eq_getElem?_getD, getElem?_eq_getElem hj,
        getElem?_eq_getElem (show i < arr.length by omega), Option.getD_some]
      exact Nat.le_of_lt this
    · exact Nat.le_refl _
  induction fuel generalizing lo hi with
  | zero =>
    have : lo = hi := by omega
    subst this
    exact ⟨lo, rfl, hhi, hlow, hhigh⟩
  | succ fuel ih =>
    rw [lowerCountLoop]
    by_cases hlt : lo < hi
    · simp only [hlt, if_true]
      have hm : (hi - lo) / 2 < hi - lo := Nat.div_lt_self (by omega) (by omega)
      split
      case isTrue h =>
        refine ih (by omega) hhi (by omega) ?_ hhigh
        intro i hi'
        exact Nat.lt_of_le_of_lt (hmono i _ (by omega) (by omega)) h
      case isFalse h =>
        refine ih (by omega) (by omega) (by omega) hlow ?_
        intro i hi' hi''
        exact Nat.le_trans (by omega) (hmono _ i hi' hi'')
    · simp only [hlt, if_false]
      have : lo = hi := by omega
      subst this
      exact ⟨lo, rfl, hhi, hlow, hhigh⟩

/-- `lower_count` counts the entries below `val`. -/
theorem lowerCount_eq {arr : List Nat} (hsort : arr.Pairwise (· < ·)) (val : Nat) :
    lowerCount arr val = arr.countP (fun i => decide (i < val)) := by
  obtain ⟨n, hn, hle, hlow, hhigh⟩ := lowerCountLoop_spec val hsort arr.length
    (Nat.zero_le _) (Nat.le_refl _) (by omega) (by simp)
    (fun i h h' => absurd h' (by omega))
  have htake : (arr.take n).countP (fun i => decide (i < val)) = n := by
    have : (arr.take n).countP (fun i => decide (i < val)) = (arr.take n).length := by
      rw [countP_eq_length]
      intro a ha
      obtain ⟨i, hi, rfl⟩ := getElem_of_mem ha
      have hi' : i < n ∧ i < arr.length := by simpa [Nat.lt_min] using hi
      have := hlow i hi'.1
      simp only [getD_eq_getElem?_getD, getElem?_eq_getElem hi'.2,
        Option.getD_some] at this
      simpa using this
    rw [this, length_take_of_le hle]
  have hdrop : (arr.drop n).countP (fun i => decide (i < val)) = 0 := by
    rw [countP_eq_zero]
    intro a ha
    obtain ⟨i, hi, rfl⟩ := getElem_of_mem ha
    have hi' : n + i < arr.length := by
      rw [length_drop] at hi
      omega
    have := hhigh (n + i) (by omega) hi'
    simp only [getD_eq_getElem?_getD, getElem?_eq_getElem hi', Option.getD_some] at this
    simpa using this
  rw [lowerCount, hn, ← take_append_drop n arr, countP_append, htake, hdrop]
  rfl

/-- The two indexes list the newlines of their sources. -/
structure Indexed (pt : PieceTree) : Prop where
  orig : pt.origNl = newlineOffsets 0 pt.view
  add : pt.addNl = newlineOffsets 0 pt.add

variable {pt : PieceTree}

theorem Indexed.srcNl (h : Indexed pt) (s : PtSource) :
    srcNl pt s = newlineOffsets 0 (source pt s) := by
  cases s with
  | original => exact h.orig
  | add => exact h.add

theorem Indexed.lowerCount (h : Indexed pt) (s : PtSource) (v : Nat) :
    lowerCount (PieceTree.srcNl pt s) v = ((source pt s).take v).count newline := by
  rw [h.srcNl, lowerCount_eq (pairwise_newlineOffsets _ _), ← countP_newlineOffsets 0 v]
  simp only [Nat.zero_add]

/-- `count_nl_span` counts the newlines among the bytes of the span. -/
theorem countNlSpan_eq (h : Indexed pt) (s : PtSource) (start len : Nat) :
    countNlSpan pt s start len = (readSrc pt s start len).count newline := by
  rw [countNlSpan, h.lowerCount, h.lowerCount, readSrc, take_add, count_append]
  omega

/-- `p` is the offset of the `k`-th newline of `D`, counted from 0. -/
def IsNthNewline (D : List UInt8) (k p : Nat) : Prop :=
  D[p]? = some newline ∧ (D.take p).count newline = k

theorem IsNthNewline.append_left {D : List UInt8} {k p : Nat} (h : IsNthNewline D k p)
    (A : List UInt8) : IsNthNewline (A ++ D) (A.count newline + k) (A.length + p) := by
  refine ⟨?_, ?_⟩
  · rw [getElem?_append_right (by omega), Nat.add_sub_cancel_left]
    exact h.1
  · rw [take_length_add_append, count_append, h.2]

theorem IsNthNewline.append_right {D : List UInt8} {k p : Nat} (h : IsNthNewline D k p)
    (B : List UInt8) : IsNthNewline (D ++ B) k p := by
  have hlt : p < D.length := by
    by_contra hge
    rw [IsNthNewline, getElem?_eq_none (by omega)] at h
    simp at h
  refine ⟨?_, ?_⟩
  · rw [getElem?_append_left hlt]
    exact h.1
  · rw [take_append_of_le_length (by omega)]
    exact h.2

/-- The `k`-th entry of the index of `bs` is the offset of the `k`-th newline. -/
theorem getD_newlineOffsets {base k : Nat} {bs : List UInt8} (h : k < bs.count newline) :
    ∃ p, (newlineOffsets base bs).getD k 0 = base + p ∧ IsNthNewline bs k p := by
  induction bs generalizing base k with
  | nil => simp at h
  | cons b bs ih =>
    rw [count_cons] at h
    by_cases hb : b = newline
    · cases k with
      | zero => exact ⟨0, by simp [newlineOffsets, hb], by simp [IsNthNewline, hb]⟩
      | succ k =>
        obtain ⟨p, hp, hn⟩ := @ih (base + 1) k (by simpa [hb] using h)
        refine ⟨p + 1, ?_, ?_⟩
        · rw [newlineOffsets, if_pos hb, getD_cons_succ, hp]
          omega
        · simpa [hb, Nat.add_comm] using hn.append_left [b]
    · obtain ⟨p, hp, hn⟩ := @ih (base + 1) k (by simpa [hb] using h)
      refine ⟨p + 1, ?_, ?_⟩
      · rw [newlineOffsets, if_neg hb, hp]
        omega
      · simpa [hb, Nat.add_comm] using hn.append_left [b]

/-- `nth_nl_in_span` finds the `within`-th newline of a span that has one. -/
theorem nthNlInSpan_spec (h : Indexed pt) {s : PtSource} {start len within : Nat}
    (hw : within < (readSrc pt s start len).count newline) :
    IsNthNewline (readSrc pt s start len) within (nthNlInSpan pt s start within) := by
  set src := source pt s with hsrc
  have hsplit : ∀ n, (src.take (start + n)).count newline
      = (src.take start).count newline + ((src.drop start).take n).count newline := by
    intro n
    rw [take_add, count_append]
  have hle : ((src.drop start).take len).count newline ≤ (src.drop start).count newline :=
    (take_sublist _ _).count_le _
  have htot : src.count newline
      = (src.take start).count newline + (src.drop start).count newline := by
    rw [← count_append, take_append_drop]
  have hw' : within < ((src.drop start).take len).count newline := hw
  obtain ⟨p, hp, hget, hcnt⟩ := @getD_newlineOffsets 0
    ((src.take start).count newline + within) src (by omega)
  -- the entry lies at or after `start`: fewer newlines precede any earlier offset
  have hge : start ≤ p := by
    by_contra hlt
    have hsub : (src.take (p + 1)).count newline ≤ (src.take start).count newline := by
      refine List.Sublist.count_le _ ?_
      exact (take_prefix_take_left (by omega)).sublist
    rw [take_add_one, hget, count_append, hcnt] at hsub
    simp only [Option.toList_some, count_singleton_self] at hsub
    omega
  have hoff : nthNlInSpan pt s start within = p - start := by
    rw [nthNlInSpan, h.lowerCount, h.srcNl, ← hsrc, hp, Nat.zero_add]
  have hcnt' : ((src.drop start).take (p - start)).count newline = within := by
    have := hsplit (p - start)
    rw [Nat.add_sub_cancel' hge, hcnt] at this
    omega
  have hlt : p - start < len := by
    by_contra hge'
    have hsub : ((src.drop start).take len).count newline
        ≤ ((src.drop start).take (p - start)).count newline :=
      List.Sublist.count_le _ (take_prefix_take_left (by omega)).sublist
    omega
  rw [hoff]
  refine ⟨?_, ?_⟩
  · rw [readSrc, getElem?_take_of_lt hlt, getElem?_drop, Nat.add_sub_cancel' hge]
    exact hget
  · rw [readSrc, take_take, Nat.min_eq_left (Nat.le_of_lt hlt)]
    exact hcnt'

/-! ## The document -/

/-- The bytes a piece denotes. -/
def pieceBytes (pt : PieceTree) (p : Piece) : List UInt8 := readSrc pt p.source p.start p.length

/-- The bytes a list of pieces denotes. -/
def bytesOf (pt : PieceTree) (ps : List Piece) : List UInt8 := ps.flatMap (pieceBytes pt)

/-- The document: what the tree of pieces denotes. -/
def doc (pt : PieceTree) : List UInt8 := bytesOf pt pt.tree.toList

@[simp] theorem bytesOf_nil (pt : PieceTree) : bytesOf pt [] = [] := rfl

@[simp] theorem bytesOf_cons (pt : PieceTree) (p : Piece) (ps : List Piece) :
    bytesOf pt (p :: ps) = pieceBytes pt p ++ bytesOf pt ps := rfl

@[simp] theorem bytesOf_append (pt : PieceTree) (ps qs : List Piece) :
    bytesOf pt (ps ++ qs) = bytesOf pt ps ++ bytesOf pt qs := by
  simp [bytesOf]

/-- A piece is a nonempty run inside its source with the right newline count. -/
structure PieceOk (pt : PieceTree) (p : Piece) : Prop where
  pos : 0 < p.length
  inside : p.start + p.length ≤ (source pt p.source).length
  newlines : p.newlines = (pieceBytes pt p).count newline

/-- The invariant of a piece tree. -/
structure Wf (pt : PieceTree) : Prop where
  indexed : Indexed pt
  summed : Summed pt.tree
  distinct : Distinct pt.tree.toList
  fresh : ∀ p ∈ pt.tree.toList, p.addr < pt.heap.calls
  pieces : ∀ p ∈ pt.tree.toList, PieceOk pt p

theorem length_readSrc {s : PtSource} {start len : Nat} (h : start + len ≤ (source pt s).length) :
    (readSrc pt s start len).length = len := by
  rw [readSrc, length_take, length_drop]
  omega

theorem PieceOk.length (h : PieceOk pt p) :
    (pieceBytes pt p).length = p.length :=
  length_readSrc h.inside

theorem length_bytesOf {ps : List Piece} (h : ∀ p ∈ ps, PieceOk pt p) :
    (bytesOf pt ps).length = byteLen ps := by
  induction ps with
  | nil => rfl
  | cons p ps ih =>
    rw [bytesOf_cons, length_append, (h p (by simp)).length,
      ih fun q hq => h q (by simp [hq]), byteLen_cons]

theorem count_bytesOf {ps : List Piece} (h : ∀ p ∈ ps, PieceOk pt p) :
    (bytesOf pt ps).count newline = nlSum ps := by
  induction ps with
  | nil => rfl
  | cons p ps ih =>
    rw [bytesOf_cons, count_append, ← (h p (by simp)).newlines,
      ih fun q hq => h q (by simp [hq]), nlSum_cons]

/-! ## Queries -/

/-- `axl_piece_tree_length` is the length of the document. -/
theorem Wf.length_eq (h : Wf pt) : length pt = (doc pt).length := by
  rw [length, h.summed.bytes, doc, length_bytesOf h.pieces]

theorem Wf.nlSum_eq (h : Wf pt) :
    pt.tree.agg.elim 0 Sums.newlines = (doc pt).count newline := by
  rw [h.summed.newlines, doc, count_bytesOf h.pieces]

/-- `axl_piece_tree_line_count` is one more than the number of newlines. -/
theorem Wf.lineCount_eq (h : Wf pt) :
    lineCount pt = 1 + (doc pt).count newline := by
  rw [lineCount, h.nlSum_eq, Nat.add_comm]

theorem lineOfOffsetLoop_eq (hi : Indexed pt) (hs : Summed t) (hok : ∀ p ∈ t.toList, PieceOk pt p)
    (offset line : Nat) :
    lineOfOffsetLoop pt t offset line
      = line + ((bytesOf pt t.toList).take offset).count newline := by
  induction t generalizing offset line with
  | leaf => simp [lineOfOffsetLoop]
  | node c l p s r ihl ihr =>
    obtain ⟨-, hl, hr⟩ := hs
    have hokl : ∀ q ∈ l.toList, PieceOk pt q := fun q hq => hok q (by simp [hq])
    have hokp : PieceOk pt p := hok p (by simp)
    have hokr : ∀ q ∈ r.toList, PieceOk pt q := fun q hq => hok q (by simp [hq])
    have hlen := length_bytesOf hokl
    simp only [lineOfOffsetLoop, Summed.bytes hl, Summed.newlines hl, toList_node,
      bytesOf_append, bytesOf_cons]
    split
    case isTrue h =>
      rw [ihl hl hokl, take_append_of_le_length (by omega)]
    case isFalse h =>
      rw [← count_bytesOf hokl, take_append, hlen,
        take_of_length_le (show (bytesOf pt l.toList).length ≤ offset by omega),
        count_append]
      split
      case isTrue h' =>
        have hle : offset - byteLen l.toList ≤ (pieceBytes pt p).length := by
          rw [hokp.length]
          omega
        rw [countNlSpan_eq hi, take_append_of_le_length hle, pieceBytes, readSrc, readSrc,
          take_take, Nat.min_eq_left (by omega), Nat.add_assoc]
      case isFalse h' =>
        have hge : (pieceBytes pt p).length ≤ offset - byteLen l.toList := by
          rw [hokp.length]
          omega
        rw [ihr hr hokr, take_append, take_of_length_le hge, hokp.length,
          count_append, ← hokp.newlines, Nat.sub_sub]
        omega

/-- `axl_piece_tree_line_of_offset` counts the newlines before the offset. -/
theorem Wf.lineOfOffset_eq (h : Wf pt) (offset : Nat) :
    lineOfOffset pt offset
      = ((doc pt).take (min offset (doc pt).length)).count newline := by
  rw [lineOfOffset, lineOfOffsetLoop_eq h.indexed h.summed h.pieces, h.length_eq, Nat.zero_add]
  rfl

theorem newlineOffsetLoop_spec (hi : Indexed pt) (hs : Summed t)
    (hok : ∀ p ∈ t.toList, PieceOk pt p) {k : Nat} (base : Nat) (hk : k < nlSum t.toList) :
    ∃ p, newlineOffsetLoop pt t k base = base + p ∧ IsNthNewline (bytesOf pt t.toList) k p := by
  induction t generalizing k base with
  | leaf => simp at hk
  | node c l p s r ihl ihr =>
    obtain ⟨-, hl, hr⟩ := hs
    have hokl : ∀ q ∈ l.toList, PieceOk pt q := fun q hq => hok q (by simp [hq])
    have hokp : PieceOk pt p := hok p (by simp)
    have hokr : ∀ q ∈ r.toList, PieceOk pt q := fun q hq => hok q (by simp [hq])
    have hlen := length_bytesOf hokl
    have hcnt := count_bytesOf hokl
    simp only [toList_node, nlSum_append, nlSum_cons] at hk
    simp only [newlineOffsetLoop, Summed.bytes hl, Summed.newlines hl, toList_node,
      bytesOf_append, bytesOf_cons]
    split
    case isTrue h =>
      obtain ⟨q, hq, hn⟩ := ihl hl hokl base h
      exact ⟨q, hq, hn.append_right _⟩
    case isFalse h =>
      split
      case isTrue h' =>
        have hw : k - nlSum l.toList
            < (readSrc pt p.source p.start p.length).count newline := by
          have := hokp.newlines
          rw [pieceBytes] at this
          omega
        have hn := nthNlInSpan_spec hi hw
        refine ⟨_, Nat.add_assoc _ _ _, ?_⟩
        have := (hn.append_right (bytesOf pt r.toList)).append_left (bytesOf pt l.toList)
        rw [hlen, hcnt, Nat.add_sub_cancel' (by omega)] at this
        exact this
      case isFalse h' =>
        obtain ⟨q, hq, hn⟩ := ihr hr hokr (base + (byteLen l.toList + p.length))
          (show k - (nlSum l.toList + p.newlines) < nlSum r.toList by omega)
        refine ⟨byteLen l.toList + p.length + q, by omega, ?_⟩
        have := (hn.append_left (pieceBytes pt p)).append_left (bytesOf pt l.toList)
        rw [hlen, hcnt, ← hokp.newlines, hokp.length, ← Nat.add_assoc, ← Nat.add_assoc,
          Nat.add_sub_cancel' (by omega)] at this
        exact this

/-- `newline_offset` is the offset of the `k`-th newline of the document. -/
theorem Wf.newlineOffset_spec (h : Wf pt) {k : Nat} (hk : k < (doc pt).count newline) :
    IsNthNewline (doc pt) k (newlineOffset pt k) := by
  have hk' : k < nlSum pt.tree.toList := by
    rw [← count_bytesOf h.pieces]
    exact hk
  obtain ⟨p, hp, hn⟩ := newlineOffsetLoop_spec h.indexed h.summed h.pieces 0 hk'
  rw [newlineOffset, hp, Nat.zero_add]
  exact hn

/-- The copying loop appends the next `len - out.length` bytes of the document,
read from byte `intra` of the first piece of `ys`. -/
theorem getLoop_eq (h : Wf pt) (hl : pt.tree.toList = xs ++ ys) (fuel intra len : Nat)
    (out : List UInt8) (hfuel : ys.length ≤ fuel) (hintra : ∀ p ∈ ys.head?, intra < p.length) :
    getLoop pt fuel ys.head? intra len out
      = out ++ ((bytesOf pt ys).drop intra).take (len - out.length) := by
  induction fuel generalizing xs ys intra out with
  | zero =>
    have : ys = [] := length_eq_zero_iff.mp (by omega)
    simp [this, getLoop]
  | succ fuel ih =>
    cases ys with
    | nil => simp [getLoop]
    | cons p ys =>
      have hokp : PieceOk pt p := h.pieces p (by simp [hl])
      have hin : intra < p.length := hintra p rfl
      simp only [head?_cons, getLoop]
      by_cases hlt : out.length < len
      · have hread : readSrc pt p.source (p.start + intra) (min (len - out.length)
            (p.length - intra)) = ((pieceBytes pt p).drop intra).take (len - out.length) := by
          rw [pieceBytes, readSrc, readSrc, drop_take, drop_drop, take_take]
        have hrlen : (((pieceBytes pt p).drop intra).take (len - out.length)).length
            = min (len - out.length) (p.length - intra) := by
          rw [length_take, length_drop, hokp.length]
        rw [if_pos hlt, if_neg (by omega), hread, if_neg (by omega),
          nextPiece_spec hl h.distinct,
          @ih (xs ++ [p]) ys (by simp [hl]) _ _ (by simpa using hfuel)
            (fun q hq => (h.pieces q (by
              rw [hl]
              have := mem_of_mem_head? hq
              simp [this])).pos)]
        rw [drop_zero, append_assoc, bytesOf_cons,
          drop_append_of_le_length (by rw [hokp.length]; omega), take_append,
          length_append, hrlen, length_drop, hokp.length]
        congr 3
        omega
      · rw [if_neg hlt, show len - out.length = 0 by omega, take_zero, append_nil]

/-- `axl_piece_tree_get` returns the requested part of the document. -/
theorem Wf.get_eq (h : Wf pt) (offset len cap : Nat) :
    get pt offset len cap
      = ((doc pt).drop offset).take (min (min len cap) ((doc pt).length - offset)) := by
  rw [get, h.length_eq]
  split
  case isTrue hc =>
    rcases hc with hc | hc
    · simp [hc]
    · simp [drop_of_length_le hc]
  case isFalse hc =>
    have hlen : (doc pt).length = byteLen pt.tree.toList := length_bytesOf h.pieces
    have hmin : min (min len ((doc pt).length - offset)) cap
        = min (min len cap) ((doc pt).length - offset) := by omega
    have hf := findPiece_spec h.summed offset
    simp only [hmin]
    generalize findPiece pt.tree offset = res at hf
    cases hf with
    | beyond hb => omega
    | inside xs ys hps hoff hlt =>
      rename_i p intra
      have hpos : ∀ q ∈ (p :: ys).head?, intra < q.length := by
        simpa using hlt
      have := getLoop_eq h hps (pieceCount pt.tree) intra
        (min (min len cap) ((doc pt).length - offset)) []
        (by simp [pieceCount, hps]) hpos
      simp only [head?_cons, nil_append, length_nil, Nat.sub_zero] at this
      simp only [Option.map_some, Option.getD_some, this]
      have hx : (bytesOf pt xs).length = byteLen xs :=
        length_bytesOf fun q hq => h.pieces q (by simp [hps, hq])
      rw [show (doc pt).drop offset = (bytesOf pt (p :: ys)).drop intra by
        rw [doc, hps, bytesOf_append, hoff, ← hx, drop_length_add_append]]

end PieceTree

end AxlSdk
