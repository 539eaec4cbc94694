import AxlSdk.Data.PieceTree.Pieces

/-!
# What the editing primitives do to the document

`splice_in` and `do_delete_range` are the only two functions that change the
tree. Under the invariant `Wf` and for every pattern of allocation failures,
each of them either fails and leaves the tree as it was, or splices the given
spans in (cuts the range out) and keeps the invariant: `spliceIn_outcome`,
`doDeleteRange_outcome`. `captureSpans_spec` says that the captured spans denote
exactly the bytes of the range.

`insert` and `delete` are these primitives followed by a record
(`insert_edited`, `delete_edited`): an `Edited` result separates the text, which
is settled here, from the record stacks, which are not looked at.
-/

namespace AxlSdk

namespace PieceTree

open AugTree AugTree.Tree EditHistory List

/-! ## The allocator -/

/-- `h'` is the allocator after some more calls. -/
structure Heap.Later (h h' : Heap) : Prop where
  grant : h'.grant = h.grant
  calls : h.calls ≤ h'.calls

theorem Heap.Later.refl (h : Heap) : h.Later h := ⟨rfl, Nat.le_refl _⟩

theorem Heap.Later.trans {h h' h'' : Heap} (a : h.Later h') (b : h'.Later h'') : h.Later h'' :=
  ⟨b.grant.trans a.grant, Nat.le_trans a.calls b.calls⟩

/-- Every allocation succeeds. -/
def Heap.Grants (h : Heap) : Prop := ∀ n, h.grant n = true

theorem Heap.Grants.later {h h' : Heap} (hg : h.Grants) (hl : h.Later h') : h'.Grants := by
  intro n
  rw [hl.grant]
  exact hg n

/-- What one allocation can do. -/
inductive Heap.Allocated (h : Heap) : Option Nat × Heap → Prop where
  | granted (hg : h.grant h.calls = true) :
      Allocated h (some h.calls, { h with calls := h.calls + 1 })
  | refused (hg : h.grant h.calls = false) : Allocated h (none, { h with calls := h.calls + 1 })

theorem Heap.alloc_allocated (h : Heap) : h.Allocated h.alloc := by
  rw [Heap.alloc]
  cases hg : h.grant h.calls with
  | true => exact .granted hg
  | false => exact .refused hg

theorem Heap.later_succ (h : Heap) : h.Later { h with calls := h.calls + 1 } :=
  ⟨rfl, Nat.le_succ _⟩

/-! ## Spans -/

/-- The span a piece covers. -/
def Piece.span (p : Piece) : PtSpan := ⟨p.source, p.start, p.length⟩

def spanBytes (pt : PieceTree) (sp : PtSpan) : List UInt8 :=
  readSrc pt sp.source sp.start sp.length

/-- The bytes a list of spans denotes. -/
def spansBytes (pt : PieceTree) (spans : List PtSpan) : List UInt8 := spans.flatMap (spanBytes pt)

/-- A nonempty span inside its source. -/
structure SpanOk (pt : PieceTree) (sp : PtSpan) : Prop where
  pos : 0 < sp.length
  inside : sp.start + sp.length ≤ (source pt sp.source).length

theorem bytesOf_eq_spansBytes (pt : PieceTree) (ps : List Piece) :
    bytesOf pt ps = spansBytes pt (ps.map Piece.span) := by
  simp only [bytesOf, spansBytes, flatMap_map]
  rfl

theorem SpanOk.length {pt : PieceTree} {sp : PtSpan} (h : SpanOk pt sp) :
    (spanBytes pt sp).length = sp.length :=
  length_readSrc h.inside

/-- A fresh piece over a valid span, with the newline count that every caller of
`piece_new` passes. -/
theorem pieceOk_of_span {pt : PieceTree} (hi : Indexed pt) {p : Piece} (h : SpanOk pt p.span)
    (hn : p.newlines = countNlSpan pt p.source p.start p.length) : PieceOk pt p :=
  ⟨h.pos, h.inside, hn.trans (countNlSpan_eq hi _ _ _)⟩

/-! ## Trees that denote a text -/

/-- Pieces that can stand in a tree together: valid, with distinct addresses
handed out by `h`. -/
structure Live (pt : PieceTree) (h : Heap) (ps : List Piece) : Prop where
  distinct : Distinct ps
  fresh : ∀ p ∈ ps, p.addr < h.calls
  pieces : ∀ p ∈ ps, PieceOk pt p

theorem Wf.live {pt : PieceTree} (h : Wf pt) : Live pt pt.heap pt.tree.toList :=
  ⟨h.distinct, h.fresh, h.pieces⟩

theorem Live.later {pt : PieceTree} {h h' : Heap} {ps : List Piece} (hp : Live pt h ps)
    (hl : h.Later h') : Live pt h' ps :=
  { hp with fresh := fun p hm => Nat.lt_of_lt_of_le (hp.fresh p hm) hl.calls }

theorem Live.sublist {pt : PieceTree} {h : Heap} {ps qs : List Piece} (hp : Live pt h ps)
    (hs : qs.Sublist ps) : Live pt h qs :=
  ⟨hp.distinct.sublist (hs.map _), fun p hm => hp.fresh p (hs.subset hm),
    fun p hm => hp.pieces p (hs.subset hm)⟩

/-- A piece can be replaced by a valid one at the same address. -/
theorem Live.replace {pt : PieceTree} {h : Heap} {xs ys : List Piece} {p q : Piece}
    (hp : Live pt h (xs ++ p :: ys)) (hq : PieceOk pt q) (ha : q.addr = p.addr) :
    Live pt h (xs ++ q :: ys) := by
  refine ⟨by simpa [Distinct, ha] using hp.distinct, ?_, ?_⟩
  · intro r hr
    simp only [mem_append, mem_cons] at hr
    rcases hr with hr | rfl | hr
    · exact hp.fresh r (by simp [hr])
    · exact ha ▸ hp.fresh p (by simp)
    · exact hp.fresh r (by simp [hr])
  · intro r hr
    simp only [mem_append, mem_cons] at hr
    rcases hr with hr | rfl | hr
    · exact hp.pieces r (by simp [hr])
    · exact hq
    · exact hp.pieces r (by simp [hr])

/-- Newly allocated pieces can be put anywhere. -/
theorem Live.insert {pt : PieceTree} {h h' : Heap} {xs ys ns : List Piece}
    (hp : Live pt h (xs ++ ys)) (hn : Live pt h' ns) (hl : h.Later h')
    (hge : ∀ p ∈ ns, h.calls ≤ p.addr) : Live pt h' (xs ++ (ns ++ ys)) := by
  have hmem : ∀ q, q ∈ xs ++ (ns ++ ys) → q ∈ xs ++ ys ∨ q ∈ ns := by
    intro q hq
    simp only [mem_append] at hq ⊢
    tauto
  refine ⟨?_, fun q hq => ?_, fun q hq => (hmem q hq).elim (hp.pieces q) (hn.pieces q)⟩
  · have hperm : ((xs ++ (ns ++ ys)).map Piece.addr).Perm (((xs ++ ys) ++ ns).map Piece.addr) := by
      refine List.Perm.map _ ?_
      rw [append_assoc]
      exact List.Perm.append_left _ perm_append_comm
    rw [Distinct, hperm.nodup_iff, map_append, nodup_append]
    refine ⟨hp.distinct, hn.distinct, ?_⟩
    rintro a ha b hb rfl
    obtain ⟨p, hp', rfl⟩ := mem_map.mp ha
    obtain ⟨q, hq, hqp⟩ := mem_map.mp hb
    have h₁ := hp.fresh p hp'
    have h₂ := hge q hq
    omega
  · exact (hmem q hq).elim ((hp.later hl).fresh q) (hn.fresh q)

/-- `t` is a good tree over the sources of `pt` that denotes `D`. -/
structure TreeFor (pt : PieceTree) (h : Heap) (t : Tree Piece Sums) (D : List UInt8) : Prop where
  summed : Summed t
  live : Live pt h t.toList
  bytes : bytesOf pt t.toList = D

theorem treeFor_of_toList {pt : PieceTree} {h : Heap} {t : Tree Piece Sums} {ps : List Piece}
    (hl : t.toList = ps ∧ Summed t) (hlive : Live pt h ps) : TreeFor pt h t (bytesOf pt ps) := by
  obtain ⟨rfl, hs⟩ := hl
  exact ⟨hs, hlive, rfl⟩

/-- Putting a good tree back into its piece tree. -/
theorem TreeFor.wf {pt : PieceTree} {h : Heap} {t : Tree Piece Sums} {D : List UInt8}
    (ht : TreeFor pt h t D) (hi : Indexed pt) :
    Wf { pt with tree := t, heap := h } ∧ doc { pt with tree := t, heap := h } = D := by
  refine ⟨⟨⟨hi.orig, hi.add⟩, ht.summed, ht.live.distinct, ht.live.fresh, ?_⟩, ht.bytes⟩
  intro p hp
  obtain ⟨h₁, h₂, h₃⟩ := ht.live.pieces p hp
  exact ⟨h₁, h₂, h₃⟩

/-- A primitive that leads to the text `D` fails without touching the tree or
succeeds. -/
inductive Outcome (pt : PieceTree) (D : List UInt8) : Rc × PieceTree → Prop where
  | failed (h : Heap) (hl : pt.heap.Later h) : Outcome pt D (.err, { pt with heap := h })
  | applied (t : Tree Piece Sums) (h : Heap) (hl : pt.heap.Later h) (ht : TreeFor pt h t D) :
      Outcome pt D (.ok, { pt with tree := t, heap := h })

theorem newPieces_spec {pt : PieceTree} (hi : Indexed pt) {spans : List PtSpan}
    (hs : ∀ sp ∈ spans, SpanOk pt sp) (h : Heap) {o : Option (List Piece)} {h' : Heap}
    (hnew : newPieces pt h spans = (o, h')) :
    h.Later h' ∧ (h.Grants → o ≠ none) ∧ ∀ ps, o = some ps →
      ps.map Piece.span = spans ∧ Live pt h' ps ∧ ∀ p ∈ ps, h.calls ≤ p.addr := by
  induction spans generalizing h o h' with
  | nil =>
    cases hnew
    refine ⟨Heap.Later.refl h, by simp, ?_⟩
    rintro ps ⟨⟩
    exact ⟨rfl, ⟨nodup_nil, by simp, by simp⟩, by simp⟩
  | cons sp spans ih =>
    have ha := h.alloc_allocated
    rw [newPieces, pieceNew] at hnew
    generalize h.alloc = r at ha hnew
    cases ha with
    | refused hg =>
      cases hnew
      refine ⟨h.later_succ, fun hall => ?_, by simp⟩
      rw [hall] at hg
      cases hg
    | granted hg =>
      dsimp only at hnew
      cases hrest : newPieces pt { h with calls := h.calls + 1 } spans with
      | mk o₁ h₁ =>
        obtain ⟨hlater, hgr, hps⟩ := ih (fun s hs' => hs s (by simp [hs'])) _ hrest
        have hl := h.later_succ.trans hlater
        rw [hrest] at hnew
        cases o₁ with
        | none =>
          cases hnew
          exact ⟨hl, fun hall => absurd rfl (hgr (hall.later h.later_succ)), by simp⟩
        | some ps =>
          cases hnew
          obtain ⟨hspan, hlive, haddr⟩ := hps ps rfl
          refine ⟨hl, by simp, ?_⟩
          rintro qs ⟨⟩
          have hok : PieceOk pt ⟨h.calls, sp.source, sp.start, sp.length,
              countNlSpan pt sp.source sp.start sp.length⟩ :=
            pieceOk_of_span hi (hs sp (by simp)) rfl
          refine ⟨by simp [hspan, Piece.span], ⟨?_, ?_, ?_⟩, ?_⟩
          · refine nodup_cons.mpr ⟨?_, hlive.distinct⟩
            intro hmem
            obtain ⟨q, hq, hqa⟩ := mem_map.mp hmem
            have := haddr q hq
            simp only at this hqa
            omega
          · exact forall_mem_cons.mpr ⟨hlater.calls, hlive.fresh⟩
          · exact forall_mem_cons.mpr ⟨hok, hlive.pieces⟩
          · exact forall_mem_cons.mpr
              ⟨Nat.le_refl _, fun q hq => Nat.le_of_succ_le (haddr q hq)⟩

/-! ## Trimming a piece -/

theorem pieceBytes_keepHead {pt : PieceTree} {p : Piece} {n : Nat} (hn : n ≤ p.length) :
    pieceBytes pt (keepHead pt n p) = (pieceBytes pt p).take n := by
  simp only [pieceBytes, keepHead, readSrc, take_take, Nat.min_eq_left hn]

theorem pieceOk_keepHead {pt : PieceTree} (hi : Indexed pt) {p : Piece} (h : PieceOk pt p)
    {n : Nat} (hn : n ≤ p.length) (hpos : 0 < n) : PieceOk pt (keepHead pt n p) := by
  refine pieceOk_of_span hi ⟨hpos, ?_⟩ rfl
  have := h.inside
  simp only [Piece.span, keepHead]
  omega

/-- A piece for the bytes of `p` from `n` on: the right half of a split. -/
def rightHalf (pt : PieceTree) (p : Piece) (n addr : Nat) : Piece :=
  ⟨addr, p.source, p.start + n, p.length - n,
    countNlSpan pt p.source (p.start + n) (p.length - n)⟩

theorem pieceBytes_rightHalf (pt : PieceTree) (p : Piece) (n addr : Nat) :
    pieceBytes pt (rightHalf pt p n addr) = (pieceBytes pt p).drop n := by
  simp only [pieceBytes, rightHalf, readSrc, drop_take, drop_drop]

theorem pieceOk_rightHalf {pt : PieceTree} (hi : Indexed pt) {p : Piece} (h : PieceOk pt p)
    {n : Nat} (hn : n < p.length) (addr : Nat) : PieceOk pt (rightHalf pt p n addr) := by
  have := h.inside
  refine pieceOk_of_span hi ⟨?_, ?_⟩ rfl <;>
  · simp only [Piece.span, rightHalf]
    omega

/-! ## `splice_in` -/

section SpliceTree

variable {pt : PieceTree} {h : Heap} {p : Piece} {ps : List Piece}

/-- At the end of the document: after the last piece, or as the root. -/
theorem spliceTree_end (hw : Wf pt) (hlive : Live pt h (pt.tree.toList ++ p :: ps))
    (pr : Option Piece) :
    TreeFor pt h (spliceTree pt none (p :: ps) pr) (bytesOf pt (pt.tree.toList ++ p :: ps)) := by
  refine treeFor_of_toList ?_ hlive
  have hdist := hlive.distinct
  simp only [spliceTree, RbTree.last_eq]
  cases hlast : pt.tree.toList.getLast? with
  | none =>
    have hnil := getLast?_eq_none_iff.mp hlast
    obtain ⟨hr, hrs⟩ := insertRoot_spec p
    have hr' : (insertRoot p).toList = [] ++ p :: [] := hr
    have := chainAfter_spec ps hr' (by simpa [hnil] using hdist) hrs
    simpa [hnil] using this
  | some q =>
    obtain ⟨xs, hxs⟩ := getLast?_eq_some_iff.mp hlast
    obtain ⟨hr, hrs⟩ := insertAfter_spec p hxs hw.distinct hw.summed
    have := chainAfter_spec ps (hr.trans (append_cons xs q [p]))
      (by simpa [hxs] using hdist) hrs
    simpa [hxs] using this

variable {xs ys : List Piece} {t : Piece}

/-- At a piece boundary: in front of the piece that starts there. -/
theorem spliceTree_before (hw : Wf pt) (hps : pt.tree.toList = xs ++ t :: ys)
    (hlive : Live pt h (xs ++ p :: (ps ++ t :: ys))) :
    TreeFor pt h (spliceTree pt (some (t, 0)) (p :: ps) none)
      (bytesOf pt (xs ++ p :: (ps ++ t :: ys))) := by
  refine treeFor_of_toList ?_ hlive
  obtain ⟨hr, hrs⟩ := insertBefore_spec p hps hw.distinct hw.summed
  simp only [spliceTree, if_true]
  exact chainAfter_spec ps hr hlive.distinct hrs

/-- Inside a piece: the target keeps its head and `right` takes its tail. -/
theorem spliceTree_split (hw : Wf pt) (hps : pt.tree.toList = xs ++ t :: ys) {intra : Nat}
    (hk : PieceOk pt (keepHead pt intra t)) (right : Piece)
    (hlive : Live pt h (xs ++ [keepHead pt intra t] ++ p :: (ps ++ right :: ys))) :
    TreeFor pt h (spliceTree pt (some (t, intra)) (p :: ps) (some right))
      (bytesOf pt (xs ++ [keepHead pt intra t] ++ p :: (ps ++ right :: ys))) := by
  refine treeFor_of_toList ?_ hlive
  have hd₁ : Live pt pt.heap (xs ++ keepHead pt intra t :: ys) := by
    have hlive₀ := hw.live
    rw [hps] at hlive₀
    exact hlive₀.replace hk rfl
  have hd₂ : Distinct (xs ++ keepHead pt intra t :: right :: ys) := by
    refine hlive.distinct.sublist (List.Sublist.map _ ?_)
    rw [append_assoc]
    refine List.Sublist.append_left (List.Sublist.cons_cons _ ?_) _
    exact sublist_append_right (p :: ps) (right :: ys)
  obtain ⟨h₁, h₁s⟩ := updatePiece_spec (keepHead pt intra) hps hw.distinct hw.summed
  obtain ⟨h₂, h₂s⟩ := insertAfter_spec right h₁ (h₁ ▸ hd₁.distinct) h₁s
  obtain ⟨h₃, h₃s⟩ := insertAfter_spec p h₂ (h₂ ▸ hd₂) h₂s
  exact chainAfter_spec ps (h₃.trans (append_cons xs _ _)) hlive.distinct h₃s

end SpliceTree

/-- **`splice_in`**: an allocation failure leaves the tree alone; otherwise the
bytes of the spans are spliced in at the offset. -/
theorem spliceIn_outcome {pt : PieceTree} (hw : Wf pt) (offset : Nat) {spans : List PtSpan}
    (hne : spans ≠ []) (hs : ∀ sp ∈ spans, SpanOk pt sp) :
    Outcome pt (splice (doc pt) offset (spansBytes pt spans)) (spliceIn pt offset spans) := by
  have hmin : splice (doc pt) offset (spansBytes pt spans)
      = splice (doc pt) (min offset (length pt)) (spansBytes pt spans) := by
    rw [hw.length_eq, splice_min]
  rw [hmin]
  have hf := findPiece_spec hw.summed (min offset (length pt))
  have ha := pt.heap.alloc_allocated
  simp only [spliceIn]
  generalize findPiece pt.tree (min offset (length pt)) = target at hf
  generalize min offset (length pt) = offset at hf
  generalize pt.heap.alloc = r at ha
  cases ha with
  | refused hg => exact .failed _ pt.heap.later_succ
  | granted hg =>
    dsimp only
    cases hnew : newPieces pt { pt.heap with calls := pt.heap.calls + 1 } spans with
    | mk o h₁ =>
      obtain ⟨hlater, -, hps⟩ := newPieces_spec hw.indexed hs _ hnew
      have hl := pt.heap.later_succ.trans hlater
      cases o with
      | none => exact .failed _ hl
      | some np =>
        obtain ⟨hspan, hlive, hna⟩ := hps np rfl
        obtain ⟨p, ps, rfl⟩ := exists_cons_of_ne_nil (l := np) (by
          rintro rfl
          exact hne hspan.symm)
        have hge : ∀ q ∈ p :: ps, pt.heap.calls ≤ q.addr := fun q hq =>
          Nat.le_of_succ_le (hna q hq)
        rw [← hspan, ← bytesOf_eq_spansBytes]
        dsimp only
        cases hf with
        | beyond hb =>
          have hlen : (doc pt).length ≤ offset := by
            rw [doc, length_bytesOf hw.pieces]
            exact hb
          rw [splice_of_length_le hlen, doc, ← bytesOf_append]
          refine .applied _ _ hl (spliceTree_end hw ?_ none)
          have := @Live.insert pt _ _ pt.tree.toList [] _ (by simpa using hw.live) hlive hl hge
          simpa using this
        | inside xs ys hps' hoff hlt =>
          rename_i t intra
          have hlive₀ := hw.live
          rw [hps'] at hlive₀
          have hokt : PieceOk pt t := hlive₀.pieces t (by simp)
          have hlenx : (bytesOf pt xs).length = byteLen xs :=
            length_bytesOf fun q hq => hlive₀.pieces q (by simp [hq])
          have hdoc : doc pt = bytesOf pt xs ++ (pieceBytes pt t ++ bytesOf pt ys) := by
            rw [doc, hps', bytesOf_append, bytesOf_cons]
          dsimp only
          split
          case isTrue hsplit =>
            have ha₁ := h₁.alloc_allocated
            rw [pieceNew]
            generalize h₁.alloc = r₁ at ha₁
            cases ha₁ with
            | refused hg₁ => exact .failed _ (hl.trans h₁.later_succ)
            | granted hg₁ =>
              have hk : PieceOk pt (keepHead pt intra t) :=
                pieceOk_keepHead hw.indexed hokt (Nat.le_of_lt hlt) (by omega)
              have hsp : splice (doc pt) offset (bytesOf pt (p :: ps))
                  = bytesOf pt (xs ++ [keepHead pt intra t]
                      ++ p :: (ps ++ rightHalf pt t intra h₁.calls :: ys)) := by
                have hcut : doc pt = (bytesOf pt xs ++ (pieceBytes pt t).take intra)
                    ++ ((pieceBytes pt t).drop intra ++ bytesOf pt ys) := by
                  rw [hdoc, append_assoc, ← append_assoc (List.take _ _),
                    take_append_drop]
                have hlen : (bytesOf pt xs ++ (pieceBytes pt t).take intra).length = offset := by
                  rw [length_append, hlenx, length_take, hokt.length, hoff]
                  omega
                rw [hcut, ← hlen, splice_append]
                simp [pieceBytes_rightHalf, pieceBytes_keepHead (Nat.le_of_lt hlt)]
              rw [hsp]
              refine .applied _ _ (hl.trans h₁.later_succ)
                (spliceTree_split hw hps' hk (rightHalf pt t intra h₁.calls) ?_)
              have hnr : Live pt { h₁ with calls := h₁.calls + 1 }
                  (p :: ps ++ ([rightHalf pt t intra h₁.calls] ++ [])) := by
                refine Live.insert (by simpa using hlive) ?_ h₁.later_succ (by simp [rightHalf])
                refine ⟨by simp [Distinct], by simp [rightHalf], ?_⟩
                simpa using pieceOk_rightHalf hw.indexed hokt hlt h₁.calls
              have hold : Live pt pt.heap ((xs ++ [keepHead pt intra t]) ++ ys) := by
                simpa using hlive₀.replace hk rfl
              have := hold.insert hnr (hl.trans h₁.later_succ) (by
                intro q hq
                rcases mem_append.mp hq with hq | hq
                · exact hge q hq
                · rw [append_nil] at hq
                  rw [mem_singleton.mp hq]
                  exact hl.calls)
              simpa using this
          case isFalse hsplit =>
            have h0 : intra = 0 := by omega
            subst h0
            have hsp : splice (doc pt) offset (bytesOf pt (p :: ps))
                = bytesOf pt (xs ++ p :: (ps ++ t :: ys)) := by
              rw [hoff, Nat.add_zero, ← hlenx, hdoc, splice_append]
              simp
            rw [hsp]
            refine .applied _ _ hl (spliceTree_before hw hps' ?_)
            exact hlive₀.insert hlive hl hge

/-- With every allocation granted, `splice_in` succeeds. -/
theorem spliceIn_ok {pt : PieceTree} (hw : Wf pt) (hg : pt.heap.Grants) (offset : Nat)
    {spans : List PtSpan} (hs : ∀ sp ∈ spans, SpanOk pt sp) :
    (spliceIn pt offset spans).1 = .ok := by
  have ha := pt.heap.alloc_allocated
  simp only [spliceIn]
  generalize findPiece pt.tree (min offset (length pt)) = target
  generalize pt.heap.alloc = r at ha
  cases ha with
  | refused hr =>
    rw [hg] at hr
    cases hr
  | granted hr =>
    dsimp only
    cases hnew : newPieces pt { pt.heap with calls := pt.heap.calls + 1 } spans with
    | mk o h₁ =>
      obtain ⟨hlater, hsome, -⟩ := newPieces_spec hw.indexed hs _ hnew
      have hg₁ : h₁.Grants := hg.later (pt.heap.later_succ.trans hlater)
      cases o with
      | none => exact absurd rfl (hsome (hg.later pt.heap.later_succ))
      | some np =>
        dsimp only
        cases target with
        | none => rfl
        | some ti =>
          dsimp only
          split
          · rw [pieceNew, Heap.alloc, hg₁]
            rfl
          · rfl

/-! ## `do_delete_range` -/

/-- One round of `do_delete_range` replaces the piece at the front of the range
by the pieces `qs`: none, its head, its tail, or both. -/
theorem deleteLoop_spec {pt : PieceTree} (hi : Indexed pt) (fuel : Nat) {h : Heap}
    {t : Tree Piece Sums} {xs ys : List Piece} (hl : t.toList = xs ++ ys) (hs : Summed t)
    (hlive : Live pt h (xs ++ ys)) {intra : Nat} (hintra : ∀ p ∈ ys.head?, intra < p.length)
    (remaining : Nat) (hfuel : ys.length ≤ fuel) {rc : Rc} {h' : Heap} {t' : Tree Piece Sums}
    (hr : deleteLoop pt fuel h t ys.head? intra remaining = (rc, h', t')) :
    h.Later h' ∧ (rc = .err → t' = t ∧ intra ≠ 0) ∧ (h.Grants → rc = .ok) ∧
      (rc = .ok → TreeFor pt h' t' (bytesOf pt xs ++ cut (bytesOf pt ys) intra remaining)) := by
  induction fuel generalizing h t xs ys intra remaining with
  | zero =>
    have : ys = [] := length_eq_zero_iff.mp (by omega)
    subst this
    cases hr
    refine ⟨Heap.Later.refl _, by simp, by simp, fun _ => ?_⟩
    have := treeFor_of_toList ⟨hl, hs⟩ hlive
    simpa [cut] using this
  | succ fuel ih =>
    cases ys with
    | nil =>
      cases hr
      refine ⟨Heap.Later.refl _, by simp, by simp, fun _ => ?_⟩
      have := treeFor_of_toList ⟨hl, hs⟩ hlive
      simpa [cut] using this
    | cons p ys =>
      have hokp : PieceOk pt p := hlive.pieces p (by simp)
      have hlt : intra < p.length := hintra p rfl
      have hd : Distinct t.toList := hl ▸ hlive.distinct
      have hpos : ∀ q ∈ ys.head?, 0 < q.length := fun q hq =>
        (hlive.pieces q (by simp [mem_of_mem_head? hq])).pos
      simp only [head?_cons, deleteLoop] at hr
      by_cases h0 : remaining = 0
      · rw [if_pos h0] at hr
        cases hr
        refine ⟨Heap.Later.refl _, by simp, by simp, fun _ => ?_⟩
        rw [h0, cut_zero, ← bytesOf_append]
        exact treeFor_of_toList ⟨hl, hs⟩ hlive
      rw [if_neg h0, nextPiece_spec hl hd] at hr
      have hcut : cut (bytesOf pt (p :: ys)) intra remaining
          = cut (pieceBytes pt p) intra remaining
            ++ cut (bytesOf pt ys) 0 (remaining - min remaining (p.length - intra)) := by
        rw [bytesOf_cons, cut_append_of_le (by rw [hokp.length]; omega), hokp.length]
        congr 2
        omega
      -- whatever the round does, the rest of the run continues behind `qs`
      have next : ∀ {qs : List Piece} {h₁ : Heap} {t₁ : Tree Piece Sums}, h.Later h₁ →
          t₁.toList = xs ++ (qs ++ ys) ∧ Summed t₁ → Live pt h₁ (xs ++ (qs ++ ys)) →
          bytesOf pt qs = cut (pieceBytes pt p) intra remaining →
          deleteLoop pt fuel h₁ t₁ ys.head? 0 (remaining - min remaining (p.length - intra))
            = (rc, h', t') →
          h.Later h' ∧ (rc = .err → t' = t ∧ intra ≠ 0) ∧ (h.Grants → rc = .ok) ∧
            (rc = .ok → TreeFor pt h' t'
              (bytesOf pt xs ++ cut (bytesOf pt (p :: ys)) intra remaining)) := by
        intro qs h₁ t₁ hlater ht₁ hlive₁ hqs hr₁
        obtain ⟨h₂, herr, hgr, hok⟩ := @ih h₁ t₁ (xs ++ qs) ys (by simpa using ht₁.1) ht₁.2
          (by simpa using hlive₁) 0 hpos _ (by simpa using hfuel) hr₁
        refine ⟨hlater.trans h₂, fun hrc => absurd rfl (herr hrc).2,
          fun hg => hgr (hg.later hlater), fun hrc => ?_⟩
        have := hok hrc
        rw [bytesOf_append, append_assoc, hqs, ← hcut] at this
        exact this
      by_cases htake : min remaining (p.length - intra) = p.length
      · -- the whole piece goes
        rw [if_pos htake] at hr
        refine @next [] _ _ (Heap.Later.refl h) (erasePiece_spec hl hd hs) ?_ ?_ hr
        · refine hlive.sublist (List.Sublist.append_left ?_ _)
          exact sublist_cons_self _ _
        · have : intra = 0 := by omega
          rw [this, cut, take_zero, drop_of_length_le]
          · rfl
          · rw [hokp.length]
            omega
      rw [if_neg htake] at hr
      by_cases hin : intra = 0
      · -- its head goes
        rw [if_pos hin] at hr
        subst hin
        have hmin : min remaining (p.length - 0) = remaining := by omega
        rw [hmin] at hr
        have hok : PieceOk pt (dropHead pt remaining p) :=
          pieceOk_rightHalf hi hokp (by omega) p.addr
        refine @next [dropHead pt remaining p] _ _ (Heap.Later.refl h)
          (updatePiece_spec _ hl hd hs) (hlive.replace hok rfl) ?_ (by rw [hmin]; exact hr)
        have := pieceBytes_rightHalf pt p remaining p.addr
        simp only [bytesOf_cons, bytesOf_nil, append_nil, cut, take_zero,
          nil_append, Nat.zero_add]
        exact this
      rw [if_neg hin] at hr
      have hkeep : PieceOk pt (keepHead pt intra p) :=
        pieceOk_keepHead hi hokp (Nat.le_of_lt hlt) (Nat.pos_of_ne_zero hin)
      by_cases htail : intra + min remaining (p.length - intra) = p.length
      · -- its tail goes
        rw [if_pos htail] at hr
        refine @next [keepHead pt intra p] _ _ (Heap.Later.refl h)
          (updatePiece_spec _ hl hd hs) (hlive.replace hkeep rfl) ?_ hr
        rw [bytesOf_cons, bytesOf_nil, pieceBytes_keepHead (Nat.le_of_lt hlt), cut,
          drop_of_length_le (by rw [hokp.length]; omega)]
      rw [if_neg htail] at hr
      -- a hole strictly inside the piece: the only allocation
      have ha := h.alloc_allocated
      rw [pieceNew] at hr
      generalize h.alloc = r at ha hr
      cases ha with
      | refused hg =>
        cases hr
        refine ⟨h.later_succ, fun _ => ⟨rfl, hin⟩, fun hall => ?_, by simp⟩
        rw [hall] at hg
        cases hg
      | granted hg =>
        dsimp only at hr
        have hmin : min remaining (p.length - intra) = remaining := by omega
        set right := rightHalf pt p (intra + remaining) h.calls with hright
        have hr' : deleteLoop pt fuel { h with calls := h.calls + 1 }
            (insertAfter (updatePiece t p.addr (keepHead pt intra)) p.addr right)
            ys.head? 0 (remaining - min remaining (p.length - intra)) = (rc, h', t') := by
          rw [← hr, hright, rightHalf, hmin, ← Nat.add_assoc, Nat.sub_sub]
        have hokr : PieceOk pt right := pieceOk_rightHalf hi hokp (by omega) h.calls
        obtain ⟨h₁, h₁s⟩ := updatePiece_spec (keepHead pt intra) hl hd hs
        have hlive₁ : Live pt h (xs ++ keepHead pt intra p :: ys) := hlive.replace hkeep rfl
        refine @next [keepHead pt intra p, right] _ _ h.later_succ
          (insertAfter_spec right h₁ (h₁ ▸ hlive₁.distinct) h₁s) ?_ ?_ hr'
        · have hnew : Live pt { h with calls := h.calls + 1 } [right] :=
            ⟨by simp [Distinct], by simp [hright, rightHalf], by simpa using hokr⟩
          have := Live.insert (show Live pt h ((xs ++ [keepHead pt intra p]) ++ ys) by
            simpa using hlive₁) hnew h.later_succ (by simp [hright, rightHalf])
          simpa using this
        · rw [bytesOf_cons, bytesOf_cons, bytesOf_nil, pieceBytes_keepHead (Nat.le_of_lt hlt),
            hright, pieceBytes_rightHalf, cut, append_nil]

/-- The piece under an offset inside the document, with what stands around it. -/
theorem exists_findPiece {pt : PieceTree} (hw : Wf pt) {offset : Nat}
    (ho : offset < (doc pt).length) :
    ∃ xs p ys intra, findPiece pt.tree offset = some (p, intra) ∧
      pt.tree.toList = xs ++ p :: ys ∧ intra < p.length ∧
      (bytesOf pt xs).length + intra = offset := by
  have hf := findPiece_spec hw.summed offset
  generalize findPiece pt.tree offset = res at hf
  cases hf with
  | beyond hb =>
    rw [doc, length_bytesOf hw.pieces] at ho
    omega
  | inside xs ys hps hoff hlt =>
    refine ⟨xs, _, ys, _, rfl, hps, hlt, ?_⟩
    rw [length_bytesOf fun q hq => hw.pieces q (by simp [hps, hq]), hoff]

/-- **`do_delete_range`**: an allocation failure leaves the tree alone;
otherwise the range is cut out. -/
theorem doDeleteRange_outcome {pt : PieceTree} (hw : Wf pt) (offset len : Nat) :
    Outcome pt (cut (doc pt) offset len) (doDeleteRange pt offset len) ∧
      (pt.heap.Grants → (doDeleteRange pt offset len).1 = .ok) := by
  rw [doDeleteRange, hw.length_eq]
  split
  case isTrue hc =>
    have hnop : cut (doc pt) offset len = doc pt := by
      rcases hc with hc | hc
      · rw [cut, take_of_length_le hc, drop_of_length_le (by omega), append_nil]
      · rw [hc, cut_zero]
    refine ⟨?_, fun _ => rfl⟩
    rw [hnop]
    exact .applied pt.tree pt.heap (Heap.Later.refl _) ⟨hw.summed, hw.live, rfl⟩
  case isFalse hc =>
    obtain ⟨xs, p, ys, intra, hfind, hps, hlt, hoff⟩ := exists_findPiece hw
      (show offset < (doc pt).length by omega)
    have hdoc : doc pt = bytesOf pt xs ++ bytesOf pt (p :: ys) := by
      rw [doc, hps, bytesOf_append]
    have hcut : cut (doc pt) offset len = bytesOf pt xs
        ++ cut (bytesOf pt (p :: ys)) intra (min len ((doc pt).length - offset)) := by
      have hlen : (doc pt).length = (bytesOf pt xs).length + (bytesOf pt (p :: ys)).length := by
        rw [hdoc, length_append]
      rw [cut, cut, hdoc, ← hoff, take_length_add_append, Nat.add_assoc,
        drop_length_add_append, ← hdoc, append_assoc]
      congr 2
      rcases Nat.le_total len ((doc pt).length - ((bytesOf pt xs).length + intra)) with h | h
      · rw [Nat.min_eq_left h]
      · rw [Nat.min_eq_right h, drop_of_length_le (by omega),
          drop_of_length_le (by omega)]
    simp only [hfind, Option.map_some, Option.getD_some]
    cases hr : deleteLoop pt (pieceCount pt.tree) pt.heap pt.tree (some p) intra
        (min len ((doc pt).length - offset)) with
    | mk rc r =>
      obtain ⟨h', t'⟩ := r
      have hlive := hw.live
      rw [hps] at hlive
      have hintra : ∀ q ∈ (p :: ys).head?, intra < q.length := by simpa using hlt
      obtain ⟨hl, herr, hgr, hok⟩ := deleteLoop_spec hw.indexed _ hps hw.summed hlive hintra _
        (by simp [pieceCount, hps]) hr
      refine ⟨?_, hgr⟩
      cases rc with
      | err =>
        rw [(herr rfl).1]
        exact .failed h' hl
      | ok =>
        rw [hcut]
        exact .applied t' h' hl (hok rfl)

/-! ## `capture_spans` -/

/-- The captured spans denote the bytes walked over. -/
theorem captureLoop_spec {pt : PieceTree} (hw : Wf pt) (fuel : Nat) {xs ys : List Piece}
    (hl : pt.tree.toList = xs ++ ys) {intra : Nat} (hintra : ∀ p ∈ ys.head?, intra < p.length)
    (remaining cap : Nat) (h : Heap) (acc : List PtSpan) (hfuel : ys.length ≤ fuel)
    {o : Option (List PtSpan)} {h' : Heap}
    (hr : captureLoop pt.tree fuel h ys.head? intra remaining cap acc = (o, h')) :
    h.Later h' ∧ (h.Grants → o ≠ none) ∧ ∀ spans, o = some spans →
      ∃ new, spans = acc ++ new ∧ (∀ sp ∈ new, SpanOk pt sp) ∧
        spansBytes pt new = ((bytesOf pt ys).drop intra).take remaining := by
  induction fuel generalizing xs ys intra remaining cap h acc with
  | zero =>
    have : ys = [] := length_eq_zero_iff.mp (by omega)
    subst this
    cases hr
    refine ⟨Heap.Later.refl _, by simp, ?_⟩
    rintro spans ⟨⟩
    exact ⟨[], by simp, by simp, by simp [spansBytes]⟩
  | succ fuel ih =>
    cases ys with
    | nil =>
      cases hr
      refine ⟨Heap.Later.refl _, by simp, ?_⟩
      rintro spans ⟨⟩
      exact ⟨[], by simp, by simp, by simp [spansBytes]⟩
    | cons p ys =>
      have hokp : PieceOk pt p := hw.pieces p (by simp [hl])
      have hlt : intra < p.length := hintra p rfl
      have hpos : ∀ q ∈ ys.head?, 0 < q.length := fun q hq =>
        (hw.pieces q (by simp [hl, mem_of_mem_head? hq])).pos
      simp only [head?_cons, captureLoop] at hr
      by_cases h0 : remaining = 0
      · rw [if_pos h0] at hr
        cases hr
        refine ⟨Heap.Later.refl _, by simp, ?_⟩
        rintro spans ⟨⟩
        exact ⟨[], by simp, by simp, by simp [spansBytes, h0]⟩
      rw [if_neg h0, nextPiece_spec hl hw.distinct] at hr
      set sp : PtSpan := ⟨p.source, p.start + intra, min remaining (p.length - intra)⟩ with hsp
      have hoksp : SpanOk pt sp := by
        have := hokp.inside
        refine ⟨?_, ?_⟩ <;>
        · simp only [hsp]
          omega
      have hbytes : spanBytes pt sp = ((pieceBytes pt p).drop intra).take remaining := by
        rw [spanBytes, hsp, pieceBytes, readSrc, readSrc, drop_take, drop_drop,
          take_take]
      have hlist : pt.tree.toList = (xs ++ [p]) ++ ys := by simp [hl]
      -- both branches go on with the span appended; only the capacity differs
      have next : ∀ (cap' : Nat) {h₁ : Heap}, h.Later h₁ →
          captureLoop pt.tree fuel h₁ ys.head? 0 (remaining - min remaining (p.length - intra))
            cap' (acc ++ [sp]) = (o, h') →
          h.Later h' ∧ (h.Grants → o ≠ none) ∧ ∀ spans, o = some spans →
            ∃ new, spans = acc ++ new ∧ (∀ sp ∈ new, SpanOk pt sp) ∧
              spansBytes pt new = ((bytesOf pt (p :: ys)).drop intra).take remaining := by
        intro cap' h₁ hlater hr₁
        obtain ⟨hl₂, hgr, hres⟩ := ih hlist hpos _ cap' h₁ (acc ++ [sp])
          (by simpa using hfuel) hr₁
        refine ⟨hlater.trans hl₂, fun hg => hgr (hg.later hlater), ?_⟩
        intro spans hspans
        obtain ⟨new, rfl, hnok, hnb⟩ := hres spans hspans
        refine ⟨sp :: new, by simp, forall_mem_cons.mpr ⟨hoksp, hnok⟩, ?_⟩
        have : spansBytes pt (sp :: new) = spanBytes pt sp ++ spansBytes pt new := by
          simp [spansBytes]
        rw [this, hbytes, hnb, bytesOf_cons,
          drop_append_of_le_length (by rw [hokp.length]; omega), take_append,
          length_drop, hokp.length, drop_zero]
        congr 2
        omega
      by_cases hcap : acc.length = cap
      · rw [if_pos hcap] at hr
        have ha := h.alloc_allocated
        generalize h.alloc = r at ha hr
        cases ha with
        | refused hg =>
          cases hr
          refine ⟨h.later_succ, fun hall => ?_, by simp⟩
          rw [hall] at hg
          cases hg
        | granted hg => exact next _ h.later_succ hr
      · rw [if_neg hcap] at hr
        exact next _ (Heap.Later.refl h) hr

/-- **`capture_spans`** of a range inside the document. -/
theorem captureSpans_spec {pt : PieceTree} (hw : Wf pt) {offset : Nat}
    (ho : offset < (doc pt).length) (len : Nat) {o : Option (List PtSpan)} {h' : Heap}
    (hr : captureSpans pt offset len = (o, h')) :
    pt.heap.Later h' ∧ (pt.heap.Grants → o ≠ none) ∧ ∀ spans, o = some spans →
      (∀ sp ∈ spans, SpanOk pt sp) ∧ spansBytes pt spans = ((doc pt).drop offset).take len := by
  obtain ⟨xs, p, ys, intra, hfind, hps, hlt, hoff⟩ := exists_findPiece hw ho
  simp only [captureSpans, hfind, Option.map_some, Option.getD_some] at hr
  have hintra : ∀ q ∈ (p :: ys).head?, intra < q.length := by simpa using hlt
  obtain ⟨hl, hgr, hres⟩ := captureLoop_spec hw _ hps hintra len 0 pt.heap []
    (by simp [pieceCount, hps]) hr
  refine ⟨hl, hgr, fun spans hspans => ?_⟩
  obtain ⟨new, rfl, hok, hb⟩ := hres spans hspans
  refine ⟨by simpa using hok, ?_⟩
  rw [hb, doc, hps, bytesOf_append, ← hoff, drop_length_add_append]

end PieceTree

end AxlSdk
