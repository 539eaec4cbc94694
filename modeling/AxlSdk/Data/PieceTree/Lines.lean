import AxlSdk.Data.PieceTree.Refinement

/-!
# The line iterator (`axl_piece_tree_line_iter_init`, `_init_at`, `_next`)

The iterator stands in a piece, with the place of the next newline in the index of
that piece's source, and steps to the next piece when the index has none left in
this one. Nothing edits the document while it is in use.

- `CursorAt`, `Cursor`: it stands in a piece behind the newlines of the lines it has
  passed, or behind the last piece.
- `lineIterNext_spec`: a call returns what `axl_piece_tree_line_bounds` returns for
  the line it stands at, and moves it to the next.
- `line_iter_agrees`: so do all calls, from every line on and in every state that a
  run reaches.
-/

namespace AxlSdk

namespace PieceTree

open AugTree AugTree.Tree List

/-! ## The iterator -/

/-- `AxlPieceLineIter`. -/
structure LineIter where
  node : Option Piece
  nodeBase : Nat
  intra : Nat
  lineStart : Nat
  docLen : Nat
  nlIdx : Nat
  done : Bool

/-- `axl_piece_tree_line_iter_init`. -/
def lineIterInit (pt : PieceTree) : LineIter :=
  let node := RbTree.first pt.tree
  { node := node
    nodeBase := 0
    intra := 0
    lineStart := 0
    docLen := length pt
    nlIdx := node.elim 0 fun p => lowerCount (srcNl pt p.source) p.start
    done := false }

/-- `axl_piece_tree_line_iter_init_at`. -/
def lineIterInitAt (pt : PieceTree) (startLine : Nat) : LineIter :=
  let it := lineIterInit pt
  if startLine = 0 then it
  else if startLine ≥ lineCount pt then { it with done := true }
  else
    let s := newlineOffset pt (startLine - 1) + 1
    match findPiece pt.tree s with
    | none => { it with lineStart := s, node := none }
    | some (p, intra) =>
      { it with
        lineStart := s
        node := some p
        nodeBase := s - intra
        intra := 0
        nlIdx := lowerCount (srcNl pt p.source) (p.start + intra) }

/-- The step from the piece `p` to the next. -/
def LineIter.advance (pt : PieceTree) (it : LineIter) (p : Piece) : LineIter :=
  let nx := nextPiece pt.tree p.addr
  { it with
    node := nx
    nodeBase := it.nodeBase + p.length
    intra := 0
    nlIdx := nx.elim it.nlIdx fun np => lowerCount (srcNl pt np.source) np.start }

/-- The end of a line that starts at `s`, without a `\r` before its terminator. -/
def lineEnd (pt : PieceTree) (s e : Nat) : Nat :=
  if e > s ∧ byteAt pt (e - 1) = some carriageReturn then e - 1 else e

/-- Behind the last newline. -/
def lastLine (pt : PieceTree) (it : LineIter) : (Nat × Nat) × LineIter :=
  ((it.lineStart, lineEnd pt it.lineStart it.docLen), { it with done := true })

/-- The loop of `axl_piece_tree_line_iter_next`: start and end of a line. -/
def lineIterLoop (pt : PieceTree) : Nat → LineIter → (Nat × Nat) × LineIter
  | 0, it => lastLine pt it
  | fuel + 1, it =>
    match it.node with
    | none => lastLine pt it
    | some p =>
      let arr := srcNl pt p.source
      if it.nlIdx < arr.length ∧ arr.getD it.nlIdx 0 < p.start + p.length then
        let nlDoc := it.nodeBase + (arr.getD it.nlIdx 0 - p.start)
        let bounds := (it.lineStart, lineEnd pt it.lineStart nlDoc)
        let it := { it with
          lineStart := nlDoc + 1
          intra := arr.getD it.nlIdx 0 - p.start + 1
          nlIdx := it.nlIdx + 1 }
        (bounds, if it.intra ≥ p.length then it.advance pt p else it)
      else lineIterLoop pt fuel (it.advance pt p)

/-- `axl_piece_tree_line_iter_next`; `none` where it returns false. -/
def lineIterNext (pt : PieceTree) (it : LineIter) : Option (Nat × Nat) × LineIter :=
  if it.done then (none, it)
  else
    let r := lineIterLoop pt (pieceCount pt.tree) it
    (some r.1, r.2)

/-- What `n` calls return. -/
def lineIterCalls (pt : PieceTree) : Nat → LineIter → List (Option (Nat × Nat))
  | 0, _ => []
  | n + 1, it => (lineIterNext pt it).1 :: lineIterCalls pt n (lineIterNext pt it).2

/-! ## Lines -/

/-- Where a line starts. -/
def lineStartOf (pt : PieceTree) (k : Nat) : Nat :=
  if k = 0 then 0 else newlineOffset pt (k - 1) + 1

variable {pt : PieceTree} {it : LineIter} {xs ys : List Piece} {p : Piece} {c k : Nat}

theorem count_take_succ {D : List UInt8} {p : Nat} (h : D[p]? = some newline) :
    (D.take (p + 1)).count newline = (D.take p).count newline + 1 := by
  rw [take_add_one, h, count_append]
  rfl

theorem count_take_mono (D : List UInt8) {a b : Nat} (h : a ≤ b) :
    (D.take a).count newline ≤ (D.take b).count newline :=
  (take_sublist_take_left h).count_le _

theorem IsNthNewline.unique {D : List UInt8} {k p q : Nat} (hp : IsNthNewline D k p)
    (hq : IsNthNewline D k q) : p = q := by
  have hle : ∀ {a b : Nat}, IsNthNewline D k a → IsNthNewline D k b → b ≤ a := by
    intro a b ha hb
    by_contra hlt
    have hmono := count_take_mono D (show a + 1 ≤ b by omega)
    rw [count_take_succ ha.1, ha.2, hb.2] at hmono
    omega
  exact Nat.le_antisymm (hle hq hp) (hle hp hq)

theorem IsNthNewline.lt_count {D : List UInt8} {k p : Nat} (h : IsNthNewline D k p) :
    k < D.count newline := by
  have hle := (take_sublist (p + 1) D).count_le newline
  rw [count_take_succ h.1, h.2] at hle
  omega

theorem lineBounds_of_newline (hw : Wf pt) {q : Nat} (hq : IsNthNewline (doc pt) k q) :
    lineBounds pt k = some (lineStartOf pt k, lineEnd pt (lineStartOf pt k) q) := by
  have hlt := hq.lt_count
  obtain rfl := hq.unique (hw.newlineOffset_spec hlt)
  rw [lineBounds, hw.nlSum_eq, if_neg (by omega), if_pos hlt]
  rfl

theorem lineBounds_last (hw : Wf pt) (hk : (doc pt).count newline = k) :
    lineBounds pt k = some (lineStartOf pt k, lineEnd pt (lineStartOf pt k) (length pt)) := by
  simp only [lineBounds, hw.nlSum_eq, hk, gt_iff_lt, Nat.lt_irrefl, if_false]
  rfl

/-! ## Where the iterator stands -/

/-- The iterator stands at byte `c` of a piece, behind `k` newlines. -/
structure CursorAt (pt : PieceTree) (it : LineIter) (k : Nat) (xs : List Piece) (p : Piece)
    (ys : List Piece) (c : Nat) : Prop where
  pieces : pt.tree.toList = xs ++ p :: ys
  node : it.node = some p
  nodeBase : it.nodeBase = byteLen xs
  inside : c ≤ p.length
  nlIdx : it.nlIdx = ((source pt p.source).take (p.start + c)).count newline
  passed : (bytesOf pt xs).count newline + ((pieceBytes pt p).take c).count newline = k

/-- The iterator stands behind `k` newlines, with at most `n` pieces left. -/
inductive Cursor (pt : PieceTree) (it : LineIter) (k n : Nat) : Prop where
  | inPiece (xs : List Piece) (p : Piece) (ys : List Piece) (c : Nat)
      (cursor : CursorAt pt it k xs p ys c) (left : ys.length < n)
  | atEnd (node : it.node = none) (all : (doc pt).count newline = k)

/-- The iterator stands at line `k`. -/
structure Stands (pt : PieceTree) (it : LineIter) (k : Nat) : Prop where
  running : it.done = false
  lineStart : it.lineStart = lineStartOf pt k
  docLen : it.docLen = length pt
  cursor : Cursor pt it k (pieceCount pt.tree)

/-- The newlines of a source up to a byte of a piece of it. -/
theorem count_source (pt : PieceTree) (p : Piece) {j : Nat} (hj : j ≤ p.length) :
    ((source pt p.source).take (p.start + j)).count newline =
      ((source pt p.source).take p.start).count newline +
        ((pieceBytes pt p).take j).count newline := by
  rw [take_add, count_append, pieceBytes, readSrc, take_take, Nat.min_eq_left hj]

/-- The test of the loop: it finds the next newline of the piece, if there is one. -/
theorem CursorAt.newline_cases (h : CursorAt pt it k xs p ys c) (hw : Wf pt) :
    let arr := srcNl pt p.source
    (it.nlIdx < arr.length ∧ arr.getD it.nlIdx 0 < p.start + p.length ∧
      ∃ j, arr.getD it.nlIdx 0 = p.start + j ∧ j < p.length ∧
        IsNthNewline (doc pt) k (byteLen xs + j) ∧
        it.nlIdx + 1 = ((source pt p.source).take (p.start + (j + 1))).count newline ∧
        (bytesOf pt xs).count newline + ((pieceBytes pt p).take (j + 1)).count newline = k + 1) ∨
    ¬ (it.nlIdx < arr.length ∧ arr.getD it.nlIdx 0 < p.start + p.length) ∧
      (bytesOf pt xs).count newline + (pieceBytes pt p).count newline = k := by
  intro arr
  have hok : PieceOk pt p := hw.pieces p (by simp [h.pieces])
  have hstart := count_source pt p h.inside
  have hend := count_source pt p (Nat.le_refl p.length)
  have hidx := h.nlIdx
  have hpassed := h.passed
  have hmore := List.Sublist.count_le newline (take_sublist c (pieceBytes pt p))
  rw [take_of_length_le (Nat.le_of_eq hok.length)] at hend
  have harr : arr = newlineOffsets 0 (source pt p.source) := hw.indexed.srcNl p.source
  have hlen : arr.length = (source pt p.source).count newline := by
    rw [harr, length_newlineOffsets]
  by_cases hin : it.nlIdx < arr.length
  · obtain ⟨q, hq, hnth⟩ := @getD_newlineOffsets 0 it.nlIdx (source pt p.source) (by omega)
    rw [← harr, Nat.zero_add] at hq
    have hge : p.start + c ≤ q := by
      by_contra hlt
      have hmono := count_take_mono (source pt p.source) (show q + 1 ≤ p.start + c by omega)
      rw [count_take_succ hnth.1, hnth.2] at hmono
      omega
    by_cases hlt : q < p.start + p.length
    · obtain ⟨j, rfl⟩ := Nat.exists_eq_add_of_le (show p.start ≤ q by omega)
      have hj := count_source pt p (show j ≤ p.length by omega)
      have hj' := count_source pt p (show j + 1 ≤ p.length by omega)
      have hsucc := count_take_succ hnth.1
      rw [hnth.2] at hj hsucc
      have hbyte : (pieceBytes pt p)[j]? = some newline := by
        rw [pieceBytes, readSrc, getElem?_take_of_lt (by omega), getElem?_drop]
        exact hnth.1
      have hpiece : IsNthNewline (pieceBytes pt p) (((pieceBytes pt p).take c).count newline) j :=
        ⟨hbyte, by omega⟩
      have hdoc := (hpiece.append_right (bytesOf pt ys)).append_left (bytesOf pt xs)
      rw [hpassed, length_bytesOf fun x hx => hw.pieces x (by simp [h.pieces, hx]),
        ← bytesOf_cons, ← bytesOf_append, ← h.pieces] at hdoc
      refine .inl ⟨hin, by omega, j, hq, by omega, hdoc, ?_, ?_⟩
      · rw [← Nat.add_assoc, hsucc]
      · rw [← Nat.add_assoc, hsucc] at hj'
        omega
    · refine .inr ⟨fun hc => hlt (hq ▸ hc.2), ?_⟩
      have hmono := count_take_mono (source pt p.source) (show p.start + p.length ≤ q by omega)
      rw [hnth.2] at hmono
      omega
  · refine .inr ⟨fun hc => hin hc.1, ?_⟩
    have hmono := (take_sublist (p.start + p.length) (source pt p.source)).count_le newline
    omega

/-- The step to the next piece, behind the last newline of this one. -/
theorem Cursor.advance (hw : Wf pt) {n : Nat} (hps : pt.tree.toList = xs ++ p :: ys)
    (hbase : it.nodeBase = byteLen xs) (hleft : ys.length < n + 1)
    (hall : (bytesOf pt xs).count newline + (pieceBytes pt p).count newline = k) :
    Cursor pt (it.advance pt p) k n := by
  have hnext := nextPiece_spec hps hw.distinct
  cases ys with
  | nil =>
    refine .atEnd hnext ?_
    rw [doc, hps, bytesOf_append, count_append, bytesOf_cons, bytesOf_nil, append_nil]
    exact hall
  | cons q ys =>
    refine .inPiece (xs ++ [p]) q ys 0 ⟨?_, hnext, ?_, Nat.zero_le _, ?_, ?_⟩ ?_
    · rw [hps, append_assoc, singleton_append]
    · rw [byteLen_append, byteLen_cons, byteLen_nil, ← hbase]
      rfl
    · rw [LineIter.advance, hnext]
      exact hw.indexed.lowerCount q.source q.start
    · rw [bytesOf_append, bytesOf_cons, bytesOf_nil, append_nil, count_append,
        take_zero, count_nil]
      exact hall
    · rw [length_cons] at hleft
      omega

theorem lastLine_spec (hw : Wf pt) (hall : (doc pt).count newline = k)
    (hstart : it.lineStart = lineStartOf pt k) (hdoc : it.docLen = length pt) :
    let r := lastLine pt it
    lineBounds pt k = some r.1 ∧ (k < (doc pt).count newline → Stands pt r.2 (k + 1)) ∧
      (k = (doc pt).count newline → r.2.done = true) := by
  refine ⟨?_, fun hk => absurd hall.symm hk.ne, fun _ => rfl⟩
  rw [lineBounds_last hw hall, lastLine, hstart, hdoc]

/-- The loop returns the line it stands at, and ends at the next. -/
theorem lineIterLoop_spec (hw : Wf pt) {n : Nat} (hc : Cursor pt it k n)
    (hstart : it.lineStart = lineStartOf pt k) (hdoc : it.docLen = length pt)
    (hrun : it.done = false) (hn : n ≤ pieceCount pt.tree) :
    let r := lineIterLoop pt n it
    lineBounds pt k = some r.1 ∧ (k < (doc pt).count newline → Stands pt r.2 (k + 1)) ∧
      (k = (doc pt).count newline → r.2.done = true) := by
  induction n generalizing it with
  | zero =>
    cases hc with
    | inPiece xs p ys c hcur hleft => omega
    | atEnd hnode hall =>
      rw [lineIterLoop]
      exact lastLine_spec hw hall hstart hdoc
  | succ n ih =>
    cases hc with
    | atEnd hnode hall =>
      rw [lineIterLoop, hnode]
      exact lastLine_spec hw hall hstart hdoc
    | inPiece xs p ys c hcur hleft =>
      rw [lineIterLoop, hcur.node]
      dsimp only
      rcases hcur.newline_cases hw with ⟨h₁, h₂, j, hj, hjlt, hnth, hidx, hpassed⟩ | ⟨hno, hall⟩
      · rw [if_pos ⟨h₁, h₂⟩]
        have hdocpos : it.nodeBase + ((srcNl pt p.source).getD it.nlIdx 0 - p.start)
            = byteLen xs + j := by
          rw [hj, hcur.nodeBase]
          omega
        have hnext : byteLen xs + j + 1 = lineStartOf pt (k + 1) := by
          rw [lineStartOf, if_neg (by omega), Nat.add_sub_cancel,
            hnth.unique (hw.newlineOffset_spec hnth.lt_count)]
        refine ⟨?_, fun _ => ?_, fun hk => ?_⟩
        · rw [lineBounds_of_newline hw hnth, hdocpos, hstart]
        · simp only [hdocpos]
          split
          · rename_i hfull
            have hend : j + 1 = p.length := by
              rw [hj] at hfull
              omega
            rw [hend, take_of_length_le
              (Nat.le_of_eq (hw.pieces p (by simp [hcur.pieces])).length)] at hpassed
            refine ⟨hrun, hnext, hdoc, ?_⟩
            refine Cursor.advance hw hcur.pieces hcur.nodeBase ?_ hpassed
            rw [pieceCount, hcur.pieces, length_append, length_cons]
            omega
          · refine ⟨hrun, hnext, hdoc, ?_⟩
            refine .inPiece xs p ys (j + 1) ⟨hcur.pieces, rfl, hcur.nodeBase, hjlt, hidx,
              hpassed⟩ ?_
            rw [pieceCount, hcur.pieces, length_append, length_cons]
            omega
        · have := hnth.lt_count
          omega
      · rw [if_neg hno]
        exact ih (Cursor.advance hw hcur.pieces hcur.nodeBase hleft hall) hstart hdoc hrun
          (by omega)

/-- **One call.** It returns the bounds of the line it stands at and moves to the next,
and after the last line it is done. -/
theorem lineIterNext_spec (hw : Wf pt) (h : Stands pt it k) :
    (lineIterNext pt it).1 = lineBounds pt k ∧
      (k < (doc pt).count newline → Stands pt (lineIterNext pt it).2 (k + 1)) ∧
      (k = (doc pt).count newline → (lineIterNext pt it).2.done = true) := by
  have hspec := lineIterLoop_spec hw h.cursor h.lineStart h.docLen h.running (Nat.le_refl _)
  rw [lineIterNext, if_neg (by rw [h.running]; decide)]
  exact ⟨hspec.1.symm, hspec.2⟩

theorem lineIterNext_done (h : it.done = true) : lineIterNext pt it = (none, it) := by
  rw [lineIterNext, if_pos h]

/-! ## Where it starts -/

theorem stands_init (hw : Wf pt) : Stands pt (lineIterInit pt) 0 := by
  refine ⟨rfl, rfl, rfl, ?_⟩
  have hfirst : RbTree.first pt.tree = pt.tree.toList.head? := RbTree.first_eq pt.tree
  cases hps : pt.tree.toList with
  | nil =>
    rw [hps] at hfirst
    refine .atEnd hfirst ?_
    rw [doc, hps]
    rfl
  | cons p ys =>
    rw [hps, head?_cons] at hfirst
    refine .inPiece [] p ys 0 ⟨hps, hfirst, rfl, Nat.zero_le _, ?_, rfl⟩ ?_
    · rw [lineIterInit, hfirst]
      exact hw.indexed.lowerCount p.source p.start
    · rw [pieceCount, hps, length_cons]
      omega

theorem stands_initAt (hw : Wf pt) (hk : k < lineCount pt) : Stands pt (lineIterInitAt pt k) k := by
  rw [lineIterInitAt]
  by_cases h0 : k = 0
  · rw [if_pos h0, h0]
    exact stands_init hw
  · rw [if_neg h0, if_neg (by omega)]
    have hcount := hw.lineCount_eq
    have hnth := hw.newlineOffset_spec (show k - 1 < (doc pt).count newline by omega)
    have hstart : newlineOffset pt (k - 1) + 1 = lineStartOf pt k := by
      rw [lineStartOf, if_neg h0]
    have hbefore := count_take_succ hnth.1
    rw [hnth.2, show k - 1 + 1 = k by omega] at hbefore
    have hf := findPiece_spec hw.summed (newlineOffset pt (k - 1) + 1)
    simp only
    generalize hs : newlineOffset pt (k - 1) + 1 = s at hf hstart hbefore ⊢
    generalize findPiece pt.tree s = res at hf
    cases hf with
    | beyond hb =>
      refine ⟨rfl, hstart, rfl, .atEnd rfl ?_⟩
      rwa [take_of_length_le] at hbefore
      rw [doc, length_bytesOf hw.pieces]
      exact hb
    | inside xs ys hps hoff hlt =>
      rename_i p intra
      refine ⟨rfl, hstart, rfl, ?_⟩
      refine .inPiece xs p ys intra ⟨hps, rfl, ?_, hlt.le, ?_, ?_⟩ ?_
      · show s - intra = byteLen xs
        omega
      · exact hw.indexed.lowerCount p.source (p.start + intra)
      · have hlen := length_bytesOf fun x hx => hw.pieces x (show x ∈ pt.tree.toList by
          rw [hps]
          exact mem_append_left _ hx)
        have hplen : (pieceBytes pt p).length = p.length := (hw.pieces p (by simp [hps])).length
        rw [doc, hps, bytesOf_append, bytesOf_cons, hoff, ← hlen, take_length_add_append,
          count_append, take_append_of_le_length (by omega)] at hbefore
        exact hbefore
      · rw [pieceCount, hps, length_append, length_cons]
        omega

/-! ## All calls -/

theorem lineBounds_beyond (hw : Wf pt) (h : lineCount pt ≤ k) : lineBounds pt k = none :=
  (hw.lineBounds_spec k).1.mpr h

theorem lineIterCalls_done (h : it.done = true) (n : Nat) :
    lineIterCalls pt n it = List.replicate n none := by
  induction n with
  | zero => rfl
  | succ n ih => rw [lineIterCalls, lineIterNext_done h, ih, replicate_succ]

/-- Past the last line. -/
theorem replicate_none (hw : Wf pt) (h : lineCount pt ≤ k) (n : Nat) :
    List.replicate n none = (List.range' k n).map (lineBounds pt) := by
  induction n generalizing k with
  | zero => rfl
  | succ n ih =>
    rw [replicate_succ, range'_succ, map_cons, lineBounds_beyond hw h,
      ih (show lineCount pt ≤ k + 1 by omega)]

theorem lineIterCalls_eq (hw : Wf pt) (h : Stands pt it k) (hk : k < lineCount pt) (n : Nat) :
    lineIterCalls pt n it = (List.range' k n).map (lineBounds pt) := by
  induction n generalizing it k with
  | zero => rfl
  | succ n ih =>
    obtain ⟨hres, hmore, hend⟩ := lineIterNext_spec hw h
    have hcount := hw.lineCount_eq
    rw [lineIterCalls, range'_succ, map_cons, hres]
    congr 1
    by_cases hlast : k < (doc pt).count newline
    · exact ih (hmore hlast) (by omega)
    · rw [lineIterCalls_done (hend (by omega)), replicate_none (k := k + 1) hw (by omega)]

/-- **Line iteration agrees with line queries.** In every state that a run reaches, the
calls from line `k` on return the bounds of line `k`, the next and so on, and return
false from where there are no more lines. -/
theorem line_iter_agrees {heap : Heap} {view : List UInt8} {pt₀ : PieceTree}
    (hopen : openView heap view = some pt₀) (ops : List Op) (k n : Nat) :
    lineIterCalls (run pt₀ ops) n (lineIterInitAt (run pt₀ ops) k) =
        (List.range' k n).map (lineBounds (run pt₀ ops)) ∧
      ∀ j, lineBounds (run pt₀ ops) j = none ↔ lineCount (run pt₀ ops) ≤ j := by
  have hsound : Sound (run pt₀ ops) := by
    have hs := ((openView_spec heap view).2 pt₀ hopen).1
    have := @RunInvariant.run _ runInvariant_sound (Traced.start pt₀) hs ops
    rwa [run_pt] at this
  have hw := hsound.wf
  refine ⟨?_, fun j => (hw.lineBounds_spec j).1⟩
  generalize run pt₀ ops = pt at hw
  by_cases hk : k < lineCount pt
  · exact lineIterCalls_eq hw (stands_initAt hw hk) hk n
  · have hdone : (lineIterInitAt pt k).done = true := by
      have h0 : k ≠ 0 := by
        have := hw.lineCount_eq
        omega
      rw [lineIterInitAt, if_neg h0, if_pos (by omega)]
    rw [lineIterCalls_done hdone, replicate_none (k := k) hw (by omega)]

/-- The document `a`, `CR LF`, `b`, with `x` put between CR and LF. -/
theorem line_iter_agrees_three : ∃ pt₀, openView generous [97, 13, 10, 98] = some pt₀ ∧
    lineIterCalls (run pt₀ [.insert 2 [120]]) 3 (lineIterInitAt (run pt₀ [.insert 2 [120]]) 1) =
        (List.range' 1 3).map (lineBounds (run pt₀ [.insert 2 [120]])) ∧
      ∀ j, lineBounds (run pt₀ [.insert 2 [120]]) j = none ↔
        lineCount (run pt₀ [.insert 2 [120]]) ≤ j := by
  obtain ⟨pt₀, hopen, -, -⟩ := exists_openView [97, 13, 10, 98]
  exact ⟨pt₀, hopen, line_iter_agrees hopen [.insert 2 [120]] 1 3⟩

end PieceTree

end AxlSdk
