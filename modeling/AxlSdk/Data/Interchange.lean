import AxlSdk.Data.Find
import AxlSdk.Data.TextBuffer
import AxlSdk.Data.PieceTree.Refinement

/-!
# Gap buffer and piece tree side by side

The two text stores offer the same queries. Steps over code points and the
search are written over the bytes of a store, once here for both; the other
queries are each store's own.

- `Interchangeable tb pt`: the queries of the two stores agree. The end of a
  line is the exception: the piece tree also excludes the CR of a CRLF pair.
- `queries_agree`: the same edits, with the same results, keep two stores of
  the same bytes interchangeable.
-/

namespace AxlSdk

open PieceTree (Rc newline carriageReturn doc)

/-! ## Code points -/

namespace CodePoint

/-- `is_cont_byte`, `tb_is_cont`; `none` is -1. -/
def isContByte : Option UInt8 → Bool
  | none => false
  | some b => b &&& 0xC0 = 0x80

/-- The loop downward over continuation bytes. -/
def backLoop (byteAt : Nat → Option UInt8) : Nat → Nat
  | 0 => 0
  | o + 1 => if isContByte (byteAt (o + 1)) then backLoop byteAt o else o + 1

/-- The loop upward over continuation bytes, `n` places from the end. -/
def forwardLoop (byteAt : Nat → Option UInt8) : Nat → Nat → Nat
  | 0, o => o
  | n + 1, o => if isContByte (byteAt o) then forwardLoop byteAt n (o + 1) else o

/-- `cp_align` over a store of `L` bytes. -/
def cpAlign (L : Nat) (byteAt : Nat → Option UInt8) (offset : Nat) : Nat :=
  if offset ≥ L then L else backLoop byteAt offset

/-- `cp_next` over a store of `L` bytes. -/
def cpNext (L : Nat) (byteAt : Nat → Option UInt8) (offset : Nat) : Nat :=
  if offset ≥ L then L
  else
    let o := cpAlign L byteAt offset + 1
    forwardLoop byteAt (L - o) o

/-- `cp_prev` over a store of `L` bytes. -/
def cpPrev (L : Nat) (byteAt : Nat → Option UInt8) (offset : Nat) : Nat :=
  let offset := if offset > L then L else offset
  if offset = 0 then 0 else backLoop byteAt (offset - 1)

end CodePoint

namespace TextBuffer

/-- `axl_text_buffer_cp_align`. -/
def cpAlign (tb : TextBuffer) : Nat → Nat := CodePoint.cpAlign (length tb) (byteAt tb)

/-- `axl_text_buffer_cp_next`. -/
def cpNext (tb : TextBuffer) : Nat → Nat := CodePoint.cpNext (length tb) (byteAt tb)

/-- `axl_text_buffer_cp_prev`. -/
def cpPrev (tb : TextBuffer) : Nat → Nat := CodePoint.cpPrev (length tb) (byteAt tb)

/-- `tb_reader_peek`: a range on one side of the gap is one block. -/
def readerPeek (tb : TextBuffer) (offset len : Nat) : Option (List UInt8) :=
  if offset + len ≤ tb.gapStart then some (tb.buf.drop offset)
  else if offset ≥ tb.gapStart then some (tb.buf.drop (offset + gapSize tb))
  else none

/-- The reader that `axl_text_buffer_find` builds. -/
def reader (tb : TextBuffer) : Find.ByteReader :=
  ⟨length tb, fun offset len => get tb offset len len, some (readerPeek tb)⟩

/-- `axl_text_buffer_find`. -/
def find (tb : TextBuffer) (needle : List UInt8) (start : Nat) (flags : UInt32) :
    Option Find.Match :=
  Find.findInSource (reader tb) needle start flags

theorem Wf.reads {tb : TextBuffer} (h : Wf tb) : Find.Reads (reader tb) (text tb) := by
  have ha := h.answers
  obtain ⟨P, G, S, hl, -⟩ := h
  refine ⟨ha.length, fun o n => ?_, ?_⟩
  · show get tb o n n = _
    rw [ha.get, Nat.min_self, List.take_eq_take_iff, List.length_drop]
    omega
  · rintro peek ⟨⟩ o n buf hle hpeek j hj
    rw [hl.text] at hle ⊢
    rw [readerPeek, hl.start] at hpeek
    simp only [Find.byteOf, List.getD_eq_getElem?_getD]
    split at hpeek
    · rename_i hbefore
      cases hpeek
      rw [List.getElem?_drop, hl.buf, List.append_assoc, List.getElem?_append_left (by omega),
        List.getElem?_append_left (by omega)]
    · split at hpeek
      · rename_i hafter
        cases hpeek
        have hpos : o + gapSize tb + j = (P ++ G).length + (o + j - P.length) := by
          rw [hl.gapSize, List.length_append]
          omega
        rw [List.getElem?_drop, hl.buf, hpos, List.getElem?_append_right (by omega),
          Nat.add_sub_cancel_left, List.getElem?_append_right (by omega)]
      · cases hpeek

end TextBuffer

namespace PieceTree

/-- `axl_piece_tree_cp_align`. -/
def cpAlign (pt : PieceTree) : Nat → Nat := CodePoint.cpAlign (length pt) (byteAt pt)

/-- `axl_piece_tree_cp_next`. -/
def cpNext (pt : PieceTree) : Nat → Nat := CodePoint.cpNext (length pt) (byteAt pt)

/-- `axl_piece_tree_cp_prev`. -/
def cpPrev (pt : PieceTree) : Nat → Nat := CodePoint.cpPrev (length pt) (byteAt pt)

/-- The reader that `axl_piece_tree_find` builds; the document is not in one block. -/
def reader (pt : PieceTree) : Find.ByteReader :=
  ⟨length pt, fun offset len => get pt offset len len, none⟩

/-- `axl_piece_tree_find`. -/
def find (pt : PieceTree) (needle : List UInt8) (start : Nat) (flags : UInt32) :
    Option Find.Match :=
  Find.findInSource (reader pt) needle start flags

theorem Wf.reads {pt : PieceTree} (h : Wf pt) : Find.Reads (reader pt) (doc pt) := by
  refine ⟨h.length_eq, fun o n => ?_, ?_⟩
  · show get pt o n n = _
    rw [h.get_eq, Nat.min_self, List.take_eq_take_iff, List.length_drop]
    omega
  · rintro peek ⟨⟩

theorem Wf.byteAt_eq {pt : PieceTree} (h : Wf pt) (o : Nat) : byteAt pt o = (doc pt)[o]? := by
  rw [byteAt, h.get_eq]
  rcases Nat.lt_or_ge o (doc pt).length with hlt | hge
  · have hone : min (min 1 1) ((doc pt).length - o) = 1 := by omega
    rw [hone, List.drop_eq_getElem_cons hlt, List.take_succ_cons, List.take_zero,
      List.getElem?_eq_getElem hlt]
  · rw [List.drop_of_length_le hge, List.take_nil, List.getElem?_eq_none hge]

end PieceTree

/-! ## Lines -/

namespace Interchange

open TextBuffer (TextBuffer)
open PieceTree (PieceTree)

/-- An offset is the `k`-th newline of at most one `k`. -/
theorem IsNthNewline.unique {D : List UInt8} {k p q : Nat} (h : PieceTree.IsNthNewline D k p)
    (h' : PieceTree.IsNthNewline D k q) : p = q := by
  -- a newline between the two would be counted
  have hlt : ∀ {a b : Nat}, PieceTree.IsNthNewline D k a → PieceTree.IsNthNewline D k b →
      ¬ a < b := by
    intro a b ha hb hab
    obtain ⟨hget, hcount⟩ := ha
    obtain ⟨-, hcount'⟩ := hb
    have ha : a < D.length := by
      by_contra hge
      rw [List.getElem?_eq_none (by omega)] at hget
      cases hget
    have hsplit : D.take b = D.take a ++ (D.drop a).take (b - a) := by
      rw [← List.take_add, Nat.add_sub_cancel' (Nat.le_of_lt hab)]
    obtain ⟨n, hn⟩ : ∃ n, b - a = n + 1 := ⟨b - a - 1, by omega⟩
    rw [List.getElem?_eq_getElem ha, Option.some.injEq] at hget
    rw [hsplit, List.count_append, hcount, hn, List.drop_eq_getElem_cons ha, List.take_succ_cons,
      hget, List.count_cons_self] at hcount'
    omega
  rcases Nat.lt_trichotomy p q with hpq | rfl | hqp
  · exact absurd hpq (hlt h h')
  · rfl
  · exact absurd hqp (hlt h' h)

theorem IsLine.unique {D : List UInt8} {k s e s' e' : Nat} (h : TextBuffer.IsLine D k s e)
    (h' : TextBuffer.IsLine D k s' e') (hk : k ≤ D.count newline) : s = s' ∧ e = e' := by
  constructor
  · rcases Nat.eq_zero_or_pos k with h0 | hpos
    · rw [h.first h0, h'.first h0]
    · obtain ⟨p, rfl, hp⟩ := h.start hpos
      obtain ⟨q, rfl, hq⟩ := h'.start hpos
      rw [IsNthNewline.unique hp hq]
  · rcases Nat.lt_or_eq_of_le hk with hlt | heq
    · exact IsNthNewline.unique (h.stop hlt) (h'.stop hlt)
    · rw [h.last heq, h'.last heq]

/-- The piece tree finds the same line, and then excludes a CR at its end. -/
theorem lineBounds_pieceTree {pt : PieceTree} (h : PieceTree.Wf pt) {k : Nat}
    (hk : k ≤ (doc pt).count newline) :
    ∃ s e, TextBuffer.IsLine (doc pt) k s e ∧
      PieceTree.lineBounds pt k
        = some (s, if e > s ∧ (doc pt)[e - 1]? = some carriageReturn then e - 1 else e) := by
  rw [PieceTree.lineBounds, h.nlSum_eq, if_neg (by omega), h.length_eq]
  simp only [h.byteAt_eq]
  refine ⟨_, _, ⟨fun h0 => if_pos h0, fun hpos => ?_, fun hlt => ?_, fun hlast => ?_⟩, rfl⟩
  · rw [if_neg (by omega)]
    exact ⟨_, rfl, h.newlineOffset_spec (by omega)⟩
  · rw [if_pos hlt]
    exact h.newlineOffset_spec hlt
  · rw [if_neg (by omega)]

/-! ## Runs -/

/-- An edit of both stores; `g` is what the allocator gives the gap buffer. -/
inductive Edit where
  | insert (g : TextBuffer.Grant) (offset : Nat) (data : List UInt8)
  | delete (offset len : Nat)

/-- The edit of the gap buffer. -/
def editBuffer (tb : TextBuffer) : Edit → Rc × TextBuffer
  | .insert g offset data => TextBuffer.insert tb g offset (some data)
  | .delete offset len => TextBuffer.delete tb offset len

/-- The edit of the piece tree. -/
def editTree (pt : PieceTree) : Edit → Rc × PieceTree
  | .insert _ offset data => PieceTree.insert pt offset data
  | .delete offset len => PieceTree.delete pt offset len

/-- The gap buffer after a run. -/
def runBuffer (tb : TextBuffer) (edits : List Edit) : TextBuffer :=
  edits.foldl (fun tb e => (editBuffer tb e).2) tb

/-- The piece tree after a run. -/
def runTree (pt : PieceTree) (edits : List Edit) : PieceTree :=
  edits.foldl (fun pt e => (editTree pt e).2) pt

/-- Every edit has the same result in both stores. Without a failed allocation
all of them succeed. -/
def SameResults (tb : TextBuffer) (pt : PieceTree) : List Edit → Prop
  | [] => True
  | e :: es => (editBuffer tb e).1 = (editTree pt e).1 ∧
    SameResults (editBuffer tb e).2 (editTree pt e).2 es

/-- The queries of the two stores agree. A line that ends in CR is reported by
the gap buffer with the CR; of a CRLF pair the piece tree excludes both bytes. -/
structure Interchangeable (tb : TextBuffer) (pt : PieceTree) : Prop where
  length : TextBuffer.length tb = PieceTree.length pt
  get : ∀ o len cap, TextBuffer.get tb o len cap = PieceTree.get pt o len cap
  lineCount : TextBuffer.lineCount tb = PieceTree.lineCount pt
  lineOfOffset : ∀ o, TextBuffer.lineOfOffset tb o = PieceTree.lineOfOffset pt o
  lineStart : ∀ k, (TextBuffer.lineBounds tb k).map Prod.fst
    = (PieceTree.lineBounds pt k).map Prod.fst
  lineEnd : ∀ k s e, TextBuffer.lineBounds tb k = some (s, e) →
    ¬ (s < e ∧ TextBuffer.byteAt tb (e - 1) = some carriageReturn) →
    PieceTree.lineBounds pt k = some (s, e)
  crlf : ∀ k s e, TextBuffer.lineBounds tb k = some (s, e) → k + 1 < TextBuffer.lineCount tb →
    s < e → TextBuffer.byteAt tb (e - 1) = some carriageReturn →
    PieceTree.lineBounds pt k = some (s, e - 1)
  cpAlign : ∀ o, TextBuffer.cpAlign tb o = PieceTree.cpAlign pt o
  cpNext : ∀ o, TextBuffer.cpNext tb o = PieceTree.cpNext pt o
  cpPrev : ∀ o, TextBuffer.cpPrev tb o = PieceTree.cpPrev pt o
  find : ∀ needle start flags,
    TextBuffer.find tb needle start flags = PieceTree.find pt needle start flags

/-- Stores of the same bytes answer alike. -/
theorem interchangeable {tb : TextBuffer} {pt : PieceTree} (hb : TextBuffer.Wf tb)
    (ht : PieceTree.Wf pt) (hD : TextBuffer.text tb = doc pt) : Interchangeable tb pt := by
  have ha := hb.answers
  rw [hD] at ha
  have hlen : TextBuffer.length tb = PieceTree.length pt := ha.length.trans ht.length_eq.symm
  have hbyte : TextBuffer.byteAt tb = PieceTree.byteAt pt := by
    funext o
    rw [ha.byteAt, ht.byteAt_eq]
  -- the gap buffer's line is the one the piece tree starts from
  have hline : ∀ k s e, TextBuffer.lineBounds tb k = some (s, e) → PieceTree.lineBounds pt k
      = some (s, if e > s ∧ (doc pt)[e - 1]? = some carriageReturn then e - 1 else e) := by
    intro k s e hse
    have hk : k ≤ (doc pt).count newline := by
      by_contra hgt
      rw [(ha.noLine k).mpr (by omega)] at hse
      cases hse
    obtain ⟨s', e', hl, hres⟩ := lineBounds_pieceTree ht hk
    obtain ⟨rfl, rfl⟩ := IsLine.unique (ha.line k s e hse) hl hk
    exact hres
  refine ⟨hlen, fun o len cap => (ha.get o len cap).trans (ht.get_eq o len cap).symm,
    ha.lineCount.trans ht.lineCount_eq.symm,
    fun o => (ha.lineOfOffset o).trans (ht.lineOfOffset_eq o).symm, fun k => ?_,
    fun k s e hse hcr => ?_, fun k s e hse _ hlt hcr => ?_, fun o => ?_, fun o => ?_, fun o => ?_,
    fun needle start flags => ?_⟩
  · cases hse : TextBuffer.lineBounds tb k with
    | none =>
      have hgt := (ha.noLine k).mp hse
      have hnone := (ht.lineBounds_spec k).1.mpr (by rw [ht.lineCount_eq]; omega)
      rw [hnone]
    | some b => rw [hline k b.1 b.2 hse, Option.map_some, Option.map_some]
  · rw [ha.byteAt] at hcr
    rw [hline k s e hse, if_neg hcr]
  · rw [ha.byteAt] at hcr
    rw [hline k s e hse, if_pos ⟨hlt, hcr⟩]
  · rw [TextBuffer.cpAlign, PieceTree.cpAlign, hlen, hbyte]
  · rw [TextBuffer.cpNext, PieceTree.cpNext, hlen, hbyte]
  · rw [TextBuffer.cpPrev, PieceTree.cpPrev, hlen, hbyte]
  · exact Find.findInSource_eq (hD ▸ hb.reads) ht.reads needle start flags

/-- What both stores do to their bytes. -/
theorem edit_both {tb : TextBuffer} {pt : PieceTree} (hb : TextBuffer.Wf tb)
    (ht : PieceTree.Sound pt) (hD : TextBuffer.text tb = doc pt) {e : Edit}
    (hres : (editBuffer tb e).1 = (editTree pt e).1) :
    TextBuffer.Wf (editBuffer tb e).2 ∧ PieceTree.Sound (editTree pt e).2 ∧
      TextBuffer.text (editBuffer tb e).2 = doc (editTree pt e).2 := by
  -- the same new text on success, the old one on failure
  have hboth : ∀ {D' : List UInt8} {r : Rc × TextBuffer} {r' : Rc × PieceTree}, r.1 = r'.1 →
      TextBuffer.Edits tb D' r → PieceTree.Edited pt D' r' →
      TextBuffer.Wf r.2 ∧ PieceTree.Sound r'.2 ∧ TextBuffer.text r.2 = doc r'.2 := by
    intro D' r r' hrc hedit hedited
    obtain ⟨hs, herr, hok, -⟩ := ht.edited hedited
    refine ⟨hedit.wf, hs, ?_⟩
    cases hr : r.1 with
    | ok => rw [hedit.ok hr, hok (hrc ▸ hr)]
    | err => rw [hedit.err hr, herr (hrc ▸ hr), hD]
  cases e with
  | insert g offset data =>
    refine hboth hres ?_ (PieceTree.insert_edited ht.wf offset data)
    have := TextBuffer.insert_edits hb g offset (some data)
    rwa [hD, EditHistory.splice_min] at this
  | delete offset len =>
    refine hboth hres ?_ (PieceTree.delete_edited ht.wf offset len)
    have := TextBuffer.delete_edits hb offset len
    rw [hD] at this
    have hcut : (doc pt).take offset ++ (doc pt).drop (min (offset + len) (doc pt).length)
        = EditHistory.cut (doc pt) offset len := by
      rw [EditHistory.cut]
      rcases Nat.le_total (offset + len) (doc pt).length with h | h
      · rw [Nat.min_eq_left h]
      · rw [Nat.min_eq_right h, List.drop_of_length_le h, List.drop_length]
    rwa [hcut] at this

theorem run_both {tb : TextBuffer} {pt : PieceTree} (hb : TextBuffer.Wf tb)
    (ht : PieceTree.Sound pt) (hD : TextBuffer.text tb = doc pt) {edits : List Edit}
    (hres : SameResults tb pt edits) :
    TextBuffer.Wf (runBuffer tb edits) ∧ PieceTree.Sound (runTree pt edits) ∧
      TextBuffer.text (runBuffer tb edits) = doc (runTree pt edits) := by
  induction edits generalizing tb pt with
  | nil => exact ⟨hb, ht, hD⟩
  | cons e es ih =>
    obtain ⟨hrc, hres⟩ := hres
    obtain ⟨hb', ht', hD'⟩ := edit_both hb ht hD hrc
    exact ih hb' ht' hD' hres

/-- A gap buffer in any reachable state and a piece tree opened on the same
bytes are interchangeable after every run of insertions and deletions that
succeed or fail in both alike. -/
theorem queries_agree {h : PieceTree.Heap} {view : List UInt8} {pt : PieceTree}
    (hopen : PieceTree.openView h view = some pt) {cap : Nat} {junk : Nat → UInt8}
    {before : List TextBuffer.Op}
    (htext : TextBuffer.text (TextBuffer.run (TextBuffer.new cap junk) before) = view)
    {edits : List Edit}
    (hres : SameResults (TextBuffer.run (TextBuffer.new cap junk) before) pt edits) :
    Interchangeable (runBuffer (TextBuffer.run (TextBuffer.new cap junk) before) edits)
      (runTree pt edits) := by
  obtain ⟨hs, hdoc, -⟩ := (PieceTree.openView_spec h view).2 pt hopen
  have hb := (TextBuffer.wf_new cap junk).run before
  obtain ⟨hb', ht', hD'⟩ := run_both hb hs (htext.trans hdoc.symm) hres
  exact interchangeable hb' ht'.wf hD'

/-- Every allocation of a call succeeds. -/
def granted : TextBuffer.Grant := ⟨some fun _ => 0, some fun _ => 0⟩

/-- `a` in both stores, then `bc` behind it and the `a` deleted. -/
theorem queries_agree_bc :
    ∃ pt, PieceTree.openView PieceTree.generous [97] = some pt ∧
      Interchangeable
        (runBuffer (TextBuffer.run (TextBuffer.new 16 fun _ => 0) [.setBytes granted (some [97])])
          [.insert granted 1 [98, 99], .delete 0 1])
        (runTree pt [.insert granted 1 [98, 99], .delete 0 1]) := by
  have hopen : PieceTree.openView PieceTree.generous [97] = some _ := rfl
  exact ⟨_, hopen, queries_agree hopen (by decide) ⟨rfl, rfl, trivial⟩⟩

theorem grow_sixteen : TextBuffer.grow 16 1 = some 16 := by
  rw [TextBuffer.grow]
  rfl

/-- The line `a` with a CRLF behind it ends after the CR in the gap buffer and
before it in the piece tree. -/
theorem crlf_line_ends_differ :
    ∃ pt, PieceTree.openView PieceTree.generous [97, 13, 10] = some pt ∧
      TextBuffer.text (TextBuffer.run (TextBuffer.new 16 fun _ => 0)
        [.setBytes granted (some [97, 13, 10])]) = [97, 13, 10] ∧
      TextBuffer.lineBounds (TextBuffer.run (TextBuffer.new 16 fun _ => 0)
        [.setBytes granted (some [97, 13, 10])]) 0 = some (0, 2) ∧
      PieceTree.lineBounds pt 0 = some (0, 1) := by
  have hrun : TextBuffer.run (TextBuffer.new 16 fun _ => 0) [.setBytes granted (some [97, 13, 10])]
      = ⟨97 :: 13 :: 10 :: List.replicate 13 0, 16, 3, 16, 2 :: List.replicate 15 0, 1, 16⟩ := by
    simp only [TextBuffer.run, TextBuffer.exec, TextBuffer.setBytes, TextBuffer.ensureNlCap,
      List.foldl_cons, List.foldl_nil]
    rw [show TextBuffer.countNl [97, 13, 10] = 1 from rfl]
    simp only [TextBuffer.new]
    simp [grow_sixteen, granted]
    decide
  rw [hrun]
  exact ⟨_, rfl, by decide, by decide, by decide⟩

end Interchange

end AxlSdk
