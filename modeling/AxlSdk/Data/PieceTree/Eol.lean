import AxlSdk.Data.PieceTree.Refinement
import AxlSdk.Lib.LineEnds

/-!
# Line endings at saving (`emit_eol`, `stream_document`, `axl_piece_tree_detect_eol`)

The document is read piece by piece, 4096 bytes at a time, and what is written for a
chunk is collected in a buffer. A `\r` at the end of a chunk is carried over. The
`n`-th call of `axl_write` takes its whole buffer or fails; `pt->eol_translate` and
`pt->eol_mode` are arguments here.

- `streamDocument_spec`: what is written is the document, normalized if it is to be,
  whatever its pieces are; no buffer is longer than it may be.
- `detectEol_eq`: the detection tells the styles of the terminators of the document.
- `save_normalizes`: in every state that a run reaches, and what a saved document
  gives when it is saved again or asked for its style.
-/

namespace AxlSdk

namespace PieceTree

open AugTree AugTree.Tree LineEnds List

/-! ## Saving -/

/-- `AxlEol`. -/
inductive Eol where
  | lf
  | crlf
  | cr
  | mixed
  deriving DecidableEq, Repr

/-- `emit_eol`. -/
def emitEol (eol : Eol) : List UInt8 :=
  if eol = .crlf then [carriageReturn, newline]
  else [if eol = .cr then carriageReturn else newline]

/-- The state of `stream_document`, with the buffers given to `axl_write`. -/
structure Streamed where
  pendingCr : Bool
  written : List (List UInt8)
  ok : Bool

/-- `axl_write`. -/
def Streamed.write (st : Streamed) (accept : Nat → Bool) (buf : List UInt8) : Streamed :=
  { st with written := st.written ++ [buf], ok := accept st.written.length }

/-- One byte of a chunk: what is in `ob`, and `pending_cr`. -/
def translateStep (eol : Eol) (s : List UInt8 × Bool) (c : UInt8) : List UInt8 × Bool :=
  let ob := if s.2 then s.1 ++ emitEol eol else s.1
  if s.2 ∧ c = newline then (ob, false)
  else if c = carriageReturn then (ob, true)
  else if c = newline then (ob ++ emitEol eol, false)
  else (ob ++ [c], false)

/-- `sizeof(in)` -/
def chunkSize : Nat := 4096

/-- One chunk. -/
def streamChunk (xlate : Bool) (eol : Eol) (accept : Nat → Bool) (st : Streamed)
    (inp : List UInt8) : Streamed :=
  if xlate then
    let r := inp.foldl (translateStep eol) ([], st.pendingCr)
    let st := { st with pendingCr := r.2 }
    if r.1.length > 0 then st.write accept r.1 else st
  else st.write accept inp

/-- The loop over a piece. -/
def streamPiece (pt : PieceTree) (xlate : Bool) (eol : Eol) (accept : Nat → Bool) (p : Piece) :
    Nat → Nat → Streamed → Streamed
  | 0, _, st => st
  | fuel + 1, pos, st =>
    if pos < p.length then
      let take := min (p.length - pos) chunkSize
      let inp := readSrc pt p.source (p.start + pos) take
      if inp.length ≠ take then { st with ok := false }
      else
        let st := streamChunk xlate eol accept st inp
        if st.ok then streamPiece pt xlate eol accept p fuel (pos + take) st else st
    else st

/-- The loop over the tree. -/
def streamPieces (pt : PieceTree) (xlate : Bool) (eol : Eol) (accept : Nat → Bool) :
    Nat → Option Piece → Streamed → Streamed
  | 0, _, st => st
  | _ + 1, none, st => st
  | fuel + 1, some p, st =>
    if st.ok then
      streamPieces pt xlate eol accept fuel (nextPiece pt.tree p.addr)
        (streamPiece pt xlate eol accept p p.length 0 st)
    else st

/-- `stream_document`. -/
def streamDocument (pt : PieceTree) (xlate : Bool) (eol : Eol) (accept : Nat → Bool) : Streamed :=
  let st := streamPieces pt xlate eol accept (pieceCount pt.tree) (RbTree.first pt.tree)
    ⟨false, [], true⟩
  if st.ok ∧ xlate ∧ st.pendingCr then st.write accept (emitEol eol) else st

/-! ## Detection -/

/-- The flags of `axl_piece_tree_detect_eol`. -/
structure Seen where
  haveLf : Bool
  haveCrlf : Bool
  haveCr : Bool
  pendingCr : Bool

/-- One byte. -/
def detectStep (s : Seen) (c : UInt8) : Seen :=
  if s.pendingCr ∧ c = newline then { s with pendingCr := false, haveCrlf := true }
  else
    let s := if s.pendingCr then { s with pendingCr := false, haveCr := true } else s
    if c = carriageReturn then { s with pendingCr := true }
    else if c = newline then { s with haveLf := true }
    else s

/-- The loop over the chunks. -/
def detectLoop (pt : PieceTree) : Nat → Nat → Seen → Seen
  | 0, _, s => s
  | fuel + 1, off, s =>
    if off < length pt then
      let buf := get pt off (min (length pt - off) chunkSize) chunkSize
      if buf.length = 0 then s else detectLoop pt fuel (off + buf.length) (buf.foldl detectStep s)
    else s

/-- A `\r` at the end of the document. -/
def Seen.finish (s : Seen) : Seen :=
  if s.pendingCr then { s with haveCr := true, pendingCr := false } else s

/-- The style that the flags tell. -/
def Seen.style (s : Seen) : Eol :=
  let styles := s.haveLf.toNat + s.haveCrlf.toNat + s.haveCr.toNat
  if styles = 0 then .lf
  else if styles > 1 then .mixed
  else if s.haveCrlf then .crlf
  else if s.haveCr then .cr else .lf

/-- `axl_piece_tree_detect_eol`. -/
def detectEol (pt : PieceTree) : Eol :=
  (detectLoop pt (length pt) 0 ⟨false, false, false, false⟩).finish.style

/-! ## What is written -/

/-- The code of a style. -/
def eolOf : Style → Eol
  | .lf => .lf
  | .crlf => .crlf
  | .cr => .cr

variable {pt : PieceTree} {s : Style} {xlate : Bool} {accept : Nat → Bool} {st : Streamed}
  {D : List UInt8}

theorem emitEol_eolOf (s : Style) : emitEol (eolOf s) = s.bytes := by cases s <;> rfl

theorem translateStep_eq (s : Style) (ob : List UInt8) (held : Bool) (c : UInt8) :
    translateStep (eolOf s) (ob, held) c = (ob ++ (feedStep s held c).1, (feedStep s held c).2) := by
  rw [translateStep, feedStep, emitEol_eolOf]
  have hob : (if held then ob ++ s.bytes else ob) = ob ++ if held then s.bytes else [] := by
    cases held <;> simp
  simp only [hob]
  split
  · rfl
  · split
    · rfl
    · split <;> rw [append_assoc]

/-- The buffer of a chunk. -/
theorem foldl_translateStep (s : Style) (inp ob : List UInt8) (held : Bool) :
    inp.foldl (translateStep (eolOf s)) (ob, held) =
      (ob ++ (feed s held inp).1, (feed s held inp).2) := by
  induction inp generalizing ob held with
  | nil => simp [feed]
  | cons c inp ih =>
    rw [foldl_cons, translateStep_eq, ih, feed, append_assoc]

/-- What the bytes `D` give, before the end of the document. -/
def output (xlate : Bool) (s : Style) (D : List UInt8) : List UInt8 × Bool :=
  if xlate then feed s false D else (D, false)

theorem output_append (D E : List UInt8) :
    output xlate s (D ++ E) =
      if xlate then ((output xlate s D).1 ++ (feed s (output xlate s D).2 E).1,
        (feed s (output xlate s D).2 E).2)
      else (D ++ E, false) := by
  cases xlate
  · rfl
  · simp only [output, if_true]
    exact feed_append s false D E

/-- The bytes `D` are done. -/
structure After (xlate : Bool) (s : Style) (accept : Nat → Bool) (D : List UInt8) (st : Streamed) :
    Prop where
  out : st.ok = true → (st.written.flatten, st.pendingCr) = output xlate s D
  bound : ∀ buf ∈ st.written, buf.length ≤ 2 * chunkSize + 2
  granted : (∀ n, accept n = true) → st.ok = true

theorem After.write {buf : List UInt8} {held : Bool} {E : List UInt8} (h : After xlate s accept D st)
    (hok : st.ok = true) (hbuf : buf.length ≤ 2 * chunkSize + 2)
    (hout : output xlate s (D ++ E) = ((output xlate s D).1 ++ buf, held)) :
    After xlate s accept (D ++ E) ({ st with pendingCr := held }.write accept buf) := by
  refine ⟨fun _ => ?_, fun b hb => ?_, fun hall => hall _⟩
  · have hD := h.out hok
    rw [hout, ← hD, Streamed.write, flatten_append, flatten_singleton]
  · rcases mem_append.mp hb with hb | hb
    · exact h.bound b hb
    · rw [mem_singleton.mp hb]
      exact hbuf

/-- One chunk. -/
theorem After.chunk {inp : List UInt8} (h : After xlate s accept D st) (hok : st.ok = true)
    (hinp : inp.length ≤ chunkSize) :
    After xlate s accept (D ++ inp) (streamChunk xlate (eolOf s) accept st inp) := by
  have hD := h.out hok
  have hheld : st.pendingCr = (output xlate s D).2 := congrArg Prod.snd hD
  have happ : output xlate s (D ++ inp) = _ := output_append D inp
  rw [streamChunk]
  cases xlate with
  | false =>
    have hfalse : st.pendingCr = false := hheld
    have hpending : st = { st with pendingCr := false } := by rw [← hfalse]
    rw [if_neg (by decide), hpending]
    exact h.write hok (by omega) happ
  | true =>
    rw [if_pos rfl, ← hheld] at happ
    rw [if_pos rfl, foldl_translateStep, nil_append]
    dsimp only
    have hlen := feed_length s st.pendingCr inp
    have hbool : st.pendingCr.toNat ≤ 1 := Bool.toNat_le _
    split
    · exact h.write hok (by omega) happ
    · rename_i hempty
      have hnil : (feed s st.pendingCr inp).1 = [] := length_eq_zero_iff.mp (by omega)
      rw [hnil, append_nil] at happ
      refine ⟨fun _ => ?_, h.bound, h.granted⟩
      rw [happ, ← congrArg Prod.fst hD]

/-- A piece. -/
theorem After.piece (hw : Wf pt) {p : Piece} (hp : p ∈ pt.tree.toList) {fuel pos : Nat}
    (hpos : pos ≤ p.length) (hfuel : p.length - pos ≤ fuel) (hok : st.ok = true)
    (h : After xlate s accept (D ++ (pieceBytes pt p).take pos) st) :
    After xlate s accept (D ++ pieceBytes pt p)
      (streamPiece pt xlate (eolOf s) accept p fuel pos st) := by
  have hpiece := hw.pieces p hp
  have hdone : p.length ≤ pos → (pieceBytes pt p).take pos = pieceBytes pt p := fun hle =>
    take_of_length_le (by rw [hpiece.length]; exact hle)
  induction fuel generalizing pos st with
  | zero =>
    rw [hdone (by omega)] at h
    exact h
  | succ fuel ih =>
    rw [streamPiece]
    split
    · rename_i hlt
      dsimp only
      generalize htake : min (p.length - pos) chunkSize = take
      have hread : readSrc pt p.source (p.start + pos) take =
          ((pieceBytes pt p).drop pos).take take := by
        rw [pieceBytes, readSrc, readSrc, drop_take, drop_drop, take_take,
          Nat.min_eq_left (by omega)]
      have hlen : (readSrc pt p.source (p.start + pos) take).length = take := by
        rw [hread, length_take, length_drop, hpiece.length]
        omega
      rw [if_neg (by rw [hlen]; exact fun hne => hne rfl)]
      have hchunk := h.chunk hok (show (readSrc pt p.source (p.start + pos) take).length ≤ chunkSize by
        omega)
      rw [hread, append_assoc, ← take_add] at hchunk
      rw [hread]
      split
      · rename_i hok'
        have hsize : 0 < chunkSize := by decide
        exact ih (by omega) (by omega) hok' hchunk (by
          intro hle
          exact take_of_length_le (by rw [hpiece.length]; exact hle))
      · rename_i hbad
        exact ⟨fun hok' => absurd hok' hbad, hchunk.bound, hchunk.granted⟩
    · rw [hdone (by omega)] at h
      exact h

/-- All pieces. -/
theorem After.pieces (hw : Wf pt) {xs ys : List Piece} (hps : pt.tree.toList = xs ++ ys) {fuel : Nat}
    (hfuel : ys.length ≤ fuel) (h : After xlate s accept (bytesOf pt xs) st) :
    After xlate s accept (doc pt) (streamPieces pt xlate (eolOf s) accept fuel ys.head? st) := by
  induction fuel generalizing xs ys st with
  | zero =>
    have hnil : ys = [] := length_eq_zero_iff.mp (by omega)
    rw [hnil, append_nil] at hps
    rw [doc, hps]
    exact h
  | succ fuel ih =>
    cases ys with
    | nil =>
      rw [append_nil] at hps
      rw [doc, hps]
      exact h
    | cons p ys =>
      rw [head?_cons, streamPieces]
      split
      · rename_i hok
        rw [nextPiece_spec hps hw.distinct]
        have hp : p ∈ pt.tree.toList := by simp [hps]
        have hpiece := After.piece hw hp (Nat.zero_le _) (Nat.sub_le p.length 0) hok
          (by rwa [take_zero, append_nil])
        have hps' : pt.tree.toList = (xs ++ [p]) ++ ys := by simp [hps]
        refine ih hps' (by simpa using hfuel) ?_
        rwa [bytesOf_append, bytesOf_cons, bytesOf_nil, append_nil]
      · rename_i hbad
        exact ⟨fun hok => absurd hok hbad, h.bound, h.granted⟩

/-- **What is saved.** With all writes taken the call succeeds; if it succeeds the bytes
written are the document, normalized to the style if `xlate` is set. -/
theorem streamDocument_spec (hw : Wf pt) (xlate : Bool) (s : Style) (accept : Nat → Bool) :
    let r := streamDocument pt xlate (eolOf s) accept
    (r.ok = true → r.written.flatten = if xlate then normalize s (doc pt) else doc pt) ∧
      (∀ buf ∈ r.written, buf.length ≤ 2 * chunkSize + 2) ∧
      ((∀ n, accept n = true) → r.ok = true) := by
  have hstart : After xlate s accept (bytesOf pt []) ⟨false, [], true⟩ := by
    refine ⟨fun _ => ?_, by simp, fun _ => rfl⟩
    cases xlate <;> rfl
  have hall := After.pieces hw (nil_append pt.tree.toList).symm
    (show pt.tree.toList.length ≤ pieceCount pt.tree from Nat.le_refl _) hstart
  rw [← RbTree.first_eq] at hall
  rw [streamDocument]
  generalize streamPieces pt xlate (eolOf s) accept (pieceCount pt.tree) (RbTree.first pt.tree)
    ⟨false, [], true⟩ = st at hall
  have hflush : _ = normalize s (doc pt) := feed_flush s false (doc pt)
  dsimp only
  split
  · rename_i hc
    obtain ⟨hok, rfl, hpending⟩ := hc
    have hout := hall.out hok
    rw [output, if_pos rfl] at hout
    refine ⟨fun _ => ?_, fun buf hb => ?_, fun hacc => hacc _⟩
    · rw [if_pos rfl, ← hflush, ← hout, Streamed.write, flatten_append, hpending, if_pos rfl,
        emitEol_eolOf, flatten_singleton]
    · rcases mem_append.mp hb with hb | hb
      · exact hall.bound buf hb
      · rw [mem_singleton.mp hb, emitEol_eolOf]
        cases s <;> decide
  · rename_i hc
    refine ⟨fun hok => ?_, hall.bound, hall.granted⟩
    have hout := hall.out hok
    cases xlate with
    | false => exact congrArg Prod.fst hout
    | true =>
      have hpending : st.pendingCr ≠ true := fun hp => hc ⟨hok, rfl, hp⟩
      rw [output, if_pos rfl] at hout
      rw [← hout, if_neg hpending, append_nil] at hflush
      rw [if_pos rfl, ← hflush]

/-! ## What is detected -/

/-- The flags after the tokens `ts`. -/
def Seen.after (s : Seen) (ts : List Token) : Seen :=
  { haveLf := s.haveLf || decide (.ending .lf ∈ ts)
    haveCrlf := s.haveCrlf || decide (.ending .crlf ∈ ts)
    haveCr := s.haveCr || decide (.ending .cr ∈ ts)
    pendingCr := false }

theorem Seen.after_cons (s : Seen) (t : Token) (ts : List Token) :
    s.after (t :: ts) = (s.after [t]).after ts := by
  simp [Seen.after, Bool.or_assoc]

/-- The flags after a text, with a `\r` before it held back or not. -/
theorem finish_foldl (s : Seen) (text : List UInt8) :
    (text.foldl detectStep s).finish =
      s.after (tokens (if s.pendingCr then carriageReturn :: text else text)) := by
  induction text generalizing s with
  | nil =>
    rw [foldl_nil, Seen.finish]
    split
    · simp [Seen.after, tokens, single]
    · rename_i hp
      rcases s with ⟨a, b, c, held⟩
      obtain rfl : held = false := Bool.eq_false_iff.mpr hp
      simp [Seen.after, tokens]
  | cons c text ih =>
    rw [foldl_cons, ih, detectStep]
    by_cases hpair : s.pendingCr ∧ c = newline
    · obtain ⟨hp, rfl⟩ := hpair
      rw [if_pos ⟨hp, rfl⟩, if_pos hp, tokens_pair]
      simp [Seen.after]
    · -- the `\r` held back is a terminator of its own
      have hheld : s.after (tokens (if s.pendingCr then carriageReturn :: c :: text else c :: text)) =
          (if s.pendingCr then { s with pendingCr := false, haveCr := true } else s).after
            (tokens (c :: text)) := by
        split
        · rename_i hp
          have hhead : (c :: text).head? ≠ some lfByte :=
            fun h => hpair ⟨hp, Option.some.inj h⟩
          rw [tokens_cons (.inr hhead), Seen.after_cons]
          simp [Seen.after, single]
        · rfl
      rw [if_neg hpair, hheld]
      have hpending : (if s.pendingCr then { s with pendingCr := false, haveCr := true } else s).pendingCr
          = false := by
        split
        · rfl
        · rename_i hp
          exact Bool.eq_false_iff.mpr hp
      generalize (if s.pendingCr then ({ s with pendingCr := false, haveCr := true } : Seen) else s) = s'
        at hpending ⊢
      dsimp only
      by_cases hcr : c = carriageReturn
      · rw [if_pos hcr, if_pos rfl, hcr]
        rfl
      · rw [if_neg hcr, tokens_cons (.inl hcr), Seen.after_cons]
        split
        · rename_i hlf
          have hsingle : single c = .ending .lf := by rw [single, if_neg hcr, if_pos hlf]
          rw [if_neg (by rw [hpending]; decide), hsingle]
          congr 1
          simp [Seen.after, hpending]
        · rename_i hlf
          have hsingle : single c = .text c := by rw [single, if_neg hcr, if_neg hlf]
          rw [if_neg (by rw [hpending]; decide), hsingle]
          rcases s' with ⟨haveLf, haveCrlf, haveCr, held⟩
          obtain rfl : held = false := hpending
          congr 1
          simp [Seen.after]

theorem detectLoop_eq (hw : Wf pt) {fuel off : Nat} (hfuel : (doc pt).length - off ≤ fuel)
    (s : Seen) : detectLoop pt fuel off s = ((doc pt).drop off).foldl detectStep s := by
  induction fuel generalizing off s with
  | zero =>
    rw [drop_of_length_le (by omega)]
    rfl
  | succ fuel ih =>
    have hsize : 0 < chunkSize := by decide
    rw [detectLoop, hw.length_eq]
    split
    · dsimp only
      have hbuf : get pt off (min ((doc pt).length - off) chunkSize) chunkSize =
          ((doc pt).drop off).take (min ((doc pt).length - off) chunkSize) := by
        rw [hw.get_eq]
        congr 1
        omega
      have hlen : (((doc pt).drop off).take (min ((doc pt).length - off) chunkSize)).length =
          min ((doc pt).length - off) chunkSize := by
        rw [length_take, length_drop]
        omega
      rw [hbuf, hlen, if_neg (by omega), ih (by omega), ← foldl_append, ← drop_drop,
        take_append_drop]
    · rw [drop_of_length_le (by omega)]
      rfl

/-- **The style detected** is told by the terminators of the document. -/
theorem detectEol_eq (hw : Wf pt) :
    detectEol pt = ((⟨false, false, false, false⟩ : Seen).after (tokens (doc pt))).style := by
  have hall : (doc pt).length - 0 ≤ length pt := by
    rw [hw.length_eq]
    exact Nat.sub_le _ _
  have hloop := detectLoop_eq hw hall ⟨false, false, false, false⟩
  rw [detectEol, hloop, drop_zero, finish_foldl]
  rfl

/-- A document with terminators of one style. -/
theorem detectEol_uniform (hw : Wf pt) (s : Style)
    (hone : ∀ s', .ending s' ∈ tokens (doc pt) ↔ s' = s) : detectEol pt = eolOf s := by
  rw [detectEol_eq hw]
  simp only [Seen.after, hone]
  cases s <;> rfl

/-! ## Saving a document -/

/-- A state that a run reaches. -/
def Reached (pt : PieceTree) : Prop :=
  ∃ heap view pt₀ ops, openView heap view = some pt₀ ∧ run pt₀ ops = pt

theorem Reached.wf (h : Reached pt) : Wf pt := by
  obtain ⟨heap, view, pt₀, ops, hopen, rfl⟩ := h
  have hs := ((openView_spec heap view).2 pt₀ hopen).1
  have := @RunInvariant.run _ runInvariant_sound (Traced.start pt₀) hs ops
  rw [run_pt] at this
  exact this.wf

/-- **Saving normalizes.** Whatever the pieces of a document are, what is written when
it is saved with a style is the document with each terminator in that style, in
buffers that do not run over. A document with these bytes is written as it is with
that style, and if it has a terminator, that style is detected. -/
theorem save_normalizes (h : Reached pt) (s : Style) (accept : Nat → Bool) :
    let r := streamDocument pt true (eolOf s) accept
    ((∀ n, accept n = true) → r.ok = true) ∧
      (r.ok = true → r.written.flatten = normalize s (doc pt)) ∧
      (∀ buf ∈ r.written, buf.length ≤ 2 * 4096 + 2) ∧
      ∀ pt', Reached pt' → doc pt' = normalize s (doc pt) →
        (∀ accept', (streamDocument pt' true (eolOf s) accept').ok = true →
          (streamDocument pt' true (eolOf s) accept').written.flatten = doc pt') ∧
        ((∃ s', .ending s' ∈ tokens (doc pt)) → detectEol pt' = eolOf s) := by
  obtain ⟨hout, hbound, hgranted⟩ := streamDocument_spec h.wf true s accept
  refine ⟨hgranted, fun hok => (hout hok).trans (if_pos rfl), hbound, fun pt' h' hdoc => ⟨?_, ?_⟩⟩
  · intro accept' hok
    rw [(streamDocument_spec h'.wf true s accept').1 hok, if_pos rfl, hdoc, normalize_normalize]
  · rintro ⟨s₀, hs₀⟩
    refine detectEol_uniform h'.wf s fun s' => ?_
    rw [hdoc, tokens_normalize]
    constructor
    · intro hmem
      exact restyle_of s _ hmem
    · rintro rfl
      exact mem_map.mpr ⟨_, hs₀, rfl⟩

/-- A document with the three terminators, the last of them at its end, as CRLF. -/
theorem save_normalizes_mixed : ∃ pt, Reached pt ∧
    let r := streamDocument pt true (eolOf .crlf) fun _ => true
    ((∀ _ : Nat, true = true) → r.ok = true) ∧
      (r.ok = true → r.written.flatten = normalize .crlf (doc pt)) ∧
      (∀ buf ∈ r.written, buf.length ≤ 2 * 4096 + 2) ∧
      ∀ pt', Reached pt' → doc pt' = normalize .crlf (doc pt) →
        (∀ accept', (streamDocument pt' true (eolOf .crlf) accept').ok = true →
          (streamDocument pt' true (eolOf .crlf) accept').written.flatten = doc pt') ∧
        ((∃ s', .ending s' ∈ tokens (doc pt)) → detectEol pt' = eolOf .crlf) := by
  obtain ⟨pt, hopen, -, -⟩ := exists_openView [97, 10, 98, 13, 10, 99, 13]
  have h : Reached pt := ⟨generous, _, pt, [], hopen, rfl⟩
  exact ⟨pt, h, save_normalizes h .crlf fun _ => true⟩

end PieceTree

end AxlSdk
