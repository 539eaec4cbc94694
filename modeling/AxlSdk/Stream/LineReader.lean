import Mathlib

/-!
# The line reader (`src/stream/axl-stream.c`)

A stream is what it still holds and how it cuts it into reads: `answer n` is what it
says to the `n`-th read, `none` for a negative result. The buffer is the list of its
`_fill` bytes.

- `ahead`: the bytes whose lines are still to be returned. A call returns the first
  of these lines and takes it off (`lineReaderNext_spec`), wherever the reads are cut.
- `line_reader_lines`: so the calls return the lines in order. A line is given as
  truncated when it has no room in the buffer together with its line end; one that
  just fills the buffer is given whole and as truncated.
-/

namespace AxlSdk

namespace Stream

namespace LineReader

open List

/-! ## The code -/

def nl : UInt8 := 0x0A

/-- The stream below a reader. -/
structure Source where
  data : List UInt8
  answer : Nat → Option Nat
  calls : Nat

/-- `axl_read`: at least one byte, when there is one. -/
def axlRead (s : Source) (want : Nat) : Option (List UInt8) × Source :=
  match s.answer s.calls with
  | none => (none, { s with calls := s.calls + 1 })
  | some n =>
    let n := max 1 (min n want)
    (some (s.data.take n), { s with calls := s.calls + 1, data := s.data.drop n })

/-- `AxlLineReader` -/
structure AxlLineReader where
  stream : Source
  buf : List UInt8
  bufSize : Nat
  lastConsumed : Nat
  discard : Bool
  eof : Bool
  err : Bool

/-- `axl_line_reader_init` -/
def lineReaderInit (s : Source) (bufSize : Nat) : AxlLineReader :=
  { stream := s, buf := [], bufSize, lastConsumed := 0, discard := false, eof := false, err := false }

/-- A line as it is returned. -/
structure Slice where
  line : List UInt8
  truncated : Bool
  deriving DecidableEq, Repr

/-- The slice of the previous call is shifted out. -/
def shift (r : AxlLineReader) : AxlLineReader :=
  if 0 < r.lastConsumed then
    { r with
      buf := if r.lastConsumed < r.buf.length then r.buf.drop r.lastConsumed else []
      lastConsumed := 0 }
  else r

/-- Discard mode: what is there of the line is dropped. -/
def drain (r : AxlLineReader) : AxlLineReader :=
  if r.discard then
    let i := r.buf.findIdx (· == nl)
    if i < r.buf.length then { r with buf := r.buf.drop (i + 1), discard := false }
    else { r with buf := [] }
  else r

/-- What the line scan returns, if it returns. -/
def scan (r : AxlLineReader) : Option (Slice × AxlLineReader) :=
  if r.discard then none
  else
    let i := r.buf.findIdx (· == nl)
    if i < r.buf.length then
      some (⟨r.buf.take i, false⟩, { r with lastConsumed := i + 1 })
    else if r.buf.length = r.bufSize then
      some (⟨r.buf, true⟩, { r with lastConsumed := r.buf.length, discard := true })
    else none

/-- The tail without a line end. -/
def tail (r : AxlLineReader) : Option Slice × AxlLineReader :=
  if r.discard = false ∧ 0 < r.buf.length then
    (some ⟨r.buf, false⟩, { r with lastConsumed := r.buf.length })
  else (none, r)

def refill (r : AxlLineReader) : AxlLineReader :=
  match axlRead r.stream (r.bufSize - r.buf.length) with
  | (none, s) => { r with stream := s, err := true }
  | (some [], s) => { r with stream := s, eof := true }
  | (some (b :: got), s) => { r with stream := s, buf := r.buf ++ b :: got }

/-- The loop of `axl_line_reader_next`. -/
def lineLoop : Nat → AxlLineReader → Option Slice × AxlLineReader
  | 0, r => (none, r)
  | fuel + 1, r =>
    let r := drain r
    match scan r with
    | some (slice, r) => (some slice, r)
    | none => if r.eof || r.err then tail r else lineLoop fuel (refill r)

/-- `axl_line_reader_next`. Each turn but the last two reads a byte, see
`lineReaderNext_spec`. -/
def lineReaderNext (r : AxlLineReader) : Option Slice × AxlLineReader :=
  if r.bufSize < 2 then (none, r) else lineLoop (r.stream.data.length + 2) (shift r)

/-- The slices of successive calls, up to one that returns none. -/
def nextCalls : Nat → AxlLineReader → List Slice
  | 0, _ => []
  | n + 1, r =>
    match lineReaderNext r with
    | (none, _) => []
    | (some slice, r) => slice :: nextCalls n r

/-- The loop of `axl_walk_lines`: what the callback is given, and the result. -/
def walkLoop (fn : Slice → Int) : Nat → AxlLineReader → List Slice × Int
  | 0, r => ([], if r.err then -1 else 0)
  | n + 1, r =>
    match lineReaderNext r with
    | (none, r) => ([], if r.err then -1 else 0)
    | (some slice, r) =>
      if fn slice ≠ 0 then ([slice], fn slice)
      else (slice :: (walkLoop fn n r).1, (walkLoop fn n r).2)

/-- `axl_walk_lines` -/
def walkLines (s : Source) (bufSize : Nat) (fn : Slice → Int) : List Slice × Int :=
  if bufSize < 2 then ([], -1)
  else walkLoop fn (s.data.length + 1) (lineReaderInit s bufSize)

/-! ## Lines -/

/-- The lines of a text. What follows the last line end is one when it is not empty. -/
def logicalLines (x : List UInt8) : List (List UInt8) :=
  let pieces := x.splitOn nl
  if pieces.getLast? = some [] then pieces.dropLast else pieces

/-- A line in a buffer of this size. -/
def sliceOf (bufSize : Nat) (line : List UInt8) : Slice :=
  ⟨line.take bufSize, decide (bufSize ≤ line.length)⟩

/-- Callbacks on slices, up to one that does not return zero. -/
def callEach (fn : Slice → Int) : List Slice → List Slice × Int
  | [] => ([], 0)
  | slice :: rest =>
    if fn slice ≠ 0 then ([slice], fn slice)
    else (slice :: (callEach fn rest).1, (callEach fn rest).2)

variable {x y l : List UInt8} {r r' : AxlLineReader}

theorem logicalLines_nil : logicalLines [] = [] := by
  rw [logicalLines, splitOn_nil]
  rfl

theorem logicalLines_line (h : nl ∉ l) (y : List UInt8) :
    logicalLines (l ++ nl :: y) = l :: logicalLines y := by
  have hsplit : (l ++ nl :: y).splitOn nl = l :: y.splitOn nl := by
    rw [splitOn_eq_splitOnP, splitOn_eq_splitOnP]
    have hno : ∀ b ∈ l, (b == nl) = false := fun b hb => beq_eq_false_iff_ne.mpr fun heq => h (heq ▸ hb)
    exact splitOnP_append_cons_of_forall_mem hno nl (beq_self_eq_true _) y
  have hne := splitOn_ne_nil nl y
  rw [logicalLines, logicalLines, hsplit]
  rw [getLast?_cons_of_ne_nil hne, dropLast_cons_of_ne_nil hne]
  split <;> rfl

theorem logicalLines_last (h : nl ∉ l) (hne : l ≠ []) : logicalLines l = [l] := by
  have hsplit : l.splitOn nl = [l] := by
    rw [splitOn_eq_splitOnP]
    exact splitOnP_eq_singleton fun b hb => beq_eq_false_iff_ne.mpr fun heq => h (heq ▸ hb)
  rw [logicalLines, hsplit]
  exact if_neg fun h => hne (Option.some.inj h)

/-- The first line of a text. -/
def firstLine (y : List UInt8) : List UInt8 := y.take (y.findIdx (· == nl))

/-- What is behind it. -/
def afterLine (y : List UInt8) : List UInt8 := y.drop (y.findIdx (· == nl) + 1)

theorem findIdx_append_of_notMem (h : nl ∉ l) (y : List UInt8) :
    (l ++ y).findIdx (· == nl) = l.length + y.findIdx (· == nl) := by
  rw [findIdx_append, if_neg, Nat.add_comm]
  rw [findIdx_lt_length]
  rintro ⟨b, hb, heq⟩
  exact h (beq_iff_eq.mp heq ▸ hb)

theorem notMem_of_le (h : ¬ l.findIdx (· == nl) < l.length) : nl ∉ l := fun hmem =>
  h (findIdx_lt_length.mpr ⟨nl, hmem, beq_self_eq_true _⟩)

/-- A text with a line end in its front. -/
theorem splits (h : l.findIdx (· == nl) < l.length) :
    nl ∉ firstLine l ∧ l = firstLine l ++ nl :: afterLine l := by
  constructor
  · intro hmem
    obtain ⟨i, hi, heq⟩ := mem_iff_getElem.mp hmem
    rw [firstLine, length_take] at hi
    have hbefore : i < l.findIdx (· == nl) := by omega
    have hother := not_of_lt_findIdx hbefore
    simp only [firstLine, getElem_take] at heq
    exact beq_eq_false_iff_ne.mp hother heq
  · have hat : l[l.findIdx (· == nl)] = nl := beq_iff_eq.mp (findIdx_getElem (w := h))
    have hdrop := drop_eq_getElem_cons h
    rw [hat] at hdrop
    rw [firstLine, afterLine, ← hdrop, take_append_drop]

theorem logicalLines_eq (y : List UInt8) :
    logicalLines y = if y = [] then [] else firstLine y :: logicalLines (afterLine y) := by
  split
  · rename_i hnil
    rw [hnil, logicalLines_nil]
  · rename_i hne
    by_cases h : y.findIdx (· == nl) < y.length
    · obtain ⟨hnl, heq⟩ := splits h
      exact (congrArg logicalLines heq).trans (logicalLines_line hnl _)
    · have hle : y.length ≤ y.findIdx (· == nl) := Nat.le_of_not_lt h
      rw [logicalLines_last (notMem_of_le h) hne, firstLine, afterLine, take_of_length_le hle,
        drop_of_length_le (by omega), logicalLines_nil]

theorem afterLine_append (h : nl ∉ l) (y : List UInt8) : afterLine (l ++ y) = afterLine y := by
  rw [afterLine, findIdx_append_of_notMem h, Nat.add_assoc, drop_append, afterLine,
    drop_of_length_le (by omega), nil_append, Nat.add_sub_cancel_left]

theorem afterLine_nil : afterLine [] = [] := rfl

theorem afterLine_of_notMem (h : nl ∉ l) : afterLine l = [] := by
  have := afterLine_append h []
  rwa [append_nil, afterLine_nil] at this

theorem firstLine_append (h : nl ∉ l) (y : List UInt8) : firstLine (l ++ y) = l ++ firstLine y := by
  rw [firstLine, findIdx_append_of_notMem h, take_append, take_of_length_le (by omega),
    Nat.add_sub_cancel_left, firstLine]

theorem firstLine_of_notMem (h : nl ∉ l) : firstLine l = l := by
  have := firstLine_append h []
  rwa [append_nil, show firstLine [] = [] from rfl, append_nil] at this

/-- A line end in the front decides where the first line ends. -/
theorem first_of_lt (h : l.findIdx (· == nl) < l.length) (y : List UInt8) :
    firstLine (l ++ y) = firstLine l ∧ afterLine (l ++ y) = afterLine l ++ y := by
  have hidx : (l ++ y).findIdx (· == nl) = l.findIdx (· == nl) := by
    rw [findIdx_append, if_pos h]
  constructor
  · rw [firstLine, hidx, take_append_of_le_length h.le, firstLine]
  · rw [afterLine, hidx, drop_append_of_le_length h, afterLine]

theorem sliceOf_short {bufSize : Nat} (h : l.length < bufSize) : sliceOf bufSize l = ⟨l, false⟩ := by
  rw [sliceOf, take_of_length_le h.le, decide_eq_false (Nat.not_le.mpr h)]

/-! ## A call -/

/-- The bytes whose lines are still to be returned. -/
def ahead (r : AxlLineReader) : List UInt8 :=
  if r.discard then afterLine (r.buf.drop r.lastConsumed ++ r.stream.data)
  else r.buf.drop r.lastConsumed ++ r.stream.data

/-- Between calls, over a stream whose reads do not fail. -/
structure Ready (r : AxlLineReader) : Prop where
  size : 2 ≤ r.bufSize
  fits : r.buf.length ≤ r.bufSize
  reads : ∀ n, (r.stream.answer n).isSome
  noErr : r.err = false
  atEnd : r.eof = true → r.stream.data = []

/-- In the loop, before the scan. -/
structure Scanning (r : AxlLineReader) : Prop extends Ready r where
  shifted : r.lastConsumed = 0
  drained : r.discard = true → r.buf = []

theorem shift_spec (h : Ready r) : Ready (shift r) ∧ (shift r).lastConsumed = 0 ∧
    ahead (shift r) = ahead r ∧ (shift r).stream = r.stream ∧ (shift r).eof = r.eof ∧
      (shift r).bufSize = r.bufSize := by
  rw [shift]
  split
  · have hbuf : (if r.lastConsumed < r.buf.length then r.buf.drop r.lastConsumed else []) =
        r.buf.drop r.lastConsumed := by
      split
      · rfl
      · rename_i hlt
        exact (drop_of_length_le (Nat.le_of_not_lt hlt)).symm
    rw [hbuf]
    refine ⟨?_, rfl, rfl, rfl, rfl, rfl⟩
    constructor
    · exact h.size
    · have := h.fits
      dsimp only
      rw [length_drop]
      omega
    · exact h.reads
    · exact h.noErr
    · exact h.atEnd
  · exact ⟨h, by omega, rfl, rfl, rfl, rfl⟩

theorem drain_spec (h : Ready r) (hshift : r.lastConsumed = 0) : Scanning (drain r) ∧
    ahead (drain r) = ahead r ∧ (drain r).stream = r.stream ∧ (drain r).eof = r.eof ∧
      (drain r).bufSize = r.bufSize := by
  have hfits := h.fits
  rw [drain]
  split
  · rename_i hdisc
    dsimp only
    split
    · rename_i hlt
      refine ⟨?_, ?_, rfl, rfl, rfl⟩
      · refine ⟨⟨h.size, ?_, h.reads, h.noErr, h.atEnd⟩, hshift, Bool.noConfusion⟩
        dsimp only
        rw [length_drop]
        omega
      · simp only [ahead, hdisc, hshift, if_true, Bool.false_eq_true, if_false, drop_zero]
        rw [(first_of_lt hlt _).2, afterLine]
    · rename_i hle
      refine ⟨⟨⟨h.size, Nat.zero_le _, h.reads, h.noErr, h.atEnd⟩, hshift, fun _ => rfl⟩, ?_, rfl, rfl, rfl⟩
      simp only [ahead, hdisc, hshift, if_true, drop_zero, nil_append]
      rw [afterLine_append (notMem_of_le hle)]
  · rename_i hdisc
    exact ⟨⟨h, hshift, fun hd => absurd hd hdisc⟩, rfl, rfl, rfl, rfl⟩

/-- A line that the scan returns is the first one. -/
theorem scan_some {slice : Slice} (h : Scanning r) (hscan : scan r = some (slice, r')) :
    ahead r ≠ [] ∧ slice = sliceOf r.bufSize (firstLine (ahead r)) ∧ Ready r' ∧
      ahead r' = afterLine (ahead r) ∧ r'.bufSize = r.bufSize := by
  have hfits := h.fits
  rw [scan] at hscan
  split at hscan
  · cases hscan
  · rename_i hdisc
    have hahead : ahead r = r.buf ++ r.stream.data := by
      rw [ahead, if_neg hdisc, h.shifted, drop_zero]
    dsimp only at hscan
    split at hscan
    · rename_i hlt
      cases hscan
      obtain ⟨hfirst, hafter⟩ := first_of_lt hlt r.stream.data
      refine ⟨fun hnil => ?_, ?_, ⟨h.size, h.fits, h.reads, h.noErr, h.atEnd⟩, ?_, rfl⟩
      · rw [hahead] at hnil
        rw [(append_eq_nil_iff.mp hnil).1] at hlt
        cases hlt
      · have hlen : (firstLine r.buf).length = r.buf.findIdx (· == nl) := by
          rw [firstLine, length_take]
          omega
        rw [hahead, hfirst, sliceOf_short (by omega), firstLine]
      · rw [hahead, hafter, ahead, if_neg hdisc, afterLine]
    · rename_i hle
      split at hscan
      · rename_i hfull
        cases hscan
        have hno := notMem_of_le hle
        refine ⟨fun hnil => ?_, ?_, ⟨h.size, h.fits, h.reads, h.noErr, h.atEnd⟩, ?_, rfl⟩
        · have hsize := h.size
          rw [hahead] at hnil
          rw [(append_eq_nil_iff.mp hnil).1] at hfull
          rw [← hfull] at hsize
          cases hsize
        · rw [hahead, firstLine_append hno, sliceOf, ← hfull, take_left, length_append,
            decide_eq_true (Nat.le_add_right _ _)]
        · rw [hahead, afterLine_append hno, ahead, if_pos rfl]
          dsimp only
          rw [drop_length, nil_append]
      · cases hscan

/-- What holds when nothing is returned by the scan. -/
theorem scan_none (h : Scanning r) (hscan : scan r = none) :
    nl ∉ r.buf ∧ r.buf.length < r.bufSize := by
  have hsize := h.size
  have hfits := h.fits
  rw [scan] at hscan
  split at hscan
  · rename_i hdisc
    rw [h.drained hdisc]
    exact ⟨not_mem_nil, by rw [length_nil]; omega⟩
  · dsimp only at hscan
    split at hscan
    · cases hscan
    · rename_i hle
      split at hscan
      · cases hscan
      · exact ⟨notMem_of_le hle, by omega⟩

/-- At the end of the stream the rest is the last line. -/
theorem tail_spec (h : Scanning r) (hscan : scan r = none) (heof : r.eof = true) :
    ∃ r', tail r = (if ahead r = [] then none else some (sliceOf r.bufSize (firstLine (ahead r))), r') ∧
      Ready r' ∧ ahead r' = afterLine (ahead r) ∧ r'.bufSize = r.bufSize := by
  obtain ⟨hno, hlt⟩ := scan_none h hscan
  have hdata := h.atEnd heof
  have hready : Ready { r with lastConsumed := r.buf.length } :=
    ⟨h.size, h.fits, h.reads, h.noErr, h.atEnd⟩
  rw [tail]
  by_cases hdisc : r.discard = true
  · -- the line is the rest of one that was returned
    have hnil : ahead r = [] := by
      rw [ahead, if_pos hdisc, h.drained hdisc, hdata, drop_nil, append_nil, afterLine_nil]
    rw [if_neg fun hand => Bool.false_ne_true (hand.1.symm.trans hdisc), if_pos hnil]
    exact ⟨_, rfl, h.toReady, by rw [hnil, afterLine_nil], rfl⟩
  · have hahead : ahead r = r.buf := by
      rw [ahead, if_neg hdisc, h.shifted, hdata, append_nil, drop_zero]
    rw [hahead]
    by_cases hnil : r.buf = []
    · rw [if_neg fun hand => (ne_nil_of_length_pos hand.2) hnil, if_pos hnil]
      exact ⟨_, rfl, h.toReady, by rw [hahead, hnil, afterLine_nil], rfl⟩
    · rw [if_pos ⟨Bool.eq_false_of_not_eq_true hdisc, length_pos_iff.mpr hnil⟩, if_neg hnil]
      refine ⟨_, ?_, hready, ?_, rfl⟩
      · rw [firstLine_of_notMem hno, sliceOf_short hlt]
      · rw [ahead, if_neg hdisc, afterLine_of_notMem hno]
        dsimp only
        rw [drop_length, hdata, append_nil]

/-- A read takes bytes off the stream, one at least when there is one. -/
theorem axlRead_spec {s : Source} {want : Nat} (h : (s.answer s.calls).isSome) (hwant : 0 < want) :
    ∃ got rest, axlRead s want = (some got, { s with calls := s.calls + 1, data := rest }) ∧
      s.data = got ++ rest ∧ got.length ≤ want ∧ (got = [] → rest = []) := by
  obtain ⟨n, hn⟩ := Option.isSome_iff_exists.mp h
  rw [axlRead, hn]
  refine ⟨_, _, rfl, (take_append_drop _ _).symm, ?_, fun hnil => ?_⟩
  · rw [length_take]
    omega
  · rcases take_eq_nil_iff.mp hnil with hzero | hdata
    · omega
    · rw [hdata, drop_nil]

/-- A read changes where the bytes ahead are, and takes one or meets the end. -/
theorem refill_spec (h : Scanning r) (hscan : scan r = none) (heof : r.eof = false) :
    Ready (refill r) ∧ (refill r).lastConsumed = 0 ∧ ahead (refill r) = ahead r ∧
      (refill r).bufSize = r.bufSize ∧
      ((refill r).eof = true ∨ (refill r).eof = false ∧
        (refill r).stream.data.length < r.stream.data.length) := by
  obtain ⟨hno, hlt⟩ := scan_none h hscan
  obtain ⟨got, rest, hread, hdata, hle, hnil⟩ :=
    axlRead_spec (h.reads _) (Nat.sub_pos_of_lt hlt)
  rw [refill, hread]
  cases got with
  | nil =>
    cases hnil rfl
    refine ⟨⟨h.size, h.fits, h.reads, h.noErr, fun _ => rfl⟩, h.shifted, ?_, rfl, .inl rfl⟩
    rw [ahead, ahead, hdata]
    rfl
  | cons b got =>
    refine ⟨⟨h.size, ?_, h.reads, h.noErr, ?_⟩, h.shifted, ?_, rfl, .inr ⟨heof, ?_⟩⟩
    · dsimp only
      rw [length_append]
      omega
    · intro hend
      exact absurd (heof.symm.trans hend) Bool.false_ne_true
    · simp only [ahead, h.shifted, drop_zero, hdata, append_assoc]
    · rw [hdata, length_append, length_cons]
      dsimp only
      omega

/-- The loop returns the first line ahead, given a turn for each byte that is not read
and two for the end. -/
theorem lineLoop_spec {fuel : Nat} (h : Ready r) (hshift : r.lastConsumed = 0)
    (hfuel : r.stream.data.length + (if r.eof then 1 else 2) ≤ fuel) :
    ∃ r', lineLoop fuel r =
        (if ahead r = [] then none else some (sliceOf r.bufSize (firstLine (ahead r))), r') ∧
      Ready r' ∧ ahead r' = afterLine (ahead r) ∧ r'.bufSize = r.bufSize := by
  induction fuel generalizing r with
  | zero => split at hfuel <;> omega
  | succ fuel ih =>
    obtain ⟨hscanning, hahead, hstream, heof, hsize⟩ := drain_spec h hshift
    rw [lineLoop, ← hahead, ← hsize]
    rw [← hstream, ← heof] at hfuel
    generalize drain r = q at hscanning hfuel
    cases hscan : scan q with
    | some res =>
      obtain ⟨slice, r'⟩ := res
      obtain ⟨hne, rfl, hready, hafter, hsize'⟩ := scan_some hscanning hscan
      exact ⟨r', by rw [if_neg hne], hready, hafter, hsize'⟩
    | none =>
      dsimp only
      rw [hscanning.noErr, Bool.or_false]
      cases hend : q.eof with
      | true => exact tail_spec hscanning hscan hend
      | false =>
        obtain ⟨hready, hshift', hahead', hsize', hless⟩ := refill_spec hscanning hscan hend
        rw [if_neg (by simp [hend])] at hfuel
        have hfuel' : (refill q).stream.data.length + (if (refill q).eof then 1 else 2) ≤ fuel := by
          rcases hless with heof' | ⟨heof', hlt⟩
          · rw [if_pos heof', hready.atEnd heof', length_nil]
            omega
          · rw [heof', if_neg Bool.false_ne_true]
            omega
        obtain ⟨r', hloop, hrest⟩ := ih hready hshift' hfuel'
        rw [hahead', hsize'] at hloop hrest
        exact ⟨r', hloop, hrest⟩

/-- A call returns the first line ahead and takes it off. -/
theorem lineReaderNext_spec (h : Ready r) :
    ∃ r', lineReaderNext r =
        (if ahead r = [] then none else some (sliceOf r.bufSize (firstLine (ahead r))), r') ∧
      Ready r' ∧ ahead r' = afterLine (ahead r) ∧ r'.bufSize = r.bufSize := by
  obtain ⟨hready, hshift, hahead, hstream, heof, hsize⟩ := shift_spec h
  have hfuel : (shift r).stream.data.length + (if (shift r).eof then 1 else 2) ≤
      r.stream.data.length + 2 := by
    rw [hstream]
    split <;> omega
  obtain ⟨r', hloop, hrest⟩ := lineLoop_spec hready hshift hfuel
  rw [hahead, hsize] at hloop hrest
  rw [lineReaderNext, if_neg (Nat.not_lt.mpr h.size)]
  exact ⟨r', hloop, hrest⟩

/-! ## All calls -/

theorem nextCalls_eq (h : Ready r) (n : Nat) :
    nextCalls n r = ((logicalLines (ahead r)).map (sliceOf r.bufSize)).take n := by
  induction n generalizing r with
  | zero => rw [nextCalls, take_zero]
  | succ n ih =>
    obtain ⟨r', hnext, hready, hafter, hsize⟩ := lineReaderNext_spec h
    rw [nextCalls, hnext, logicalLines_eq]
    by_cases hnil : ahead r = []
    · rw [if_pos hnil, if_pos hnil]
      rfl
    · rw [if_neg hnil, if_neg hnil, map_cons, take_succ_cons, ← hafter, ← hsize,
        ← ih hready]

theorem lines_length_le (y : List UInt8) : (logicalLines y).length ≤ y.length := by
  induction hn : y.length using Nat.strong_induction_on generalizing y with
  | _ n ih =>
    subst hn
    rw [logicalLines_eq]
    split
    · exact Nat.zero_le _
    · rename_i hne
      have hpos := length_pos_iff.mpr hne
      have hless : (afterLine y).length < y.length := by
        rw [afterLine, length_drop]
        omega
      have := ih _ hless _ rfl
      rw [length_cons]
      omega

theorem walkLoop_eq (fn : Slice → Int) {n : Nat} (h : Ready r)
    (hn : (logicalLines (ahead r)).length < n) :
    walkLoop fn n r = callEach fn ((logicalLines (ahead r)).map (sliceOf r.bufSize)) := by
  induction n generalizing r with
  | zero => cases hn
  | succ n ih =>
    obtain ⟨r', hnext, hready, hafter, hsize⟩ := lineReaderNext_spec h
    rw [logicalLines_eq] at hn
    rw [walkLoop, hnext, logicalLines_eq]
    by_cases hnil : ahead r = []
    · rw [if_pos hnil, if_pos hnil]
      dsimp only
      rw [hready.noErr]
      rfl
    · rw [if_neg hnil, length_cons] at hn
      rw [if_neg hnil, if_neg hnil, map_cons, callEach]
      dsimp only
      rw [ih hready (by rw [hafter]; omega), hafter, hsize]

/-- The calls return the lines, each cut to the buffer, and truncated when it is as long as
the buffer or longer; `axl_walk_lines` gives them to its callback. -/
theorem line_reader_lines (x : List UInt8) (cut : Nat → Nat) (bufSize : Nat) (h : 2 ≤ bufSize) :
    let s : Source := { data := x, answer := fun n => some (cut n), calls := 0 }
    let slices := (logicalLines x).map fun l => ⟨l.take bufSize, decide (bufSize ≤ l.length)⟩
    (∀ n, nextCalls n (lineReaderInit s bufSize) = slices.take n) ∧
      ∀ fn, walkLines s bufSize fn = callEach fn slices := by
  intro s slices
  have hready : Ready (lineReaderInit s bufSize) :=
    ⟨h, Nat.zero_le _, fun _ => rfl, rfl, Bool.noConfusion⟩
  refine ⟨nextCalls_eq hready, fun fn => ?_⟩
  rw [walkLines, if_neg (Nat.not_lt.mpr h)]
  exact walkLoop_eq fn hready (Nat.lt_succ_of_le (lines_length_le x))

theorem line_reader_lines_two :
    nextCalls 3 (lineReaderInit ⟨[0x61, 0x62, 0x63, nl, 0x64], fun n => some n, 0⟩ 2) =
      [⟨[0x61, 0x62], true⟩, ⟨[0x64], false⟩] :=
  ((line_reader_lines [0x61, 0x62, 0x63, nl, 0x64] id 2 (by decide)).1 3).trans (by decide +kernel)

/-- A line of just the size of the buffer is given whole, and as truncated. -/
theorem full_line_truncated : ¬ ∀ (x : List UInt8) (cut : Nat → Nat) (bufSize : Nat), 2 ≤ bufSize →
    ∀ n, nextCalls n (lineReaderInit ⟨x, fun n => some (cut n), 0⟩ bufSize) =
      ((logicalLines x).map fun l => ⟨l.take bufSize, decide (bufSize < l.length)⟩).take n := by
  intro h
  have hfirst := h [0x61, 0x62, nl] id 2 le_rfl 1
  revert hfirst
  decide +kernel

end LineReader

end Stream

end AxlSdk
