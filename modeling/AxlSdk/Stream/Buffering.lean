import AxlSdk.Lib.Cutter
import AxlSdk.Stream.Model

/-!
# Buffering and what comes out

For sinks that take everything. What a stream has put out so far, together with
the unfinished sequence in its transcoder, is a `Wire`; writing bytes to it is
`Wire.feed`, and since the transcoder reads unit by unit (`utf8Cutter`), feeding
in pieces is feeding at once (`Wire.feed_append`).

A buffered stream then always stands for the unbuffered one: feed its wire with
what waits in the buffer (`total`). Every call keeps this, with one exception:
`axl_stream_set_encoding` does not drain the buffer first, as
`axl_stream_set_buffering` does, so what was written before the change is
transcoded as if it were written after it.
-/

namespace AxlSdk

namespace Stream

open List

/-! ## The transcoder reads unit by unit -/

theorem decodeSeq_pos (seq : List UInt8) : 0 < (decodeSeq seq).2 := by
  fun_cases decodeSeq seq <;> exact Nat.succ_pos _

theorem decodeSeq_le {seq : List UInt8} (h : seq ≠ []) : (decodeSeq seq).2 ≤ seq.length := by
  have hpos := length_pos_iff.mpr h
  revert hpos
  fun_cases decodeSeq seq <;> simp only [length_cons] <;> omega

theorem utf8LeadLen_pos (lead : UInt8) : 0 < utf8LeadLen lead := by
  rw [utf8LeadLen]
  split_ifs <;> omega

/-- The first sequence of the input, if all of it is there. -/
def utf8Cut : List UInt8 → Option (UInt32 × Nat)
  | [] => none
  | b :: bs =>
    if (b :: bs).length < utf8LeadLen b then none
    else some (decodeSeq ((b :: bs).take (utf8LeadLen b)))

variable {xs : List UInt8}

theorem utf8Cut_eq_some {r : UInt32 × Nat} (h : utf8Cut xs = some r) :
    ∃ b bs, xs = b :: bs ∧ utf8LeadLen b ≤ xs.length ∧
      r = decodeSeq (xs.take (utf8LeadLen b)) := by
  cases xs with
  | nil => cases h
  | cons b bs =>
    rw [utf8Cut] at h
    split at h
    case isTrue => cases h
    case isFalse hge => exact ⟨b, bs, rfl, Nat.le_of_not_lt hge, (Option.some.inj h).symm⟩

theorem utf8Cut_pos {c : UInt32} {n : Nat} (h : utf8Cut xs = some (c, n)) :
    0 < n := by
  obtain ⟨b, bs, -, -, hr⟩ := utf8Cut_eq_some h
  have := decodeSeq_pos (xs.take (utf8LeadLen b))
  rw [← hr] at this
  exact this

theorem utf8Cut_le {c : UInt32} {n : Nat} (h : utf8Cut xs = some (c, n)) :
    n ≤ xs.length := by
  obtain ⟨b, bs, hxs, hlen, hr⟩ := utf8Cut_eq_some h
  have hpos := utf8LeadLen_pos b
  have hne : xs.take (utf8LeadLen b) ≠ [] := by
    rw [← length_pos_iff, length_take]
    omega
  have hle := decodeSeq_le hne
  rw [← hr, length_take] at hle
  exact Nat.le_trans hle (Nat.min_le_right _ _)

theorem utf8Cut_stable {r : UInt32 × Nat} (ys : List UInt8) (h : utf8Cut xs = some r) :
    utf8Cut (xs ++ ys) = some r := by
  obtain ⟨b, bs, rfl, hlen, hr⟩ := utf8Cut_eq_some h
  have htake : (b :: bs ++ ys).take (utf8LeadLen b) = (b :: bs).take (utf8LeadLen b) :=
    take_append_of_le_length hlen
  have hge : ¬ (b :: (bs ++ ys)).length < utf8LeadLen b := by
    simp only [length_cons, length_append] at hlen ⊢
    omega
  rw [cons_append, utf8Cut, if_neg hge, ← cons_append, htake, hr]

/-- Sequences of UTF-8 as the transcoder cuts them off. -/
def utf8Cutter : Cutter UInt8 UInt32 := ⟨utf8Cut, utf8Cut_pos, utf8Cut_le, utf8Cut_stable⟩

/-! ## Wires -/

/-- What the write side of a stream has put out, and what it carries over. -/
structure Wire where
  encoding : AxlEncoding
  pending : List UInt8
  out : List UInt8

/-- The bytes are written. -/
def Wire.feed (w : Wire) (bs : List UInt8) : Wire :=
  if w.encoding = .utf8 then { w with out := w.out ++ bs }
  else
    { w with
      pending := (utf8Cutter.scan (w.pending ++ bs)).2
      out := w.out ++ (utf8Cutter.scan (w.pending ++ bs)).1.flatMap (wireUnit w.encoding) }

theorem Wire.feed_utf8 {w : Wire} (h : w.encoding = .utf8) (bs : List UInt8) :
    w.feed bs = { w with out := w.out ++ bs } := by
  rw [Wire.feed, if_pos h]

theorem Wire.feed_other {w : Wire} (h : w.encoding ≠ .utf8) (bs : List UInt8) :
    w.feed bs = { w with
      pending := (utf8Cutter.scan (w.pending ++ bs)).2
      out := w.out ++ (utf8Cutter.scan (w.pending ++ bs)).1.flatMap (wireUnit w.encoding) } := by
  rw [Wire.feed, if_neg h]

/-- Nothing that is carried over could be put out, and UTF-8 carries nothing. -/
structure Wire.Resting (w : Wire) : Prop where
  cut : utf8Cutter.cut w.pending = none
  utf8 : w.encoding = .utf8 → w.pending = []

@[simp] theorem Wire.feed_encoding (w : Wire) (bs : List UInt8) :
    (w.feed bs).encoding = w.encoding := by
  rw [Wire.feed]
  split <;> rfl

theorem Wire.Resting.feed {w : Wire} (h : w.Resting) (bs : List UInt8) : (w.feed bs).Resting := by
  rw [Wire.feed]
  split
  case isTrue henc => exact ⟨h.cut, h.utf8⟩
  case isFalse henc => exact ⟨Cutter.cut_rest _, fun h8 => absurd h8 henc⟩

/-- Pieces add up. -/
theorem Wire.feed_append (w : Wire) (xs ys : List UInt8) :
    w.feed (xs ++ ys) = (w.feed xs).feed ys := by
  by_cases henc : w.encoding = .utf8
  · have henc' : (w.feed xs).encoding = .utf8 := (w.feed_encoding xs).trans henc
    rw [Wire.feed_utf8 henc, Wire.feed_utf8 henc', Wire.feed_utf8 henc, append_assoc]
  · have henc' : (w.feed xs).encoding ≠ .utf8 := fun h8 => henc ((w.feed_encoding xs) ▸ h8)
    rw [Wire.feed_other henc, Wire.feed_other henc', Wire.feed_other henc, ← append_assoc,
      Cutter.scan_append (w.pending ++ xs) ys]
    simp only [flatMap_append, append_assoc]

theorem Wire.Resting.feed_nil {w : Wire} (h : w.Resting) : w.feed [] = w := by
  rw [Wire.feed]
  split
  · rw [append_nil]
  · rw [append_nil, Cutter.scan_of_none h.cut]
    simp

/-! ## Sinks that take everything -/

/-- Every call is answered by taking all that is offered. -/
def Sink.Accepts (k : Sink) : Prop := ∀ n buf, ∃ m, k.answer n buf = some m ∧ buf.length ≤ m

/-- A port: what it has put out and carries over. -/
def Port.wire (p : Port) : Wire := ⟨p.encoding, p.outPending, p.sink.taken⟩

theorem sinkWrite_accepts {k : Sink} (h : k.Accepts) (buf : List UInt8) :
    ∃ k', sinkWrite k buf = (some buf.length, k') ∧ k'.taken = k.taken ++ buf ∧ k'.Accepts := by
  obtain ⟨m, hm, hle⟩ := h k.calls buf
  refine ⟨{ k with calls := k.calls + 1, taken := k.taken ++ buf.take m }, ?_, ?_, h⟩
  · rw [sinkWrite, hm]
    simp only
    rw [Nat.min_eq_right hle]
  · rw [take_of_length_le hle]

theorem emitWireBytes_accepts (fuel : Nat) {p : Port} (h : p.sink.Accepts) {wire : List UInt8}
    (hfuel : wire.length ≤ fuel) :
    ∃ k', emitWireBytes fuel p wire = (.ok, { p with sink := k' }) ∧
      k'.taken = p.sink.taken ++ wire ∧ k'.Accepts := by
  cases fuel with
  | zero =>
    rw [length_eq_zero_iff.mp (by omega : wire.length = 0)]
    exact ⟨p.sink, rfl, by simp, h⟩
  | succ fuel =>
    rw [emitWireBytes]
    split
    case isTrue h0 =>
      rw [length_eq_zero_iff.mp h0]
      exact ⟨p.sink, rfl, by simp, h⟩
    case isFalse h0 =>
      obtain ⟨k', hw, htaken, hk'⟩ := sinkWrite_accepts h wire
      rw [hw]
      dsimp only
      rw [if_neg h0, drop_length]
      refine ⟨k', ?_, htaken, hk'⟩
      cases fuel with
      | zero => rfl
      | succ fuel => rw [emitWireBytes, if_pos length_nil]

theorem emitWire_accepts {p : Port} (h : p.sink.Accepts) (code : UInt32) :
    ∃ k', emitWire p code = (.ok, { p with sink := k' }) ∧
      k'.taken = p.sink.taken ++ wireUnit p.encoding code ∧ k'.Accepts :=
  emitWireBytes_accepts _ h (Nat.le_refl _)

/-- Sinks that keep a property `I` and get whole units. -/
def EmitsWhole (I : Sink → Prop) : Prop :=
  ∀ (p : Port) (code : UInt32), I p.sink →
    ∃ k', emitWire p code = (.ok, { p with sink := k' }) ∧
      k'.taken = p.sink.taken ++ wireUnit p.encoding code ∧ I k'

/-- The transcoder puts out the units of what it carried over and the input,
and carries over the rest. -/
theorem writeTranscode_whole {I : Sink → Prop} (hI : EmitsWhole I) (fuel : Nat) {p : Port}
    (h : I p.sink) (i : Nat) {input : List UInt8}
    (hfuel : p.outPending.length + input.length ≤ fuel)
    (hend : input = [] → utf8Cutter.cut p.outPending = none) :
    ∃ k', writeTranscode fuel p i input
        = (some (i + input.length), { p with
            sink := k', outPending := (utf8Cutter.scan (p.outPending ++ input)).2 }) ∧
      k'.taken = p.sink.taken ++
        (utf8Cutter.scan (p.outPending ++ input)).1.flatMap (wireUnit p.encoding) ∧
      I k' := by
  induction fuel generalizing p i input with
  | zero =>
    have hi : input = [] := length_eq_zero_iff.mp (by omega)
    subst hi
    rw [append_nil, Cutter.scan_of_none (hend rfl)]
    exact ⟨p.sink, rfl, by simp, h⟩
  | succ fuel ih =>
    cases input with
    | nil =>
      rw [append_nil, Cutter.scan_of_none (hend rfl)]
      exact ⟨p.sink, rfl, by simp, h⟩
    | cons b bs =>
      -- the bytes at hand, in order: carried over, then input
      obtain ⟨ys, hxs⟩ : ∃ ys, p.outPending ++ b :: bs = p.outPending.headD b :: ys := by
        cases p.outPending with
        | nil => exact ⟨bs, rfl⟩
        | cons a as => exact ⟨as ++ b :: bs, rfl⟩
      simp only [writeTranscode]
      have hcut : utf8Cutter.cut (p.outPending ++ b :: bs)
          = if (p.outPending ++ b :: bs).length < utf8LeadLen (p.outPending.headD b) then none
            else some (decodeSeq
              ((p.outPending ++ b :: bs).take (utf8LeadLen (p.outPending.headD b)))) := by
        rw [hxs]
        rfl
      have hpos := utf8LeadLen_pos (p.outPending.headD b)
      generalize utf8LeadLen (p.outPending.headD b) = needed at hcut hpos ⊢
      have hseq : p.outPending.take needed
            ++ (b :: bs).take (needed - (p.outPending.take needed).length)
          = (p.outPending ++ b :: bs).take needed := by
        rw [take_append, length_take]
        congr 2
        omega
      have hlen : ((p.outPending ++ b :: bs).take needed).length < needed
          ↔ (p.outPending ++ b :: bs).length < needed := by
        rw [length_take]
        omega
      rw [hseq]
      split
      case isTrue hlt =>
        have hshort := hlen.mp hlt
        have hall : (b :: bs).take (needed - (p.outPending.take needed).length) = b :: bs := by
          refine take_of_length_le ?_
          rw [length_append] at hshort
          rw [length_take]
          omega
        rw [if_pos hshort] at hcut
        rw [hall, Cutter.scan_of_none hcut]
        exact ⟨p.sink, rfl, by simp, h⟩
      case isFalse hge =>
        rw [if_neg (fun hlt => hge (hlen.mpr hlt))] at hcut
        generalize hunit : decodeSeq ((p.outPending ++ b :: bs).take needed) = unit at hcut ⊢
        obtain ⟨code, consume⟩ := unit
        obtain ⟨k₁, hemit, htaken₁, hk₁⟩ := hI p code h
        have hcpos := utf8Cutter.pos hcut
        have hcle : consume ≤ needed := by
          have hne : (p.outPending ++ b :: bs).take needed ≠ [] := by
            rw [← length_pos_iff, length_take, length_append]
            simp only [length_cons]
            omega
          have := decodeSeq_le hne
          rw [hunit, length_take] at this
          exact Nat.le_trans this (Nat.min_le_left _ _)
        have hcin := utf8Cutter.le hcut
        simp only [length_append, length_cons] at hcin hfuel
        rw [hemit]
        dsimp only
        have hused : min consume (p.outPending.take needed).length
            = min consume p.outPending.length := by
          rw [length_take]
          omega
        have hpend : p.outPending.drop (min consume p.outPending.length)
            = p.outPending.drop consume := by
          rcases Nat.le_total consume p.outPending.length with hle | hle
          · rw [Nat.min_eq_left hle]
          · rw [Nat.min_eq_right hle, drop_length, drop_of_length_le hle]
        have hinput : consume - min consume p.outPending.length
            = consume - p.outPending.length := by omega
        have hrest : p.outPending.drop consume ++ (b :: bs).drop (consume - p.outPending.length)
            = (p.outPending ++ b :: bs).drop consume := drop_append.symm
        rw [hused, hpend, hinput, Cutter.scan_of_some hcut, ← hrest]
        obtain ⟨k₂, hrec, htaken₂, hk₂⟩ := @ih
          { p with sink := k₁, outPending := p.outPending.drop consume } hk₁
          (i + (consume - p.outPending.length)) ((b :: bs).drop (consume - p.outPending.length))
          (by simp only [length_drop, length_cons]; omega) (fun hnil => by
            have hdone := drop_eq_nil_iff.mp hnil
            simp only [length_cons] at hdone
            rw [drop_of_length_le (by omega : p.outPending.length ≤ consume)]
            exact Cutter.cut_nil)
        refine ⟨k₂, ?_, ?_, hk₂⟩
        · rw [hrec]
          simp only [length_drop, length_cons]
          congr 2
          omega
        · rw [htaken₂, htaken₁]
          simp only [flatMap_cons, append_assoc]

theorem emitsWhole_accepts : EmitsWhole Sink.Accepts := fun _ code h => emitWire_accepts h code

variable {buf : List UInt8}

/-- **A port** that takes everything puts out what its wire says. -/
theorem Port.write_accepts {p : Port} (h : p.sink.Accepts) (hne : buf ≠ []) :
    (p.write buf).1 = some buf.length ∧ (p.write buf).2.wire = p.wire.feed buf ∧
      (p.write buf).2.sink.Accepts := by
  by_cases henc : p.encoding = .utf8
  · obtain ⟨k', hw, htaken, hk'⟩ := sinkWrite_accepts h buf
    rw [Port.write, if_neg (not_not_intro henc), hw]
    refine ⟨rfl, ?_, hk'⟩
    rw [Wire.feed_utf8 (w := p.wire) henc]
    exact congrArg (Wire.mk _ _) htaken
  · obtain ⟨k', hw, htaken, hk'⟩ := writeTranscode_whole emitsWhole_accepts
      (p.outPending.length + buf.length) h 0 (Nat.le_refl _) fun hnil => absurd hnil hne
    rw [Port.write, if_pos henc, hw, Nat.zero_add]
    refine ⟨rfl, ?_, hk'⟩
    rw [Wire.feed_other (w := p.wire) henc]
    exact congrArg (Wire.mk _ _) htaken

/-! ## Streams and their tees -/

/-- What a stream and its tee have put out and carry over. -/
structure View where
  main : Wire
  teed : Option Wire

def View.feed (v : View) (bs : List UInt8) : View := ⟨v.main.feed bs, v.teed.map (·.feed bs)⟩

structure View.Resting (v : View) : Prop where
  main : v.main.Resting
  teed : ∀ w ∈ v.teed, w.Resting

theorem View.feed_append (v : View) (xs ys : List UInt8) :
    v.feed (xs ++ ys) = (v.feed xs).feed ys := by
  cases hv : v.teed <;> simp [View.feed, Wire.feed_append, hv]

theorem View.Resting.feed_nil {v : View} (h : v.Resting) : v.feed [] = v := by
  obtain ⟨main, teed⟩ := v
  cases teed with
  | none => exact congrArg (View.mk · none) h.main.feed_nil
  | some w =>
    have hw : w.feed [] = w := (h.teed w rfl).feed_nil
    rw [View.feed, h.main.feed_nil, Option.map_some, hw]

theorem View.Resting.feed {v : View} (h : v.Resting) (bs : List UInt8) : (v.feed bs).Resting := by
  refine ⟨h.main.feed bs, fun w hw => ?_⟩
  obtain ⟨w₀, hw₀, rfl⟩ := Option.map_eq_some_iff.mp hw
  exact (h.teed w₀ hw₀).feed bs

def AxlStream.view (s : AxlStream) : View := ⟨s.toPort.wire, s.tee.map fun t => t.toPort.wire⟩

/-- What the stream stands for: all that was written has been put out. -/
def AxlStream.total (s : AxlStream) : View := s.view.feed s.wbuf

/-- The stream and its tee take everything. -/
structure Accepting (s : AxlStream) : Prop where
  main : s.sink.Accepts
  tee : ∀ t ∈ s.tee, t.sink.Accepts

/-- A call that writes left the buffer and its settings alone. -/
structure SameBuffer (s s' : AxlStream) : Prop where
  wbuf : s'.wbuf = s.wbuf
  cap : s'.wbufCap = s.wbufCap
  mode : s'.bufMode = s.bufMode

variable {s : AxlStream}

theorem streamWriteNow_accepts (h : Accepting s) (hne : buf ≠ []) :
    (streamWriteNow s buf).1 = some buf.length ∧
      (streamWriteNow s buf).2.view = s.view.feed buf ∧
      Accepting (streamWriteNow s buf).2 ∧ SameBuffer s (streamWriteNow s buf).2 := by
  obtain ⟨hret, hwire, hacc⟩ := Port.write_accepts h.main hne
  refine ⟨hret, ?_, ⟨hacc, ?_⟩, rfl, rfl, rfl⟩
  · rw [AxlStream.view, AxlStream.view, View.feed]
    congr 1
    cases ht : s.tee with
    | none => simp [streamWriteNow, ht]
    | some t =>
      have htee := (Port.write_accepts (h.tee t ht) hne).2.1
      simp only [streamWriteNow, ht, Option.map_some, Tee.forward]
      rw [htee]
  · intro t ht
    obtain ⟨t₀, ht₀, rfl⟩ := Option.map_eq_some_iff.mp ht
    exact (Port.write_accepts (h.tee t₀ ht₀) hne).2.2

/-! ## One call -/

/-- What holds between calls when sinks take everything. -/
structure Good (s : AxlStream) : Prop where
  accepting : Accepting s
  resting : s.view.Resting
  unbuffered : s.bufMode = .none → s.wbuf = []
  bound : s.wbuf.length ≤ s.wbufCap

/-- A flush of the first `k` bytes changes neither what the stream stands for
nor its settings. -/
theorem streamFlushPrefix_accepts (h : Good s) {k : Nat} (hk : k ≤ s.wbuf.length) :
    (streamFlushPrefix s k).1 = .ok ∧ (streamFlushPrefix s k).2.total = s.total ∧
      Good (streamFlushPrefix s k).2 ∧ (streamFlushPrefix s k).2.wbuf = s.wbuf.drop k ∧
      (streamFlushPrefix s k).2.wbufCap = s.wbufCap ∧
      (streamFlushPrefix s k).2.bufMode = s.bufMode := by
  rw [streamFlushPrefix]
  cases k with
  | zero =>
    refine ⟨rfl, rfl, ?_, rfl, rfl, rfl⟩
    rw [flushLoop, drop_zero]
    exact h
  | succ k =>
    have hlen : (s.wbuf.take (k + 1)).length = k + 1 := length_take_of_le hk
    have hne : s.wbuf.take (k + 1) ≠ [] := by
      rw [← length_pos_iff]
      omega
    obtain ⟨hret, hview, hacc, hsame⟩ := streamWriteNow_accepts h.accepting hne
    have hdone : flushLoop (k + 1) s (k + 1) 0
        = (.ok, { (streamWriteNow s (s.wbuf.take (k + 1))).2 with
            wbuf := s.wbuf.drop (k + 1) }) := by
      rw [flushLoop, if_pos (Nat.succ_pos k), drop_zero, Nat.sub_zero]
      generalize streamWriteNow s (s.wbuf.take (k + 1)) = r at hret hsame
      obtain ⟨n, s'⟩ := r
      cases hret
      have hw : s'.wbuf = s.wbuf := hsame.wbuf
      dsimp only
      rw [hlen, if_neg (Nat.succ_ne_zero k), Nat.zero_add]
      cases k with
      | zero => rw [flushLoop, hw]
      | succ k => rw [flushLoop, if_neg (Nat.lt_irrefl _), hw]
    rw [hdone]
    refine ⟨rfl, ?_, ⟨⟨hacc.main, hacc.tee⟩, ?_, fun hm => ?_, ?_⟩, rfl, hsame.cap, hsame.mode⟩
    · calc (streamWriteNow s (s.wbuf.take (k + 1))).2.view.feed (s.wbuf.drop (k + 1))
          = (s.view.feed (s.wbuf.take (k + 1))).feed (s.wbuf.drop (k + 1)) := by rw [hview]
        _ = s.total := by
          rw [← View.feed_append, take_append_drop]
          rfl
    · have hrest := h.resting.feed (s.wbuf.take (k + 1))
      rw [← hview] at hrest
      exact hrest
    · rw [h.unbuffered (hsame.mode.symm.trans hm), drop_nil]
    · have := h.bound
      simp only [length_drop, hsame.cap]
      omega

theorem streamFlushAll_accepts (h : Good s) :
    (streamFlushAll s).1 = .ok ∧ (streamFlushAll s).2.total = s.total ∧
      Good (streamFlushAll s).2 ∧ (streamFlushAll s).2.wbuf = [] ∧
      (streamFlushAll s).2.wbufCap = s.wbufCap ∧
      (streamFlushAll s).2.bufMode = s.bufMode := by
  have := streamFlushPrefix_accepts h (Nat.le_refl s.wbuf.length)
  rw [drop_length] at this
  exact this

theorem streamDrain_accepts (h : Good s) :
    (streamDrain s).1 = .ok ∧ (streamDrain s).2.total = s.total ∧ Good (streamDrain s).2 ∧
      (streamDrain s).2.wbuf = [] ∧ (streamDrain s).2.wbufCap = s.wbufCap ∧
      (streamDrain s).2.bufMode = s.bufMode := by
  rw [streamDrain]
  split
  case isTrue => exact streamFlushAll_accepts h
  case isFalse hno =>
    refine ⟨rfl, rfl, h, ?_, rfl, rfl⟩
    by_cases hm : s.bufMode = .none
    · exact h.unbuffered hm
    · exact length_eq_zero_iff.mp (by
        by_contra hpos
        exact hno ⟨hm, Nat.pos_of_ne_zero hpos⟩)

/-- Nothing waits: the stream stands for what it has put out. -/
theorem Good.total_eq_view (h : Good s) (hw : s.wbuf = []) : s.total = s.view := by
  rw [AxlStream.total, hw, h.resting.feed_nil]

/-- Straight to the sink, with nothing waiting. -/
theorem streamWriteNow_total (h : Good s) (hw : s.wbuf = []) (hne : buf ≠ []) :
    (streamWriteNow s buf).2.total = s.total.feed buf ∧ Good (streamWriteNow s buf).2 := by
  obtain ⟨-, hview, hacc, hsame⟩ := streamWriteNow_accepts h.accepting hne
  have hgood : Good (streamWriteNow s buf).2 := by
    refine ⟨hacc, ?_, fun _ => hsame.wbuf.trans hw, ?_⟩
    · rw [hview]
      exact h.resting.feed buf
    · rw [hsame.wbuf, hsame.cap]
      exact h.bound
  refine ⟨?_, hgood⟩
  rw [hgood.total_eq_view (hsame.wbuf.trans hw), hview, h.total_eq_view hw]

theorem flushPolicy_accepts (h : Good s) :
    (flushPolicy s).1 = .ok ∧ (flushPolicy s).2.total = s.total ∧ Good (flushPolicy s).2 := by
  have hall := streamFlushAll_accepts h
  have hline := streamFlushPrefix_accepts h (throughNewline_le s.wbuf)
  rw [flushPolicy]
  split_ifs
  · exact ⟨hline.1, hline.2.1, hline.2.2.1⟩
  · exact ⟨hall.1, hall.2.1, hall.2.2.1⟩
  · exact ⟨rfl, rfl, h⟩
  · exact ⟨hall.1, hall.2.1, hall.2.2.1⟩
  · exact ⟨rfl, rfl, h⟩

/-- **A write** adds its bytes to what the stream stands for. -/
theorem axlWrite_accepts (h : Good s) (hne : buf ≠ []) :
    (axlWrite s buf).2.total = s.total.feed buf ∧ Good (axlWrite s buf).2 := by
  have hlen : ¬ buf.length = 0 := fun h0 => hne (length_eq_zero_iff.mp h0)
  rw [axlWrite, if_neg hlen]
  split
  case isTrue hmode => exact streamWriteNow_total h (h.unbuffered hmode) hne
  case isFalse hmode =>
    obtain ⟨hok, htot, hgood, hempty, hcap, hmode'⟩ := streamFlushAll_accepts h
    rw [streamWriteBuffered]
    split
    case isTrue hbig =>
      -- too large for the buffer: what waits goes first
      generalize streamFlushAll s = r at hok htot hgood hempty
      obtain ⟨rc, s'⟩ := r
      cases hok
      dsimp only at htot hgood hempty ⊢
      rw [← htot]
      exact streamWriteNow_total hgood hempty hne
    case isFalse hsmall =>
      have hroom : (makeRoom s buf.length).1 = .ok ∧ (makeRoom s buf.length).2.total = s.total ∧
          Good (makeRoom s buf.length).2 ∧ (makeRoom s buf.length).2.bufMode = s.bufMode ∧
          (makeRoom s buf.length).2.wbuf.length + buf.length
            ≤ (makeRoom s buf.length).2.wbufCap := by
        rw [makeRoom]
        split
        case isTrue =>
          refine ⟨hok, htot, hgood, hmode', ?_⟩
          rw [hempty, hcap, length_nil]
          omega
        case isFalse hfits => exact ⟨rfl, rfl, h, rfl, Nat.le_of_not_lt hfits⟩
      obtain ⟨hok₁, htot₁, hgood₁, hmode₁, hfits⟩ := hroom
      generalize makeRoom s buf.length = r at hok₁ htot₁ hgood₁ hmode₁ hfits
      obtain ⟨rc, s₁⟩ := r
      cases hok₁
      dsimp only at htot₁ hgood₁ hmode₁ hfits ⊢
      have hgood₂ : Good { s₁ with wbuf := s₁.wbuf ++ buf } := by
        refine ⟨⟨hgood₁.accepting.main, hgood₁.accepting.tee⟩, hgood₁.resting, fun hm => ?_, ?_⟩
        · exact absurd (hmode₁.symm.trans hm) hmode
        · rw [length_append]
          exact hfits
      obtain ⟨hok₂, htot₂, hgood₃⟩ := flushPolicy_accepts hgood₂
      generalize flushPolicy { s₁ with wbuf := s₁.wbuf ++ buf } = r₂ at hok₂ htot₂ hgood₃
      obtain ⟨rc₂, s₂⟩ := r₂
      cases hok₂
      refine ⟨?_, hgood₃⟩
      dsimp only at htot₂ ⊢
      rw [htot₂, ← htot₁]
      exact View.feed_append _ _ _

theorem axlFflush_accepts (h : Good s) :
    (axlFflush s).2.total = s.total ∧ Good (axlFflush s).2 := by
  obtain ⟨hok, htot, hgood, -⟩ := streamDrain_accepts h
  rw [axlFflush]
  generalize streamDrain s = r at hok htot hgood
  obtain ⟨rc, s'⟩ := r
  cases hok
  dsimp only at htot hgood ⊢
  cases s'.sink.flush with
  | none => exact ⟨htot, hgood⟩
  | some flush =>
    exact ⟨htot, ⟨hgood.accepting.main, hgood.accepting.tee⟩, hgood.resting, hgood.unbuffered,
      hgood.bound⟩

theorem axlStreamSetBuffering_accepts (h : Good s) (mode : AxlStreamBuffering) (size : Nat)
    (granted : Bool) :
    (axlStreamSetBuffering s mode size granted).2.total = s.total ∧
      Good (axlStreamSetBuffering s mode size granted).2 := by
  obtain ⟨hok, htot, hgood, hempty, -⟩ := streamDrain_accepts h
  rw [axlStreamSetBuffering]
  generalize streamDrain s = r at hok htot hgood hempty
  obtain ⟨rc, s'⟩ := r
  cases hok
  dsimp only at htot hgood hempty ⊢
  -- whatever the settings become, nothing waits any more
  have hsettings : ∀ cap mode, ({ s' with wbuf := [], wbufCap := cap, bufMode := mode }
      : AxlStream).total = s.total ∧
      Good { s' with wbuf := [], wbufCap := cap, bufMode := mode } := by
    intro cap mode
    refine ⟨?_, ⟨hgood.accepting.main, hgood.accepting.tee⟩, hgood.resting, fun _ => rfl,
      Nat.zero_le _⟩
    rw [← htot, hgood.total_eq_view hempty]
    exact hgood.resting.feed_nil
  generalize (if size = 0 then 1024 else size) = cap
  split_ifs
  · exact hsettings 0 .none
  · exact hsettings 0 .none
  · exact hsettings cap mode

theorem axlStreamSetEncoding_good (h : Good s) (enc : AxlEncoding) :
    Good (axlStreamSetEncoding s enc) :=
  ⟨⟨h.accepting.main, h.accepting.tee⟩, ⟨⟨Cutter.cut_nil, fun _ => rfl⟩, h.resting.teed⟩,
    h.unbuffered, h.bound⟩

/-- Every call keeps what holds between calls, the bound on the buffer included. -/
theorem good_exec (h : Good s) (op : Op) : Good (exec s op) := by
  cases op with
  | write buf =>
    by_cases hne : buf = []
    · rw [hne, exec, axlWrite, if_pos length_nil]
      exact h
    · exact (axlWrite_accepts h hne).2
  | fflush => exact (axlFflush_accepts h).2
  | setBuffering mode size granted => exact (axlStreamSetBuffering_accepts h mode size granted).2
  | setEncoding enc => exact axlStreamSetEncoding_good h enc

theorem good_run (h : Good s) (ops : List Op) : Good (run s ops) := by
  induction ops generalizing s with
  | nil => exact h
  | cons op ops ih => exact ih (good_exec h op)

/-! ## Runs, buffered and unbuffered -/

/-- The calls that say something to an unbuffered stream, too. -/
def Op.plain : Op → Bool
  | .write _ => true
  | .setEncoding _ => true
  | _ => false

/-- The encoding changes only while nothing waits in the buffer, or not at all. -/
def EncodingAtRest (s : AxlStream) : Op → Prop
  | .setEncoding enc => s.wbuf = [] ∨ s.encoding = .utf8 ∧ enc = .utf8
  | _ => True

/-- The stream without its buffer. -/
def unbuffered (s : AxlStream) : AxlStream :=
  { s with bufMode := .none, wbuf := [], wbufCap := 0 }

/-- All that the sink of a stream, and that of its tee, have received once the
stream is closed. -/
def outputs (s : AxlStream) : List UInt8 × Option (List UInt8) :=
  ((axlFclose s).1.sink.taken, (axlFclose s).2.map fun t => t.sink.taken)

/-- The unbuffered stream `u` has put out what `s` stands for. -/
structure StandsFor (s u : AxlStream) : Prop where
  good : Good s
  plain : Good u
  mode : u.bufMode = .none
  view : u.view = s.total

variable {u : AxlStream}

theorem StandsFor.wbuf (h : StandsFor s u) : u.wbuf = [] :=
  h.plain.unbuffered h.mode

theorem StandsFor.of_total {s' : AxlStream} (h : StandsFor s u) (h' : s'.total = s.total ∧ Good s')
    : StandsFor s' u :=
  ⟨h'.2, h.plain, h.mode, h.view.trans h'.1.symm⟩

theorem StandsFor.write (h : StandsFor s u) (buf : List UInt8) :
    StandsFor (axlWrite s buf).2 (axlWrite u buf).2 := by
  by_cases hne : buf = []
  · have hnop : ∀ s : AxlStream, axlWrite s [] = (some 0, s) := fun s => by
      rw [axlWrite, if_pos length_nil]
    rw [hne, hnop, hnop]
    exact h
  · obtain ⟨htot, hgood⟩ := axlWrite_accepts h.good hne
    obtain ⟨-, hgood'⟩ := axlWrite_accepts h.plain hne
    obtain ⟨-, hview, -, hsame⟩ := streamWriteNow_accepts h.plain.accepting hne
    have hlen : ¬ buf.length = 0 := fun h0 => hne (length_eq_zero_iff.mp h0)
    have hnow : axlWrite u buf = streamWriteNow u buf := by
      rw [axlWrite, if_neg hlen, if_pos h.mode]
    refine ⟨hgood, hgood', ?_, ?_⟩
    · rw [hnow]
      exact hsame.mode.trans h.mode
    · rw [hnow, hview, htot, h.view]

theorem StandsFor.setEncoding (h : StandsFor s u) {enc : AxlEncoding}
    (hc : EncodingAtRest s (.setEncoding enc)) :
    StandsFor (axlStreamSetEncoding s enc) (axlStreamSetEncoding u enc) := by
  refine ⟨axlStreamSetEncoding_good h.good enc, axlStreamSetEncoding_good h.plain enc, h.mode, ?_⟩
  have hview : ∀ s : AxlStream, (axlStreamSetEncoding s enc).view
      = ⟨⟨enc, [], s.view.main.out⟩, s.view.teed⟩ := fun _ => rfl
  rcases hc with hw | ⟨h8, rfl⟩
  · have hw' : (axlStreamSetEncoding s enc).wbuf = [] := hw
    rw [(axlStreamSetEncoding_good h.good enc).total_eq_view hw', hview, hview, h.view,
      h.good.total_eq_view hw]
  · -- UTF-8 carries nothing over, so nothing changes
    have hpend : s.outPending = [] := h.good.resting.main.utf8 h8
    have hsame : axlStreamSetEncoding s .utf8 = s := by
      rw [axlStreamSetEncoding, ← hpend, ← h8]
    have henc : u.encoding = .utf8 := by
      have hmain := congrArg (fun v : View => v.main.encoding) h.view
      exact hmain.trans ((Wire.feed_encoding _ _).trans h8)
    have hpend' : u.outPending = [] := h.plain.resting.main.utf8 henc
    have hsame' : axlStreamSetEncoding u .utf8 = u := by
      rw [axlStreamSetEncoding, ← hpend', ← henc]
    rw [hsame, hsame']
    exact h.view

theorem standsFor_run (h : StandsFor s u) {ops : List Op} (hc : RunMeets EncodingAtRest s ops) :
    StandsFor (run s ops) (run u (ops.filter Op.plain)) := by
  induction ops generalizing s u with
  | nil => exact h
  | cons op ops ih =>
    obtain ⟨hop, hrest⟩ := hc
    cases op with
    | write buf => exact ih (h.write buf) hrest
    | fflush => exact ih (h.of_total (axlFflush_accepts h.good)) hrest
    | setBuffering mode size granted =>
      exact ih (h.of_total (axlStreamSetBuffering_accepts h.good mode size granted)) hrest
    | setEncoding enc => exact ih (h.setEncoding hop) hrest

/-- Closing puts out what the stream stands for. -/
theorem outputs_eq (h : Good s) :
    outputs s = (s.total.main.out, s.total.teed.map Wire.out) := by
  obtain ⟨-, htot, hgood, hempty, -⟩ := streamDrain_accepts h
  have hview : (streamDrain s).2.view = s.total := by
    rw [← hgood.total_eq_view hempty, htot]
  rw [← hview, outputs, axlFclose, AxlStream.view, Option.map_map]
  rfl

/-- **Buffering does not show.** On a stream whose sink (and the tee's) takes
everything, in every run of writes, flushes and changes of buffering and
encoding, what is put out by the final close is what the writes and changes of
encoding alone put out unbuffered, provided that the encoding changes only while
nothing waits in the buffer; and the buffer never holds more than it can. -/
theorem buffering_invisible {s : AxlStream} (h : Good s) (hw : s.wbuf = []) (ops : List Op) :
    (RunMeets EncodingAtRest s ops →
      outputs (run s ops) = outputs (run (unbuffered s) (ops.filter Op.plain))) ∧
    ∀ n, (run s (ops.take n)).wbuf.length ≤ (run s (ops.take n)).wbufCap := by
  refine ⟨fun hc => ?_, fun n => (good_run h (ops.take n)).bound⟩
  have hstart : StandsFor s (unbuffered s) := by
    refine ⟨h, ⟨⟨h.accepting.main, h.accepting.tee⟩, h.resting, fun _ => rfl, Nat.zero_le _⟩,
      rfl, ?_⟩
    exact (h.total_eq_view hw).symm
  have hend := standsFor_run hstart hc
  rw [outputs_eq hend.good, outputs_eq hend.plain, ← hend.view,
    hend.plain.total_eq_view hend.wbuf]

/-- A backend that takes whatever it is offered. -/
def quietSink : Sink := ⟨fun _ buf => some buf.length, none, 0, 0, []⟩

/-- A stream as it is opened on a backend. -/
def AxlStream.fresh (sink : Sink) (tee : Option Tee) : AxlStream :=
  { sink := sink, encoding := .utf8, outPending := [], err := false, tee := tee,
    bufMode := .none, wbuf := [], wbufCap := 0 }

theorem good_fresh {sink : Sink} {tee : Option Tee} (hk : sink.Accepts)
    (ht : ∀ t ∈ tee, t.sink.Accepts ∧ t.toPort.wire.Resting) :
    Good (AxlStream.fresh sink tee) := by
  refine ⟨⟨hk, fun t hm => (ht t hm).1⟩, ⟨⟨Cutter.cut_nil, fun _ => rfl⟩, ?_⟩, fun _ => rfl,
    Nat.le_refl _⟩
  intro w hm
  obtain ⟨t, ht', rfl⟩ := Option.map_eq_some_iff.mp hm
  exact (ht t ht').2

theorem quietSink_accepts : quietSink.Accepts := fun _ buf => ⟨buf.length, rfl, Nat.le_refl _⟩

/-- 'é' byte by byte through a buffer and, after a flush, in UCS-2. -/
theorem buffering_invisible_flushed :
    Good (AxlStream.fresh quietSink none) ∧
      RunMeets EncodingAtRest (AxlStream.fresh quietSink none)
        [.setBuffering .full 4 true, .write [0xC3], .write [0xA9], .fflush,
          .setEncoding .ucs2Le, .write [0xC3], .write [0xA9]] ∧
      outputs (run (AxlStream.fresh quietSink none)
        [.setBuffering .full 4 true, .write [0xC3], .write [0xA9], .fflush,
          .setEncoding .ucs2Le, .write [0xC3], .write [0xA9]])
      = outputs (run (unbuffered (AxlStream.fresh quietSink none))
        [.write [0xC3], .write [0xA9], .setEncoding .ucs2Le, .write [0xC3], .write [0xA9]]) := by
  have hgood : Good (AxlStream.fresh quietSink none) :=
    good_fresh quietSink_accepts (by simp)
  have hmeets : RunMeets EncodingAtRest (AxlStream.fresh quietSink none)
      [.setBuffering .full 4 true, .write [0xC3], .write [0xA9], .fflush,
        .setEncoding .ucs2Le, .write [0xC3], .write [0xA9]] :=
    ⟨trivial, trivial, trivial, trivial, .inl (by decide), trivial, trivial, trivial⟩
  exact ⟨hgood, hmeets, (buffering_invisible hgood rfl _).1 hmeets⟩

/-- 'é' waits in the buffer while the encoding becomes ASCII: a '?' comes out,
where the unbuffered stream has put out the 'é'. -/
theorem buffered_text_recoded :
    Good (AxlStream.fresh quietSink none) ∧
      outputs (run (AxlStream.fresh quietSink none)
        [.setBuffering .full 4 true, .write [0xC3, 0xA9], .setEncoding .ascii])
      = ([0x3F], none) ∧
      outputs (run (unbuffered (AxlStream.fresh quietSink none))
        [.write [0xC3, 0xA9], .setEncoding .ascii])
      = ([0xC3, 0xA9], none) := by
  exact ⟨good_fresh quietSink_accepts (by simp), by decide, by decide⟩

end Stream

end AxlSdk
