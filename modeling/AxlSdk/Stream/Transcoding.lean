import AxlSdk.Lib.Utf8
import AxlSdk.Stream.Buffering

/-!
# Transcoding in pieces

For the encodings other than UTF-8, and backends that take or deliver any positive part
of what they are asked for.

- `axlRead` and its transcoder, on a `Source`: the bytes still on the wire, and how many
  of them each call delivers.
- `axlRead_spec`: a call reads what is `ahead`, which does not depend on the calls.
- `writes_spec`: writing in pieces is feeding the wire at once.
- `decoded_encoded`: text of the basic plane in UCS-2 is read back.
- `transcoding_cut_independent`: all three.
-/

namespace AxlSdk

namespace Stream

namespace Transcoding

open List

/-! ## The read side -/

/-- A backend: how much its `read` delivers at the `n`-th call of what is asked for, none
for a negative result, and what is still on the wire. -/
structure Source where
  answer : Nat → Nat → Option Nat
  calls : Nat
  rest : List UInt8

/-- The fields of a stream that a read uses. -/
structure InPort where
  source : Source
  encoding : AxlEncoding
  inPending : List UInt8
  eof : Bool
  err : Bool

/-- `sink_read` -/
def sinkRead (k : Source) (count : Nat) : Option (List UInt8) × Source :=
  match k.answer k.calls count with
  | none => (none, { k with calls := k.calls + 1 })
  | some m =>
    (some (k.rest.take (min m count)),
      { k with calls := k.calls + 1, rest := k.rest.drop (min m count) })

/-- The loop of `pull_wire`. -/
def pullLoop (n : Nat) : Nat → Source → List UInt8 → Option (List UInt8) × Source
  | 0, k, got => (some got, k)
  | fuel + 1, k, got =>
    if got.length < n then
      match sinkRead k (n - got.length) with
      | (none, k) => (none, k)
      | (some bytes, k) =>
        if bytes.length = 0 then (some got, k) else pullLoop n fuel k (got ++ bytes)
    else (some got, k)

/-- `pull_wire` -/
def pullWire (k : Source) (n : Nat) : Option (List UInt8) × Source := pullLoop n n k []

/-- `encode_utf8_bmp` -/
def encodeUtf8Bmp (code : UInt16) : List UInt8 :=
  if code < 0x80 then [code.toUInt8]
  else if code < 0x800 then
    [((0xC0 : UInt16) ||| code >>> 6).toUInt8, ((0x80 : UInt16) ||| code &&& 0x3F).toUInt8]
  else
    [((0xE0 : UInt16) ||| code >>> 12).toUInt8,
      ((0x80 : UInt16) ||| (code >>> 6) &&& 0x3F).toUInt8,
      ((0x80 : UInt16) ||| code &&& 0x3F).toUInt8]

/-- `drain_in_pending` -/
def drainInPending (p : InPort) (cap : Nat) : List UInt8 × InPort :=
  (p.inPending.take cap, { p with inPending := p.inPending.drop cap })

/-- The ASCII loop of `read_transcode`, with room for so many bytes. -/
def asciiLoop : Nat → InPort → List UInt8 → Option (List UInt8) × InPort
  | 0, p, out => (some out, p)
  | room + 1, p, out =>
    match pullWire p.source 1 with
    | (none, k) => (if out.length = 0 then none else some out, { p with source := k, err := true })
    | (some got, k) =>
      match got with
      | [] => (some out, { p with source := k })
      | b :: _ =>
        asciiLoop room { p with source := k } (out ++ [if b < 0x80 then b else 0x3F])

/-- The code unit of a pair. -/
def pairCode (enc : AxlEncoding) (a b : UInt8) : UInt16 :=
  if enc = .ucs2Le then a.toUInt16 ||| b.toUInt16 <<< 8 else a.toUInt16 <<< 8 ||| b.toUInt16

/-- The UCS-2 loop of `read_transcode`. -/
def pairLoop : Nat → Nat → InPort → List UInt8 → Option (List UInt8) × InPort
  | 0, _, p, out => (some out, p)
  | fuel + 1, room, p, out =>
    if room = 0 then (some out, p)
    else
      match pullWire p.source 2 with
      | (none, k) =>
        (if out.length = 0 then none else some out, { p with source := k, err := true })
      | (some [a, b], k) =>
        let enc := encodeUtf8Bmp (pairCode p.encoding a b)
        pairLoop fuel (room - (enc.take room).length)
          { p with source := k, inPending := p.inPending ++ enc.drop room } (out ++ enc.take room)
      -- the end, or an orphan byte
      | (some _, k) => (some out, { p with source := k })

/-- `read_transcode` -/
def readTranscode (p : InPort) (count : Nat) : Option (List UInt8) × InPort :=
  let (out, p) := drainInPending p count
  if out.length ≥ count then (some out, p)
  else if p.encoding = .ascii then asciiLoop (count - out.length) p out
  else pairLoop (count - out.length) (count - out.length) p out

/-- `axl_read` -/
def axlRead (p : InPort) (count : Nat) : Option (List UInt8) × InPort :=
  if count = 0 then (some [], p)
  else
    match
      if p.encoding ≠ .utf8 then readTranscode p count
      else ((sinkRead p.source count).1, { p with source := (sinkRead p.source count).2 }) with
    | (none, p) => (none, { p with err := true })
    | (some out, p) => (some out, if out.length = 0 then { p with eof := true } else p)

/-! ## What is ahead of a reader -/

/-- A byte of ASCII. -/
def asciiByte (b : UInt8) : UInt8 := if b < 0x80 then b else 0x3F

/-- The text of wire bytes. -/
def decoded (enc : AxlEncoding) : List UInt8 → List UInt8
  | [] => []
  | [a] => if enc = .ascii then [asciiByte a] else []
  | a :: b :: rest =>
    if enc = .ascii then asciiByte a :: decoded enc (b :: rest)
    else encodeUtf8Bmp (pairCode enc a b) ++ decoded enc rest

theorem decoded_ascii {enc : AxlEncoding} (henc : enc = .ascii) (a : UInt8) (rest : List UInt8) :
    decoded enc (a :: rest) = asciiByte a :: decoded enc rest := by
  cases rest with
  | nil => simp only [decoded, if_pos henc]
  | cons b rest => rw [decoded, if_pos henc]

/-- A backend that delivers something until the end. -/
def Source.Delivers (k : Source) : Prop :=
  ∀ n count, 0 < count → ∃ m, 0 < m ∧ k.answer n count = some m

/-- What will be read. -/
def ahead (p : InPort) : List UInt8 := p.inPending ++ decoded p.encoding p.source.rest

variable {p : InPort} {k : Source}

theorem sinkRead_delivers (h : k.Delivers) {count : Nat} (hcount : 0 < count) :
    ∃ m k', 0 < m ∧ m ≤ count ∧ sinkRead k count = (some (k.rest.take m), k') ∧
      k'.rest = k.rest.drop m ∧ k'.Delivers := by
  obtain ⟨m, hm, hanswer⟩ := h k.calls count hcount
  refine ⟨min m count, { k with calls := k.calls + 1, rest := k.rest.drop (min m count) },
    by omega, Nat.min_le_right _ _, ?_, rfl, h⟩
  rw [sinkRead, hanswer]

theorem pulled {m count got n : Nat} {rest : List UInt8} (hle : m ≤ count)
    (hn : n - got = count) :
    rest.take m ++ (rest.drop m).take (n - (got + min m rest.length)) = rest.take count := by
  by_cases hall : m ≤ rest.length
  · have hsum : count = m + (n - (got + min m rest.length)) := by omega
    conv => rhs; rw [hsum]
    rw [take_add]
  · rw [take_of_length_le (by omega), drop_of_length_le (by omega), take_nil,
      append_nil, take_of_length_le (by omega)]

/-- All that was asked for is pulled, or all that there is. -/
theorem pullLoop_spec {n fuel : Nat} (h : k.Delivers) {got : List UInt8}
    (hfuel : n - got.length ≤ fuel) :
    ∃ k', pullLoop n fuel k got = (some (got ++ k.rest.take (n - got.length)), k') ∧
      k'.rest = k.rest.drop (n - got.length) ∧ k'.Delivers := by
  induction fuel generalizing k got with
  | zero =>
    rw [Nat.le_zero.mp hfuel, take_zero, append_nil, drop_zero]
    exact ⟨k, rfl, rfl, h⟩
  | succ fuel ih =>
    rw [pullLoop]
    by_cases hmore : got.length < n
    · obtain ⟨m, k', hpos, hle, hread, hrest, hk'⟩ :=
        sinkRead_delivers h (show 0 < n - got.length by omega)
      rw [if_pos hmore, hread]
      dsimp only
      by_cases hend : (k.rest.take m).length = 0
      · rw [if_pos hend]
        rw [length_take] at hend
        have hnil : k.rest = [] := length_eq_zero_iff.mp (by omega)
        rw [hnil, drop_nil] at hrest
        rw [hnil, take_nil, append_nil, drop_nil]
        exact ⟨k', rfl, hrest, hk'⟩
      · rw [if_neg hend]
        rw [length_take] at hend
        have hlen : (got ++ k.rest.take m).length = got.length + min m k.rest.length := by
          rw [length_append, length_take]
        obtain ⟨k'', hpull, hrest', hk''⟩ := ih hk' (show n - (got ++ k.rest.take m).length ≤ fuel by
          omega)
        rw [hlen, hrest] at hpull hrest'
        refine ⟨k'', ?_, ?_, hk''⟩
        · rw [hpull, append_assoc, pulled hle rfl]
        · rw [hrest', drop_drop]
          by_cases hall : m ≤ k.rest.length
          · congr 1
            omega
          · rw [drop_of_length_le (by omega), drop_of_length_le (by omega)]
    · rw [if_neg hmore, Nat.sub_eq_zero_of_le (Nat.not_lt.mp hmore), take_zero,
        append_nil, drop_zero]
      exact ⟨k, rfl, rfl, h⟩

theorem pullWire_spec (h : k.Delivers) (n : Nat) :
    ∃ k', pullWire k n = (some (k.rest.take n), k') ∧ k'.rest = k.rest.drop n ∧ k'.Delivers :=
  pullLoop_spec h (Nat.le_refl n)

/-- A reader with nothing but BMP text ahead, as calls leave it. -/
structure Reader (p : InPort) : Prop where
  encoding : p.encoding ≠ .utf8
  delivers : p.source.Delivers
  pending : p.inPending.length ≤ 2

/-- A call has read `count` bytes of what was ahead behind `out`, or all of it. -/
structure Reads (p : InPort) (count : Nat) (out : List UInt8)
    (r : Option (List UInt8) × InPort) : Prop where
  read : r.1 = some (out ++ (ahead p).take count)
  ahead : ahead r.2 = (ahead p).drop count
  reader : Reader r.2

theorem encodeUtf8Bmp_length (code : UInt16) :
    0 < (encodeUtf8Bmp code).length ∧ (encodeUtf8Bmp code).length ≤ 3 := by
  rw [encodeUtf8Bmp]
  split_ifs <;> exact ⟨by simp, by simp⟩

theorem asciiLoop_spec (henc : p.encoding = .ascii) (h : Reader p) (hpend : p.inPending = [])
    (room : Nat) (out : List UInt8) : Reads p room out (asciiLoop room p out) := by
  have hahead : ahead p = decoded p.encoding p.source.rest := by rw [ahead, hpend, nil_append]
  induction room generalizing p out with
  | zero => exact ⟨by rw [asciiLoop, take_zero, append_nil], rfl, h⟩
  | succ room ih =>
    obtain ⟨k', hpull, hrest, hk'⟩ := pullWire_spec h.delivers 1
    rw [asciiLoop, hpull]
    cases hbytes : p.source.rest with
    | nil =>
      have hnone : ahead p = [] := by rw [hahead, hbytes, decoded]
      rw [hbytes, drop_nil] at hrest
      refine ⟨?_, ?_, ⟨h.encoding, hk', h.pending⟩⟩
      · rw [hnone, take_nil, take_nil, append_nil]
      · rw [hnone, drop_nil, take_nil]
        dsimp only
        rw [ahead, hpend, hrest, decoded]
        rfl
    | cons b rest =>
      rw [hbytes, drop_succ_cons, drop_zero] at hrest
      have hcons : ahead p = asciiByte b :: decoded p.encoding rest := by
        rw [hahead, hbytes, decoded_ascii henc]
      rw [take_succ_cons, take_zero]
      dsimp only
      obtain ⟨hread, hleft, hreader⟩ := ih (p := { p with source := k' }) henc
        ⟨h.encoding, hk', h.pending⟩ hpend (out ++ [asciiByte b])
        (by rw [ahead, hpend, nil_append])
      have hmore : ahead { p with source := k' } = decoded p.encoding rest := by
        rw [ahead, hpend, nil_append, hrest]
      rw [hmore] at hread hleft
      refine ⟨?_, ?_, hreader⟩
      · refine hread.trans ?_
        rw [hcons, take_succ_cons, append_assoc, singleton_append]
      · refine hleft.trans ?_
        rw [hcons, drop_succ_cons]

theorem pairLoop_full (fuel : Nat) (p : InPort) (out : List UInt8) :
    pairLoop fuel 0 p out = (some out, p) := by
  cases fuel <;> rfl

theorem pairLoop_spec {fuel : Nat} (henc : p.encoding ≠ .ascii) (h : Reader p)
    (hpend : p.inPending = []) {room : Nat} (hfuel : room ≤ fuel) (out : List UInt8) :
    Reads p room out (pairLoop fuel room p out) := by
  have hahead : ahead p = decoded p.encoding p.source.rest := by rw [ahead, hpend, nil_append]
  induction fuel generalizing p room out with
  | zero =>
    rw [Nat.le_zero.mp hfuel]
    exact ⟨by rw [pairLoop, take_zero, append_nil], rfl, h⟩
  | succ fuel ih =>
    rw [pairLoop]
    by_cases hroom : room = 0
    · rw [if_pos hroom, hroom]
      exact ⟨by rw [take_zero, append_nil], rfl, h⟩
    rw [if_neg hroom]
    obtain ⟨k', hpull, hrest, hk'⟩ := pullWire_spec h.delivers 2
    rw [hpull]
    -- the end, an orphan, or a pair
    obtain hbytes | ⟨a, hbytes⟩ | ⟨a, b, rest, hbytes⟩ : p.source.rest = [] ∨
        (∃ a, p.source.rest = [a]) ∨ ∃ a b rest, p.source.rest = a :: b :: rest := by
      rcases p.source.rest with _ | ⟨a, _ | ⟨b, rest⟩⟩
      · exact .inl rfl
      · exact .inr (.inl ⟨a, rfl⟩)
      · exact .inr (.inr ⟨a, b, rest, rfl⟩)
    · have hnone : ahead p = [] := by rw [hahead, hbytes, decoded]
      rw [hbytes, drop_nil] at hrest
      rw [hbytes, take_nil]
      refine ⟨?_, ?_, ⟨h.encoding, hk', h.pending⟩⟩
      · rw [hnone, take_nil, append_nil]
      · rw [hnone, drop_nil]
        dsimp only
        rw [ahead, hpend, hrest, decoded]
        rfl
    · have hnone : ahead p = [] := by rw [hahead, hbytes, decoded, if_neg henc]
      have htwo : [a].take 2 = [a] := rfl
      have hrest' : k'.rest = [] := by
        rw [hrest, hbytes]
        rfl
      rw [hbytes, htwo]
      dsimp only
      refine ⟨?_, ?_, ⟨h.encoding, hk', h.pending⟩⟩
      · rw [hnone, take_nil, append_nil]
      · rw [hnone, drop_nil, ahead, hpend, hrest', decoded]
        rfl
    · have hcons : ahead p =
          encodeUtf8Bmp (pairCode p.encoding a b) ++ decoded p.encoding rest := by
        rw [hahead, hbytes, decoded, if_neg henc]
      rw [hbytes] at hrest
      rw [hbytes]
      have hrest' : k'.rest = rest := hrest
      obtain ⟨hpos, hlen⟩ := encodeUtf8Bmp_length (pairCode p.encoding a b)
      rw [take_succ_cons, take_succ_cons, take_zero]
      dsimp only
      generalize encodeUtf8Bmp (pairCode p.encoding a b) = enc at hcons hpos hlen ⊢
      rw [hpend, nil_append, length_take]
      by_cases hfits : enc.length ≤ room
      · rw [take_of_length_le hfits, drop_of_length_le hfits, Nat.min_eq_right hfits]
        have hmore : ahead { p with source := k', inPending := [] } = decoded p.encoding rest := by
          rw [ahead, hrest', nil_append]
        obtain ⟨hread, hleft, hreader⟩ := ih (p := { p with source := k', inPending := [] }) henc
          ⟨h.encoding, hk', Nat.zero_le 2⟩ rfl (show room - enc.length ≤ fuel by omega)
          (out ++ enc) (by rw [ahead, nil_append])
        rw [hmore] at hread hleft
        refine ⟨?_, ?_, hreader⟩
        · rw [hread, hcons, take_append, take_of_length_le hfits, append_assoc]
        · rw [hleft, hcons, drop_append, drop_of_length_le hfits, nil_append]
      · -- the rest of the sequence waits
        have hshort : room ≤ enc.length := Nat.le_of_not_le hfits
        rw [Nat.min_eq_left hshort, Nat.sub_self, pairLoop_full]
        refine ⟨?_, ?_, ⟨h.encoding, hk', ?_⟩⟩
        · rw [hcons, take_append_of_le_length hshort]
        · rw [hcons, drop_append_of_le_length hshort, ahead, hrest']
        · rw [length_drop]
          omega

/-- **A call reads what is ahead**, as much as it asks for. -/
theorem axlRead_spec (h : Reader p) (count : Nat) : Reads p count [] (axlRead p count) := by
  rw [axlRead]
  by_cases hzero : count = 0
  · rw [if_pos hzero, hzero]
    exact ⟨by rw [take_zero, append_nil], rfl, h⟩
  rw [if_neg hzero, if_pos h.encoding]
  have htrans : Reads p count [] (readTranscode p count) := by
    rw [readTranscode, drainInPending]
    dsimp only
    by_cases hdone : (p.inPending.take count).length ≥ count
    · rw [if_pos hdone]
      rw [length_take] at hdone
      have hle : count ≤ p.inPending.length := by omega
      refine ⟨?_, ?_, ⟨h.encoding, h.delivers, ?_⟩⟩
      · rw [ahead, take_append_of_le_length hle, nil_append]
      · rw [ahead, ahead, drop_append_of_le_length hle]
      · have hpend := h.pending
        rw [length_drop]
        omega
    · rw [if_neg hdone]
      rw [length_take] at hdone
      have hle : p.inPending.length ≤ count := by omega
      rw [take_of_length_le hle, drop_of_length_le hle]
      have hreader : Reader { p with inPending := [] } :=
        ⟨h.encoding, h.delivers, Nat.zero_le 2⟩
      have hloop : Reads { p with inPending := [] } (count - p.inPending.length) p.inPending
          (if p.encoding = .ascii then
            asciiLoop (count - p.inPending.length) { p with inPending := [] } p.inPending
          else
            pairLoop (count - p.inPending.length) (count - p.inPending.length)
              { p with inPending := [] } p.inPending) := by
        by_cases henc : p.encoding = .ascii
        · rw [if_pos henc]
          exact asciiLoop_spec (p := { p with inPending := [] }) henc hreader rfl _ _
        · rw [if_neg henc]
          exact pairLoop_spec (p := { p with inPending := [] }) henc hreader rfl (Nat.le_refl _) _
      obtain ⟨hread, hleft, hr⟩ := hloop
      have hahead : ahead p = p.inPending ++ ahead { p with inPending := [] } := by
        rw [ahead, ahead, nil_append]
      refine ⟨?_, ?_, hr⟩
      · rw [hread, hahead, nil_append, take_append, take_of_length_le hle]
      · rw [hleft, hahead, drop_append, drop_of_length_le hle, nil_append]
  obtain ⟨hread, hleft, hreader⟩ := htrans
  generalize readTranscode p count = r at hread hleft hreader
  obtain ⟨out, p'⟩ := r
  dsimp only at hread hleft hreader
  rw [hread]
  dsimp only
  refine ⟨rfl, ?_, ?_⟩
  · split
    · exact hleft
    · exact hleft
  · split
    · exact ⟨hreader.encoding, hreader.delivers, hreader.pending⟩
    · exact hreader

/-- The answers of calls one after the other, and the reader they leave. -/
def reads (p : InPort) : List Nat → List (Option (List UInt8)) × InPort
  | [] => ([], p)
  | count :: counts =>
    ((axlRead p count).1 :: (reads (axlRead p count).2 counts).1,
      (reads (axlRead p count).2 counts).2)

/-- **Calls one after the other** all succeed and read what one call of their sum reads. -/
theorem reads_spec (h : Reader p) (counts : List Nat) :
    ∃ outs : List (List UInt8), (reads p counts).1 = outs.map some ∧
      outs.flatten = (ahead p).take counts.sum ∧ Reader (reads p counts).2 := by
  induction counts generalizing p with
  | nil => exact ⟨[], rfl, by rw [sum_nil, take_zero]; rfl, h⟩
  | cons count counts ih =>
    obtain ⟨hread, hleft, hreader⟩ := axlRead_spec h count
    obtain ⟨outs, houts, hflat, hr⟩ := ih hreader
    refine ⟨(ahead p).take count :: outs, ?_, ?_, hr⟩
    · rw [reads, hread, houts, nil_append, map_cons]
    · rw [flatten_cons, hflat, hleft, sum_cons, take_add]

/-! ## The write side -/

/-- A sink that takes something of what it is offered. -/
def TakesSome (k : Sink) : Prop := ∀ n buf, buf ≠ [] → ∃ m, 0 < m ∧ k.answer n buf = some m

theorem sinkWrite_takesSome {k : Sink} (h : TakesSome k) {buf : List UInt8} (hne : buf ≠ []) :
    ∃ m k', 0 < m ∧ m ≤ buf.length ∧ sinkWrite k buf = (some m, k') ∧
      k'.taken = k.taken ++ buf.take m ∧ TakesSome k' := by
  obtain ⟨m, hm, hanswer⟩ := h k.calls buf hne
  have hlen := length_pos_iff.mpr hne
  refine ⟨min m buf.length, { k with calls := k.calls + 1, taken := k.taken ++ buf.take m },
    by omega, Nat.min_le_right _ _, ?_, ?_, h⟩
  · rw [sinkWrite, hanswer]
  · dsimp only
    congr 1
    rw [take_eq_take_iff]
    omega

/-- A unit goes out whole, in as many calls as it takes. -/
theorem emitWireBytes_takesSome (fuel : Nat) {p : Port} (h : TakesSome p.sink)
    {wire : List UInt8} (hfuel : wire.length ≤ fuel) :
    ∃ k', emitWireBytes fuel p wire = (.ok, { p with sink := k' }) ∧
      k'.taken = p.sink.taken ++ wire ∧ TakesSome k' := by
  induction fuel generalizing p wire with
  | zero =>
    rw [length_eq_zero_iff.mp (Nat.le_zero.mp hfuel), append_nil]
    exact ⟨p.sink, rfl, rfl, h⟩
  | succ fuel ih =>
    rw [emitWireBytes]
    by_cases hend : wire.length = 0
    · rw [if_pos hend, length_eq_zero_iff.mp hend, append_nil]
      exact ⟨p.sink, rfl, rfl, h⟩
    · have hne : wire ≠ [] := fun hnil => hend (by rw [hnil]; rfl)
      obtain ⟨m, k₁, hpos, hle, hwrite, htaken, hk₁⟩ := sinkWrite_takesSome h hne
      rw [if_neg hend, hwrite]
      dsimp only
      rw [if_neg hpos.ne']
      obtain ⟨k₂, hrec, htaken₂, hk₂⟩ := ih (p := { p with sink := k₁ }) hk₁
        (show (wire.drop m).length ≤ fuel by
          rw [length_drop]
          omega)
      refine ⟨k₂, hrec, ?_, hk₂⟩
      rw [htaken₂]
      dsimp only
      rw [htaken, append_assoc, take_append_drop]

theorem emitsWhole_takesSome : EmitsWhole TakesSome :=
  fun _ _ h => emitWireBytes_takesSome _ h (Nat.le_refl _)

/-- An unbuffered stream that transcodes, as calls leave it. -/
structure Writer (s : AxlStream) : Prop where
  mode : s.bufMode = .none
  encoding : s.encoding ≠ .utf8
  takes : TakesSome s.sink
  resting : s.toPort.wire.Resting

/-- What is carried over is less than one sequence. -/
theorem Writer.pending {s : AxlStream} (h : Writer s) : s.outPending.length ≤ 3 := by
  have hcut : utf8Cut s.outPending = none := h.resting.cut
  cases hpend : s.outPending with
  | nil => exact Nat.zero_le 3
  | cons b bs =>
    rw [hpend, utf8Cut] at hcut
    split at hcut
    · rename_i hshort
      have hlead : utf8LeadLen b ≤ 4 := by
        rw [utf8LeadLen]
        split_ifs <;> omega
      omega
    · exact absurd hcut (Option.some_ne_none _)

/-- **A write is accepted whole** and feeds the wire. -/
theorem axlWrite_feeds {s : AxlStream} (h : Writer s) (buf : List UInt8) :
    (axlWrite s buf).1 = some buf.length ∧
      (axlWrite s buf).2.toPort.wire = s.toPort.wire.feed buf ∧ Writer (axlWrite s buf).2 := by
  rw [axlWrite]
  by_cases hnil : buf.length = 0
  · rw [if_pos hnil, hnil]
    refine ⟨rfl, ?_, h⟩
    rw [length_eq_zero_iff.mp hnil, h.resting.feed_nil]
  · rw [if_neg hnil, if_pos h.mode, streamWriteNow]
    have hne : buf ≠ [] := fun heq => hnil (by rw [heq]; rfl)
    obtain ⟨k', hw, htaken, hk'⟩ := writeTranscode_whole emitsWhole_takesSome
      (s.outPending.length + buf.length) h.takes 0 (Nat.le_refl _) fun heq => absurd heq hne
    have hport : s.toPort.write buf = (some (0 + buf.length), { s.toPort with
        sink := k', outPending := (utf8Cutter.scan (s.outPending ++ buf)).2 }) := by
      rw [Port.write, if_pos h.encoding, hw]
    rw [hport]
    have hwire : (Port.wire { s.toPort with
        sink := k', outPending := (utf8Cutter.scan (s.outPending ++ buf)).2 }) =
          s.toPort.wire.feed buf := by
      rw [Wire.feed_other (show s.toPort.wire.encoding ≠ .utf8 from h.encoding)]
      exact congrArg (Wire.mk _ _) htaken
    refine ⟨by rw [Nat.zero_add], hwire, ⟨h.mode, h.encoding, hk', ?_⟩⟩
    exact hwire ▸ h.resting.feed buf

/-- The answers of writes one after the other, and the stream they leave. -/
def writes (s : AxlStream) : List (List UInt8) → List (Option Nat) × AxlStream
  | [] => ([], s)
  | buf :: bufs =>
    ((axlWrite s buf).1 :: (writes (axlWrite s buf).2 bufs).1,
      (writes (axlWrite s buf).2 bufs).2)

/-- **Writing in pieces** is writing at once. -/
theorem writes_spec {s : AxlStream} (h : Writer s) (bufs : List (List UInt8)) :
    (writes s bufs).1 = bufs.map (fun buf => some buf.length) ∧
      (writes s bufs).2.toPort.wire = s.toPort.wire.feed bufs.flatten ∧
      Writer (writes s bufs).2 := by
  induction bufs generalizing s with
  | nil => exact ⟨rfl, h.resting.feed_nil.symm, h⟩
  | cons buf bufs ih =>
    obtain ⟨hall, hwire, hw⟩ := axlWrite_feeds h buf
    obtain ⟨halls, hwires, hws⟩ := ih hw
    refine ⟨?_, ?_, hws⟩
    · rw [writes, hall, halls, map_cons]
    · rw [writes, hwires, hwire, flatten_cons, Wire.feed_append]

/-! ## Text of the basic plane -/

theorem shiftLeft_or {x y k : Nat} (hy : y < 2 ^ k) : x <<< k ||| y = x * 2 ^ k + y := by
  rw [← Nat.shiftLeft_add_eq_or_of_lt hy, Nat.shiftLeft_eq]

theorem shiftLeft_mod {x k : Nat} (h : x * 2 ^ k < 2 ^ 32) : x <<< k % 2 ^ 32 = x <<< k := by
  rw [Nat.shiftLeft_eq, Nat.mod_eq_of_lt h]

theorem isCont_iff (b : UInt8) : isCont b = true ↔ Utf8.Cont b := by
  have hall : ∀ n < 256, (isCont (UInt8.ofNat n) = true ↔ Utf8.Cont (UInt8.ofNat n)) := by
    decide +kernel
  rw [← UInt8.ofNat_toNat (x := b)]
  exact hall _ b.toNat_lt

theorem utf8LeadLen_eq (b : UInt8) : utf8LeadLen b =
    if b.toNat < 0xC0 then 1 else if b.toNat < 0xE0 then 2 else if b.toNat < 0xF0 then 3
    else if b.toNat < 0xF8 then 4 else 1 := by
  have hall : ∀ n < 256, utf8LeadLen (UInt8.ofNat n) =
      if n < 0xC0 then 1 else if n < 0xE0 then 2 else if n < 0xF0 then 3
      else if n < 0xF8 then 4 else 1 := by
    decide +kernel
  have hb := hall b.toNat b.toNat_lt
  rwa [UInt8.ofNat_toNat] at hb

/-- What is under a mask of low bits. -/
theorem and_mask (b : UInt8) (k : Nat) (hk : k ≤ 8) :
    (b &&& UInt8.ofNat (2 ^ k - 1)).toUInt32.toNat = b.toNat % 2 ^ k := by
  have hpow : 2 ^ k ≤ 2 ^ 8 := Nat.pow_le_pow_right (by decide) hk
  rw [UInt8.toNat_toUInt32, UInt8.toNat_and, UInt8.toNat_ofNat_of_lt' (by
    show 2 ^ k - 1 < 256
    omega)]
  exact Nat.and_two_pow_sub_one_eq_mod _ k

theorem decodeSeq_two {a b : UInt8} (hb : Utf8.Cont b) : decodeSeq [a, b] =
    (UInt32.ofNat (a.toNat % 32 * 64 + b.toNat % 64), 2) := by
  have ha' : (a &&& 0x1F).toUInt32.toNat = a.toNat % 32 := and_mask a 5 (by decide)
  have hb' : (b &&& 0x3F).toUInt32.toNat = b.toNat % 64 := and_mask b 6 (by decide)
  rw [decodeSeq, if_pos ((isCont_iff b).mpr hb)]
  congr 1
  rw [← UInt32.toNat_inj, UInt32.toNat_or, UInt32.toNat_shiftLeft, ha', hb', UInt32.toNat_ofNat']
  show (a.toNat % 32) <<< 6 % 2 ^ 32 ||| b.toNat % 64 = _
  rw [shiftLeft_mod (by omega), shiftLeft_or (by omega)]
  omega

theorem decodeSeq_three {a b c : UInt8} (hb : Utf8.Cont b) (hc : Utf8.Cont c) :
    decodeSeq [a, b, c] =
      (UInt32.ofNat (a.toNat % 16 * 4096 + b.toNat % 64 * 64 + c.toNat % 64), 3) := by
  have ha' : (a &&& 0x0F).toUInt32.toNat = a.toNat % 16 := and_mask a 4 (by decide)
  have hb' : (b &&& 0x3F).toUInt32.toNat = b.toNat % 64 := and_mask b 6 (by decide)
  have hc' : (c &&& 0x3F).toUInt32.toNat = c.toNat % 64 := and_mask c 6 (by decide)
  have hconts : (isCont b && isCont c) = true := by
    rw [(isCont_iff b).mpr hb, (isCont_iff c).mpr hc]
    rfl
  rw [decodeSeq, if_pos hconts]
  congr 1
  rw [← UInt32.toNat_inj, UInt32.toNat_or, UInt32.toNat_or, UInt32.toNat_shiftLeft,
    UInt32.toNat_shiftLeft, ha', hb', hc', UInt32.toNat_ofNat']
  show (a.toNat % 16) <<< 12 % 2 ^ 32 ||| (b.toNat % 64) <<< 6 % 2 ^ 32 ||| c.toNat % 64 = _
  rw [shiftLeft_mod (x := a.toNat % 16) (by omega), shiftLeft_mod (x := b.toNat % 64) (by omega),
    Nat.or_assoc, shiftLeft_or (x := b.toNat % 64) (by omega), shiftLeft_or (by omega)]
  omega

/-- A scalar of the basic plane is cut off whole. -/
theorem utf8Cut_encode {cp : Nat} (hs : Utf8.Scalar cp) (hbmp : cp < 0x10000)
    (rest : List UInt8) : utf8Cut (Utf8.encode cp ++ rest) =
      some (UInt32.ofNat cp, (Utf8.encode cp).length) := by
  by_cases hascii : cp < 0x80
  · have hb : (UInt8.ofNat cp).toNat = cp := Utf8.toNat_ofNat_of_lt (by omega)
    have hlead : utf8LeadLen (UInt8.ofNat cp) = 1 := by
      rw [utf8LeadLen_eq, hb, if_pos (by omega)]
    rw [Utf8.encode, if_pos hascii, singleton_append, utf8Cut, hlead, length_cons,
      if_neg (by omega), take_succ_cons, take_zero, decodeSeq]
    congr 2
    rw [← UInt32.toNat_inj, UInt8.toNat_toUInt32, hb, UInt32.toNat_ofNat_of_lt' (by
      show cp < 4294967296
      omega)]
  · have hmulti := Utf8.encode_multi hs (Nat.le_of_not_lt hascii)
    generalize Utf8.encode cp = u at hmulti ⊢
    cases hmulti with
    | @two a b h₀ h₁ hmin =>
      have hlead : utf8LeadLen a = 2 := by
        rw [utf8LeadLen_eq, if_neg (by omega), if_pos h₀.2]
      have hcode : a.toNat % 32 * 64 + b.toNat % 64 =
          (a.toNat - 0xC0) * 64 + (b.toNat - 0x80) := by
        obtain ⟨h₁, h₁'⟩ := h₁
        omega
      rw [cons_append, cons_append, nil_append, utf8Cut, hlead, length_cons,
        length_cons, if_neg (by omega), take_succ_cons, take_succ_cons,
        take_zero, decodeSeq_two h₁, hcode]
      rfl
    | @three a b c h₀ h₁ h₂ hmin hs =>
      have hlead : utf8LeadLen a = 3 := by
        rw [utf8LeadLen_eq, if_neg (by omega), if_neg (by omega), if_pos h₀.2]
      have hcode : a.toNat % 16 * 4096 + b.toNat % 64 * 64 + c.toNat % 64 =
          (a.toNat - 0xE0) * 4096 + (b.toNat - 0x80) * 64 + (c.toNat - 0x80) := by
        obtain ⟨h₁, h₁'⟩ := h₁
        obtain ⟨h₂, h₂'⟩ := h₂
        omega
      rw [cons_append, cons_append, cons_append, nil_append, utf8Cut, hlead,
        length_cons, length_cons, length_cons, if_neg (by omega),
        take_succ_cons, take_succ_cons, take_succ_cons, take_zero,
        decodeSeq_three h₁ h₂, hcode]
      rfl
    | four h₀ h₁ h₂ h₃ hmin hmax => omega

/-- The text of some scalars. -/
def text (cps : List Nat) : List UInt8 := cps.flatMap Utf8.encode

/-- Scalars of the basic plane. -/
def Basic (cps : List Nat) : Prop := ∀ cp ∈ cps, Utf8.Scalar cp ∧ cp < 0x10000

/-- The units of a text are its scalars, and nothing is carried over. -/
theorem scan_text {cps : List Nat} (h : Basic cps) :
    utf8Cutter.scan (text cps) = (cps.map UInt32.ofNat, []) := by
  induction cps with
  | nil => exact Cutter.scan_of_none Cutter.cut_nil
  | cons cp cps ih =>
    obtain ⟨hs, hbmp⟩ := h cp mem_cons_self
    have hcut : utf8Cutter.cut (text (cp :: cps)) =
        some (UInt32.ofNat cp, (Utf8.encode cp).length) := by
      rw [text, flatMap_cons]
      exact utf8Cut_encode hs hbmp _
    rw [Cutter.scan_of_some hcut, text, flatMap_cons, drop_left, ← text,
      ih fun cp' hmem => h cp' (mem_cons_of_mem _ hmem)]
    rfl

/-- High bits and low ones. -/
theorem or_toUInt8 {hi lo : UInt16} {m k : Nat} (hhi : hi.toNat = m * 2 ^ k)
    (hlo : lo.toNat < 2 ^ k) : (hi ||| lo).toUInt8 = UInt8.ofNat (hi.toNat + lo.toNat) := by
  rw [← UInt8.toNat_inj, UInt16.toNat_toUInt8, UInt16.toNat_or, UInt8.toNat_ofNat', hhi,
    ← Nat.shiftLeft_eq, shiftLeft_or hlo, Nat.shiftLeft_eq]

theorem toNat_mask (x : UInt16) : (x &&& 0x3F).toNat = x.toNat % 64 := by
  rw [UInt16.toNat_and]
  exact Nat.and_two_pow_sub_one_eq_mod _ 6

theorem encodeUtf8Bmp_eq (code : UInt16) : encodeUtf8Bmp code = Utf8.encode code.toNat := by
  have hlt : code.toNat < 2 ^ 16 := code.toNat_lt
  have hmask : ∀ x : UInt16, ((0x80 : UInt16) ||| x &&& 0x3F).toUInt8 =
      UInt8.ofNat (0x80 + x.toNat % 64) := by
    intro x
    have hlow : (x &&& 0x3F).toNat < 2 ^ 6 := by
      rw [toNat_mask]
      omega
    rw [or_toUInt8 (show (0x80 : UInt16).toNat = 2 * 2 ^ 6 from rfl) hlow, toNat_mask]
    rfl
  have hshift6 : (code >>> 6).toNat = code.toNat / 64 := by
    rw [UInt16.toNat_shiftRight]
    exact Nat.shiftRight_eq_div_pow _ 6
  have hshift12 : (code >>> 12).toNat = code.toNat / 4096 := by
    rw [UInt16.toNat_shiftRight]
    exact Nat.shiftRight_eq_div_pow _ 12
  rw [encodeUtf8Bmp, Utf8.encode]
  by_cases hone : code.toNat < 0x80
  · rw [if_pos (UInt16.lt_iff_toNat_lt.mpr hone), if_pos hone]
    rfl
  · rw [if_neg (fun h => hone (UInt16.lt_iff_toNat_lt.mp h)), if_neg hone]
    by_cases htwo : code.toNat < 0x800
    · have hlow : (code >>> 6).toNat < 2 ^ 5 := by omega
      rw [if_pos (UInt16.lt_iff_toNat_lt.mpr htwo), if_pos htwo, hmask,
        or_toUInt8 (show (0xC0 : UInt16).toNat = 6 * 2 ^ 5 from rfl) hlow, hshift6]
      rfl
    · have hlow : (code >>> 12).toNat < 2 ^ 4 := by omega
      rw [if_neg (fun h => htwo (UInt16.lt_iff_toNat_lt.mp h)), if_neg htwo, if_pos (by omega),
        hmask, hmask, or_toUInt8 (show (0xE0 : UInt16).toNat = 14 * 2 ^ 4 from rfl) hlow,
        hshift12, hshift6]
      rfl

/-- A unit of UCS-2 is read back. -/
theorem decoded_wireUnit {enc : AxlEncoding} (henc : enc = .ucs2Le ∨ enc = .ucs2Be) {cp : Nat}
    (hbmp : cp < 0x10000) (rest : List UInt8) :
    decoded enc (wireUnit enc (UInt32.ofNat cp) ++ rest) =
      Utf8.encode cp ++ decoded enc rest := by
  have hcp : (UInt32.ofNat cp).toNat = cp := by
    rw [UInt32.toNat_ofNat_of_lt' (by
      show cp < 4294967296
      omega)]
  have hle : UInt32.ofNat cp ≤ 0xFFFF := by
    rw [UInt32.le_iff_toNat_le, hcp]
    show cp ≤ 65535
    omega
  -- the two bytes
  have hlow : (UInt32.ofNat cp).toUInt8.toUInt16.toNat = cp % 256 := by
    rw [UInt8.toNat_toUInt16, UInt32.toNat_toUInt8, hcp]
  have hhigh : ((UInt32.ofNat cp) >>> 8).toUInt8.toUInt16.toNat = cp / 256 := by
    rw [UInt8.toNat_toUInt16, UInt32.toNat_toUInt8, UInt32.toNat_shiftRight, hcp]
    show cp >>> 8 % 2 ^ 8 = _
    rw [Nat.shiftRight_eq_div_pow]
    omega
  have hpair : ∀ lo hi : UInt16, lo.toNat = cp % 256 → hi.toNat = cp / 256 →
      (hi <<< 8 ||| lo).toNat = cp := by
    intro lo hi hlo hhi
    rw [UInt16.toNat_or, UInt16.toNat_shiftLeft, hlo, hhi]
    show (cp / 256) <<< 8 % 2 ^ 16 ||| cp % 256 = cp
    rw [Nat.shiftLeft_eq, Nat.mod_eq_of_lt (by omega), ← Nat.shiftLeft_eq, shiftLeft_or (by omega)]
    omega
  obtain rfl | rfl := henc
  · rw [wireUnit, if_pos hle]
    simp only [cons_append, nil_append, decoded, reduceCtorEq, if_false, pairCode,
      if_true]
    rw [encodeUtf8Bmp_eq, UInt16.or_comm, hpair _ _ hlow hhigh]
  · rw [wireUnit, if_pos hle]
    simp only [cons_append, nil_append, decoded, reduceCtorEq, if_false, pairCode]
    rw [encodeUtf8Bmp_eq, hpair _ _ hlow hhigh]

/-- **Text of the basic plane** in UCS-2 is read back. -/
theorem decoded_encoded {enc : AxlEncoding} (henc : enc = .ucs2Le ∨ enc = .ucs2Be)
    {cps : List Nat} (h : Basic cps) :
    decoded enc ((cps.map UInt32.ofNat).flatMap (wireUnit enc)) = text cps := by
  induction cps with
  | nil => rfl
  | cons cp cps ih =>
    rw [map_cons, flatMap_cons, decoded_wireUnit henc (h cp mem_cons_self).2,
      ih fun cp' hmem => h cp' (mem_cons_of_mem _ hmem), text, text, flatMap_cons]

/-! ## Cuts do not matter -/

/-- What is put out and carried over, in pieces and at once. -/
def CutsWrites (s : AxlStream) (bufs : List (List UInt8)) : Prop :=
  (writes s bufs).1 = bufs.map (fun buf => some buf.length) ∧
    (writes s bufs).2.sink.taken = (axlWrite s bufs.flatten).2.sink.taken ∧
    (writes s bufs).2.outPending = (axlWrite s bufs.flatten).2.outPending ∧
    ∀ n, (writes s (bufs.take n)).2.outPending.length ≤ 3

/-- What is read depends on nothing but how much is asked for. -/
def CutsReads (p : InPort) (counts : List Nat) : Prop :=
  ∃ outs : List (List UInt8), (reads p counts).1 = outs.map some ∧
    outs.flatten = (p.inPending ++ decoded p.encoding p.source.rest).take counts.sum ∧
    ∀ n, (reads p (counts.take n)).2.inPending.length ≤ 2

/-- A text that was written in pieces is read back in pieces. -/
def RoundTrips (s : AxlStream) (bufs : List (List UInt8)) (p : InPort) (counts : List Nat) :
    Prop :=
  ∃ outs : List (List UInt8), (reads p counts).1 = outs.map some ∧
    outs.flatten = bufs.flatten ∧ (writes s bufs).2.outPending = []

/-- **Transcoding does not depend on how the data is cut.** -/
theorem transcoding_cut_independent :
    (∀ s, Writer s → ∀ bufs, (∀ buf ∈ bufs, buf ≠ []) → CutsWrites s bufs) ∧
    (∀ p, Reader p → ∀ counts, (∀ count ∈ counts, 0 < count) → CutsReads p counts) ∧
    ∀ s, Writer s → s.outPending = [] → s.sink.taken = [] →
      s.encoding = .ucs2Le ∨ s.encoding = .ucs2Be →
      ∀ cps, Basic cps → ∀ bufs, bufs.flatten = text cps →
        ∀ p, Reader p → p.encoding = s.encoding → p.inPending = [] →
          p.source.rest = (writes s bufs).2.sink.taken →
          ∀ counts, (text cps).length ≤ counts.sum → RoundTrips s bufs p counts := by
  refine ⟨fun s h bufs _ => ?_, fun p h counts _ => ?_, ?_⟩
  · obtain ⟨hall, hwire, -⟩ := writes_spec h bufs
    obtain ⟨-, hone, -⟩ := axlWrite_feeds h bufs.flatten
    have hsame := hwire.trans hone.symm
    exact ⟨hall, congrArg Wire.out hsame, congrArg Wire.pending hsame,
      fun n => (writes_spec h (bufs.take n)).2.2.pending⟩
  · obtain ⟨outs, houts, hflat, -⟩ := reads_spec h counts
    refine ⟨outs, houts, hflat, fun n => ?_⟩
    obtain ⟨-, -, -, hreader⟩ := reads_spec h (counts.take n)
    exact hreader.pending
  · intro s h hpend htaken henc cps hcps bufs htext p hp hpenc hppend hrest counts hcounts
    obtain ⟨-, hwire, -⟩ := writes_spec h bufs
    have hfeed : s.toPort.wire.feed bufs.flatten =
        ⟨s.encoding, [], (cps.map UInt32.ofNat).flatMap (wireUnit s.encoding)⟩ := by
      rw [Wire.feed_other (show s.toPort.wire.encoding ≠ .utf8 from h.encoding), htext]
      simp only [Port.wire, hpend, htaken, nil_append, scan_text hcps]
    rw [hfeed] at hwire
    have hout : (writes s bufs).2.sink.taken =
        (cps.map UInt32.ofNat).flatMap (wireUnit s.encoding) := congrArg Wire.out hwire
    obtain ⟨outs, houts, hflat, -⟩ := reads_spec hp counts
    refine ⟨outs, houts, ?_, congrArg Wire.pending hwire⟩
    rw [hflat, ahead, hppend, nil_append, hrest, hout, hpenc, decoded_encoded henc hcps,
      take_of_length_le hcounts, htext]

/-- A sink and a source that move one byte a call. -/
def slowSink : Sink := ⟨fun _ _ => some 1, none, 0, 0, []⟩

def slowSource (wire : List UInt8) : Source := ⟨fun _ _ => some 1, 0, wire⟩

/-- A stream that was just opened and given an encoding. -/
theorem writer_fresh {sink : Sink} {tee : Option Tee} {enc : AxlEncoding} (hsink : TakesSome sink)
    (henc : enc ≠ .utf8) : Writer (axlStreamSetEncoding (AxlStream.fresh sink tee) enc) :=
  ⟨rfl, henc, hsink, ⟨Cutter.cut_nil, fun _ => rfl⟩⟩

/-- 'é' in two pieces, and read back byte by byte. -/
theorem transcoding_cut_independent_two :
    CutsWrites (axlStreamSetEncoding (AxlStream.fresh slowSink none) .ascii) [[0xC3], [0xA9]] ∧
    CutsReads ⟨slowSource [0xE9, 0x00, 0x41], .ucs2Le, [], false, false⟩ [1, 2] ∧
    RoundTrips (axlStreamSetEncoding (AxlStream.fresh slowSink none) .ucs2Be) [[0xC3], [0xA9]]
      ⟨slowSource [0x00, 0xE9], .ucs2Be, [], false, false⟩ [1, 1] := by
  have hsink : TakesSome slowSink := fun _ _ _ => ⟨1, Nat.one_pos, rfl⟩
  have hsource : ∀ wire, (slowSource wire).Delivers := fun _ _ _ _ => ⟨1, Nat.one_pos, rfl⟩
  have hbasic : Basic [0xE9] := by
    intro cp hcp
    cases mem_singleton.mp hcp
    decide
  refine ⟨?_, ?_, ?_⟩
  · exact transcoding_cut_independent.1 _ (writer_fresh hsink (by decide)) _ (by decide)
  · exact transcoding_cut_independent.2.1 _ ⟨by decide, hsource _, by decide⟩ _ (by decide)
  · exact transcoding_cut_independent.2.2 _ (writer_fresh hsink (by decide)) rfl rfl (.inr rfl)
      _ hbasic _ (by decide +kernel) _ ⟨by decide, hsource _, by decide⟩ rfl rfl (by decide +kernel)
      _ (by decide +kernel)

end Transcoding

end Stream

end AxlSdk
