import Mathlib

/-!
# The write side of `AxlStream`

`axl_write`, its output buffer and its transcoder, `axl_fflush`,
`axl_stream_set_buffering`, `axl_stream_set_encoding`, `axl_fwrite` and
`axl_fclose` of `src/stream/axl-stream.c`.

What stands behind a stream is a `Sink`: it may answer each call as it likes, by
taking a prefix of what it is offered, nothing at all included, or by failing;
the injection of faults in `sink_write` is part of its answers. `taken` is what
it has accepted. `forwarded` is no field of the program: it keeps the bytes that
were passed on to a tee. The buffer is the list of its `wbuf_len` pending bytes;
it is there exactly when its capacity is not 0.
-/

namespace AxlSdk

namespace Stream

inductive Rc where
  | ok
  | err
  deriving DecidableEq, Repr

/-- `AxlEncoding`. -/
inductive AxlEncoding where
  | utf8
  | ucs2Le
  | ucs2Be
  | ascii
  deriving DecidableEq, Repr

/-- `AxlStreamBuffering`. -/
inductive AxlStreamBuffering where
  | none
  | line
  | full
  deriving DecidableEq, Repr

/-! ## Sinks -/

/-- A backend: `answer n buf` is what its `write` says to the `n`-th call, `none`
for a negative result, and `flush` its flush operation, if it has one. -/
structure Sink where
  answer : Nat → List UInt8 → Option Nat
  flush : Option (Nat → Rc)
  calls : Nat
  flushes : Nat
  taken : List UInt8

/-- `sink_write`. -/
def sinkWrite (k : Sink) (buf : List UInt8) : Option Nat × Sink :=
  match k.answer k.calls buf with
  | none => (none, { k with calls := k.calls + 1 })
  | some n =>
    (some (min n buf.length), { k with
      calls := k.calls + 1
      taken := k.taken ++ buf.take n })

/-- `sink_flush`, when the backend has a flush operation. -/
def sinkFlush (k : Sink) (flush : Nat → Rc) : Rc × Sink :=
  (flush k.flushes, { k with flushes := k.flushes + 1 })

/-! ## Transcoding -/

/-- The fields of a stream that a write reads and changes, a tee's included. -/
structure Port where
  sink : Sink
  encoding : AxlEncoding
  outPending : List UInt8
  err : Bool

/-- `utf8_lead_len`. -/
def utf8LeadLen (lead : UInt8) : Nat :=
  if lead &&& 0x80 = 0x00 then 1
  else if lead &&& 0xE0 = 0xC0 then 2
  else if lead &&& 0xF0 = 0xE0 then 3
  else if lead &&& 0xF8 = 0xF0 then 4
  else 1

/-- `emit_wire_bytes`: a short write is finished here. -/
def emitWireBytes : Nat → Port → List UInt8 → Rc × Port
  | 0, p, _ => (.ok, p)
  | fuel + 1, p, wire =>
    if wire.length = 0 then (.ok, p)
    else
      match sinkWrite p.sink wire with
      | (none, k) => (.err, { p with sink := k, err := true })
      | (some n, k) =>
        if n = 0 then (.err, { p with sink := k, err := true })
        else emitWireBytes fuel { p with sink := k } (wire.drop n)

/-- The wire bytes of a code point. -/
def wireUnit (enc : AxlEncoding) (code : UInt32) : List UInt8 :=
  let cu : UInt32 := if code ≤ 0xFFFF then code else 0x3F
  match enc with
  | .ascii => [if code < 0x80 then code.toUInt8 else 0x3F]
  | .ucs2Le => [cu.toUInt8, (cu >>> 8).toUInt8]
  | .ucs2Be => [(cu >>> 8).toUInt8, cu.toUInt8]
  | .utf8 => []

/-- `emit_wire`. It is called for the other encodings than UTF-8 only. -/
def emitWire (p : Port) (code : UInt32) : Rc × Port :=
  emitWireBytes (wireUnit p.encoding code).length p (wireUnit p.encoding code)

/-- A continuation byte. -/
def isCont (b : UInt8) : Bool := b &&& 0xC0 = 0x80

/-- The code point of a complete sequence and the number of its bytes it stands
for; with a bad continuation byte or a bad lead, the lead as Latin-1. -/
def decodeSeq : List UInt8 → UInt32 × Nat
  | [a] => (a.toUInt32, 1)
  | [a, b] =>
    if isCont b then
      ((a &&& 0x1F).toUInt32 <<< 6 ||| (b &&& 0x3F).toUInt32, 2)
    else (a.toUInt32, 1)
  | [a, b, c] =>
    if isCont b && isCont c then
      ((a &&& 0x0F).toUInt32 <<< 12 ||| (b &&& 0x3F).toUInt32 <<< 6
        ||| (c &&& 0x3F).toUInt32, 3)
    else (a.toUInt32, 1)
  | [a, b, c, d] =>
    if isCont b && isCont c && isCont d then
      ((a &&& 0x07).toUInt32 <<< 18 ||| (b &&& 0x3F).toUInt32 <<< 12
        ||| (c &&& 0x3F).toUInt32 <<< 6 ||| (d &&& 0x3F).toUInt32, 4)
    else (a.toUInt32, 1)
  | _ => (0, 1)

/-- The loop of `write_transcode`, `i` bytes of the input being accounted for.
Every turn but the last takes a byte of `outPending` or of the input. -/
def writeTranscode : Nat → Port → Nat → List UInt8 → Option Nat × Port
  | 0, p, i, _ => (some i, p)
  | fuel + 1, p, i, input =>
    match input with
    | [] => (some i, p)
    | b :: _ =>
      let needed := utf8LeadLen (p.outPending.headD b)
      let fromPending := p.outPending.take needed
      let fromInput := input.take (needed - fromPending.length)
      let seq := fromPending ++ fromInput
      if seq.length < needed then
        (some (i + fromInput.length), { p with outPending := p.outPending ++ fromInput })
      else
        match emitWire p (decodeSeq seq).1 with
        | (.err, p) => (if i = 0 then none else some i, p)
        | (.ok, p) =>
          let pendingUsed := min (decodeSeq seq).2 fromPending.length
          let inputUsed := (decodeSeq seq).2 - pendingUsed
          writeTranscode fuel { p with outPending := p.outPending.drop pendingUsed }
            (i + inputUsed) (input.drop inputUsed)

/-! ## Streams -/

/-- A stream that another one is teed to. -/
structure Tee extends Port where
  forwarded : List UInt8

structure AxlStream extends Port where
  tee : Option Tee
  bufMode : AxlStreamBuffering
  wbuf : List UInt8
  wbufCap : Nat

/-- Write to the sink of a stream in its encoding; the same for a tee. -/
def Port.write (p : Port) (buf : List UInt8) : Option Nat × Port :=
  if p.encoding ≠ .utf8 then writeTranscode (p.outPending.length + buf.length) p 0 buf
  else
    match sinkWrite p.sink buf with
    | (none, k) => (none, { p with sink := k, err := true })
    | (some n, k) => (some n, { p with sink := k })

/-- The tee path of `stream_write_now`. -/
def Tee.forward (t : Tee) (buf : List UInt8) : Tee :=
  { toPort := (t.toPort.write buf).2, forwarded := t.forwarded ++ buf }

/-- `stream_write_now`. -/
def streamWriteNow (s : AxlStream) (buf : List UInt8) : Option Nat × AxlStream :=
  ((s.toPort.write buf).1,
    { s with toPort := (s.toPort.write buf).2, tee := s.tee.map (·.forward buf) })

/-- The loop of `stream_flush_prefix`: what was not written yet stays at the
front of the buffer. -/
def flushLoop : Nat → AxlStream → Nat → Nat → Rc × AxlStream
  | 0, s, k, _ => (.ok, { s with wbuf := s.wbuf.drop k })
  | fuel + 1, s, k, written =>
    if written < k then
      match streamWriteNow s ((s.wbuf.drop written).take (k - written)) with
      | (none, s) => (.err, { s with err := true, wbuf := s.wbuf.drop written })
      | (some n, s) =>
        if n = 0 then (.err, { s with err := true, wbuf := s.wbuf.drop written })
        else flushLoop fuel s k (written + n)
    else (.ok, { s with wbuf := s.wbuf.drop k })

/-- `stream_flush_prefix`. -/
def streamFlushPrefix (s : AxlStream) (k : Nat) : Rc × AxlStream := flushLoop k s k 0

/-- `stream_flush_all`. -/
def streamFlushAll (s : AxlStream) : Rc × AxlStream := streamFlushPrefix s s.wbuf.length

/-- `stream_drain`. -/
def streamDrain (s : AxlStream) : Rc × AxlStream :=
  if s.bufMode ≠ .none ∧ s.wbuf.length > 0 then streamFlushAll s else (.ok, s)

/-- How far the last newline reaches, 0 if there is none. -/
def throughNewline : List UInt8 → Nat
  | [] => 0
  | b :: bs =>
    if throughNewline bs > 0 then throughNewline bs + 1 else if b = 10 then 1 else 0

theorem throughNewline_le (bs : List UInt8) : throughNewline bs ≤ bs.length := by
  induction bs with
  | nil => exact Nat.le_refl _
  | cons b bs ih =>
    rw [throughNewline, List.length_cons]
    split_ifs <;> omega

/-- The part of `stream_write_buffered` that makes room for `count` bytes. -/
def makeRoom (s : AxlStream) (count : Nat) : Rc × AxlStream :=
  if s.wbuf.length + count > s.wbufCap then streamFlushAll s else (.ok, s)

/-- The part of `stream_write_buffered` after the bytes were copied. -/
def flushPolicy (s : AxlStream) : Rc × AxlStream :=
  if s.bufMode = .line then
    if throughNewline s.wbuf > 0 then streamFlushPrefix s (throughNewline s.wbuf)
    else if s.wbuf.length = s.wbufCap then streamFlushAll s
    else (.ok, s)
  else if s.wbuf.length = s.wbufCap then streamFlushAll s
  else (.ok, s)

/-- `stream_write_buffered`. -/
def streamWriteBuffered (s : AxlStream) (buf : List UInt8) : Option Nat × AxlStream :=
  if buf.length ≥ s.wbufCap then
    match streamFlushAll s with
    | (.err, s) => (none, s)
    | (.ok, s) => streamWriteNow s buf
  else
    match makeRoom s buf.length with
    | (.err, s) => (none, s)
    | (.ok, s) =>
      match flushPolicy { s with wbuf := s.wbuf ++ buf } with
      | (.err, s) => (none, s)
      | (.ok, s) => (some buf.length, s)

/-- `axl_write`. -/
def axlWrite (s : AxlStream) (buf : List UInt8) : Option Nat × AxlStream :=
  if buf.length = 0 then (some 0, s)
  else if s.bufMode = .none then streamWriteNow s buf
  else streamWriteBuffered s buf

/-- The loop of `axl_fwrite`; the number of bytes that were accepted. -/
def fwriteLoop : Nat → AxlStream → List UInt8 → Nat → Nat × AxlStream
  | 0, s, _, done => (done, s)
  | fuel + 1, s, buf, done =>
    if buf.length = 0 then (done, s)
    else
      match axlWrite s buf with
      | (none, s) => (done, s)
      | (some n, s) => if n = 0 then (done, s) else fwriteLoop fuel s (buf.drop n) (done + n)

/-- `axl_fwrite` of items of `size` bytes, the `count` of them in `buf`. -/
def axlFwrite (s : AxlStream) (size : Nat) (buf : List UInt8) : Nat × AxlStream :=
  if buf.length = 0 then (0, s)
  else
    match fwriteLoop buf.length s buf 0 with
    | (done, s) => (done / size, s)

/-- `axl_fflush`. -/
def axlFflush (s : AxlStream) : Rc × AxlStream :=
  match streamDrain s with
  | (.err, s) => (.err, s)
  | (.ok, s) =>
    match s.sink.flush with
    | none => (.ok, s)
    | some flush =>
      ((sinkFlush s.sink flush).1, { s with sink := (sinkFlush s.sink flush).2 })

/-- `axl_stream_set_buffering`; `granted` is what `axl_realloc` says if asked. -/
def axlStreamSetBuffering (s : AxlStream) (mode : AxlStreamBuffering) (size : Nat)
    (granted : Bool) : Rc × AxlStream :=
  match streamDrain s with
  | (.err, s) => (.err, s)
  | (.ok, s) =>
    let unbuffered := { s with wbuf := [], wbufCap := 0, bufMode := .none }
    if mode = .none then (.ok, unbuffered)
    else
      let cap := if size = 0 then 1024 else size
      if s.wbufCap ≠ cap ∧ granted = false then (.err, unbuffered)
      else (.ok, { s with wbuf := [], wbufCap := cap, bufMode := mode })

/-- `axl_stream_set_encoding`. -/
def axlStreamSetEncoding (s : AxlStream) (enc : AxlEncoding) : AxlStream :=
  { s with outPending := [], encoding := enc }

/-- `stream_reset_to_ground`, which is what `axl_fclose` does to the write side:
the stream, and the stream it was teed to. -/
def axlFclose (s : AxlStream) : AxlStream × Option Tee :=
  ({ (streamDrain s).2 with
      wbuf := [], wbufCap := 0, bufMode := .none, tee := none, encoding := .utf8,
      outPending := [], err := false },
    (streamDrain s).2.tee)

/-! ## Runs -/

/-- The calls of a run. -/
inductive Op where
  | write (buf : List UInt8)
  | fflush
  | setBuffering (mode : AxlStreamBuffering) (size : Nat) (granted : Bool)
  | setEncoding (enc : AxlEncoding)

/-- The state after a call. -/
def exec (s : AxlStream) : Op → AxlStream
  | .write buf => (axlWrite s buf).2
  | .fflush => (axlFflush s).2
  | .setBuffering mode size granted => (axlStreamSetBuffering s mode size granted).2
  | .setEncoding enc => axlStreamSetEncoding s enc

/-- The state after a run. -/
def run (s : AxlStream) (ops : List Op) : AxlStream := ops.foldl exec s

/-- The calls meet the condition `C` in the states they are made in. -/
def RunMeets (C : AxlStream → Op → Prop) : AxlStream → List Op → Prop
  | _, [] => True
  | s, op :: ops => C s op ∧ RunMeets C (exec s op) ops

end Stream

end AxlSdk
