import Mathlib

/-!
# WebSocket frames (`src/net/axl-websocket.c`, `src/net/axl-http-ws.c`)

`process_websocket_data` gets the bytes of one receive, puts them behind the
incomplete frame that the last receive left, and dispatches every complete frame.
The definitions take the addition of sizes as a parameter: the source adds 64-bit
numbers (`addSize`), and the declared length of a frame is chosen by the peer.

- `stream`: the events of a byte stream, read frame by frame with exact sums.
- `segments_exact_iff`: the receives deliver these events, terminate and stay
  inside the buffers exactly when no frame that is met declares a length that
  wraps with the length of its header.

The connection sits in a slot together with its receive buffer, which
`reset_connection` clears: a buffer that a receive uses in place is zeroed when a
pong breaks the connection, and the loop goes on over the zeros.
-/

namespace AxlSdk

namespace WebSocket

open List

/-! ## Headers -/

structure WsFrameHeader where
  fin : Bool
  opcode : UInt8
  masked : Bool
  mask : List UInt8
  payloadLen : Nat
  headerLen : Nat
  deriving DecidableEq, Repr

/-- Addition of `size_t`. -/
def addSize (a b : Nat) : Nat := (a + b) % 2 ^ 64

/-- The big-endian number of eight bytes from the third on. -/
def length64 (buf : List UInt8) : Nat :=
  (List.range 8).foldl (fun n i => n <<< 8 ||| (buf.getD (2 + i) 0).toNat) 0

/-- The declared length and the length of the header so far. -/
def lengthField (buf : List UInt8) : Option (Nat × Nat) :=
  let payloadLen := (buf.getD 1 0 &&& 0x7f).toNat
  if payloadLen = 126 then
    if buf.length < 4 then none
    else some ((buf.getD 2 0).toNat <<< 8 ||| (buf.getD 3 0).toNat, 4)
  else if payloadLen = 127 then
    if buf.length < 10 then none else some (length64 buf, 10)
  else some (payloadLen, 2)

/-- What `ws_parse_header` reads before it asks whether the frame is complete. -/
def headerFields (buf : List UInt8) : Option WsFrameHeader :=
  if buf.length < 2 then none
  else
    match lengthField buf with
    | none => none
    | some (payloadLen, headerLen) =>
      let fin := buf.getD 0 0 &&& 0x80 != 0
      let opcode := buf.getD 0 0 &&& 0x0f
      if buf.getD 1 0 &&& 0x80 != 0 then
        if buf.length < headerLen + 4 then none
        else some ⟨fin, opcode, true, (buf.drop headerLen).take 4, payloadLen, headerLen + 4⟩
      else some ⟨fin, opcode, false, [], payloadLen, headerLen⟩

/-- `ws_parse_header` -/
def parseHeader (add : Nat → Nat → Nat) (buf : List UInt8) : Option WsFrameHeader :=
  match headerFields buf with
  | none => none
  | some h => if buf.length < add h.headerLen h.payloadLen then none else some h

/-- `ws_unmask` -/
def unmask (bytes mask : List UInt8) : List UInt8 :=
  bytes.mapIdx fun i b => b ^^^ mask.getD (i % 4) 0

/-- The buffer after a part of it is unmasked in place. -/
def unmaskAt (buf : List UInt8) (start len : Nat) (mask : List UInt8) : List UInt8 :=
  buf.take start ++ (unmask ((buf.drop start).take len) mask ++ buf.drop (start + len))

/-- Whether `ws_build_frame` finds room for a pong in `pong_buf`. -/
def pongFits (add : Nat → Nat → Nat) (payloadLen : Nat) : Bool :=
  let headerLen := if payloadLen < 126 then 2 else if payloadLen ≤ 0xffff then 4 else 10
  !(256 < add headerLen payloadLen)

def wsOpText : UInt8 := 0x1

def wsOpBinary : UInt8 := 0x2

def wsOpClose : UInt8 := 0x8

def wsOpPing : UInt8 := 0x9

/-! ## Connections -/

inductive AxlWsEvent where
  | text
  | binary
  | disconnect
  deriving DecidableEq, Repr

abbrev Delivery := AxlWsEvent × List UInt8

/-- What is outside: whether the handler closes the connection after an event, and
whether the `n`-th pong breaks it. -/
structure Env where
  closes : List Delivery → Bool
  breaks : Nat → Bool

/-- A connection after the upgrade. `handler` says that a handler is registered;
`events`, `views` and `overread` are about the run: what was delivered, the bytes
each header was looked for in, and whether a byte outside a buffer was touched. -/
structure Conn where
  active : Bool
  handler : Bool
  wsPartial : List UInt8
  pongs : Nat
  events : List Delivery
  views : List (List UInt8)
  overread : Bool
  deriving DecidableEq, Repr

def Conn.new : Conn := ⟨true, true, [], 0, [], [], false⟩

/-- `reset_connection` -/
def Conn.reset (c : Conn) : Conn :=
  if c.active then
    { c with
      active := false, handler := false, wsPartial := []
      events := c.events ++ if c.handler then [(.disconnect, [])] else [] }
  else c

/-- Touching bytes of a buffer. -/
def Conn.touch (c : Conn) (buf : List UInt8) (start len : Nat) : Conn :=
  { c with overread := c.overread || decide (buf.length < start + len) }

/-- `WS_OP_PING`; `own` says that the buffer is part of the connection. -/
def onPing (add : Nat → Nat → Nat) (env : Env) (own : Bool) (c : Conn) (buf : List UInt8)
    (start payloadLen : Nat) : Conn × List UInt8 :=
  if pongFits add payloadLen then
    let c := { c.touch buf start payloadLen with pongs := c.pongs + 1 }
    if env.breaks (c.pongs - 1) then
      (c.reset, if own && c.active then List.replicate buf.length 0 else buf)
    else (c, buf)
  else (c, buf)

/-- A data frame goes to the handler. -/
def onData (env : Env) (c : Conn) (event : AxlWsEvent) (buf : List UInt8)
    (start payloadLen : Nat) : Conn :=
  if c.handler then
    let events := c.events ++ [(event, (buf.drop start).take payloadLen)]
    let c := { c.touch buf start payloadLen with events := events }
    if env.closes events then c.reset else c
  else c

/-- The body of the loop after a header; returns also the buffer and whether the loop
goes on. -/
def onFrame (add : Nat → Nat → Nat) (env : Env) (own : Bool) (c : Conn) (buf : List UInt8)
    (offset : Nat) (h : WsFrameHeader) : Conn × List UInt8 × Bool :=
  let start := offset + h.headerLen
  let (c, buf) := if h.masked then
      (c.touch buf start h.payloadLen, unmaskAt buf start h.payloadLen h.mask)
    else (c, buf)
  if h.opcode = wsOpPing then
    let (c, buf) := onPing add env own c buf start h.payloadLen
    (c, buf, true)
  else if h.opcode = wsOpClose then (c.reset, buf, false)
  else if h.opcode = wsOpText then
    let c := onData env c .text buf start h.payloadLen
    (c, buf, c.active)
  else if h.opcode = wsOpBinary then
    let c := onData env c .binary buf start h.payloadLen
    (c, buf, c.active)
  else (c, buf, true)

/-- The loop of `process_websocket_data`; `none` is running out of fuel. -/
def loop (add : Nat → Nat → Nat) (env : Env) (own : Bool) :
    Nat → Conn → List UInt8 → Nat → Option Conn
  | 0, _, _, _ => none
  | fuel + 1, c, buf, offset =>
    if buf.length ≤ offset then some c
    else
      let c := { c with views := c.views ++ [buf.drop offset] }
      match parseHeader add (buf.drop offset) with
      | none => some { c with wsPartial := buf.drop offset }
      | some h =>
        match onFrame add env own c buf offset h with
        | (c, buf, true) =>
          loop add env own fuel c buf (add offset (add h.headerLen h.payloadLen))
        | (c, _, false) => some c

/-- `process_websocket_data` -/
def processWebsocketData (add : Nat → Nat → Nat) (env : Env) (fuel : Nat) (c : Conn)
    (data : List UInt8) : Option Conn :=
  if 0 < c.wsPartial.length then
    loop add env false fuel { c with wsPartial := [] } (c.wsPartial ++ data) 0
  else loop add env true fuel c data 0

/-- The receives of a connection, until it is closed. -/
def receives (add : Nat → Nat → Nat) (env : Env) (fuel : Nat) :
    Conn → List (List UInt8) → Option Conn
  | c, [] => some c
  | c, data :: rest =>
    if c.active then (processWebsocketData add env fuel c data).bind (receives add env fuel · rest)
    else some c

/-! ## Byte streams -/

/-- The payload of a complete frame, unmasked. -/
def payload (bytes : List UInt8) (h : WsFrameHeader) : List UInt8 :=
  let raw := (bytes.drop h.headerLen).take h.payloadLen
  if h.masked then unmask raw h.mask else raw

/-- What a frame does: the events and the pings answered so far, and whether the
connection stays open. -/
def frameEvents (env : Env) (h : WsFrameHeader) (data : List UInt8) (events : List Delivery)
    (pongs : Nat) : List Delivery × Nat × Bool :=
  if h.opcode = wsOpPing then
    if pongFits (· + ·) h.payloadLen then
      if env.breaks pongs then (events ++ [(.disconnect, [])], pongs + 1, false)
      else (events, pongs + 1, true)
    else (events, pongs, true)
  else if h.opcode = wsOpClose then (events ++ [(.disconnect, [])], pongs, false)
  else if h.opcode = wsOpText ∨ h.opcode = wsOpBinary then
    let event := if h.opcode = wsOpText then AxlWsEvent.text else .binary
    let events := events ++ [(event, data)]
    if env.closes events then (events ++ [(.disconnect, [])], pongs, false)
    else (events, pongs, true)
  else (events, pongs, true)

/-- The events of a stream that follow `events`, where `pongs` pings were answered. -/
def streamFrom (env : Env) : Nat → List UInt8 → List Delivery → Nat → List Delivery
  | 0, _, events, _ => events
  | fuel + 1, bytes, events, pongs =>
    match parseHeader (· + ·) bytes with
    | none => events
    | some h =>
      match frameEvents env h (payload bytes h) events pongs with
      | (events, pongs, true) =>
        streamFrom env fuel (bytes.drop (h.headerLen + h.payloadLen)) events pongs
      | (events, _, false) => events

/-- The events of a byte stream. -/
def stream (env : Env) (bytes : List UInt8) : List Delivery :=
  streamFrom env (bytes.length + 1) bytes [] 0

/-- The bytes in which headers are looked for, with exact sums. -/
def met (env : Env) (segments : List (List UInt8)) : List (List UInt8) :=
  ((receives (· + ·) env (segments.flatten.length + 1) Conn.new segments).map (·.views)).getD []

/-- Every buffer is one that can be allocated. -/
def Allocated (env : Env) (segments : List (List UInt8)) : Prop :=
  ∀ bytes ∈ met env segments, bytes.length < 2 ^ 64

/-- The receives terminate, stay inside their buffers, report complete frames only,
and deliver the events of the stream. -/
def Exact (env : Env) (segments : List (List UInt8)) : Prop :=
  ∃ fuel c, receives addSize env fuel Conn.new segments = some c ∧
    c.overread = false ∧
    (∀ bytes ∈ c.views, ∀ h, parseHeader addSize bytes = some h →
      h.headerLen + h.payloadLen ≤ bytes.length) ∧
    c.events = stream env segments.flatten

/-! ## What a header says -/

theorem shiftOr_lt {n k : Nat} (hn : n < 2 ^ k) (b : UInt8) : n <<< 8 ||| b.toNat < 2 ^ (k + 8) := by
  apply Nat.or_lt_two_pow
  · rw [Nat.shiftLeft_eq, Nat.pow_add]
    exact Nat.mul_lt_mul_of_pos_right hn (by decide)
  · calc b.toNat < 2 ^ 8 := b.toNat_lt
      _ ≤ 2 ^ (k + 8) := Nat.pow_le_pow_right (by decide) (by omega)

theorem length64_lt (buf : List UInt8) : length64 buf < 2 ^ 64 := by
  have hstep : ∀ l : List Nat, ∀ n k, n < 2 ^ k →
      l.foldl (fun n i => n <<< 8 ||| (buf.getD (2 + i) 0).toNat) n < 2 ^ (k + 8 * l.length) := by
    intro l
    induction l with
    | nil => exact fun n k h => h
    | cons i l ih =>
      intro n k h
      have := ih _ _ (shiftOr_lt h (buf.getD (2 + i) 0))
      rw [length_cons, show k + 8 * (l.length + 1) = k + 8 + 8 * l.length by omega]
      exact this
  exact hstep (List.range 8) 0 0 (by decide)

variable {buf : List UInt8}

theorem lengthField_bounds {p n : Nat} (h : lengthField buf = some (p, n)) (hlen : 2 ≤ buf.length) :
    n ≤ buf.length ∧ 2 ≤ n ∧ n ≤ 10 ∧ p < 2 ^ 64 ∧ (0xffff < p → n = 10) := by
  unfold lengthField at h
  dsimp only at h
  split at h
  · split at h
    · cases h
    · cases h
      have := shiftOr_lt (k := 8) (buf.getD 2 0).toNat_lt (buf.getD 3 0)
      omega
  · split at h
    · split at h
      · cases h
      · cases h
        have := length64_lt buf
        omega
    · cases h
      have := (buf.getD 1 0 &&& 0x7f).toNat_lt
      omega

variable {h : WsFrameHeader}

/-- The bounds on the fields of a header. -/
theorem headerFields_bounds (hf : headerFields buf = some h) :
    h.headerLen ≤ buf.length ∧ 2 ≤ h.headerLen ∧ h.headerLen ≤ 14 ∧ h.payloadLen < 2 ^ 64 ∧
      (0xffff < h.payloadLen → 10 ≤ h.headerLen) := by
  unfold headerFields at hf
  split at hf
  · cases hf
  rename_i hlen
  cases hl : lengthField buf with
  | none =>
    rw [hl] at hf
    cases hf
  | some pn =>
    obtain ⟨p, n⟩ := pn
    rw [hl] at hf
    dsimp only at hf
    obtain ⟨h₁, h₂, h₃, h₄, h₅⟩ := lengthField_bounds hl (by omega)
    split at hf
    · split at hf
      · cases hf
      · cases hf
        dsimp only
        refine ⟨by omega, by omega, by omega, h₄, fun hp => ?_⟩
        have := h₅ hp
        omega
    · cases hf
      dsimp only
      refine ⟨h₁, h₂, by omega, h₄, fun hp => ?_⟩
      have := h₅ hp
      omega

theorem getD_append {i : Nat} (h : i < buf.length) (more : List UInt8) :
    (buf ++ more).getD i 0 = buf.getD i 0 := by
  rw [getD_eq_getElem?_getD, getD_eq_getElem?_getD, getElem?_append_left h]

theorem length64_append (h : 10 ≤ buf.length) (more : List UInt8) :
    length64 (buf ++ more) = length64 buf := by
  unfold length64
  simp only [show List.range 8 = [0, 1, 2, 3, 4, 5, 6, 7] from rfl, foldl_cons, foldl_nil]
  rw [getD_append (by omega), getD_append (by omega), getD_append (by omega),
    getD_append (by omega), getD_append (by omega), getD_append (by omega),
    getD_append (by omega), getD_append (by omega)]

theorem lengthField_append {r : Nat × Nat} (h : lengthField buf = some r) (hlen : 2 ≤ buf.length)
    (more : List UInt8) : lengthField (buf ++ more) = some r := by
  unfold lengthField at h ⊢
  dsimp only at h ⊢
  rw [getD_append (by omega)]
  split
  · rename_i h126
    rw [if_pos h126] at h
    split at h
    · cases h
    · rw [if_neg (by rw [length_append]; omega), getD_append (by omega),
        getD_append (by omega)]
      exact h
  · rename_i h126
    rw [if_neg h126] at h
    split
    · rename_i h127
      rw [if_pos h127] at h
      split at h
      · cases h
      · rw [if_neg (by rw [length_append]; omega), length64_append (by omega)]
        exact h
    · rename_i h127
      rw [if_neg h127] at h
      exact h

/-- Bytes that follow a header do not change it. -/
theorem headerFields_append (hf : headerFields buf = some h) (more : List UInt8) :
    headerFields (buf ++ more) = some h := by
  have hb := headerFields_bounds hf
  unfold headerFields at hf ⊢
  rw [if_neg (by rw [length_append]; omega)]
  rw [if_neg (by omega)] at hf
  cases hl : lengthField buf with
  | none =>
    rw [hl] at hf
    cases hf
  | some r =>
    rw [lengthField_append hl (by omega)]
    rw [hl] at hf
    obtain ⟨p, n⟩ := r
    dsimp only at hf ⊢
    rw [getD_append (by omega), getD_append (by omega)]
    split
    · rename_i hm
      rw [if_pos hm] at hf
      split at hf
      · cases hf
      · rename_i hn
        rw [if_neg (by rw [length_append]; omega), drop_append_of_le_length (by omega),
          take_append_of_le_length (by rw [length_drop]; omega)]
        exact hf
    · rename_i hm
      rw [if_neg hm] at hf
      exact hf

/-- A header is reported when the frame is complete. -/
theorem parseHeader_some {add : Nat → Nat → Nat} :
    parseHeader add buf = some h ↔
      headerFields buf = some h ∧ add h.headerLen h.payloadLen ≤ buf.length := by
  unfold parseHeader
  cases headerFields buf with
  | none => simp
  | some h' =>
    dsimp only
    split
    · rename_i hlt
      simp only [Option.some.injEq, false_iff, reduceCtorEq]
      rintro ⟨rfl, hle⟩
      omega
    · rename_i hlt
      simp only [Option.some.injEq]
      constructor
      · rintro rfl
        exact ⟨rfl, by omega⟩
      · exact fun h => h.1

/-- A complete frame stays the first frame. -/
theorem parseHeader_append (hp : parseHeader (· + ·) buf = some h) (more : List UInt8) :
    parseHeader (· + ·) (buf ++ more) = some h := by
  rw [parseHeader_some] at hp ⊢
  refine ⟨headerFields_append hp.1 more, ?_⟩
  rw [length_append]
  exact Nat.le_trans hp.2 (Nat.le_add_right _ _)

/-! ## The stream -/

variable {fuel : Nat} {bytes : List UInt8}

theorem streamFrom_fuel (env : Env) {fuel' : Nat} (h : bytes.length < fuel)
    (h' : bytes.length < fuel') (events : List Delivery) (pongs : Nat) :
    streamFrom env fuel bytes events pongs = streamFrom env fuel' bytes events pongs := by
  induction fuel generalizing fuel' bytes events pongs with
  | zero => omega
  | succ fuel ih =>
    obtain _ | fuel' := fuel'
    · omega
    rw [streamFrom, streamFrom]
    cases hp : parseHeader (· + ·) bytes with
    | none => rfl
    | some hd =>
      obtain ⟨hf, hle⟩ := parseHeader_some.mp hp
      have hb := headerFields_bounds hf
      dsimp only
      split
      · apply ih
        · rw [length_drop]
          omega
        · rw [length_drop]
          omega
      · rfl

/-- The events that follow, with enough fuel. -/
def later (env : Env) (bytes : List UInt8) (events : List Delivery) (pongs : Nat) :
    List Delivery := streamFrom env (bytes.length + 1) bytes events pongs

theorem later_none {env : Env} (hp : parseHeader (· + ·) bytes = none) (events : List Delivery)
    (pongs : Nat) : later env bytes events pongs = events := by
  rw [later, streamFrom, hp]

theorem later_some {env : Env} (hp : parseHeader (· + ·) bytes = some h) (events : List Delivery)
    (pongs : Nat) :
    later env bytes events pongs =
      match frameEvents env h (payload bytes h) events pongs with
      | (events, pongs, true) => later env (bytes.drop (h.headerLen + h.payloadLen)) events pongs
      | (events, _, false) => events := by
  obtain ⟨hf, hle⟩ := parseHeader_some.mp hp
  have hb := headerFields_bounds hf
  rw [later, streamFrom, hp]
  dsimp only
  split
  · apply streamFrom_fuel
    · rw [length_drop]
      omega
    · exact Nat.lt_succ_self _
  · rfl

theorem payload_append (hle : h.headerLen + h.payloadLen ≤ bytes.length) (more : List UInt8) :
    payload (bytes ++ more) h = payload bytes h := by
  unfold payload
  rw [drop_append_of_le_length (by omega),
    take_append_of_le_length (by rw [length_drop]; omega)]

/-! ## Frames with exact sums -/

theorem length_unmask (bytes mask : List UInt8) : (unmask bytes mask).length = bytes.length := by
  rw [unmask, length_mapIdx]

theorem length_unmaskAt (buf : List UInt8) (start len : Nat) (mask : List UInt8) :
    (unmaskAt buf start len mask).length = buf.length := by
  unfold unmaskAt
  simp only [length_append, length_unmask, length_take, length_drop]
  omega

/-- Unmasking changes the payload and nothing behind it. -/
theorem unmaskAt_spec {start len : Nat} (h : start + len ≤ buf.length) (mask : List UInt8) :
    ((unmaskAt buf start len mask).drop start).take len
        = unmask ((buf.drop start).take len) mask ∧
      (unmaskAt buf start len mask).drop (start + len) = buf.drop (start + len) := by
  have hstart : (buf.take start).length = start := by
    rw [length_take]
    omega
  have hlen : (unmask ((buf.drop start).take len) mask).length = len := by
    rw [length_unmask, length_take, length_drop]
    omega
  unfold unmaskAt
  constructor
  · rw [drop_left' hstart, take_left' hlen]
  · rw [← drop_drop, drop_left' hstart, drop_left' hlen]

variable {c : Conn}

theorem touch_of_le {start len : Nat} (h : start + len ≤ buf.length) :
    c.touch buf start len = c := by
  unfold Conn.touch
  rw [decide_eq_false (by omega), Bool.or_false]

variable {offset : Nat}

/-- The connection and the buffer once the payload is unmasked. -/
theorem unmasked_spec (hle : offset + h.headerLen + h.payloadLen ≤ buf.length) :
    ∃ buf', (if h.masked then
        (c.touch buf (offset + h.headerLen) h.payloadLen,
          unmaskAt buf (offset + h.headerLen) h.payloadLen h.mask)
        else (c, buf)) = (c, buf') ∧ buf'.length = buf.length ∧
      (buf'.drop (offset + h.headerLen)).take h.payloadLen = payload (buf.drop offset) h ∧
      buf'.drop (offset + h.headerLen + h.payloadLen)
        = buf.drop (offset + h.headerLen + h.payloadLen) := by
  unfold payload
  rw [drop_drop]
  cases hm : h.masked with
  | true =>
    obtain ⟨h₁, h₂⟩ := unmaskAt_spec hle h.mask
    refine ⟨_, ?_, length_unmaskAt _ _ _ _, ?_, h₂⟩
    · rw [if_pos rfl, touch_of_le hle]
    · rw [if_pos rfl]
      exact h₁
  | false =>
    refine ⟨buf, ?_, rfl, ?_, rfl⟩
    · rw [if_neg (by decide)]
    · rw [if_neg (by decide)]

/-- What a complete frame does to an open connection. -/
structure Handled (env : Env) (c : Conn) (buf : List UInt8) (offset : Nat) (h : WsFrameHeader)
    (r : Conn × List UInt8 × Bool) : Prop where
  events : frameEvents env h (payload (buf.drop offset) h) c.events c.pongs
    = (r.1.events, r.1.pongs, r.1.active)
  handler : r.1.handler = r.1.active
  views : r.1.views = c.views
  overread : r.1.overread = c.overread
  length : r.2.1.length = buf.length
  goesOn : r.1.active = true → r.2.2 = true ∧ r.1.wsPartial = c.wsPartial ∧
    r.2.1.drop (offset + h.headerLen + h.payloadLen)
      = buf.drop (offset + h.headerLen + h.payloadLen)

theorem reset_open (ha : c.active = true) (hh : c.handler = true) :
    c.reset = { c with
      active := false, handler := false, wsPartial := []
      events := c.events ++ [(.disconnect, [])] } := by
  unfold Conn.reset
  rw [if_pos ha, if_pos hh]

theorem onFrame_open {env : Env} {own : Bool} (ha : c.active = true) (hh : c.handler = true)
    (hle : offset + h.headerLen + h.payloadLen ≤ buf.length) :
    Handled env c buf offset h (onFrame (· + ·) env own c buf offset h) := by
  obtain ⟨buf', hbuf, hlen, hdata, hrest⟩ := unmasked_spec (c := c) hle
  have hle' : offset + h.headerLen + h.payloadLen ≤ buf'.length := by omega
  unfold onFrame
  dsimp only
  rw [hbuf]
  dsimp only
  by_cases hping : h.opcode = wsOpPing
  · rw [if_pos hping]
    unfold onPing
    rw [touch_of_le hle']
    cases hfit : pongFits (· + ·) h.payloadLen with
    | false =>
      rw [if_neg (by decide)]
      refine ⟨?_, hh.trans ha.symm, rfl, rfl, hlen, fun _ => ⟨rfl, rfl, hrest⟩⟩
      simp [frameEvents, hping, hfit, ha]
    | true =>
      rw [if_pos rfl]
      dsimp only
      cases hbreaks : env.breaks c.pongs with
      | false =>
        rw [if_neg (by simp [hbreaks])]
        refine ⟨?_, hh.trans ha.symm, rfl, rfl, hlen, fun _ => ⟨rfl, rfl, hrest⟩⟩
        simp [frameEvents, hping, hfit, hbreaks, ha]
      | true =>
        rw [if_pos (by simpa using hbreaks),
          reset_open (c := { c with pongs := c.pongs + 1 }) ha hh]
        refine ⟨?_, rfl, rfl, rfl, ?_, fun h => by cases h⟩
        · simp [frameEvents, hping, hfit, hbreaks]
        · dsimp only
          split
          · rw [length_replicate, hlen]
          · exact hlen
  rw [if_neg hping]
  by_cases hclose : h.opcode = wsOpClose
  · rw [if_pos hclose, reset_open ha hh]
    refine ⟨?_, rfl, rfl, rfl, hlen, fun h => by cases h⟩
    simp [frameEvents, hclose, wsOpClose, wsOpPing]
  rw [if_neg hclose]
  have hdataFrame : ∀ event : AxlWsEvent,
      frameEvents env h (payload (buf.drop offset) h) c.events c.pongs =
        (if env.closes (c.events ++ [(event, payload (buf.drop offset) h)]) then
          (c.events ++ [(event, payload (buf.drop offset) h)] ++ [(.disconnect, [])], c.pongs, false)
        else (c.events ++ [(event, payload (buf.drop offset) h)], c.pongs, true)) →
      Handled env c buf offset h
        (onData env c event buf' (offset + h.headerLen) h.payloadLen, buf',
          (onData env c event buf' (offset + h.headerLen) h.payloadLen).active) := by
    intro event hev
    unfold onData
    rw [if_pos hh, hdata, touch_of_le hle']
    dsimp only
    split
    · rename_i hcl
      rw [if_pos hcl] at hev
      rw [reset_open
        (c := { c with events := c.events ++ [(event, payload (buf.drop offset) h)] }) ha hh]
      exact ⟨hev, rfl, rfl, rfl, hlen, fun h => by cases h⟩
    · rename_i hcl
      rw [if_neg hcl] at hev
      refine ⟨?_, hh.trans ha.symm, rfl, rfl, hlen, fun _ => ⟨ha, rfl, hrest⟩⟩
      rw [hev]
      dsimp only
      rw [ha]
  by_cases htext : h.opcode = wsOpText
  · rw [if_pos htext]
    apply hdataFrame
    simp [frameEvents, htext, wsOpText, wsOpPing, wsOpClose]
  rw [if_neg htext]
  by_cases hbinary : h.opcode = wsOpBinary
  · rw [if_pos hbinary]
    apply hdataFrame
    simp [frameEvents, hbinary, wsOpBinary, wsOpText, wsOpPing, wsOpClose]
  rw [if_neg hbinary]
  refine ⟨?_, hh.trans ha.symm, rfl, rfl, hlen, fun _ => ⟨rfl, rfl, hrest⟩⟩
  simp [frameEvents, hping, hclose, htext, hbinary, ha]

theorem reset_closed (ha : c.active = false) : c.reset = c := by
  unfold Conn.reset
  rw [if_neg (by simp [ha])]

/-- A connection that was broken in mid-loop sees no more events. -/
theorem onFrame_closed {env : Env} {own : Bool} (ha : c.active = false) (hh : c.handler = false)
    (hle : offset + h.headerLen + h.payloadLen ≤ buf.length) :
    ∃ c' buf' go pongs, onFrame (· + ·) env own c buf offset h = (c', buf', go) ∧
      c' = { c with pongs := pongs } ∧ buf'.length = buf.length := by
  obtain ⟨buf', hbuf, hlen, -, -⟩ := unmasked_spec (c := c) hle
  have hle' : offset + h.headerLen + h.payloadLen ≤ buf'.length := by omega
  have hdata : ∀ event, onData env c event buf' (offset + h.headerLen) h.payloadLen = c := by
    intro event
    unfold onData
    rw [if_neg (by simp [hh])]
  unfold onFrame
  dsimp only
  rw [hbuf]
  dsimp only
  simp only [hdata, reset_closed ha]
  by_cases hping : h.opcode = wsOpPing
  · rw [if_pos hping]
    unfold onPing
    rw [touch_of_le hle']
    split
    · dsimp only
      split
      · rw [reset_closed (c := { c with pongs := c.pongs + 1 }) ha, ha, Bool.and_false,
          if_neg (by decide)]
        exact ⟨_, _, _, _, rfl, rfl, hlen⟩
      · exact ⟨_, _, _, _, rfl, rfl, hlen⟩
    · exact ⟨_, _, _, c.pongs, rfl, rfl, hlen⟩
  rw [if_neg hping]
  split
  · exact ⟨_, _, _, c.pongs, rfl, rfl, hlen⟩
  · split
    · exact ⟨_, _, _, c.pongs, rfl, rfl, hlen⟩
    · split
      · exact ⟨_, _, _, c.pongs, rfl, rfl, hlen⟩
      · exact ⟨_, _, _, c.pongs, rfl, rfl, hlen⟩

/-! ## The loop with exact sums -/

theorem complete_of_parse (hp : parseHeader (· + ·) (buf.drop offset) = some h)
    (hlt : offset < buf.length) :
    offset + h.headerLen + h.payloadLen ≤ buf.length ∧ 2 ≤ h.headerLen := by
  obtain ⟨hf, hle⟩ := parseHeader_some.mp hp
  have hb := headerFields_bounds hf
  rw [length_drop] at hle
  omega

theorem loop_closed {env : Env} {own : Bool} (ha : c.active = false) (hh : c.handler = false)
    (hfuel : buf.length < fuel + offset) (hle : offset ≤ buf.length) :
    ∃ c', loop (· + ·) env own fuel c buf offset = some c' ∧ c'.active = false ∧
      c'.events = c.events ∧ c'.overread = c.overread := by
  induction fuel generalizing c buf offset with
  | zero => omega
  | succ fuel ih =>
    unfold loop
    split
    · exact ⟨c, rfl, ha, rfl, rfl⟩
    · rename_i hlt
      dsimp only
      cases hp : parseHeader (· + ·) (buf.drop offset) with
      | none => exact ⟨_, rfl, ha, rfl, rfl⟩
      | some h =>
        obtain ⟨hcomplete, htwo⟩ := complete_of_parse hp (by omega)
        obtain ⟨c', buf', go, pongs, hr, rfl, hlen⟩ := onFrame_closed
          (c := { c with views := c.views ++ [buf.drop offset] }) ha hh hcomplete
        dsimp only
        rw [hr]
        cases go with
        | false => exact ⟨_, rfl, ha, rfl, rfl⟩
        | true =>
          obtain ⟨c', hloop, h₁, h₂, h₃⟩ := ih
            (c := { c with views := c.views ++ [buf.drop offset], pongs := pongs }) ha hh
            (show buf'.length < fuel + (offset + (h.headerLen + h.payloadLen)) by omega) (by omega)
          exact ⟨c', hloop, h₁, h₂, h₃⟩

/-- Where an open connection stands after it was handed `bytes`: it is closed and no
continuation changes its events, or it waits for the continuation of `wsPartial`. -/
def Follows (env : Env) (c : Conn) (bytes : List UInt8) (c' : Conn) : Prop :=
  (c'.active = false ∧ ∀ more, later env (bytes ++ more) c.events c.pongs = c'.events) ∨
  (c'.active = true ∧ c'.handler = true ∧ parseHeader (· + ·) c'.wsPartial = none ∧
    c'.wsPartial.length ≤ bytes.length ∧ ∀ more, later env (bytes ++ more) c.events c.pongs
      = later env (c'.wsPartial ++ more) c'.events c'.pongs)

theorem later_append {env : Env} (hp : parseHeader (· + ·) bytes = some h)
    {events events' : List Delivery} {pongs pongs' : Nat} {go : Bool}
    (hev : frameEvents env h (payload bytes h) events pongs = (events', pongs', go))
    (more : List UInt8) :
    later env (bytes ++ more) events pongs =
      if go then later env (bytes.drop (h.headerLen + h.payloadLen) ++ more) events' pongs'
      else events' := by
  obtain ⟨hf, hle⟩ := parseHeader_some.mp hp
  rw [later_some (parseHeader_append hp more), payload_append hle, hev,
    drop_append_of_le_length hle]
  cases go with
  | true => rfl
  | false => rfl

theorem loop_open {env : Env} {own : Bool} (ha : c.active = true) (hh : c.handler = true)
    (hnil : c.wsPartial = []) (hfuel : buf.length < fuel + offset) (hle : offset ≤ buf.length) :
    ∃ c', loop (· + ·) env own fuel c buf offset = some c' ∧ c'.overread = c.overread ∧
      Follows env c (buf.drop offset) c' := by
  induction fuel generalizing c buf offset with
  | zero => omega
  | succ fuel ih =>
    unfold loop
    split
    · rename_i hend
      refine ⟨c, rfl, rfl, .inr ⟨ha, hh, ?_, ?_, ?_⟩⟩
      · rw [hnil]
        rfl
      · rw [hnil]
        exact Nat.zero_le _
      · rw [drop_eq_nil_of_le hend, hnil]
        exact fun _ => rfl
    · rename_i hlt
      dsimp only
      cases hp : parseHeader (· + ·) (buf.drop offset) with
      | none => exact ⟨_, rfl, rfl, .inr ⟨ha, hh, hp, Nat.le_refl _, fun _ => rfl⟩⟩
      | some h =>
        obtain ⟨hcomplete, htwo⟩ := complete_of_parse hp (by omega)
        have hdone : Handled env { c with views := c.views ++ [buf.drop offset] } buf offset h
            (onFrame (· + ·) env own { c with views := c.views ++ [buf.drop offset] } buf offset h) :=
          onFrame_open ha hh hcomplete
        dsimp only
        generalize onFrame (· + ·) env own _ buf offset h = r at hdone
        obtain ⟨c₁, buf₁, go⟩ := r
        have hlen : buf₁.length = buf.length := hdone.length
        have hlater := later_append hp hdone.events
        rw [drop_drop, ← Nat.add_assoc] at hlater
        cases hact : c₁.active with
        | false =>
          have hh₁ : c₁.handler = false := hdone.handler.trans hact
          have hended : ∀ more, later env (buf.drop offset ++ more) c.events c.pongs
              = c₁.events := by
            intro more
            rw [hlater more, if_neg (by simp [hact])]
          cases go with
          | false => exact ⟨c₁, rfl, hdone.overread, .inl ⟨hact, hended⟩⟩
          | true =>
            obtain ⟨c', hloop, h₁, h₂, h₃⟩ := loop_closed hact hh₁
              (show buf₁.length < fuel + (offset + (h.headerLen + h.payloadLen)) by omega)
              (by omega)
            exact ⟨c', hloop, h₃.trans hdone.overread, .inl ⟨h₁, by rw [h₂]; exact hended⟩⟩
        | true =>
          obtain ⟨hgo, hnil₁, hrest⟩ := hdone.goesOn hact
          have hh₁ : c₁.handler = true := hdone.handler.trans hact
          cases hgo
          obtain ⟨c', hloop, hover, hfollow⟩ := ih hact hh₁ (hnil₁.trans hnil)
            (show buf₁.length < fuel + (offset + (h.headerLen + h.payloadLen)) by omega)
            (by omega)
          dsimp only at hrest
          rw [← Nat.add_assoc] at hfollow
          rw [hrest] at hfollow
          refine ⟨c', hloop, hover.trans hdone.overread, ?_⟩
          rcases hfollow with ⟨hc, hev⟩ | ⟨hc, hc', hidle, hshort, hev⟩
          · refine .inl ⟨hc, fun more => ?_⟩
            rw [hlater more, if_pos hact, hev]
          · refine .inr ⟨hc, hc', hidle, ?_, fun more => ?_⟩
            · rw [length_drop] at hshort ⊢
              omega
            · rw [hlater more, if_pos hact, hev]

/-- One receive with exact sums. -/
theorem process_open {env : Env} (ha : c.active = true) (hh : c.handler = true) {data : List UInt8}
    (hfuel : (c.wsPartial ++ data).length < fuel) :
    ∃ c', processWebsocketData (· + ·) env fuel c data = some c' ∧ c'.overread = c.overread ∧
      Follows env c (c.wsPartial ++ data) c' := by
  unfold processWebsocketData
  split
  · exact loop_open (c := { c with wsPartial := [] }) ha hh rfl hfuel (Nat.zero_le _)
  · rename_i hnil
    have hnil : c.wsPartial = [] := length_eq_zero_iff.mp (by omega)
    rw [hnil, nil_append] at hfuel ⊢
    exact loop_open ha hh hnil hfuel (Nat.zero_le _)

/-- With exact sums the receives deliver the events of the stream. -/
theorem receives_exact {env : Env} {segments : List (List UInt8)} (ha : c.active = true)
    (hh : c.handler = true) (hidle : parseHeader (· + ·) c.wsPartial = none)
    (hfuel : c.wsPartial.length + segments.flatten.length < fuel) :
    ∃ c', receives (· + ·) env fuel c segments = some c' ∧ c'.overread = c.overread ∧
      c'.events = later env (c.wsPartial ++ segments.flatten) c.events c.pongs := by
  induction segments generalizing c with
  | nil =>
    refine ⟨c, rfl, rfl, ?_⟩
    rw [flatten_nil, append_nil, later_none hidle]
  | cons data rest ih =>
    rw [flatten_cons, length_append] at hfuel
    unfold receives
    rw [if_pos ha]
    have hfit : (c.wsPartial ++ data).length < fuel := by
      rw [length_append]
      omega
    obtain ⟨c₁, hproc, hover, hfollow⟩ := process_open ha hh hfit
    rw [hproc, Option.bind_some, flatten_cons, ← append_assoc]
    rcases hfollow with ⟨hc, hev⟩ | ⟨hc, hc', hidle', hshort, hev⟩
    · refine ⟨c₁, ?_, hover, (hev _).symm⟩
      cases rest with
      | nil => rfl
      | cons data rest => rw [receives, if_neg (by simp [hc])]
    · rw [length_append] at hshort
      obtain ⟨c', hrec, hover', hlater⟩ := ih hc hc' hidle' (by omega)
      refine ⟨c', hrec, hover'.trans hover, ?_⟩
      rw [hev, hlater]

/-! ## Any sums -/

section

variable {add add' : Nat → Nat → Nat} {env : Env} {own : Bool}

variable (add env own) in
theorem onFrame_frame (c : Conn) (buf : List UInt8) (offset : Nat) (h : WsFrameHeader) :
    (onFrame add env own c buf offset h).1.views = c.views ∧
      (onFrame add env own c buf offset h).2.1.length = buf.length := by
  have hreset : ∀ c : Conn, c.reset.views = c.views := by
    intro c
    unfold Conn.reset
    split
    · rfl
    · rfl
  have hdata : ∀ c event buf start len, (onData env c event buf start len).views = c.views := by
    intro c event buf start len
    unfold onData
    split
    · dsimp only
      split
      · exact hreset _
      · rfl
    · rfl
  have hping : ∀ c buf start len, (onPing add env own c buf start len).1.views = c.views ∧
      (onPing add env own c buf start len).2.length = buf.length := by
    intro c buf start len
    unfold onPing
    split
    · dsimp only
      split
      · refine ⟨hreset _, ?_⟩
        dsimp only
        split
        · exact length_replicate
        · rfl
      · exact ⟨rfl, rfl⟩
    · exact ⟨rfl, rfl⟩
  have hmask : ∀ r : Conn × List UInt8, r.1.views = c.views → r.2.length = buf.length →
      (r = if h.masked then (c.touch buf (offset + h.headerLen) h.payloadLen,
          unmaskAt buf (offset + h.headerLen) h.payloadLen h.mask) else (c, buf)) →
      (onFrame add env own c buf offset h).1.views = c.views ∧
        (onFrame add env own c buf offset h).2.1.length = buf.length := by
    intro r hviews hlen hr
    unfold onFrame
    dsimp only
    rw [← hr, ← hviews, ← hlen]
    split
    · exact hping _ _ _ _
    · split
      · exact ⟨hreset _, rfl⟩
      · split
        · exact ⟨hdata _ _ _ _ _, rfl⟩
        · split
          · exact ⟨hdata _ _ _ _ _, rfl⟩
          · exact ⟨rfl, rfl⟩
  by_cases hm : h.masked = true
  · refine hmask (c.touch buf (offset + h.headerLen) h.payloadLen,
      unmaskAt buf (offset + h.headerLen) h.payloadLen h.mask) rfl (length_unmaskAt _ _ _ _) ?_
    rw [if_pos hm]
  · refine hmask (c, buf) rfl rfl ?_
    rw [if_neg hm]

variable {fuel offset : Nat} {c c' : Conn} {buf : List UInt8}

/-- The views of a loop are those before it and parts of its buffer. -/
theorem loop_views (hloop : loop add env own fuel c buf offset = some c') :
    c.views ⊆ c'.views ∧ ∀ v ∈ c'.views, v ∈ c.views ∨ v.length ≤ buf.length := by
  induction fuel generalizing c buf offset with
  | zero => cases hloop
  | succ fuel ih =>
    unfold loop at hloop
    split at hloop
    · cases hloop
      exact ⟨fun _ h => h, fun _ h => .inl h⟩
    · dsimp only at hloop
      have hnew : ∀ v ∈ c.views ++ [buf.drop offset], v ∈ c.views ∨ v.length ≤ buf.length := by
        intro v hv
        rcases mem_append.mp hv with hv | hv
        · exact .inl hv
        · rw [mem_singleton.mp hv, length_drop]
          exact .inr (Nat.sub_le _ _)
      have hsub : c.views ⊆ c.views ++ [buf.drop offset] := fun _ h => mem_append_left _ h
      split at hloop
      · cases hloop
        exact ⟨hsub, hnew⟩
      · rename_i h hp
        have hframe := onFrame_frame add env own
          { c with views := c.views ++ [buf.drop offset] } buf offset h
        generalize onFrame add env own _ buf offset h = r at hloop hframe
        obtain ⟨c₁, buf₁, go⟩ := r
        obtain ⟨hviews, hlen⟩ := hframe
        dsimp only at hviews hlen
        cases go with
        | false =>
          cases hloop
          rw [hviews]
          exact ⟨hsub, hnew⟩
        | true =>
          obtain ⟨h₁, h₂⟩ := ih hloop
          rw [hviews] at h₁ h₂
          refine ⟨List.Subset.trans hsub h₁, fun v hv => ?_⟩
          rcases h₂ v hv with hv | hv
          · exact hnew v hv
          · exact .inr (hlen ▸ hv)

/-- The bytes at which a loop starts are among its views. -/
theorem loop_first (hlt : ¬ buf.length ≤ offset)
    (hloop : loop add env own fuel c buf offset = some c') :
    buf.drop offset ∈ c'.views := by
  cases fuel with
  | zero => cases hloop
  | succ fuel =>
    have hmem : buf.drop offset ∈ c.views ++ [buf.drop offset] := by simp
    unfold loop at hloop
    rw [if_neg hlt] at hloop
    dsimp only at hloop
    split at hloop
    · cases hloop
      exact hmem
    · rename_i h hp
      have hframe := onFrame_frame add env own
        { c with views := c.views ++ [buf.drop offset] } buf offset h
      generalize onFrame add env own _ buf offset h = r at hloop hframe
      obtain ⟨c₁, buf₁, go⟩ := r
      obtain ⟨hviews, -⟩ := hframe
      dsimp only at hviews
      cases go with
      | false =>
        cases hloop
        rw [hviews]
        exact hmem
      | true => exact (loop_views hloop).1 (hviews ▸ hmem)

theorem loop_mono (hloop : loop add env own fuel c buf offset = some c') {fuel' : Nat}
    (hle : fuel ≤ fuel') :
    loop add env own fuel' c buf offset = some c' := by
  induction fuel generalizing c buf offset fuel' with
  | zero => cases hloop
  | succ fuel ih =>
    obtain _ | fuel' := fuel'
    · omega
    unfold loop at hloop ⊢
    split at hloop
    · rename_i hend
      rw [if_pos hend]
      exact hloop
    · rename_i hend
      rw [if_neg hend]
      dsimp only at hloop ⊢
      split
      · rename_i hp
        rw [hp] at hloop
        exact hloop
      · rename_i h hp
        rw [hp] at hloop
        dsimp only at hloop
        split
        · rename_i c₁ buf₁ hr
          rw [hr] at hloop
          exact ih hloop (by omega)
        · rename_i c₁ buf₁ hr
          rw [hr] at hloop
          exact hloop

/-- Sums of sizes that are right as long as they do not wrap. -/
def Sums (add : Nat → Nat → Nat) : Prop := ∀ a b, a + b < 2 ^ 64 → add a b = a + b

theorem sums_addSize : Sums addSize := fun _ _ h => Nat.mod_eq_of_lt h

theorem sums_exact : Sums (· + ·) := fun _ _ _ => rfl

/-- No header in these bytes declares a length that wraps. -/
def Small (bytes : List UInt8) : Prop :=
  ∀ h, headerFields bytes = some h → h.headerLen + h.payloadLen < 2 ^ 64

instance (bytes : List UInt8) : Decidable (Small bytes) :=
  decidable_of_iff ((headerFields bytes).all fun h => decide (h.headerLen + h.payloadLen < 2 ^ 64)) (by
    unfold Small
    cases headerFields bytes with
    | none => simp
    | some h => simp)

variable {bytes : List UInt8}

theorem parseHeader_agree (hadd : Sums add) (hadd' : Sums add') (hsmall : Small bytes) :
    parseHeader add bytes = parseHeader add' bytes := by
  unfold parseHeader
  cases hf : headerFields bytes with
  | none => rfl
  | some h =>
    dsimp only
    rw [hadd _ _ (hsmall h hf), hadd' _ _ (hsmall h hf)]

/-- The wrapped sum is below the length of the header, so the frame is reported. -/
theorem small_of_complete (hfit : bytes.length < 2 ^ 64)
    (hcomplete : ∀ h, parseHeader addSize bytes = some h →
      h.headerLen + h.payloadLen ≤ bytes.length) : Small bytes := by
  intro h hf
  obtain ⟨h₁, h₂, h₃, h₄, -⟩ := headerFields_bounds hf
  by_contra hbig
  have hwrap : addSize h.headerLen h.payloadLen ≤ bytes.length := by
    unfold addSize
    omega
  have := hcomplete h (parseHeader_some.mpr ⟨hf, hwrap⟩)
  omega

theorem pongFits_agree (hadd : Sums add) (hadd' : Sums add') {h : WsFrameHeader}
    (hf : headerFields bytes = some h) (hsmall : h.headerLen + h.payloadLen < 2 ^ 64) :
    pongFits add h.payloadLen = pongFits add' h.payloadLen := by
  obtain ⟨-, h₂, -, -, h₅⟩ := headerFields_bounds hf
  have hsum : (if h.payloadLen < 126 then 2 else if h.payloadLen ≤ 0xffff then 4 else 10)
      + h.payloadLen < 2 ^ 64 := by
    split
    · omega
    · split
      · omega
      · have := h₅ (by omega)
        omega
  unfold pongFits
  dsimp only
  rw [hadd _ _ hsum, hadd' _ _ hsum]

theorem onFrame_agree {h : WsFrameHeader}
    (hfit : pongFits add h.payloadLen = pongFits add' h.payloadLen) :
    onFrame add env own c buf offset h = onFrame add' env own c buf offset h := by
  unfold onFrame onPing
  rw [hfit]

/-- Two loops that add right do the same while no length wraps. -/
theorem loop_agree (hadd : Sums add) (hadd' : Sums add')
    (hloop : loop add env own fuel c buf offset = some c') (hsmall : ∀ v ∈ c'.views, Small v)
    (hfit : buf.length < 2 ^ 64) :
    loop add' env own fuel c buf offset = some c' := by
  induction fuel generalizing c buf offset with
  | zero => cases hloop
  | succ fuel ih =>
    have hfirst : ¬ buf.length ≤ offset → buf.drop offset ∈ c'.views :=
      fun hlt => loop_first hlt hloop
    unfold loop at hloop ⊢
    split at hloop
    · rename_i hend
      rw [if_pos hend]
      exact hloop
    rename_i hend
    rw [if_neg hend]
    dsimp only at hloop ⊢
    have hview : Small (buf.drop offset) := hsmall _ (hfirst hend)
    rw [← parseHeader_agree hadd hadd' hview]
    cases hp : parseHeader add (buf.drop offset) with
    | none =>
      rw [hp] at hloop
      exact hloop
    | some h =>
      rw [hp] at hloop
      dsimp only at hloop ⊢
      obtain ⟨hf, hle⟩ := parseHeader_some.mp hp
      have hsum := hview h hf
      rw [hadd _ _ hsum, length_drop] at hle
      rw [← onFrame_agree (pongFits_agree hadd hadd' hf hsum)]
      have hlen := (onFrame_frame add env own
        { c with views := c.views ++ [buf.drop offset] } buf offset h).2
      generalize onFrame add env own _ buf offset h = r at hloop hlen
      obtain ⟨c₁, buf₁, go⟩ := r
      dsimp only at hlen
      cases go with
      | false => exact hloop
      | true =>
        have hnext : offset + (h.headerLen + h.payloadLen) < 2 ^ 64 := by omega
        rw [hadd _ _ hsum, hadd _ _ hnext] at hloop
        rw [hadd' _ _ hsum, hadd' _ _ hnext]
        exact ih hloop (hlen ▸ hfit)

/-! ## Receives -/

variable (env) in
theorem process_eq (fuel : Nat) (c : Conn) (data : List UInt8) :
    ∃ own, ∀ add, processWebsocketData add env fuel c data
      = loop add env own fuel { c with wsPartial := [] } (c.wsPartial ++ data) 0 := by
  unfold processWebsocketData
  split
  · exact ⟨false, fun _ => rfl⟩
  · rename_i hnil
    have hnil : c.wsPartial = [] := length_eq_zero_iff.mp (by omega)
    refine ⟨true, fun _ => ?_⟩
    rw [hnil, nil_append, ← hnil]

variable {segments : List (List UInt8)}

theorem receives_views (h : receives add env fuel c segments = some c') : c.views ⊆ c'.views := by
  induction segments generalizing c with
  | nil =>
    cases h
    exact fun _ h => h
  | cons data rest ih =>
    unfold receives at h
    split at h
    · obtain ⟨c₁, hproc, hrest⟩ := Option.bind_eq_some_iff.mp h
      obtain ⟨own, heq⟩ := process_eq env fuel c data
      rw [heq] at hproc
      exact List.Subset.trans (loop_views hproc).1 (ih hrest)
    · cases h
      exact fun _ h => h

theorem receives_mono (h : receives add env fuel c segments = some c') {fuel' : Nat}
    (hle : fuel ≤ fuel') :
    receives add env fuel' c segments = some c' := by
  induction segments generalizing c with
  | nil => exact h
  | cons data rest ih =>
    unfold receives at h ⊢
    split at h
    · rename_i ha
      rw [if_pos ha]
      obtain ⟨c₁, hproc, hrest⟩ := Option.bind_eq_some_iff.mp h
      unfold processWebsocketData at hproc ⊢
      split at hproc
      · rename_i hpos
        rw [if_pos hpos, loop_mono hproc hle, Option.bind_some]
        exact ih hrest
      · rename_i hpos
        rw [if_neg hpos, loop_mono hproc hle, Option.bind_some]
        exact ih hrest
    · rename_i ha
      rw [if_neg ha]
      exact h

theorem process_buffer {data : List UInt8} (h : processWebsocketData add env fuel c data = some c')
    (hfit : ∀ v ∈ c'.views, v.length < 2 ^ 64) : (c.wsPartial ++ data).length < 2 ^ 64 := by
  obtain ⟨own, heq⟩ := process_eq env fuel c data
  rw [heq] at h
  by_cases hne : c.wsPartial ++ data = []
  · rw [hne]
    decide
  · have hpos : ¬ (c.wsPartial ++ data).length ≤ 0 := by simpa using hne
    exact hfit _ (loop_first hpos h)

theorem process_agree (hadd : Sums add) (hadd' : Sums add') {data : List UInt8}
    (h : processWebsocketData add env fuel c data = some c') (hsmall : ∀ v ∈ c'.views, Small v)
    (hfit : (c.wsPartial ++ data).length < 2 ^ 64) :
    processWebsocketData add' env fuel c data = some c' := by
  obtain ⟨own, heq⟩ := process_eq env fuel c data
  rw [heq] at h ⊢
  exact loop_agree hadd hadd' h hsmall hfit

theorem receives_agree (hadd : Sums add) (hadd' : Sums add')
    (h : receives add env fuel c segments = some c') (hsmall : ∀ v ∈ c'.views, Small v)
    (hfit : ∀ v ∈ c'.views, v.length < 2 ^ 64) :
    receives add' env fuel c segments = some c' := by
  induction segments generalizing c with
  | nil => exact h
  | cons data rest ih =>
    unfold receives at h ⊢
    split at h
    · rename_i ha
      rw [if_pos ha]
      obtain ⟨c₁, hproc, hrest⟩ := Option.bind_eq_some_iff.mp h
      have hsub := receives_views hrest
      have hbuf := process_buffer hproc fun v hv => hfit v (hsub hv)
      rw [process_agree hadd hadd' hproc (fun v hv => hsmall v (hsub hv)) hbuf, Option.bind_some]
      exact ih hrest
    · rename_i ha
      rw [if_neg ha]
      exact h

/-- Receives that report complete frames only are those with exact sums. -/
theorem receives_complete {c₁ c₂ : Conn} (h₁ : receives addSize env fuel c segments = some c₁)
    (h₂ : receives (· + ·) env fuel c segments = some c₂)
    (hcomplete : ∀ v ∈ c₁.views, ∀ h, parseHeader addSize v = some h →
      h.headerLen + h.payloadLen ≤ v.length) (hfit : ∀ v ∈ c₂.views, v.length < 2 ^ 64)
    (hsmall : ∀ v ∈ c.views, Small v) :
    c₁ = c₂ ∧ ∀ v ∈ c₁.views, Small v := by
  induction segments generalizing c with
  | nil =>
    cases h₁
    cases h₂
    exact ⟨rfl, hsmall⟩
  | cons data rest ih =>
    unfold receives at h₁ h₂
    split at h₁
    · rename_i ha
      rw [if_pos ha] at h₂
      obtain ⟨d₁, hproc₁, hrest₁⟩ := Option.bind_eq_some_iff.mp h₁
      obtain ⟨d₂, hproc₂, hrest₂⟩ := Option.bind_eq_some_iff.mp h₂
      have hsub₁ := receives_views hrest₁
      have hsub₂ := receives_views hrest₂
      have hbuf := process_buffer hproc₂ fun v hv => hfit v (hsub₂ hv)
      have hsmall₁ : ∀ v ∈ d₁.views, Small v := by
        intro v hv
        obtain ⟨own, heq⟩ := process_eq env fuel c data
        rw [heq] at hproc₁
        rcases (loop_views hproc₁).2 v hv with hold | hshort
        · exact hsmall v hold
        · exact small_of_complete (by omega) (hcomplete v (hsub₁ hv))
      have hsame := process_agree sums_addSize sums_exact hproc₁ hsmall₁ hbuf
      rw [hproc₂] at hsame
      cases hsame
      exact ih hrest₁ hrest₂ hsmall₁
    · rename_i ha
      rw [if_neg ha] at h₂
      cases h₁
      cases h₂
      exact ⟨rfl, hsmall⟩

end

/-- The receives with exact sums, with the fuel of `met`. -/
theorem exists_met (env : Env) (segments : List (List UInt8)) :
    ∃ c, receives (· + ·) env (segments.flatten.length + 1) Conn.new segments = some c ∧
      met env segments = c.views ∧ c.overread = false ∧ c.events = stream env segments.flatten := by
  have hfuel : Conn.new.wsPartial.length + segments.flatten.length
      < segments.flatten.length + 1 := by simp [Conn.new]
  obtain ⟨c, hrec, hover, hev⟩ := receives_exact rfl rfl rfl hfuel
  refine ⟨c, hrec, ?_, hover, hev⟩
  unfold met
  rw [hrec]
  rfl

/-- The receives of a stream are exact, however it is cut, if and only if every
header that is met declares a length whose sum with its own length fits 64 bits. -/
theorem segments_exact_iff (env : Env) (segments : List (List UInt8))
    (hfit : Allocated env segments) :
    Exact env segments ↔ ∀ bytes ∈ met env segments, Small bytes := by
  obtain ⟨c, hrec, hmet, hover, hev⟩ := exists_met env segments
  rw [Allocated, hmet] at hfit
  rw [hmet]
  constructor
  · rintro ⟨fuel, c₁, hcode, -, hcomplete, -⟩
    have h₁ := receives_mono hcode (Nat.le_max_left fuel (segments.flatten.length + 1))
    have h₂ := receives_mono hrec (Nat.le_max_right fuel (segments.flatten.length + 1))
    obtain ⟨rfl, hsmall⟩ := receives_complete h₁ h₂ hcomplete hfit (by simp [Conn.new])
    exact hsmall
  · intro hsmall
    refine ⟨_, c, receives_agree sums_exact sums_addSize hrec hsmall hfit, hover, ?_, hev⟩
    intro bytes hb h hp
    rw [parseHeader_agree sums_addSize sums_exact (hsmall bytes hb)] at hp
    exact (parseHeader_some.mp hp).2

/-- Nothing outside interferes. -/
def quiet : Env := ⟨fun _ => false, fun _ => false⟩

/-- A masked text frame cut in its header, and a ping behind it. -/
theorem segments_exact_cut :
    Allocated quiet [[0x81, 0x82, 1], [2, 3, 4, 73, 107, 0x89], [0]] ∧
      Exact quiet [[0x81, 0x82, 1], [2, 3, 4, 73, 107, 0x89], [0]] ∧
      stream quiet [0x81, 0x82, 1, 2, 3, 4, 73, 107, 0x89, 0] = [(.text, [72, 105])] := by
  have hfit : Allocated quiet [[0x81, 0x82, 1], [2, 3, 4, 73, 107, 0x89], [0]] := by
    unfold Allocated
    decide
  exact ⟨hfit, (segments_exact_iff quiet _ hfit).mpr (by decide), by decide⟩

/-- A continuation frame that declares `2 ^ 64 - 10` bytes. -/
def hugeFrame : List UInt8 := [0x00, 0x7f, 0xff, 0xff, 0xff, 0xff, 0xff, 0xff, 0xff, 0xf6]

theorem hugeFrame_loop (fuel : Nat) (c : Conn) (own : Bool) :
    loop addSize quiet own fuel c hugeFrame 0 = none := by
  induction fuel generalizing c with
  | zero => rfl
  | succ fuel ih =>
    unfold loop
    rw [if_neg (by decide)]
    have hp : parseHeader addSize (hugeFrame.drop 0)
        = some ⟨false, 0, false, [], 2 ^ 64 - 10, 10⟩ := by decide
    rw [hp]
    exact ih _

/-- The cursor does not move over such a frame and the loop never ends. -/
theorem huge_length_never_ends :
    Allocated quiet [hugeFrame] ∧
      (∀ fuel, receives addSize quiet fuel Conn.new [hugeFrame] = none) ∧
      ¬ Exact quiet [hugeFrame] := by
  have hnever : ∀ fuel, receives addSize quiet fuel Conn.new [hugeFrame] = none := by
    intro fuel
    unfold receives processWebsocketData
    rw [if_pos (by decide), if_neg (by decide), hugeFrame_loop]
    rfl
  refine ⟨by unfold Allocated; decide, hnever, ?_⟩
  rintro ⟨fuel, c, hcode, -⟩
  rw [hnever] at hcode
  cases hcode

end WebSocket

end AxlSdk
