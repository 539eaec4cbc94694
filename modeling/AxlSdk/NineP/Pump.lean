import AxlSdk.NineP.Dispatch

/-!
# The request pump of the 9P server (`axl-9p-server.c`)

A connection buffers what it receives, cuts it into messages and dispatches them, one at
a time: the next one only when the reply to the last one is out.

- `s9pPump`, `s9pOnRecv`, `s9pOnSend`, `s9pOnAccept`: the pump and the callbacks of the
  transport. The pump also tells which messages it dispatched.
- `State`, `Step`, `Reachable`: the pool of connections under accepts and completions in
  any order. A `Slot` remembers, for the statements only, what its connection received and
  dispatched since it was accepted.
- `SlotOk`: the invariant of a slot, and `reachable_ok`: it holds in every state reached.
-/

namespace AxlSdk

namespace NineP

open Paths List

/-! ## The callbacks -/

/-- A message the pump dispatched: the connection as `s9p_dispatch` found it, and the
size of the frame at the front of its buffer. -/
structure Seen where
  conn : S9pConn
  frameSize : Nat

/-- The bytes `s9p_dispatch` is given. -/
def Seen.msg (x : Seen) : List UInt8 := x.conn.rbuf.take x.frameSize

/-- The little-endian size at the front of a buffer. -/
def sizePrefix (bytes : List UInt8) : Nat := leNat (bytes.take 4)

/-- `s9p_arm_recv` -/
def s9pArmRecv (conn : S9pConn) : FsProg S9pConn := do
  let ok ← axlTcpRecvAsync (conn.rcap - conn.rbuf.length)
  if ok then return { conn with rxArmed := true } else s9pReap conn

/-- The loop of `s9p_pump`: whether the connection is alive after it, the connection and
the messages dispatched. Each turn takes bytes off the buffer, whose length bounds the
turns. -/
def pumpLoop (srv : Axl9pServer) : Nat → S9pConn → FsProg (Bool × S9pConn × List Seen)
  | 0, conn => pure (true, conn, [])
  | n + 1, conn =>
    if conn.txBusy then pure (true, conn, [])
    else if conn.rbuf.length < 4 then pure (true, conn, [])
    else
      let frameSize := sizePrefix conn.rbuf
      if frameSize < 7 ∨ conn.msize < frameSize then do
        let conn ← s9pReap conn
        return (false, conn, [])
      else if conn.rbuf.length < frameSize then pure (true, conn, [])
      else do
        let seen : Seen := ⟨conn, frameSize⟩
        let res ← s9pDispatch srv conn seen.msg
        if res.1.isNone then
          return (false, res.2, [seen])
        else
          let rest ← pumpLoop srv n { res.2 with rbuf := res.2.rbuf.drop frameSize }
          return (rest.1, rest.2.1, seen :: rest.2.2)

/-- `s9p_pump` -/
def s9pPump (srv : Axl9pServer) (conn : S9pConn) : FsProg (S9pConn × List Seen) := do
  if conn.draining then
    return (conn, [])
  else
    let res ← pumpLoop srv conn.rbuf.length { conn with draining := true }
    if !res.1 then
      return res.2
    else
      let conn := { res.2.1 with draining := false }
      if !conn.txBusy ∧ !conn.rxArmed ∧ conn.rbuf.length < conn.rcap then
        let conn ← s9pArmRecv conn
        return (conn, res.2.2)
      else
        return (conn, res.2.2)

/-- `s9p_on_recv`: the status and the bytes of a completion. -/
def s9pOnRecv (srv : Axl9pServer) (conn : S9pConn) (ok : Bool) (bytes : List UInt8) :
    FsProg (S9pConn × List Seen) := do
  if !conn.active then
    return (conn, [])
  else
    let conn := { conn with rxArmed := false }
    if !ok ∨ bytes.length = 0 then
      let conn ← s9pReap conn
      return (conn, [])
    else
      s9pPump srv { conn with rbuf := conn.rbuf ++ bytes }

/-- `s9p_on_send` -/
def s9pOnSend (srv : Axl9pServer) (conn : S9pConn) (ok : Bool) :
    FsProg (S9pConn × List Seen) := do
  if !conn.active then
    return (conn, [])
  else
    let conn := { conn with txBusy := false }
    if !ok then
      let conn ← s9pReap conn
      return (conn, [])
    else
      s9pPump srv conn

/-- What `s9p_on_accept` does with the free slot it has found. -/
def s9pOnAccept (conn : S9pConn) : FsProg S9pConn := do
  let rbuf ← axlMalloc
  let txbuf ← (if rbuf then axlMalloc else pure false)
  if !rbuf ∨ !txbuf then
    return conn
  else
    s9pArmRecv .accepted

/-! ## The pool -/

structure Slot where
  conn : S9pConn
  received : List UInt8
  seen : List Seen

inductive Event where
  | accept
  | recv (ok : Bool) (bytes : List UInt8)
  | sent (ok : Bool)

/-- The completions a connection can be given: those of what it started. A receive fits
the room it was armed with. -/
def Event.Enabled (conn : S9pConn) : Event → Prop
  | .accept => conn.active = false
  | .recv _ bytes => conn.active = true ∧ conn.rxArmed = true ∧
      bytes.length ≤ conn.rcap - conn.rbuf.length
  | .sent _ => conn.active = true ∧ conn.txBusy = true

/-- The callback of an event. -/
def serve (srv : Axl9pServer) (slot : Slot) : Event → FsProg Slot
  | .accept => do
    let conn ← s9pOnAccept slot.conn
    return ⟨conn, [], []⟩
  | .recv ok bytes => do
    let res ← s9pOnRecv srv slot.conn ok bytes
    return ⟨res.1, if ok then slot.received ++ bytes else slot.received, slot.seen ++ res.2⟩
  | .sent ok => do
    let res ← s9pOnSend srv slot.conn ok
    return ⟨res.1, slot.received, slot.seen ++ res.2⟩

structure State where
  slots : List Slot
  ledger : Ledger

/-- `AXL_9P_SERVER_DEFAULT_MAX_CONNS` free slots, and nothing done yet. -/
def State.initial : State where
  slots := List.replicate 8 ⟨.zero, [], []⟩
  ledger := { log := [], next := 0, closed := 0, created := ∅, deleteFailed := false }

/-- One callback of one connection, whatever its calls answer. -/
inductive Step (srv : Axl9pServer) (s : State) : State → Prop where
  | event {i : Nat} {slot : Slot} (e : Event) (choices : Stream' Oracle)
      (hslot : s.slots[i]? = some slot) (henabled : e.Enabled slot.conn) :
      Step srv s
        { slots := s.slots.set i ((serve srv slot e).run ledgerWorld choices s.ledger).1
          ledger := ((serve srv slot e).run ledgerWorld choices s.ledger).2 }

def Reachable (srv : Axl9pServer) : State → Prop := Relation.ReflTransGen (Step srv) .initial

theorem Reachable.initial (srv : Axl9pServer) : Reachable srv .initial := Relation.ReflTransGen.refl

/-! ## Frames -/

/-- `frames` are the first frames of `stream`, each as long as its own prefix says, and
`rest` is what follows them. -/
inductive FramesOf : List UInt8 → List (List UInt8) → List UInt8 → Prop where
  | nil (stream : List UInt8) : FramesOf stream [] stream
  | cons {stream : List UInt8} {frames : List (List UInt8)} {rest : List UInt8}
      (hsize : 7 ≤ sizePrefix stream) (hthere : sizePrefix stream ≤ stream.length)
      (hrest : FramesOf (stream.drop (sizePrefix stream)) frames rest) :
      FramesOf stream (stream.take (sizePrefix stream) :: frames) rest

theorem sizePrefix_append {a : List UInt8} (h : 4 ≤ a.length) (b : List UInt8) :
    sizePrefix (a ++ b) = sizePrefix a := by
  rw [sizePrefix, sizePrefix, take_append_of_le_length h]

theorem FramesOf.append {a b c : List UInt8} {xs ys : List (List UInt8)} (h : FramesOf a xs b)
    (h' : FramesOf b ys c) : FramesOf a (xs ++ ys) c := by
  induction h with
  | nil => exact h'
  | cons hsize hthere _ ih => exact .cons hsize hthere (ih h')

/-- More bytes come in behind. -/
theorem FramesOf.more {a b : List UInt8} {xs : List (List UInt8)} (h : FramesOf a xs b)
    (c : List UInt8) : FramesOf (a ++ c) xs (b ++ c) := by
  induction h with
  | nil => exact .nil _
  | @cons stream frames rest hsize hthere _ ih =>
    have hahead : sizePrefix (stream ++ c) = sizePrefix stream :=
      sizePrefix_append (by omega) c
    have htake : stream.take (sizePrefix stream) = (stream ++ c).take (sizePrefix (stream ++ c)) := by
      rw [hahead, take_append_of_le_length hthere]
    rw [htake]
    refine .cons (hahead ▸ hsize) ?_ ?_
    · rw [hahead, length_append]
      omega
    · rw [hahead, drop_append_of_le_length hthere]
      exact ih

/-! ## The invariant -/

/-- A dispatched message: the transport borrowed neither buffer, and the frame was whole
and within the bounds of the moment. -/
structure SeenOk (x : Seen) : Prop where
  txIdle : x.conn.txBusy = false
  rxIdle : x.conn.rxArmed = false
  own : x.frameSize = sizePrefix x.conn.rbuf
  size : 7 ≤ x.frameSize ∧ x.frameSize ≤ x.conn.msize
  there : x.frameSize ≤ x.conn.rbuf.length
  msize : MsizeOk x.conn
  room : x.conn.rbuf.length ≤ x.conn.rcap

/-- No message waits at the front of the buffer, and none that cannot be. -/
def Drained (conn : S9pConn) : Prop :=
  conn.rbuf.length < 4 ∨
    (7 ≤ sizePrefix conn.rbuf ∧ sizePrefix conn.rbuf ≤ conn.msize ∧
      conn.rbuf.length < sizePrefix conn.rbuf)

/-- A connection between two callbacks. -/
structure ConnOk (conn : S9pConn) : Prop where
  draining : conn.draining = false
  msize : MsizeOk conn
  room : conn.rbuf.length ≤ conn.rcap
  pending : conn.txBusy = !conn.rxArmed
  drained : conn.rxArmed = true → Drained conn

structure SlotOk (srv : Axl9pServer) (P : Path → Prop) (slot : Slot) : Prop where
  table : Table srv P slot.conn.fids
  free : slot.conn.active = false → slot.conn = .zero
  conn : slot.conn.active = true → ConnOk slot.conn
  seen : ∀ x ∈ slot.seen, SeenOk x
  frames : ∃ rest, FramesOf slot.received (slot.seen.map Seen.msg) rest ∧
    (slot.conn.active = true → rest = slot.conn.rbuf)

variable {srv : Axl9pServer} {P : Path → Prop} {rest : Multiset Handle} {made : Finset Path}
  {w : Ledger} {conn : S9pConn}

/-- A connection inside the pump. -/
structure Pumping (srv : Axl9pServer) (P : Path → Prop) (conn : S9pConn) : Prop where
  table : Table srv P conn.fids
  active : conn.active = true
  rxIdle : conn.rxArmed = false
  msize : MsizeOk conn
  room : conn.rbuf.length ≤ conn.rcap

/-- What a connection looks like after the pump, or after it was armed: alive and waiting
for one completion, or reaped. -/
structure Waiting (srv : Axl9pServer) (P : Path → Prop) (conn : S9pConn) : Prop where
  table : Table srv P conn.fids
  free : conn.active = false → conn = .zero
  conn : conn.active = true → ConnOk conn

theorem Waiting.zero : Waiting srv P .zero :=
  ⟨Table.replicate _, fun _ => rfl, fun h => absurd h Bool.false_ne_true⟩

/-- What the loop leaves: what it dispatched are the frames it took off the buffer. -/
structure Pumped (srv : Axl9pServer) (P : Path → Prop) (conn : S9pConn)
    (res : Bool × S9pConn × List Seen) : Prop where
  dead : res.1 = false → res.2.1 = .zero
  alive : res.1 = true → Pumping srv P res.2.1 ∧
    (res.2.1.txBusy = false → Drained res.2.1) ∧
    FramesOf conn.rbuf (res.2.2.map Seen.msg) res.2.1.rbuf
  seen : ∀ x ∈ res.2.2, SeenOk x
  frames : ∃ rest, FramesOf conn.rbuf (res.2.2.map Seen.msg) rest

/-- The loop stops before a message. -/
theorem Pumping.stop (h : Pumping srv P conn) (hdrained : conn.txBusy = false → Drained conn) :
    Pumped srv P conn (true, conn, []) :=
  ⟨fun hf => (nomatch hf), fun _ => ⟨h, hdrained, .nil _⟩, fun _ hx => (nomatch hx), _, .nil _⟩

theorem pumpLoop_spec (hc : Confine srv P) (n : Nat) :
    ∀ (conn : S9pConn) (made : Finset Path) (w : Ledger), Pumping srv P conn →
      conn.rbuf.length ≤ n → Books srv P (handles conn.fids + rest) made w →
      Ensures (pumpLoop srv n conn) w fun res w' => Pumped srv P conn res ∧
        ∃ made', Books srv P (handles res.2.1.fids + rest) made' w' := by
  induction n with
  | zero =>
    intro conn made w h hn hb
    refine Ensures.done ⟨h.stop fun _ => .inl ?_, made, hb⟩
    omega
  | succ n ih =>
    intro conn made w h hn hb
    rw [pumpLoop]
    split
    · next hbusy => exact Ensures.done ⟨h.stop fun hidle => absurd (hidle.symm.trans hbusy)
        Bool.false_ne_true, made, hb⟩
    next hidle =>
    have hidle : conn.txBusy = false := by simpa using hidle
    split
    · next hshort => exact Ensures.done ⟨h.stop fun _ => .inl hshort, made, hb⟩
    simp only []
    split
    · -- a size no message has: the stream cannot be cut any further
      refine (reap_spec _ h.active hb).bind fun res w₁ h₁ => ?_
      obtain ⟨rfl, h₁⟩ := h₁
      exact Ensures.done ⟨⟨fun _ => rfl, fun hf => (nomatch hf), fun _ hx => (nomatch hx), _, .nil _⟩,
        made, h₁.freed⟩
    next hbounds =>
    obtain ⟨hlo, hhi⟩ : 7 ≤ sizePrefix conn.rbuf ∧ sizePrefix conn.rbuf ≤ conn.msize := by
      rw [not_or, not_lt, not_lt] at hbounds
      exact hbounds
    split
    · next hpart =>
      exact Ensures.done ⟨h.stop fun _ => .inr ⟨hlo, hhi, hpart⟩, made, hb⟩
    next hthere =>
    have hthere : sizePrefix conn.rbuf ≤ conn.rbuf.length := not_lt.mp hthere
    have hseen : SeenOk ⟨conn, sizePrefix conn.rbuf⟩ :=
      ⟨hidle, h.rxIdle, rfl, ⟨hlo, hhi⟩, hthere, h.msize, h.room⟩
    refine (dispatch_spec hc h.table hb h.active hidle _).bind fun res w₁ h₁ => ?_
    obtain ⟨made₁, hb₁, -⟩ := h₁.books
    cases hres : res.1 with
    | none =>
      have hzero := h₁.reaped hres
      refine Ensures.done ⟨⟨fun _ => hzero, fun hf => (nomatch hf), ?_, _,
        .cons hlo hthere (.nil _)⟩, made₁, hb₁⟩
      intro x hx
      rw [mem_singleton.mp hx]
      exact hseen
    | some reply =>
      obtain ⟨-, hsteady⟩ := h₁.sent reply hres
      have hrbuf : res.2.rbuf = conn.rbuf := hsteady.rbuf
      have hrcap : conn.rcap ≤ res.2.rcap := hsteady.rcap
      have hnext : Pumping srv P
          { res.2 with rbuf := res.2.rbuf.drop (sizePrefix conn.rbuf) } := by
        refine ⟨h₁.table, hsteady.active.trans h.active, hsteady.rxArmed.trans h.rxIdle,
          hsteady.msize h.msize, ?_⟩
        show (res.2.rbuf.drop _).length ≤ res.2.rcap
        have hroom := h.room
        rw [length_drop, hrbuf]
        omega
      refine (ih _ made₁ w₁ hnext ?_ hb₁).bind fun rest' w₂ h₂ => ?_
      · show (res.2.rbuf.drop _).length ≤ n
        rw [length_drop, hrbuf]
        omega
      obtain ⟨⟨hdead, halive, hall, left, hleft⟩, hbooks⟩ := h₂
      simp only [hrbuf] at halive hleft
      refine Ensures.done ⟨⟨hdead, fun ha => ?_, ?_, left, .cons hlo hthere hleft⟩, hbooks⟩
      · obtain ⟨hpumping, hdrained, hframes⟩ := halive ha
        exact ⟨hpumping, hdrained, .cons hlo hthere hframes⟩
      · intro x hx
        rcases List.mem_cons.1 hx with rfl | hx
        · exact hseen
        · exact hall x hx

/-- A connection that runs dry is armed, or reaped if the transport refuses. -/
theorem armRecv_spec (h : Pumping srv P conn) (hdraining : conn.draining = false)
    (hidle : conn.txBusy = false) (hdrained : Drained conn)
    (hb : Books srv P (handles conn.fids + rest) made w) :
    Ensures (s9pArmRecv conn) w fun res w' =>
      Waiting srv P res ∧ (res.active = true → res.rbuf = conn.rbuf) ∧
        Books srv P (handles res.fids + rest) made w' := by
  refine (handle_spec hb rfl rfl rfl).bind fun ok w₁ h₁ => ?_
  split
  · refine Ensures.done ⟨⟨h.table, fun hf => ?_, fun _ => ?_⟩, fun _ => rfl, h₁⟩
    · exact absurd (hf.symm.trans h.active) Bool.false_ne_true
    · exact ⟨hdraining, h.msize, h.room, hidle, fun _ => hdrained⟩
  · refine (reap_spec _ h.active h₁).mono fun res w' h₂ => ?_
    obtain ⟨rfl, h₂⟩ := h₂
    exact ⟨Waiting.zero, fun hf => absurd hf Bool.false_ne_true, h₂.freed⟩

/-- The pump ends with the connection waiting for something. -/
theorem pump_spec (hc : Confine srv P) (h : Pumping srv P conn) (hdraining : conn.draining = false)
    (hb : Books srv P (handles conn.fids + rest) made w) :
    Ensures (s9pPump srv conn) w fun res w' => Waiting srv P res.1 ∧ (∀ x ∈ res.2, SeenOk x) ∧
      (∃ left, FramesOf conn.rbuf (res.2.map Seen.msg) left ∧
        (res.1.active = true → left = res.1.rbuf)) ∧
      ∃ made', Books srv P (handles res.1.fids + rest) made' w' := by
  rw [s9pPump, if_neg (by simp [hdraining])]
  have hstart : Pumping srv P { conn with draining := true } :=
    ⟨h.table, h.active, h.rxIdle, h.msize, h.room⟩
  refine (pumpLoop_spec hc _ _ _ _ hstart (le_refl _) hb).bind fun res w₁ h₁ => ?_
  obtain ⟨alive, conn', seen⟩ := res
  obtain ⟨⟨hdead, halive, hseen, left, hleft⟩, made', hbooks⟩ := h₁
  simp only [] at hdead halive hseen hleft hbooks ⊢
  cases alive with
  | false =>
    obtain rfl := hdead rfl
    exact Ensures.done ⟨Waiting.zero, hseen, ⟨left, hleft, fun hf => absurd hf Bool.false_ne_true⟩,
      made', hbooks⟩
  | true =>
    obtain ⟨hpumping, hdrained, hframes⟩ := halive rfl
    have hout : Pumping srv P { conn' with draining := false } :=
      ⟨hpumping.table, hpumping.active, hpumping.rxIdle, hpumping.msize, hpumping.room⟩
    simp only [Bool.not_true, Bool.false_eq_true, if_false]
    split
    · next harm =>
      have hidle : conn'.txBusy = false := by simpa using harm.1
      refine (armRecv_spec hout rfl hidle (hdrained hidle) hbooks).bind fun armed w₂ h₂ => ?_
      obtain ⟨hwait, hrbuf, hbooks₂⟩ := h₂
      exact Ensures.done ⟨hwait, hseen, ⟨_, hframes, fun ha => (hrbuf ha).symm⟩, made', hbooks₂⟩
    · next harm =>
      -- a buffer that is drained has room, so what holds the connection is a reply
      have hbusy : conn'.txBusy = true := by
        by_contra hne
        have hidle : conn'.txBusy = false := by simpa using hne
        refine harm ⟨by simp [hidle], by simp [hpumping.rxIdle], ?_⟩
        show conn'.rbuf.length < conn'.rcap
        obtain ⟨hmin, hrcap, -⟩ := hpumping.msize
        have hmin : 512 ≤ conn'.msize := hmin
        rcases hdrained hidle with hshort | ⟨-, hle, hpart⟩ <;> omega
      refine Ensures.done ⟨⟨hpumping.table, fun hf => ?_, fun _ => ?_⟩, hseen,
        ⟨_, hframes, fun _ => rfl⟩, made', hbooks⟩
      · exact absurd (hf.symm.trans hpumping.active) Bool.false_ne_true
      · refine ⟨rfl, hpumping.msize, hpumping.room, ?_, fun ha => ?_⟩
        · show conn'.txBusy = !conn'.rxArmed
          rw [hbusy, hpumping.rxIdle]
          rfl
        · exact absurd (hpumping.rxIdle.symm.trans ha) Bool.false_ne_true

/-- A slot after a callback that pumped, behind what it had received and seen before. -/
theorem SlotOk.pumped {slot : Slot} {conn' : S9pConn} {received : List UInt8}
    {seen : List Seen} (h : SlotOk srv P slot) (hw : Waiting srv P conn')
    (hseen : ∀ x ∈ seen, SeenOk x) {buffered : List UInt8}
    (hbefore : FramesOf received (slot.seen.map Seen.msg) buffered)
    (hframes : ∃ left, FramesOf buffered (seen.map Seen.msg) left ∧
      (conn'.active = true → left = conn'.rbuf)) :
    SlotOk srv P ⟨conn', received, slot.seen ++ seen⟩ := by
  obtain ⟨left, hleft, heq⟩ := hframes
  refine ⟨hw.table, hw.free, hw.conn, ?_, left, ?_, heq⟩
  · intro x hx
    rcases mem_append.mp hx with hx | hx
    · exact h.seen x hx
    · exact hseen x hx
  · rw [map_append]
    exact hbefore.append hleft

/-- A slot that is reaped: what it had received and seen is kept. -/
theorem SlotOk.reaped {slot : Slot} (h : SlotOk srv P slot) (bytes : List UInt8) :
    SlotOk srv P ⟨.zero, slot.received ++ bytes, slot.seen ++ []⟩ := by
  obtain ⟨left, hleft, -⟩ := h.frames
  exact h.pumped Waiting.zero (fun _ hx => (nomatch hx)) (hleft.more bytes)
    ⟨_, .nil _, fun hf => absurd hf Bool.false_ne_true⟩

theorem onRecv_spec (hc : Confine srv P) {slot : Slot} (h : SlotOk srv P slot) {ok : Bool}
    {bytes : List UInt8} (he : (Event.recv ok bytes).Enabled slot.conn)
    (hb : Books srv P (handles slot.conn.fids + rest) made w) :
    Ensures (serve srv slot (.recv ok bytes)) w fun slot' w' => SlotOk srv P slot' ∧
      ∃ made', Books srv P (handles slot'.conn.fids + rest) made' w' := by
  obtain ⟨hactive, harmed, hroom⟩ := he
  have hok := h.conn hactive
  obtain ⟨left, hleft, heq⟩ := h.frames
  obtain rfl := heq hactive
  rw [serve, s9pOnRecv, if_neg (by simp [hactive])]
  simp only []
  split
  · refine Ensures.bind (Q := fun res w' => res = (.zero, []) ∧ Books srv P rest made w') ?_ ?_
    · refine (reap_spec { slot.conn with rxArmed := false } hactive hb).bind
        fun res w₁ h₁ => ?_
      obtain ⟨rfl, h₁⟩ := h₁
      exact Ensures.done ⟨rfl, h₁⟩
    · rintro res w₁ ⟨rfl, h₁⟩
      refine Ensures.done ⟨?_, made, h₁.freed⟩
      cases ok with
      | true => exact h.reaped bytes
      | false =>
        have hsame := h.reaped []
        rw [append_nil] at hsame
        exact hsame
  · next hgood =>
    have hok' : ok = true := by
      cases ok with
      | true => rfl
      | false => exact absurd (.inl rfl) hgood
    have hpumping : Pumping srv P
        { slot.conn with rxArmed := false, rbuf := slot.conn.rbuf ++ bytes } := by
      refine ⟨h.table, hactive, rfl, hok.msize, ?_⟩
      show (slot.conn.rbuf ++ bytes).length ≤ slot.conn.rcap
      have := hok.room
      rw [length_append]
      omega
    refine (pump_spec hc hpumping hok.draining hb).bind fun res w₁ h₁ => ?_
    obtain ⟨hwait, hseen, hframes, hbooks⟩ := h₁
    refine Ensures.done ⟨?_, hbooks⟩
    rw [hok']
    exact h.pumped hwait hseen (hleft.more bytes) hframes

theorem onSend_spec (hc : Confine srv P) {slot : Slot} (h : SlotOk srv P slot) {ok : Bool}
    (he : (Event.sent ok).Enabled slot.conn)
    (hb : Books srv P (handles slot.conn.fids + rest) made w) :
    Ensures (serve srv slot (.sent ok)) w fun slot' w' => SlotOk srv P slot' ∧
      ∃ made', Books srv P (handles slot'.conn.fids + rest) made' w' := by
  obtain ⟨hactive, hbusy⟩ := he
  have hok := h.conn hactive
  obtain ⟨left, hleft, heq⟩ := h.frames
  obtain rfl := heq hactive
  rw [serve, s9pOnSend, if_neg (by simp [hactive])]
  simp only []
  split
  · refine Ensures.bind (Q := fun res w' => res = (.zero, []) ∧ Books srv P rest made w') ?_ ?_
    · refine (reap_spec { slot.conn with txBusy := false } hactive hb).bind
        fun res w₁ h₁ => ?_
      obtain ⟨rfl, h₁⟩ := h₁
      exact Ensures.done ⟨rfl, h₁⟩
    · rintro res w₁ ⟨rfl, h₁⟩
      have hsame := h.reaped []
      rw [append_nil] at hsame
      exact Ensures.done ⟨hsame, made, h₁.freed⟩
  · -- the reply that was in flight is why nothing was armed
    have hunarmed : slot.conn.rxArmed = false := by
      have := hok.pending
      rw [hbusy] at this
      simpa using this.symm
    have hpumping : Pumping srv P { slot.conn with txBusy := false } :=
      ⟨h.table, hactive, hunarmed, hok.msize, hok.room⟩
    refine (pump_spec hc hpumping hok.draining hb).bind fun res w₁ h₁ => ?_
    obtain ⟨hwait, hseen, hframes, hbooks⟩ := h₁
    exact Ensures.done ⟨h.pumped hwait hseen hleft hframes, hbooks⟩

theorem onAccept_spec {slot : Slot} (h : SlotOk srv P slot)
    (he : Event.accept.Enabled slot.conn)
    (hb : Books srv P (handles slot.conn.fids + rest) made w) :
    Ensures (serve srv slot .accept) w fun slot' w' => SlotOk srv P slot' ∧
      ∃ made', Books srv P (handles slot'.conn.fids + rest) made' w' := by
  have hzero : slot.conn = .zero := h.free he
  have hfresh : ∀ {conn' : S9pConn}, Waiting srv P conn' →
      (conn'.active = true → conn'.rbuf = []) → SlotOk srv P ⟨conn', [], []⟩ :=
    fun hw hrbuf => ⟨hw.table, hw.free, hw.conn, fun _ hx => (nomatch hx), [], .nil _,
      fun ha => (hrbuf ha).symm⟩
  rw [serve, s9pOnAccept]
  refine Ensures.bind (Q := fun res w' => Waiting srv P res ∧
    (res.active = true → res.rbuf = []) ∧ Books srv P (handles res.fids + rest) made w') ?_ ?_
  · refine (malloc_spec hb).bind fun rbuf w₁ h₁ => ?_
    have htx : Ensures (if rbuf then axlMalloc else pure false) w₁ fun _ w' =>
        Books srv P (handles slot.conn.fids + rest) made w' := by
      split
      · exact malloc_spec h₁
      · exact Ensures.done h₁
    refine htx.bind fun txbuf w₂ h₂ => ?_
    rw [hzero] at h₂
    split
    · rw [hzero]
      exact Ensures.done ⟨Waiting.zero, fun hf => absurd hf Bool.false_ne_true, h₂⟩
    · have hpumping : Pumping srv P .accepted :=
        ⟨Table.replicate _, rfl, rfl, ⟨by decide, by decide, by decide⟩, by decide⟩
      exact armRecv_spec hpumping rfl rfl (.inl (by decide)) h₂
  · rintro res w₁ ⟨hwait, hrbuf, hbooks⟩
    exact Ensures.done ⟨hfresh hwait hrbuf, made, hbooks⟩

theorem serve_spec (hc : Confine srv P) {slot : Slot} (h : SlotOk srv P slot) {e : Event}
    (he : e.Enabled slot.conn) (hb : Books srv P (handles slot.conn.fids + rest) made w) :
    Ensures (serve srv slot e) w fun slot' w' => SlotOk srv P slot' ∧
      ∃ made', Books srv P (handles slot'.conn.fids + rest) made' w' := by
  cases e with
  | accept => exact onAccept_spec h he hb
  | recv ok bytes => exact onRecv_spec hc h he hb
  | sent ok => exact onSend_spec hc h he hb

/-! ## All runs -/

/-- The handles of all connections. -/
def State.handles (s : State) : Multiset Handle :=
  (s.slots.map fun slot => NineP.handles slot.conn.fids).sum

structure StateOk (srv : Axl9pServer) (P : Path → Prop) (s : State) : Prop where
  slots : ∀ slot ∈ s.slots, SlotOk srv P slot
  books : ∃ made, Books srv P s.handles made s.ledger

/-- The handles of a pool, those of one connection apart. -/
theorem slots_focus {slots : List Slot} {slot : Slot} {i : Nat} (h : slots[i]? = some slot) :
    ∃ others, (slots.map fun s => handles s.conn.fids).sum = handles slot.conn.fids + others ∧
      ∀ slot', ((slots.set i slot').map fun s => handles s.conn.fids).sum =
        handles slot'.conn.fids + others := by
  induction slots generalizing i with
  | nil => exact absurd h (by simp)
  | cons e slots ih =>
    cases i with
    | zero =>
      obtain rfl := Option.some.inj h
      exact ⟨_, rfl, fun _ => rfl⟩
    | succ i =>
      obtain ⟨others, hall, hset⟩ := ih h
      refine ⟨handles e.conn.fids + others, ?_, fun slot' => ?_⟩
      · rw [map_cons, sum_cons, hall, add_left_comm]
      · rw [set_cons_succ, map_cons, sum_cons, hset, add_left_comm]

theorem State.initial_ok : StateOk srv P .initial := by
  refine ⟨fun slot hslot => ?_, ∅, ?_, fun o ho => (nomatch ho), .inr (Finset.Subset.refl _)⟩
  · rw [eq_of_mem_replicate hslot]
    exact ⟨Table.replicate _, fun _ => rfl, fun hf => absurd hf Bool.false_ne_true,
      fun _ hx => (nomatch hx), [], .nil _, fun hf => absurd hf Bool.false_ne_true⟩
  · simp [State.handles, State.initial, S9pConn.zero, handles_replicate]

theorem step_ok (hc : Confine srv P) {s t : State} (h : StateOk srv P s) (hstep : Step srv s t) :
    StateOk srv P t := by
  obtain ⟨e, choices, hslot, he⟩ := hstep
  obtain ⟨made, hb⟩ := h.books
  obtain ⟨others, hall, hset⟩ := slots_focus hslot
  rw [State.handles, hall] at hb
  obtain ⟨hok, made', hb'⟩ :=
    (serve_spec hc (h.slots _ (mem_of_getElem? hslot)) he hb).run choices
  refine ⟨fun slot' hmem => ?_, made', ?_⟩
  · rcases mem_or_eq_of_mem_set hmem with hmem | rfl
    · exact h.slots slot' hmem
    · exact hok
  · rw [State.handles, hset]
    exact hb'

/-- The invariant of the server, in every run. -/
theorem reachable_ok (hc : Confine srv P) {s : State} (h : Reachable srv s) : StateOk srv P s := by
  induction h with
  | refl => exact State.initial_ok
  | tail _ hstep ih => exact step_ok hc ih hstep

end NineP

end AxlSdk
