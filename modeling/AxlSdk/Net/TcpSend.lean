import Mathlib

/-!
# The TCP send queue (`src/net/axl-tcp-async.c`)

Sends of one socket: one token with the firmware, the others in a queue, and those that are
retired in a list until their loops deliver them.

- `AxlTcp`: the socket, what is registered on the loops, the firmware's token, and what was done
  so far. The answers of the allocator, of the firmware and of the loops are read off `env`.
- `Op`: what may happen next. A callback may do any of it, so a list of tokens that is being
  delivered is a walk of its own, and the operations go on between two of its callbacks.
- `Owned`: every token that is not freed is in one place, and every registration is one of a token.
- `Inv`: besides, what was submitted, against the sends that were accepted; `Settled` adds that a
  Transmit is under way as long as a send waits.
- `send_exactly_once`, `send_stream`, `send_never_stalls`: what holds after any operations.
-/

namespace AxlSdk

namespace Tcp

open List
open Multiset (singleton_add coe_add coe_singleton cons_coe cons_add coe_eq_coe mem_coe)

/-! ## The socket -/

def TCP_SEND_CHUNK_MAX : Nat := 32 * 1024

/-- `AXL_OK`, `AXL_ERR` and `AXL_CANCELLED`. -/
inductive AxlStatus where
  | ok
  | err
  | cancelled
deriving DecidableEq

structure AxlTcpToken where
  /-- Where `axl_malloc` put it. -/
  addr : Nat
  /-- Which of the accepted sends it is. -/
  seq : Nat
  buf : List UInt8
  remaining : Nat
  cb : Nat
  cbData : Nat
  loop : Nat
  cancelSource : Bool
  status : AxlStatus
  doneDefer : Bool
  doneSource : Bool
deriving DecidableEq

/-- What is registered on a loop, for the socket or for the token at an address. -/
inductive Source where
  | complete (loop : Nat)
  | cancel (loop addr : Nat)
  | defer (loop addr : Nat)
  | timer (loop addr : Nat)
deriving DecidableEq

/-- The address that a source was registered with. -/
def Source.token : Source → Option Nat
  | .complete _ => none
  | .cancel _ a | .defer _ a | .timer _ a => some a

structure AxlTcp where
  active : Option AxlTcpToken
  queued : List AxlTcpToken
  queuedBytes : UInt64
  done : List AxlTcpToken
  /-- The detached lists that are being delivered, the innermost first. -/
  walks : List (List AxlTcpToken)
  closed : Bool
  asyncLoop : Nat
  sendSource : Bool
  /-- `tx_token` has an event. -/
  event : Bool
  /-- How many Transmits the firmware holds. -/
  outstanding : Nat
  /-- The status in `tx_token` is no error. -/
  completed : Bool
  signalled : Bool
  sources : Multiset Source
  /-- The addresses of the tokens that are allocated. -/
  live : Multiset Nat
  /-- Memory was used or freed that is not allocated. -/
  fault : Bool
  env : Nat → Bool
  /-- The buffers of the accepted sends. -/
  accepted : List (List UInt8)
  /-- What the firmware took, each part with the send it belongs to. -/
  wire : List (Nat × List UInt8)
  called : List (Nat × AxlStatus)
  dropped : List Nat
  freed : List Nat

namespace AxlTcp

/-- A socket that is connected, in an environment. -/
def init (env : Nat → Bool) : AxlTcp where
  active := none
  queued := []
  queuedBytes := 0
  done := []
  walks := []
  closed := false
  asyncLoop := 0
  sendSource := false
  event := false
  outstanding := 0
  completed := false
  signalled := false
  sources := 0
  live := 0
  fault := false
  env := env
  accepted := []
  wire := []
  called := []
  dropped := []
  freed := []

/-- The next answer of the environment. -/
def ask (s : AxlTcp) : Bool × AxlTcp := (s.env 0, { s with env := fun n => s.env (n + 1) })

def addSource (x : Source) (s : AxlTcp) : AxlTcp := { s with sources := x ::ₘ s.sources }

/-- `axl_loop_remove_source`, and `axl_defer_cancel` -/
def removeSource (x : Source) (s : AxlTcp) : AxlTcp := { s with sources := s.sources.erase x }

/-- `tcp4->Cancel` on `tx_token` -/
def cancelTransmit (s : AxlTcp) : AxlTcp :=
  if 0 < s.outstanding then
    { s with outstanding := s.outstanding - 1, completed := false, signalled := true }
  else s

end AxlTcp

open AxlTcp

/-- The length of the next Transmit. -/
def chunk (t : AxlTcpToken) : Nat := min t.remaining TCP_SEND_CHUNK_MAX

/-- `tcp_send_arm_chunk`, for the active token -/
def tcpSendArmChunk (t : AxlTcpToken) (s : AxlTcp) : Bool × AxlTcp :=
  let frag := (t.buf.drop (t.buf.length - t.remaining)).take (chunk t)
  let s := { s with completed := false, signalled := false }
  let (taken, s) := s.ask
  if taken then
    (true, { s with outstanding := s.outstanding + 1, wire := s.wire ++ [(t.seq, frag)] })
  else (false, s)

/-- `tcp_send_enqueue`; an address that is in use is not what `axl_malloc` returns. -/
def tcpSendEnqueue (addr : Nat) (buf : List UInt8) (loop : Nat) (cancel : Bool) (cb cbData : Nat)
    (s : AxlTcp) : Bool × AxlTcp :=
  let (allocated, s) := s.ask
  if !allocated || decide (addr ∈ s.live) then (false, s)
  else
    let (armed, s) := if cancel then s.ask else (true, s)
    if !armed then (false, s)
    else
      let tok : AxlTcpToken :=
        ⟨addr, s.accepted.length, buf, buf.length, cb, cbData, loop, cancel, .ok, false, false⟩
      let s := if cancel then s.addSource (.cancel loop addr) else s
      (true, { s with
        live := addr ::ₘ s.live
        queued := s.queued ++ [tok]
        queuedBytes := s.queuedBytes + UInt64.ofNat buf.length
        accepted := s.accepted ++ [buf] })

/-- The first element that is looked for, and the list without it. -/
def takeFirst {α : Type} (p : α → Bool) : List α → Option (α × List α)
  | [] => none
  | x :: l => if p x then some (x, l) else (takeFirst p l).map fun r => (r.1, x :: r.2)

/-- `tcp_send_unlink` and `tcp_send_dequeue`: the queue without one token -/
def unqueue (t : AxlTcpToken) (rest : List AxlTcpToken) (s : AxlTcp) : AxlTcp :=
  { s with queued := rest, queuedBytes := s.queuedBytes - UInt64.ofNat t.buf.length }

/-- `tcp_send_free_token` -/
def tcpSendFreeToken (t : AxlTcpToken) (s : AxlTcp) : AxlTcp :=
  let s := if t.cancelSource then s.removeSource (.cancel t.loop t.addr) else s
  let s := if t.doneDefer then s.removeSource (.defer t.loop t.addr) else s
  let s := if t.doneSource then s.removeSource (.timer t.loop t.addr) else s
  { s with
    live := s.live.erase t.addr
    fault := s.fault || !decide (t.addr ∈ s.live)
    freed := s.freed ++ [t.seq] }

/-- `tcp_send_park` -/
def tcpSendPark (t : AxlTcpToken) (status : AxlStatus) (s : AxlTcp) : AxlTcp :=
  let s := if t.cancelSource then s.removeSource (.cancel t.loop t.addr) else s
  { s with done := s.done ++ [{ t with cancelSource := false, status := status }] }

/-- The schedule that `tcp_send_retire` makes: a deferral, else a timer, else none. -/
def schedule (t : AxlTcpToken) (s : AxlTcp) : AxlTcpToken × AxlTcp :=
  let (deferred, s) := s.ask
  if deferred then ({ t with doneDefer := true }, s.addSource (.defer t.loop t.addr))
  else
    let (timed, s) := s.ask
    if timed then ({ t with doneSource := true }, s.addSource (.timer t.loop t.addr)) else (t, s)

/-- `tcp_send_retire`; the schedule runs nothing, so it is made before the token is parked. -/
def tcpSendRetire (t : AxlTcpToken) (status : AxlStatus) (s : AxlTcp) : AxlTcp :=
  tcpSendPark (schedule t s).1 status (schedule t s).2

/-- The failure path of `tcp_send_arm_token` -/
def armFailed (t : AxlTcpToken) (s : AxlTcp) : Bool × AxlTcp :=
  (false, tcpSendRetire t .err { s with active := none })

/-- `tcp_send_arm_token` -/
def tcpSendArmToken (t : AxlTcpToken) (s : AxlTcp) : Bool × AxlTcp :=
  let s := { s with active := some t, asyncLoop := t.loop }
  let (created, s) := if s.event then (true, s) else s.ask
  if !created then armFailed t s
  else
    let (armed, s) := tcpSendArmChunk t { s with event := true }
    if !armed then armFailed t s
    else
      let (added, s) := s.ask
      if added then (true, { s.addSource (.complete t.loop) with sendSource := true })
      else armFailed t s.cancelTransmit

/-- The loop of `tcp_send_promote`, over the queue -/
def promoteLoop : List AxlTcpToken → AxlTcp → AxlTcp
  | [], s => s
  | t :: rest, s =>
    -- goes on only past tokens that fail to arm
    if s.active.isSome || s.closed then s
    else
      let (armed, s) := tcpSendArmToken t (unqueue t rest s)
      if armed then s else promoteLoop rest s

/-- `tcp_send_promote` -/
def tcpSendPromote (s : AxlTcp) : AxlTcp := promoteLoop s.queued s

/-- `axl_tcp_send_drop_sources` -/
def axlTcpSendDropSources (s : AxlTcp) : AxlTcp :=
  if s.sendSource then { s.removeSource (.complete s.asyncLoop) with sendSource := false } else s

/-- The active send leaves the wire with a status, and the next one is promoted. -/
def retireActive (t : AxlTcpToken) (status : AxlStatus) (s : AxlTcp) : AxlTcp :=
  tcpSendPromote (tcpSendRetire t status (axlTcpSendDropSources { s with active := none }))

/-- `on_send_complete` -/
def onSendComplete (s : AxlTcp) : AxlTcp :=
  match s.active with
  | none => { s with fault := true }
  | some t =>
    if s.completed then
      let t := { t with remaining := t.remaining - chunk t }
      let s := { s with active := some t }
      if 0 < t.remaining then
        let (armed, s) := tcpSendArmChunk t s
        if armed then s else retireActive t .err s
      else retireActive t .ok s
    else retireActive t .err s

/-- `on_send_token_cancel`, with the address it was registered with -/
def onSendTokenCancel (a : Nat) (s : AxlTcp) : AxlTcp :=
  if a ∉ s.live then { s with fault := true }
  else
    match s.active.filter (·.addr == a) with
    | some t => retireActive t .cancelled s.cancelTransmit
    | none =>
      match takeFirst (·.addr == a) s.queued with
      | some (t, rest) => tcpSendRetire t .cancelled (unqueue t rest s)
      | none => s

/-- Frees a token whose send was dropped. -/
def discard (t : AxlTcpToken) (s : AxlTcp) : AxlTcp :=
  { tcpSendFreeToken t s with dropped := s.dropped ++ [t.seq] }

/-- `axl_tcp_send_drop_token` -/
def axlTcpSendDropToken (cb cbData : Nat) (s : AxlTcp) : Bool × AxlTcp :=
  let hit (t : AxlTcpToken) := t.cb == cb && t.cbData == cbData
  match s.active.filter hit with
  | some t =>
    (true, tcpSendPromote
      (discard t (axlTcpSendDropSources { s.cancelTransmit with active := none })))
  | none =>
    match takeFirst hit s.queued with
    | some (t, rest) => (true, discard t (unqueue t rest s))
    | none =>
      match takeFirst hit s.done with
      | some (t, rest) => (true, discard t { s with done := rest })
      | none => (false, s)

/-- A store through a pointer to a token. -/
def store (a : Nat) (f : AxlTcpToken → AxlTcpToken) (s : AxlTcp) : AxlTcp :=
  let g (t : AxlTcpToken) := if t.addr = a then f t else t
  { s with
    active := s.active.map g
    queued := s.queued.map g
    done := s.done.map g
    walks := s.walks.map (·.map g)
    fault := s.fault || !decide (a ∈ s.live) }

/-- `tcp_send_deliver_one`: a list of its own, if no close was first. -/
def tcpSendDeliverOne (a : Nat) (s : AxlTcp) : AxlTcp :=
  match takeFirst (·.addr == a) s.done with
  | some (t, rest) => { s with done := rest, walks := [t] :: s.walks }
  | none => s

/-- `tcp_send_done_defer_cb` -/
def tcpSendDoneDeferCb (a : Nat) (s : AxlTcp) : AxlTcp :=
  tcpSendDeliverOne a (store a (fun t => { t with doneDefer := false }) s)

/-- `tcp_send_done_timer_cb` -/
def tcpSendDoneTimerCb (a : Nat) (s : AxlTcp) : AxlTcp :=
  tcpSendDeliverOne a (store a (fun t => { t with doneSource := false }) s)

/-- One turn of `tcp_send_deliver`, in the innermost walk -/
def tcpSendDeliver (s : AxlTcp) : AxlTcp :=
  match s.walks with
  | [] => s
  | [] :: outer => { s with walks := outer }
  | (t :: list) :: outer =>
    { tcpSendFreeToken t { s with walks := list :: outer } with
      called := s.called ++ [(t.seq, t.status)] }

def parkActive (status : AxlStatus) (s : AxlTcp) : AxlTcp :=
  match s.active with
  | some t => tcpSendPark t status { s with active := none }
  | none => s

/-- The loop of `axl_tcp_send_flush`, over the queue -/
def flushLoop (status : AxlStatus) : List AxlTcpToken → AxlTcp → AxlTcp
  | [], s => s
  | t :: rest, s => flushLoop status rest (tcpSendPark t status (unqueue t rest s))

/-- `axl_tcp_send_flush`, up to the callbacks; the active send was accepted before the queue. -/
def axlTcpSendFlush (status : AxlStatus) (s : AxlTcp) : AxlTcp :=
  let s := parkActive status s
  let s := flushLoop status s.queued s
  { s with done := [], walks := s.done :: s.walks }

/-- The send part of `tcp_close_impl` -/
def tcpCloseImpl (s : AxlTcp) : AxlTcp :=
  if s.closed then s
  else
    let s := axlTcpSendDropSources { s with closed := true }
    let s := if s.event then { s.cancelTransmit with event := false, signalled := false } else s
    axlTcpSendFlush .cancelled s

/-- `axl_tcp_send_async` -/
def axlTcpSendAsync (addr : Nat) (buf : List UInt8) (loop : Nat) (cancel : Bool) (cb cbData : Nat)
    (s : AxlTcp) : Bool × AxlTcp :=
  if buf = [] ∨ s.closed then (false, s)
  else
    let (queued, s) := tcpSendEnqueue addr buf loop cancel cb cbData s
    if queued then (true, tcpSendPromote s) else (false, s)

/-! ## Runs -/

inductive Op where
  | send (addr : Nat) (buf : List UInt8) (loop : Nat) (cancel : Bool) (cb cbData : Nat)
  /-- The firmware is done with the Transmit. -/
  | finish (ok : Bool)
  /-- A loop dispatches the source of `tx_token`. -/
  | dispatch
  /-- A cancellable fires, a deferral is drained, a timer expires. -/
  | cancel (loop addr : Nat)
  | defer (loop addr : Nat)
  | timer (loop addr : Nat)
  | deliver
  | drop (cb cbData : Nat)
  | close

/-- A source that is not registered does nothing. -/
def step (s : AxlTcp) : Op → AxlTcp
  | .send addr buf loop cancel cb cbData => (axlTcpSendAsync addr buf loop cancel cb cbData s).2
  -- the event is signalled; nothing runs before a loop looks
  | .finish ok =>
    if 0 < s.outstanding then
      { s with outstanding := s.outstanding - 1, completed := ok, signalled := true }
    else s
  | .dispatch =>
    if s.signalled ∧ s.sendSource then onSendComplete { s with signalled := false } else s
  | .cancel loop a => if .cancel loop a ∈ s.sources then onSendTokenCancel a s else s
  | .defer loop a =>
    if .defer loop a ∈ s.sources then tcpSendDoneDeferCb a (s.removeSource (.defer loop a)) else s
  | .timer loop a =>
    if .timer loop a ∈ s.sources then tcpSendDoneTimerCb a (s.removeSource (.timer loop a)) else s
  | .deliver => tcpSendDeliver s
  | .drop cb cbData => (axlTcpSendDropToken cb cbData s).2
  | .close => tcpCloseImpl s

def run (env : Nat → Bool) (ops : List Op) : AxlTcp := ops.foldl step (init env)

/-! ## What one operation does -/

variable {s s' : AxlTcp} {t : AxlTcpToken} {hand : Multiset AxlTcpToken} {R : Multiset Source}

/-- The registrations of a token, by the handles that it keeps. -/
def AxlTcpToken.sources (t : AxlTcpToken) : Multiset Source :=
  (if t.cancelSource then {.cancel t.loop t.addr} else 0) +
    ((if t.doneDefer then {.defer t.loop t.addr} else 0) +
      if t.doneSource then {.timer t.loop t.addr} else 0)

/-- The registration of the socket. -/
def AxlTcp.completion (s : AxlTcp) : Multiset Source :=
  if s.sendSource then {.complete s.asyncLoop} else 0

/-- A token as `tcp_send_retire` leaves it: scheduled as a deferral, as a timer or not at all. -/
def AxlTcpToken.retired (t : AxlTcpToken) (status : AxlStatus) (d e : Bool) : AxlTcpToken :=
  { t with cancelSource := false, status := status, doneDefer := d, doneSource := e }

theorem tcpSendArmChunk_spec (t : AxlTcpToken) (s : AxlTcp) : ∃ env,
    tcpSendArmChunk t s = (true, { s with
      completed := false, signalled := false, env := env, outstanding := s.outstanding + 1
      wire := s.wire ++ [(t.seq, (t.buf.drop (t.buf.length - t.remaining)).take (chunk t))] }) ∨
    tcpSendArmChunk t s =
      (false, { s with completed := false, signalled := false, env := env }) := by
  refine ⟨fun n => s.env (n + 1), ?_⟩
  by_cases h : s.env 0
  · exact .inl (by simp [tcpSendArmChunk, ask, h])
  · exact .inr (by simp [tcpSendArmChunk, ask, h])

theorem tcpSendPark_spec (status : AxlStatus) (h : s.sources = t.sources + R) :
    tcpSendPark t status s = { s with
      done := s.done ++ [{ t with cancelSource := false, status := status }]
      sources :=
        { t with cancelSource := false, status := status : AxlTcpToken }.sources + R } := by
  cases hc : t.cancelSource <;>
    simp [tcpSendPark, removeSource, h, AxlTcpToken.sources, hc, add_assoc]

theorem tcpSendRetire_spec (status : AxlStatus) (hd : t.doneDefer = false)
    (hs : t.doneSource = false) (h : s.sources = t.sources + R) : ∃ env d e,
    tcpSendRetire t status s = { s with
      env := env, done := s.done ++ [t.retired status d e]
      sources := (t.retired status d e).sources + R } := by
  have hpark : ∀ d e env, tcpSendPark { t with doneDefer := d, doneSource := e } status
      { s with
        env := env
        sources := { t with doneDefer := d, doneSource := e : AxlTcpToken }.sources + R } =
      { s with
        env := env, done := s.done ++ [t.retired status d e]
        sources := (t.retired status d e).sources + R } :=
    fun d e env => tcpSendPark_spec status rfl
  have hcancel : t.sources = if t.cancelSource then {.cancel t.loop t.addr} else 0 := by
    simp [AxlTcpToken.sources, hd, hs]
  rw [hcancel] at h
  cases h0 : s.env 0 with
  | true =>
    refine ⟨fun n => s.env (n + 1), true, false, ?_⟩
    rw [← hpark]
    simp [tcpSendRetire, schedule, ask, addSource, h0, h, AxlTcpToken.sources, hs,
      ← singleton_add, add_left_comm, add_assoc]
  | false =>
    cases h1 : s.env 1 with
    | true =>
      refine ⟨fun n => s.env (n + 1 + 1), false, true, ?_⟩
      rw [← hpark]
      simp [tcpSendRetire, schedule, ask, addSource, h0, h1, h, AxlTcpToken.sources, hd,
        ← singleton_add, add_left_comm, add_assoc]
    | false =>
      refine ⟨fun n => s.env (n + 1 + 1), false, false, ?_⟩
      have ht : ({ t with doneDefer := false, doneSource := false } : AxlTcpToken) = t := by
        cases t
        cases hd
        cases hs
        rfl
      rw [← hpark, ht]
      simp [tcpSendRetire, schedule, ask, h0, h1, h, hcancel]

/-- `tcp_send_free_token` takes back what is registered for the token. -/
theorem tcpSendFreeToken_spec (h : s.sources = t.sources + R) :
    tcpSendFreeToken t s = { s with
      sources := R, live := s.live.erase t.addr
      fault := s.fault || !decide (t.addr ∈ s.live), freed := s.freed ++ [t.seq] } := by
  cases hc : t.cancelSource <;> cases hd : t.doneDefer <;> cases hs : t.doneSource <;>
    simp [tcpSendFreeToken, removeSource, h, AxlTcpToken.sources, hc, hd, hs]

theorem axlTcpSendDropSources_spec (h : s.sources = R + s.completion) :
    axlTcpSendDropSources s = { s with sources := R, sendSource := false } := by
  cases hs : s.sendSource with
  | false =>
    have hR : s.sources = R := by simpa [completion, hs] using h
    rw [axlTcpSendDropSources, if_neg (by simp [hs]), ← hR, ← hs]
  | true =>
    rw [axlTcpSendDropSources, if_pos hs, removeSource, h, completion, if_pos hs,
      Multiset.erase_add_right_pos _ (by simp), Multiset.erase_singleton, add_zero]

theorem takeFirst_spec {α : Type} {p : α → Bool} {l rest : List α} {x : α}
    (h : takeFirst p l = some (x, rest)) :
    p x = true ∧ ∃ pre post, l = pre ++ x :: post ∧ rest = pre ++ post := by
  induction l generalizing rest with
  | nil => simp [takeFirst] at h
  | cons y l ih =>
    rw [takeFirst] at h
    split at h
    next hy =>
      obtain ⟨rfl, rfl⟩ := Prod.mk.inj (Option.some.inj h)
      exact ⟨hy, [], l, rfl, rfl⟩
    next =>
      obtain ⟨⟨x', rest'⟩, hl, hr⟩ := Option.map_eq_some_iff.mp h
      obtain ⟨rfl, rfl⟩ := Prod.mk.inj hr
      obtain ⟨hx, pre, post, rfl, rfl⟩ := ih hl
      exact ⟨hx, y :: pre, post, rfl, rfl⟩

/-! ## The invariant -/

/-- What the firmware took of a send. -/
def sentOf (wire : List (Nat × List UInt8)) (i : Nat) : List UInt8 :=
  (wire.filter (·.1 == i)).flatMap (·.2)

/-- The tokens of a socket, wherever they are. -/
def AxlTcp.tokens (s : AxlTcp) : Multiset AxlTcpToken :=
  s.active.toList + (s.queued + (s.done + s.walks.flatten))

/-- The tokens that are not freed: their memory, the sends they carry and their registrations. -/
structure Owned (T : Multiset AxlTcpToken) (s : AxlTcp) : Prop where
  sound : s.fault = false
  live : s.live = T.map (·.addr)
  nodup : s.live.Nodup
  seqs : T.map (·.seq) + s.freed = Multiset.range s.accepted.length
  freed : (s.freed : Multiset Nat) = ↑(s.called.map (·.1)) + ↑s.dropped
  buf : ∀ t ∈ T, s.accepted[t.seq]? = some t.buf
  sources : s.sources = (T.map (·.sources)).sum + s.completion

/-- A token is written to, and its registrations with it. -/
theorem Owned.replace {t' : AxlTcpToken} {T : Multiset AxlTcpToken} {src : Multiset Source}
    (h : Owned (t ::ₘ T) s) (hsame : t'.addr = t.addr ∧ t'.seq = t.seq ∧ t'.buf = t.buf)
    (hsrc : src = t'.sources + ((T.map (·.sources)).sum + s.completion)) :
    Owned (t' ::ₘ T) { s with sources := src } := by
  obtain ⟨haddr, hseq, hbuf⟩ := hsame
  refine { h with live := ?_, seqs := ?_, buf := fun x hx => ?_, sources := ?_ }
  · simpa [haddr] using h.live
  · simpa [hseq] using h.seqs
  · rcases Multiset.mem_cons.mp hx with rfl | hx
    · rw [hseq, hbuf]
      exact h.buf t (Multiset.mem_cons_self t _)
    · exact h.buf x (Multiset.mem_cons_of_mem hx)
  · rw [hsrc]
    simp [completion, add_assoc]

/-- A token that is not retired: nothing is scheduled for it. -/
structure Waiting (wire : List (Nat × List UInt8)) (t : AxlTcpToken) : Prop where
  deferred : t.doneDefer = false
  timed : t.doneSource = false
  le : t.remaining ≤ t.buf.length
  behind : ∀ f ∈ wire, f.1 ≤ t.seq

/-- The invariant, for a socket whose function has some tokens in hand. -/
structure Inv (hand : Multiset AxlTcpToken) (s : AxlTcp) : Prop where
  owned : Owned (hand + s.tokens) s
  bytes : s.queuedBytes = UInt64.ofNat (s.queued.map (·.buf.length)).sum
  order : (s.active.toList ++ s.queued).Pairwise (·.seq < ·.seq)
  active : ∀ t ∈ s.active, Waiting s.wire t
  queued : ∀ t ∈ s.queued,
    Waiting s.wire t ∧ t.remaining = t.buf.length ∧ ∀ f ∈ s.wire, f.1 < t.seq
  retired : ∀ t ∈ s.done ++ s.walks.flatten,
    t.cancelSource = false ∧ (t.status = .ok → sentOf s.wire t.seq = t.buf)
  called : ∀ i, (i, .ok) ∈ s.called → s.accepted[i]? = some (sentOf s.wire i)
  sorted : s.wire.Pairwise (·.1 ≤ ·.1)
  frags : ∀ f ∈ s.wire, f.1 < s.accepted.length ∧ f.2.length ≤ TCP_SEND_CHUNK_MAX
  part : ∀ i b, s.accepted[i]? = some b → sentOf s.wire i <+: b

theorem Inv.init (env : Nat → Bool) : Inv 0 (init env) where
  owned := by constructor <;> simp [AxlTcp.init, tokens, completion]
  bytes := rfl
  order := .nil
  active := nofun
  queued := nofun
  retired := nofun
  called := nofun
  sorted := .nil
  frags := nofun
  part := by simp [AxlTcp.init]

theorem Inv.takeActive (h : Inv 0 s) (ha : s.active = some t) :
    Inv {t} { s with active := none } := by
  have htok : {t} + { s with active := none }.tokens = 0 + s.tokens := by
    simp [tokens, ha]
  exact { h with
    owned := htok ▸ { h.owned with }
    order := (pairwise_append.mp h.order).2.1
    active := nofun }

theorem Inv.dropSources (h : Inv hand s) : Inv hand (axlTcpSendDropSources s) := by
  rw [axlTcpSendDropSources_spec h.owned.sources]
  exact { h with owned := { h.owned with sources := (add_zero _).symm } }

/-- A token leaves the queue. -/
theorem Inv.unqueue {pre post : List AxlTcpToken} (h : Inv 0 s)
    (hq : s.queued = pre ++ t :: post) : Inv {t} (unqueue t (pre ++ post) s) := by
  have htok : {t} + (Tcp.unqueue t (pre ++ post) s).tokens = 0 + s.tokens := by
    simp only [tokens, Tcp.unqueue, hq, ← coe_add, ← singleton_add,
      ← cons_coe, zero_add]
    abel
  have hsub : (pre ++ post).Sublist s.queued := by
    rw [hq]
    exact List.Sublist.append_left (sublist_cons_self t post) pre
  exact { h with
    owned := htok ▸ { h.owned with }
    bytes := by
      have hsum : (s.queued.map (·.buf.length)).sum =
          ((pre ++ post).map (·.buf.length)).sum + t.buf.length := by
        simp [hq]
        omega
      rw [Tcp.unqueue, h.bytes, hsum, UInt64.ofNat_add]
      exact add_sub_cancel_right _ _
    order := h.order.sublist (List.Sublist.append_left hsub _)
    queued := fun t' ht' => h.queued t' (hsub.subset ht') }

theorem Inv.dequeue {rest : List AxlTcpToken} (h : Inv 0 s) (hq : s.queued = t :: rest) :
    Inv {t} (Tcp.unqueue t rest s) :=
  have hq : s.queued = [] ++ t :: rest := hq
  h.unqueue hq

/-- The registrations of the token in hand, and the others. -/
theorem Inv.split (h : Inv {t} s) :
    s.sources = t.sources + ((s.tokens.map (·.sources)).sum + s.completion) := by
  rw [h.owned.sources]
  simp [add_assoc]

/-- The token in hand is retired: it is in the list of these, with a status that fits. -/
theorem Inv.settle {t' : AxlTcpToken} {env : Nat → Bool} (h : Inv {t} s)
    (hsame : t'.addr = t.addr ∧ t'.seq = t.seq ∧ t'.buf = t.buf) (hc : t'.cancelSource = false)
    (hok : t'.status = .ok → sentOf s.wire t.seq = t.buf) :
    Inv 0 { s with
      env := env, done := s.done ++ [t']
      sources := t'.sources + ((s.tokens.map (·.sources)).sum + s.completion) } := by
  have htok (env src) : 0 + { s with env := env, done := s.done ++ [t'], sources := src }.tokens =
      t' ::ₘ s.tokens := by
    simp only [tokens, ← coe_add, ← singleton_add, zero_add, coe_singleton]
    abel
  have hT := h.owned
  rw [singleton_add] at hT
  exact { h with
    owned := by
      rw [htok]
      exact { hT.replace hsame rfl with }
    retired := by
      intro x hx
      simp only [mem_append, mem_singleton] at hx
      rcases hx with (hx | rfl) | hx
      · exact h.retired x (mem_append_left _ hx)
      · exact ⟨hc, by rwa [hsame.2.1, hsame.2.2]⟩
      · exact h.retired x (mem_append_right _ hx) }

theorem Inv.park (h : Inv {t} s) (status : AxlStatus)
    (hok : status = .ok → sentOf s.wire t.seq = t.buf) : ∃ done sources,
    tcpSendPark t status s = { s with done := done, sources := sources } ∧
      Inv 0 { s with done := done, sources := sources } :=
  ⟨_, _, tcpSendPark_spec status h.split, h.settle ⟨rfl, rfl, rfl⟩ rfl hok⟩

theorem Inv.retire (h : Inv {t} s) (status : AxlStatus) (hw : Waiting s.wire t)
    (hok : status = .ok → sentOf s.wire t.seq = t.buf) : ∃ env done sources,
    tcpSendRetire t status s = { s with env := env, done := done, sources := sources } ∧
      Inv 0 { s with env := env, done := done, sources := sources } := by
  obtain ⟨env, d, e, heq⟩ := tcpSendRetire_spec status hw.deferred hw.timed h.split
  exact ⟨env, _, _, heq, h.settle ⟨rfl, rfl, rfl⟩ rfl hok⟩

/-- The token in hand is freed, and its send is called back or dropped. -/
theorem Inv.free (h : Inv {t} s) (called : List (Nat × AxlStatus)) (dropped : List Nat)
    (hlog : (called.map (·.1) + dropped : Multiset Nat) =
      t.seq ::ₘ (s.called.map (·.1) + s.dropped))
    (hcalled : ∀ i, (i, .ok) ∈ called → s.accepted[i]? = some (sentOf s.wire i)) :
    Inv 0 { tcpSendFreeToken t s with called := called, dropped := dropped } := by
  have hT := h.owned
  rw [singleton_add] at hT
  have hlive : s.live = t.addr ::ₘ s.tokens.map (·.addr) := by simpa using hT.live
  rw [tcpSendFreeToken_spec h.split]
  exact { h with
    owned :=
      { sound := by simp [hT.sound, hlive]
        live := by simp [hlive]; rfl
        nodup := hT.nodup.erase _
        seqs := by
          rw [← hT.seqs]
          simp only [← coe_add, ← singleton_add, Multiset.map_add,
            Multiset.map_singleton, zero_add, coe_singleton]
          exact (add_assoc _ _ _).symm.trans ((add_comm _ _).trans (add_assoc _ _ _).symm)
        freed := by
          rw [hlog, ← hT.freed, ← coe_add, coe_singleton,
            ← singleton_add, add_comm]
        buf := fun x hx => hT.buf x (Multiset.mem_cons_of_mem (zero_add s.tokens ▸ hx))
        sources := by simp [completion]; rfl }
    called := hcalled }

/-! ## Submitting -/

theorem sentOf_append (wire : List (Nat × List UInt8)) (i j : Nat) (b : List UInt8) :
    sentOf (wire ++ [(j, b)]) i = if j = i then sentOf wire i ++ b else sentOf wire i := by
  by_cases h : j = i <;> simp [sentOf, filter_append, h]

theorem sentOf_eq_nil {wire : List (Nat × List UInt8)} {i : Nat} (h : ∀ f ∈ wire, f.1 < i) :
    sentOf wire i = [] := by
  have hnil : wire.filter (·.1 == i) = [] :=
    filter_eq_nil_iff.mpr fun f hf => by simpa using (h f hf).ne
  rw [sentOf, hnil, flatMap_nil]

/-- No other token carries the send of this one, and it is not freed. -/
theorem Owned.alone {T : Multiset AxlTcpToken} (h : Owned (t ::ₘ T) s) :
    (∀ x ∈ T, x.seq ≠ t.seq) ∧ t.seq ∉ s.freed := by
  have hnodup := Multiset.nodup_range s.accepted.length
  rw [← h.seqs, Multiset.map_cons, cons_add] at hnodup
  have hnot := (Multiset.nodup_cons.mp hnodup).1
  simp only [Multiset.mem_add, Multiset.mem_map, not_or, mem_coe] at hnot
  exact ⟨fun x hx heq => hnot.1 ⟨x, hx, heq⟩, hnot.2⟩

/-- What was called back is freed. -/
theorem Owned.called_freed {T : Multiset AxlTcpToken} (h : Owned T s) {p : Nat × AxlStatus}
    (hp : p ∈ s.called) : p.1 ∈ s.freed := by
  have : p.1 ∈ (s.freed : Multiset Nat) := by
    rw [h.freed]
    exact Multiset.mem_add.mpr (.inl (mem_coe.mpr (mem_map_of_mem hp)))
  exact mem_coe.mp this

/-- How far the send of the active token is submitted. -/
def Sent (wire : List (Nat × List UInt8)) (t : AxlTcpToken) (n : Nat) : Prop :=
  sentOf wire t.seq = t.buf.take (t.buf.length - t.remaining + n)

/-- The next chunk of the active send is taken. -/
theorem Inv.submit {wire : List (Nat × List UInt8)} (h : Inv 0 s) (env : Nat → Bool) (n : Nat)
    (ha : s.active = some t) (hsent : Sent s.wire t 0)
    (hwire : wire =
      s.wire ++ [(t.seq, (t.buf.drop (t.buf.length - t.remaining)).take (chunk t))]) :
    Inv 0 { s with
        completed := false, signalled := false, env := env, outstanding := n, wire := wire } ∧
      Sent wire t (chunk t) := by
  have htok : 0 + s.tokens = t ::ₘ ↑(s.queued ++ (s.done ++ s.walks.flatten)) := by
    simp [tokens, ha]
  have hT := h.owned
  rw [htok] at hT
  obtain ⟨hne, hnf⟩ := hT.alone
  have hw := h.active t ha
  have hbuf : s.accepted[t.seq]? = some t.buf := hT.buf t (Multiset.mem_cons_self t _)
  have hkeep : ∀ i, i ≠ t.seq → sentOf wire i = sentOf s.wire i := by
    intro i hi
    rw [hwire, sentOf_append, if_neg hi.symm]
  have hnow : Sent wire t (chunk t) := by
    unfold Sent at hsent ⊢
    rw [hwire, sentOf_append, if_pos rfl, hsent, Nat.add_zero, ← take_add]
  have hmem : ∀ f ∈ wire, f ∈ s.wire ∨ f.1 = t.seq ∧ f.2.length ≤ chunk t := by
    intro f hf
    rw [hwire] at hf
    rcases mem_append.mp hf with hf | hf
    · exact .inl hf
    · rw [mem_singleton.mp hf]
      exact .inr ⟨rfl, length_take_le _ _⟩
  have hlater : ∀ x ∈ s.queued, t.seq < x.seq := by
    have := h.order
    rw [ha] at this
    exact (pairwise_cons.mp this).1
  -- the part goes to the active send alone: the others keep what was taken of them
  refine ⟨{ h with
    owned := { h.owned with }
    active := ?_, queued := ?_, retired := ?_, called := ?_, sorted := ?_, frags := ?_
    part := ?_ }, hnow⟩
  · intro x hx
    obtain rfl : t = x := Option.some.inj (ha.symm.trans hx)
    exact { hw with
      behind := fun f hf => (hmem f hf).elim (hw.behind f) fun hf => hf.1.le }
  · intro x hx
    obtain ⟨hwx, hrem, hlt⟩ := h.queued x hx
    have hlt' : ∀ f ∈ wire, f.1 < x.seq := fun f hf =>
      (hmem f hf).elim (hlt f) fun hf => hf.1 ▸ hlater x hx
    exact ⟨{ hwx with behind := fun f hf => (hlt' f hf).le }, hrem, hlt'⟩
  · intro x hx
    have hx' : x.seq ≠ t.seq := by
      apply hne x
      simpa [or_assoc] using Or.inr (mem_append.mp hx)
    exact ⟨(h.retired x hx).1, fun hok => (hkeep _ hx').trans ((h.retired x hx).2 hok)⟩
  · intro i hi
    have hi' : i ≠ t.seq := fun he => hnf (he ▸ h.owned.called_freed hi)
    rw [hkeep i hi']
    exact h.called i hi
  · rw [hwire]
    refine pairwise_append.mpr ⟨h.sorted, pairwise_singleton _ _, ?_⟩
    intro f hf g hg
    rw [mem_singleton.mp hg]
    exact hw.behind f hf
  · intro f hf
    rcases hmem f hf with hf | ⟨hseq, hlen⟩
    · exact h.frags f hf
    · obtain ⟨hlt, -⟩ := List.getElem?_eq_some_iff.mp hbuf
      exact ⟨hseq ▸ hlt, hlen.trans (Nat.min_le_right _ _)⟩
  · intro i b hb
    by_cases hi : i = t.seq
    · subst hi
      obtain rfl := Option.some.inj (hbuf.symm.trans hb)
      exact hnow ▸ take_prefix _ _
    · rw [hkeep i hi]
      exact h.part i b hb

/-! ## Arming -/

/-- The transport is idle. -/
structure Idle (s : AxlTcp) : Prop where
  active : s.active = none
  sendSource : s.sendSource = false
  outstanding : s.outstanding = 0

/-- A Transmit of the active send is outstanding, or its completion is signalled. -/
structure Armed (t : AxlTcpToken) (s : AxlTcp) : Prop where
  active : s.active = some t
  sendSource : s.sendSource = true
  event : s.event = true
  one : s.outstanding + s.signalled.toNat = 1
  sent : Sent s.wire t (chunk t)

/-- The head of the queue becomes the active send. -/
theorem Inv.activate {rest : List AxlTcpToken} (h : Inv 0 s) (hi : Idle s)
    (hq : s.queued = t :: rest) :
    Inv 0 { Tcp.unqueue t rest s with active := some t, asyncLoop := t.loop } ∧
      Sent s.wire t 0 := by
  obtain ⟨hw, hrem, hlt⟩ := h.queued t (by simp [hq])
  have hout := h.dequeue hq
  have htok : 0 + { Tcp.unqueue t rest s with active := some t, asyncLoop := t.loop }.tokens =
      {t} + (Tcp.unqueue t rest s).tokens := by
    simp [tokens, Tcp.unqueue, hi.active]
  refine ⟨{ hout with
    owned := htok ▸ { hout.owned with
      sources := hout.owned.sources.trans (by simp [completion, Tcp.unqueue, hi.sendSource]) }
    order := ?_, active := ?_ }, ?_⟩
  · have := h.order
    rwa [hi.active, hq] at this
  · intro x hx
    rwa [← Option.some.inj hx]
  · rw [Sent, sentOf_eq_nil hlt, hrem, Nat.sub_self, take_zero]

/-- What one attempt to arm the head of the queue comes to. -/
structure Tried (rest : List AxlTcpToken) (s : AxlTcp) (armed : Bool) (s' : AxlTcp) : Prop where
  inv : Inv 0 s'
  queued : s'.queued = rest
  closed : s'.closed = s.closed
  called : s'.called = s.called
  transport : if armed then ∃ t, Armed t s' else Idle s'

theorem armFailed_tried {rest : List AxlTcpToken} {s₀ : AxlTcp} (h : Inv 0 s)
    (ha : s.active = some t) (hsrc : s.sendSource = false) (hout : s.outstanding = 0)
    (hq : s.queued = rest) (hc : s.closed = s₀.closed) (hcalled : s.called = s₀.called) :
    Tried rest s₀ (armFailed t s).1 (armFailed t s).2 := by
  obtain ⟨env, done, sources, heq, hinv⟩ :=
    (h.takeActive ha).retire .err (h.active t ha) nofun
  rw [armFailed, heq]
  exact ⟨hinv, hq, hc, hcalled, ⟨rfl, hsrc, hout⟩⟩

theorem tcpSendArmToken_spec {rest : List AxlTcpToken} (h : Inv 0 s) (hi : Idle s)
    (hq : s.queued = t :: rest) :
    Tried rest s (tcpSendArmToken t (unqueue t rest s)).1
      (tcpSendArmToken t (unqueue t rest s)).2 := by
  obtain ⟨hact, hsent⟩ := h.activate hi hq
  unfold tcpSendArmToken
  generalize hs₁ : ({ Tcp.unqueue t rest s with active := some t, asyncLoop := t.loop } : AxlTcp) =
    s₁ at hact ⊢
  have ha : s₁.active = some t := by rw [← hs₁]
  have hsrc : s₁.sendSource = false := by rw [← hs₁]; exact hi.sendSource
  have hout : s₁.outstanding = 0 := by rw [← hs₁]; exact hi.outstanding
  have hq₁ : s₁.queued = rest := by rw [← hs₁]; rfl
  have hc₁ : s₁.closed = s.closed := by rw [← hs₁]; rfl
  have hlog : s₁.called = s.called := by rw [← hs₁]; rfl
  have hloop : s₁.asyncLoop = t.loop := by rw [← hs₁]
  have hsent₁ : Sent s₁.wire t 0 := by rw [← hs₁]; exact hsent
  -- the event may be there from an earlier send
  have hevent : ∃ created env, (if s₁.event then (true, s₁) else s₁.ask) =
      (created, { s₁ with env := env }) := by
    split
    · exact ⟨true, s₁.env, rfl⟩
    · exact ⟨s₁.env 0, _, rfl⟩
  obtain ⟨created, env, hev⟩ := hevent
  have hinv : Inv 0 { s₁ with env := env } := { hact with owned := { hact.owned with } }
  simp only [hev]
  cases created with
  | false => exact armFailed_tried hinv ha hsrc hout hq₁ hc₁ hlog
  | true =>
    simp only [Bool.not_true, Bool.false_eq_true, if_false]
    obtain ⟨env', htaken | hrefused⟩ :=
      tcpSendArmChunk_spec t { s₁ with env := env, event := true }
    · obtain ⟨hsub, hnow⟩ := hact.submit env' (s₁.outstanding + 1) ha hsent₁ rfl
      simp only [htaken, Bool.not_true, Bool.false_eq_true, if_false, ask]
      cases env' 0 with
      | true =>
        refine ⟨{ hsub with owned := { hsub.owned with sources := ?_ } }, hq₁, hc₁, hlog, t, ha,
          rfl, rfl, ?_, hnow⟩
        · change Source.complete t.loop ::ₘ s₁.sources =
            ((0 + s₁.tokens).map (·.sources)).sum + {Source.complete s₁.asyncLoop}
          rw [hact.owned.sources, hloop, completion, hsrc, ← singleton_add, add_comm]
          simp
        · change s₁.outstanding + 1 + 0 = 1
          rw [hout]
      | false =>
        simp only [cancelTransmit, hout, Nat.zero_add, Nat.lt_one_iff, if_true]
        refine armFailed_tried { hsub with owned := { hsub.owned with } } ha hsrc ?_ hq₁ hc₁ hlog
        rfl
    · simp only [hrefused]
      exact armFailed_tried { hact with owned := { hact.owned with } } ha hsrc hout hq₁ hc₁ hlog

/-! ## Between operations -/

/-- A socket between two operations: the invariant, and either a send is armed or none waits. -/
structure Settled (s : AxlTcp) : Prop where
  inv : Inv 0 s
  transport : (∃ t, Armed t s) ∨ Idle s ∧ s.queued = []
  closed : s.closed = true → s.active = none ∧ s.done = []

/-- What `Settled` reads of the transport. -/
def AxlTcp.transport (s : AxlTcp) :=
  (s.active, s.sendSource, s.event, s.outstanding, s.signalled, s.wire, s.closed)

theorem Settled.keep (h : Settled s) (hinv : Inv 0 s') (hkeep : s'.transport = s.transport)
    (hq : s.queued = [] → s'.queued = []) (hd : s.done = [] → s'.done = []) : Settled s' := by
  simp only [AxlTcp.transport, Prod.mk.injEq] at hkeep
  obtain ⟨hactive, hsource, hevent, hout, hsig, hwire, hclosed⟩ := hkeep
  refine ⟨hinv, h.transport.imp ?_ ?_, fun hc => ?_⟩
  · rintro ⟨t, ht⟩
    exact ⟨t, hactive ▸ ht.active, hsource ▸ ht.sendSource, hevent ▸ ht.event, by
      rw [hout, hsig, ht.one], hwire ▸ ht.sent⟩
  · exact fun ⟨hi, hnil⟩ => ⟨⟨hactive ▸ hi.active, hsource ▸ hi.sendSource, hout ▸ hi.outstanding⟩,
      hq hnil⟩
  · obtain ⟨hnone, hdone⟩ := h.closed (hclosed ▸ hc)
    exact ⟨hactive ▸ hnone, hd hdone⟩

theorem promoteLoop_settled {q : List AxlTcpToken} (h : Inv 0 s) (hi : Idle s)
    (hq : s.queued = q) (hc : s.closed = false) :
    Settled (promoteLoop q s) ∧ (promoteLoop q s).called = s.called := by
  induction q generalizing s with
  | nil => exact ⟨⟨h, .inr ⟨hi, hq⟩, by simp [promoteLoop, hc]⟩, rfl⟩
  | cons t rest ih =>
    have htried := tcpSendArmToken_spec h hi hq
    rw [promoteLoop, if_neg (by simp [hi.active, hc])]
    generalize tcpSendArmToken t (Tcp.unqueue t rest s) = r at htried ⊢
    obtain ⟨armed, s'⟩ := r
    have hc' : s'.closed = false := htried.closed.trans hc
    cases armed with
    | true => exact ⟨⟨htried.inv, .inl htried.transport, by simp [hc']⟩, htried.called⟩
    | false =>
      obtain ⟨hsettled, hcalled⟩ := ih htried.inv htried.transport htried.queued hc'
      exact ⟨hsettled, hcalled.trans htried.called⟩

theorem tcpSendPromote_settled (h : Inv 0 s) (hi : Idle s) (hc : s.closed = false) :
    Settled (tcpSendPromote s) ∧ (tcpSendPromote s).called = s.called :=
  promoteLoop_settled h hi rfl hc

theorem retireActive_settled {status : AxlStatus} (h : Inv 0 s) (ha : s.active = some t)
    (hout : s.outstanding = 0) (hc : s.closed = false)
    (hok : status = .ok → sentOf s.wire t.seq = t.buf) : Settled (retireActive t status s) := by
  have hin := h.takeActive ha
  have hdrop := axlTcpSendDropSources_spec hin.owned.sources
  have hin' := hin.dropSources
  rw [hdrop] at hin'
  obtain ⟨env, done, sources, heq, hret⟩ := hin'.retire status (h.active t ha) hok
  rw [retireActive, hdrop, heq]
  exact (tcpSendPromote_settled hret ⟨rfl, rfl, hout⟩ hc).1

/-- The active token has less left to submit. -/
theorem Inv.advance {n : Nat} (h : Inv 0 s) (ha : s.active = some t) :
    Inv 0 { s with active := some { t with remaining := t.remaining - n } } := by
  have hw := h.active t ha
  have hrest : s.tokens = t ::ₘ ↑(s.queued ++ (s.done ++ s.walks.flatten)) := by
    simp [tokens, ha]
  have hrest' : { s with active := some { t with remaining := t.remaining - n } }.tokens =
      { t with remaining := t.remaining - n } ::ₘ ↑(s.queued ++ (s.done ++ s.walks.flatten)) := by
    simp [tokens]
  have hT := h.owned
  rw [zero_add, hrest] at hT
  have horder := h.order
  rw [ha] at horder
  refine { h with owned := ?_, order := ?_, active := ?_ }
  · rw [zero_add, hrest']
    have hsrc := hT.sources
    rw [Multiset.map_cons, Multiset.sum_cons, add_assoc] at hsrc
    have hrep : Owned ({ t with remaining := t.remaining - n } ::ₘ _) _ :=
      hT.replace ⟨rfl, rfl, rfl⟩ hsrc
    exact { hrep with }
  · exact pairwise_cons.mpr (pairwise_cons.mp horder)
  · intro x hx
    rw [← Option.some.inj hx]
    exact { hw with le := (Nat.sub_le _ _).trans hw.le }

/-- A Transmit that is over is followed by the next one, or the send is retired. -/
theorem onSendComplete_settled (h : Inv 0 s) (ha : Armed t s) (hsig : s.signalled = true)
    (hc : s.closed = false) : Settled (onSendComplete { s with signalled := false }) := by
  have hout : s.outstanding = 0 := by
    have := ha.one
    rw [hsig] at this
    exact Nat.succ.inj this
  have hw := h.active t ha.active
  have hinv : Inv 0 { s with active := some t, signalled := false } := by
    rw [← ha.active]
    exact { h with owned := { h.owned with } }
  simp only [onSendComplete, ha.active]
  split
  case isFalse => exact retireActive_settled hinv rfl hout hc nofun
  case isTrue =>
    have hadv := hinv.advance (n := chunk t) rfl
    generalize ht : ({ t with remaining := t.remaining - chunk t } : AxlTcpToken) = t' at hadv ⊢
    have hrem : t'.remaining = t.remaining - chunk t := by rw [← ht]
    have hle : chunk t ≤ t.remaining := Nat.min_le_left _ _
    have hsent : Sent s.wire t' 0 := by
      have hlen : t.buf.length - (t.remaining - chunk t) + 0 =
          t.buf.length - t.remaining + chunk t := by
        have := hw.le
        omega
      rw [← ht]
      exact ha.sent.trans (by rw [hlen])
    split
    case isTrue =>
      obtain ⟨env, htaken | hrefused⟩ :=
        tcpSendArmChunk_spec t' { s with signalled := false, active := some t' }
      · obtain ⟨hsub, hnow⟩ := hadv.submit env (s.outstanding + 1) rfl hsent rfl
        simp only [htaken, if_true]
        refine ⟨hsub, .inl ⟨t', rfl, ha.sendSource, ha.event, ?_, hnow⟩, by simp [hc]⟩
        change s.outstanding + 1 + 0 = 1
        rw [hout]
      · simp only [hrefused, Bool.false_eq_true, if_false]
        exact retireActive_settled { hadv with owned := { hadv.owned with } } rfl hout hc nofun
    case isFalse hzero =>
      -- nothing remains, so all of the buffer was taken
      refine retireActive_settled hadv rfl hout hc fun _ => ?_
      rw [hsent, hrem, Nat.eq_zero_of_not_pos hzero, Nat.sub_zero, Nat.add_zero, take_length]

/-! ## Each operation -/

theorem Inv.cancelTransmit (h : Inv hand s) : Inv hand s.cancelTransmit := by
  unfold AxlTcp.cancelTransmit
  split
  · exact { h with owned := { h.owned with } }
  · exact h

/-- Cancelling leaves nothing outstanding of the one Transmit. -/
theorem cancelTransmit_spec (h : s.outstanding ≤ 1) : ∃ completed signalled,
    s.cancelTransmit =
      { s with outstanding := 0, completed := completed, signalled := signalled } := by
  unfold AxlTcp.cancelTransmit
  split
  next hpos => exact ⟨_, _, by rw [Nat.le_antisymm h hpos]⟩
  next hpos => exact ⟨s.completed, s.signalled, by rw [← Nat.eq_zero_of_not_pos hpos]⟩

theorem Settled.outstanding (h : Settled s) : s.outstanding ≤ 1 := by
  rcases h.transport with ⟨t, ht⟩ | ⟨hi, -⟩
  · exact ht.one ▸ Nat.le_add_right _ _
  · exact hi.outstanding ▸ Nat.zero_le 1

theorem Settled.open (h : Settled s) (ha : s.active = some t) : s.closed = false := by
  rw [Bool.eq_false_iff]
  intro hc
  rw [(h.closed hc).1] at ha
  cases ha

theorem Settled.finish (h : Settled s) (ok : Bool) : Settled (step s (.finish ok)) := by
  rw [step]
  split
  next hpos =>
    have hone := Nat.le_antisymm h.outstanding hpos
    refine ⟨{ h.inv with owned := { h.inv.owned with } }, ?_, h.closed⟩
    rcases h.transport with ⟨t, ht⟩ | ⟨hi, -⟩
    · exact .inl ⟨t, ht.active, ht.sendSource, ht.event, by rw [hone]; rfl, ht.sent⟩
    · exact absurd hi.outstanding (Nat.ne_of_gt hpos)
  next => exact h

theorem Settled.dispatch (h : Settled s) : Settled (step s .dispatch) := by
  rw [step]
  split
  next hand =>
    rcases h.transport with ⟨t, ht⟩ | ⟨hi, -⟩
    · exact onSendComplete_settled h.inv ht hand.1 (h.open ht.active)
    · simp [hi.sendSource] at hand
  next => exact h

theorem AxlTcpToken.mem_sources {x : Source} : x ∈ t.sources ↔
    (t.cancelSource = true ∧ x = .cancel t.loop t.addr) ∨
      (t.doneDefer = true ∧ x = .defer t.loop t.addr) ∨
        (t.doneSource = true ∧ x = .timer t.loop t.addr) := by
  cases hc : t.cancelSource <;> cases hd : t.doneDefer <;> cases hs : t.doneSource <;>
    simp [AxlTcpToken.sources, hc, hd, hs, or_left_comm]

/-- What is registered for an address is one of the registrations of the token there. -/
theorem Inv.registered {x : Source} {a : Nat} (h : Inv 0 s) (hx : x ∈ s.sources)
    (ha : x.token = some a) : ∃ t ∈ s.tokens, t.addr = a ∧ x ∈ t.sources := by
  rw [h.owned.sources, zero_add] at hx
  rcases Multiset.mem_add.mp hx with hx | hx
  · have hx : x ∈ s.tokens.bind (·.sources) := hx
    obtain ⟨t, ht, hxt⟩ := Multiset.mem_bind.mp hx
    refine ⟨t, ht, Option.some.inj (Eq.trans ?_ ha), hxt⟩
    rcases t.mem_sources.mp hxt with ⟨-, rfl⟩ | ⟨-, rfl⟩ | ⟨-, rfl⟩ <;> rfl
  · unfold completion at hx
    split at hx
    · rw [Multiset.mem_singleton.mp hx] at ha
      cases ha
    · cases hx

theorem mem_tokens : t ∈ s.tokens ↔
    t ∈ s.active ∨ t ∈ s.queued ∨ t ∈ s.done ++ s.walks.flatten := by
  simp [tokens]

theorem Inv.mem_live (h : Inv 0 s) (ht : t ∈ s.tokens) : t.addr ∈ s.live := by
  rw [h.owned.live, zero_add]
  exact Multiset.mem_map_of_mem _ ht

/-- A cancellable fires on a send that is not retired. -/
theorem Settled.cancel (h : Settled s) (loop a : Nat) : Settled (step s (.cancel loop a)) := by
  rw [step]
  split
  case isFalse => exact h
  case isTrue hreg =>
    obtain ⟨x, hx, hxa, -⟩ := h.inv.registered hreg rfl
    rw [onSendTokenCancel, if_neg (by simpa [← hxa] using h.inv.mem_live hx)]
    split
    next t hact =>
      obtain ⟨ha, -⟩ := Option.filter_eq_some_iff.mp hact
      obtain ⟨completed, signalled, hspec⟩ := cancelTransmit_spec h.outstanding
      have hinv := h.inv.cancelTransmit
      rw [hspec] at hinv ⊢
      exact retireActive_settled hinv ha rfl (h.open ha) nofun
    next hact =>
      split
      next t rest hfirst =>
        obtain ⟨-, pre, post, hq, rfl⟩ := takeFirst_spec hfirst
        have hw := (h.inv.queued t (by simp [hq])).1
        obtain ⟨env, done, sources, heq, hret⟩ :=
          (h.inv.unqueue hq).retire .cancelled hw nofun
        rw [heq]
        rcases h.transport with ⟨t', ht'⟩ | ⟨hi, hnil⟩
        · refine ⟨hret, .inl ⟨t', { ht' with }⟩, fun hc => ?_⟩
          simp [h.open ht'.active, Tcp.unqueue] at hc
        · simp [hnil] at hq
      next => exact h

/-- The token at an address is unscheduled: its handle is cleared and its registration used up. -/
theorem Settled.store {x : Source} {a : Nat} {f : AxlTcpToken → AxlTcpToken} (h : Settled s)
    (ht : t ∈ s.tokens) (ha : t.addr = a) (hd : t.doneDefer = true ∨ t.doneSource = true)
    (hsrc : t.sources = x ::ₘ (f t).sources)
    (hf : ∀ t, (f t).addr = t.addr ∧ (f t).seq = t.seq ∧ (f t).buf = t.buf ∧
      (f t).cancelSource = t.cancelSource ∧ (f t).status = t.status) :
    Settled (store a f (s.removeSource x)) := by
  have hT := h.inv.owned
  rw [zero_add] at hT
  have hnodup : (s.tokens.map (·.addr)).Nodup := hT.live ▸ hT.nodup
  -- addresses are not shared, so the store reaches this token only
  have honly : ∀ y ∈ s.tokens, y.addr = a → y = t := fun y hy hya =>
    Multiset.inj_on_of_nodup_map hnodup y hy t ht (hya.trans ha.symm)
  let g (t : AxlTcpToken) := if t.addr = a then f t else t
  have hg : ∀ y, (g y).addr = y.addr ∧ (g y).seq = y.seq ∧ (g y).buf = y.buf ∧
      (g y).cancelSource = y.cancelSource ∧ (g y).status = y.status := by
    intro y
    by_cases hy : y.addr = a
    · simpa [g, hy] using hf y
    · simp [g, hy]
  -- a token that waits is not scheduled, so it is another one
  have hwait : ∀ y ∈ s.tokens, Waiting s.wire y → g y = y := by
    intro y hy hw
    refine if_neg fun hya => ?_
    rw [honly y hy hya] at hw
    simp [hw.deferred, hw.timed] at hd
  have hactive : s.active.map g = s.active := by
    cases hact : s.active with
    | none => rfl
    | some y =>
      rw [Option.map_some, hwait y (mem_tokens.mpr (.inl hact)) (h.inv.active y hact)]
  have hqueued : s.queued.map g = s.queued :=
    (map_congr_left fun y hy =>
      hwait y (mem_tokens.mpr (.inr (.inl hy))) (h.inv.queued y hy).1).trans (map_id _)
  have hflat : (s.walks.map (·.map g)).flatten = s.walks.flatten.map g := map_flatten.symm
  have hstore : Tcp.store a f (s.removeSource x) = { s with
      done := s.done.map g, walks := s.walks.map (·.map g), sources := s.sources.erase x } := by
    have hlive : decide (a ∈ s.live) = true := decide_eq_true (ha ▸ h.inv.mem_live ht)
    change ({ s with
      active := s.active.map g, queued := s.queued.map g, done := s.done.map g
      walks := s.walks.map (·.map g), sources := s.sources.erase x
      fault := s.fault || !decide (a ∈ s.live) } : AxlTcp) = _
    rw [hactive, hqueued, hlive, Bool.not_true, Bool.or_false]
  have htok : ({ s with
      done := s.done.map g, walks := s.walks.map (·.map g), sources := s.sources.erase x }
      : AxlTcp).tokens = s.tokens.map g := by
    have hlist : s.active.toList.map g = s.active.toList := by
      cases hact : s.active with
      | none => rfl
      | some y => rw [hact, Option.map_some] at hactive; simp [Option.some.inj hactive]
    simp only [tokens, Multiset.map_add, Multiset.map_coe, hflat, hlist, hqueued]
  rw [hstore]
  refine h.keep { h.inv with owned := ?_, retired := ?_ } rfl id (fun hdone => by rw [hdone]; rfl)
  · rw [zero_add, htok]
    obtain ⟨T, hsplit⟩ := Multiset.exists_cons_of_mem ht
    have hrest : T.map g = T := by
      refine (Multiset.map_congr rfl fun y hy => if_neg fun hya => ?_).trans (Multiset.map_id T)
      rw [hsplit, Multiset.map_cons] at hnodup
      exact (Multiset.nodup_cons.mp hnodup).1 (ha ▸ hya ▸ Multiset.mem_map_of_mem _ hy)
    have hgt : g t = f t := if_pos ha
    rw [hsplit] at hT
    rw [hsplit, Multiset.map_cons, hrest, hgt]
    obtain ⟨haddr, hseq, hbuf, -, -⟩ := hf t
    have hsrc : s.sources.erase x = (f t).sources + ((T.map (·.sources)).sum + s.completion) := by
      rw [hT.sources, Multiset.map_cons, Multiset.sum_cons, hsrc]
      simp [add_assoc]
    exact { hT.replace ⟨haddr, hseq, hbuf⟩ hsrc with }
  · intro y hy
    have hy : y ∈ (s.done ++ s.walks.flatten).map g := by
      rw [map_append, ← hflat]
      exact hy
    obtain ⟨z, hz, rfl⟩ := mem_map.mp hy
    rw [(hg z).2.1, (hg z).2.2.1, (hg z).2.2.2.1, (hg z).2.2.2.2]
    exact h.inv.retired z hz

/-- A retired token is detached as a list of its own. -/
theorem Settled.deliverOne (h : Settled s) (a : Nat) : Settled (tcpSendDeliverOne a s) := by
  rw [tcpSendDeliverOne]
  split
  next t rest hfirst =>
    obtain ⟨-, pre, post, hdone, rfl⟩ := takeFirst_spec hfirst
    have htok : { s with done := pre ++ post, walks := [t] :: s.walks }.tokens = s.tokens := by
      simp only [tokens, hdone, flatten_cons, ← coe_add, ← cons_coe,
        ← singleton_add, coe_singleton]
      abel
    refine h.keep { h.inv with owned := ?_, retired := fun y hy => h.inv.retired y ?_ } rfl id
      fun hnil => by simp [hnil] at hdone
    · rw [htok]
      exact { h.inv.owned with }
    · rw [hdone]
      simp only [flatten_cons, mem_append, mem_cons, mem_singleton] at hy ⊢
      tauto
  next => exact h

theorem Settled.defer (h : Settled s) (loop a : Nat) : Settled (step s (.defer loop a)) := by
  rw [step]
  split
  case isFalse => exact h
  case isTrue hreg =>
    obtain ⟨t, ht, ha, hx⟩ := h.inv.registered hreg rfl
    rcases t.mem_sources.mp hx with ⟨-, hx⟩ | ⟨hd, hx⟩ | ⟨-, hx⟩
    · cases hx
    · refine (h.store (f := fun t => { t with doneDefer := false }) ht ha (.inl hd) ?_
        fun t => ⟨rfl, rfl, rfl, rfl, rfl⟩).deliverOne a
      simp only [hx, AxlTcpToken.sources, hd, if_true, Bool.false_eq_true, if_false,
        ← singleton_add]
      abel
    · cases hx

theorem Settled.timer (h : Settled s) (loop a : Nat) : Settled (step s (.timer loop a)) := by
  rw [step]
  split
  case isFalse => exact h
  case isTrue hreg =>
    obtain ⟨t, ht, ha, hx⟩ := h.inv.registered hreg rfl
    rcases t.mem_sources.mp hx with ⟨-, hx⟩ | ⟨-, hx⟩ | ⟨hs, hx⟩
    · cases hx
    · cases hx
    · refine (h.store (f := fun t => { t with doneSource := false }) ht ha (.inr hs) ?_
        fun t => ⟨rfl, rfl, rfl, rfl, rfl⟩).deliverOne a
      simp only [hx, AxlTcpToken.sources, hs, if_true, Bool.false_eq_true, if_false,
        ← singleton_add]
      abel

/-- One callback: its token is freed before, and the rest of the list is still to come. -/
theorem Settled.deliver (h : Settled s) : Settled (step s .deliver) := by
  rw [step, tcpSendDeliver]
  split
  next => exact h
  next outer hwalks =>
    have htok : { s with walks := outer }.tokens = s.tokens := by simp [tokens, hwalks]
    exact h.keep { h.inv with
      owned := htok.symm ▸ { h.inv.owned with }
      retired := fun y hy => h.inv.retired y (by simpa [hwalks] using hy) } rfl id id
  next t list outer hwalks =>
    have htok : {t} + { s with walks := list :: outer }.tokens = 0 + s.tokens := by
      simp only [tokens, hwalks, flatten_cons, ← coe_add, ← cons_coe,
        ← singleton_add]
      abel
    have ht : t ∈ s.tokens := mem_tokens.mpr (by simp [hwalks])
    have hret := h.inv.retired t (by simp [hwalks])
    have hinv : Inv {t} { s with walks := list :: outer } := { h.inv with
      owned := htok ▸ { h.inv.owned with }
      retired := fun y hy => h.inv.retired y (by
        rw [hwalks]
        simp only [flatten_cons, mem_append, mem_cons] at hy ⊢
        tauto) }
    have hbuf := h.inv.owned.buf t (by rwa [zero_add])
    have hfree := hinv.free (s.called ++ [(t.seq, t.status)]) s.dropped
      (by simp [← coe_add, ← singleton_add, add_comm, add_left_comm]) (by
        intro i hi
        rcases mem_append.mp hi with hi | hi
        · exact h.inv.called i hi
        · obtain ⟨rfl, hok⟩ := Prod.mk.inj (mem_singleton.mp hi)
          rw [hret.2 hok.symm]
          exact hbuf)
    rw [tcpSendFreeToken_spec hinv.split] at hfree ⊢
    exact h.keep hfree rfl id id

/-- The send of a token in hand is dropped. -/
theorem Inv.discard (h : Inv {t} s) : ∃ sources live fault freed dropped, discard t s = { s with
      sources := sources, live := live, fault := fault, freed := freed, dropped := dropped } ∧
    Inv 0 { s with
      sources := sources, live := live, fault := fault, freed := freed, dropped := dropped } := by
  have hfree := h.free s.called (s.dropped ++ [t.seq])
    (by
      rw [← coe_add, ← singleton_add, coe_singleton]
      abel) h.called
  rw [Tcp.discard]
  rw [tcpSendFreeToken_spec h.split] at hfree ⊢
  exact ⟨_, _, _, _, _, rfl, hfree⟩

theorem Settled.drop (h : Settled s) (cb cbData : Nat) : Settled (step s (.drop cb cbData)) := by
  rw [step, axlTcpSendDropToken]
  dsimp only
  split
  next t hact =>
    obtain ⟨ha, -⟩ := Option.filter_eq_some_iff.mp hact
    obtain ⟨completed, signalled, hspec⟩ := cancelTransmit_spec h.outstanding
    have hin := h.inv.cancelTransmit
    rw [hspec] at hin
    have htake := hin.takeActive (t := t) ha
    have hdrop := htake.dropSources
    rw [hspec]
    rw [axlTcpSendDropSources_spec htake.owned.sources] at hdrop ⊢
    obtain ⟨_, _, _, _, _, heq, hinv⟩ := hdrop.discard
    rw [heq]
    exact (tcpSendPromote_settled hinv ⟨rfl, rfl, rfl⟩ (h.open ha)).1
  next =>
    split
    next t rest hfirst =>
      obtain ⟨-, pre, post, hq, rfl⟩ := takeFirst_spec hfirst
      obtain ⟨_, _, _, _, _, heq, hinv⟩ := (h.inv.unqueue hq).discard
      rw [heq]
      rcases h.transport with ⟨t', ht'⟩ | ⟨-, hnil⟩
      · refine ⟨hinv, .inl ⟨t', { ht' with }⟩, fun hc => ?_⟩
        simp [h.open ht'.active, Tcp.unqueue] at hc
      · simp [hnil] at hq
    next =>
      split
      next t rest hfirst =>
        obtain ⟨-, pre, post, hdone, rfl⟩ := takeFirst_spec hfirst
        have htok : {t} + { s with done := pre ++ post }.tokens = 0 + s.tokens := by
          simp only [tokens, hdone, ← coe_add, ← cons_coe,
            ← singleton_add]
          abel
        have hin : Inv {t} { s with done := pre ++ post } := { h.inv with
          owned := htok ▸ { h.inv.owned with }
          retired := fun y hy => h.inv.retired y (by
            rw [hdone]
            simp only [mem_append, mem_cons] at hy ⊢
            tauto) }
        obtain ⟨_, _, _, _, _, heq, hinv⟩ := hin.discard
        rw [heq]
        exact h.keep hinv rfl id fun hnil => by simp [hnil] at hdone
      next => exact h

theorem flushLoop_spec {q : List AxlTcpToken} (h : Inv 0 s) (hq : s.queued = q) :
    Inv 0 (flushLoop .cancelled q s) ∧ ∃ done sources bytes,
      flushLoop .cancelled q s = { s with
        queued := [], done := done, sources := sources, queuedBytes := bytes } := by
  induction q generalizing s with
  | nil =>
    refine ⟨h, s.done, s.sources, s.queuedBytes, ?_⟩
    rw [flushLoop, ← hq]
  | cons t rest ih =>
    obtain ⟨done, sources, hpark, hinv⟩ := (h.dequeue hq).park .cancelled nofun
    rw [flushLoop, hpark]
    obtain ⟨hflush, done', sources', bytes', heq⟩ := ih hinv rfl
    exact ⟨hflush, done', sources', bytes', heq⟩

theorem parkActive_spec (h : Inv 0 s) : ∃ done sources,
    parkActive .cancelled s = { s with active := none, done := done, sources := sources } ∧
      Inv 0 { s with active := none, done := done, sources := sources } := by
  unfold parkActive
  split
  next t hact => exact (h.takeActive hact).park .cancelled nofun
  next hact => exact ⟨s.done, s.sources, by rw [← hact], by rw [← hact]; exact h⟩

/-- Everything that is not called back yet is detached as one list. -/
theorem axlTcpSendFlush_settled (h : Inv 0 s) (hsrc : s.sendSource = false)
    (hout : s.outstanding = 0) : Settled (axlTcpSendFlush .cancelled s) := by
  obtain ⟨done, sources, heq, hinv⟩ := parkActive_spec h
  rw [axlTcpSendFlush, heq]
  obtain ⟨hflush, done', sources', bytes', hshape⟩ := flushLoop_spec hinv rfl
  rw [hshape] at hflush ⊢
  have htok : ({ s with
      active := none, queued := [], done := [], walks := done' :: s.walks, sources := sources'
      queuedBytes := bytes' } : AxlTcp).tokens = ({ s with
      active := none, queued := [], done := done', sources := sources', queuedBytes := bytes' }
      : AxlTcp).tokens := by
    simp [tokens]
  refine ⟨{ hflush with owned := ?_, retired := ?_ }, .inr ⟨⟨rfl, hsrc, hout⟩, rfl⟩,
    fun _ => ⟨rfl, rfl⟩⟩
  · have := hflush.owned
    rw [zero_add] at this ⊢
    rw [htok]
    exact { this with }
  · intro y hy
    exact hflush.retired y (by simpa using hy)

theorem Settled.close (h : Settled s) : Settled (step s .close) := by
  rw [step, tcpCloseImpl]
  split
  next => exact h
  next =>
    have hin : Inv 0 { s with closed := true } := { h.inv with owned := { h.inv.owned with } }
    have hdrop := hin.dropSources
    have hspec := axlTcpSendDropSources_spec hin.owned.sources
    generalize hs₁ : axlTcpSendDropSources { s with closed := true } = s₁ at hdrop hspec ⊢
    have hsrc : s₁.sendSource = false := by rw [hspec]
    have hout : s₁.outstanding = s.outstanding := by rw [hspec]
    have hev : s₁.event = s.event := by rw [hspec]
    dsimp only
    split
    next =>
      have hcancel := hdrop.cancelTransmit
      obtain ⟨completed, signalled, hspec⟩ := cancelTransmit_spec (hout.trans_le h.outstanding)
      rw [hspec] at hcancel ⊢
      exact axlTcpSendFlush_settled { hcancel with owned := { hcancel.owned with } } hsrc rfl
    next hnone =>
      refine axlTcpSendFlush_settled hdrop hsrc ?_
      rcases h.transport with ⟨t, ht⟩ | ⟨hi, -⟩
      · rw [hev, ht.event] at hnone
        exact absurd rfl hnone
      · rw [hout, hi.outstanding]

theorem getElem?_append_some {α : Type} {l : List α} {i : Nat} {x : α} (m : List α)
    (h : l[i]? = some x) : (l ++ m)[i]? = some x := by
  rw [getElem?_append_left (List.getElem?_eq_some_iff.mp h).1, h]

/-- A send is accepted at the end of the queue. -/
theorem Inv.accept (h : Inv 0 s) (addr : Nat) (buf : List UInt8) (loop : Nat) (cancel : Bool)
    (cb cbData : Nat) (env : Nat → Bool) (sources : Multiset Source) (hnew : addr ∉ s.live)
    (hsrc : sources = (if cancel then {.cancel loop addr} else 0) + s.sources) :
    Inv 0 { s with
      env := env, sources := sources, live := addr ::ₘ s.live
      queued := s.queued ++ [⟨addr, s.accepted.length, buf, buf.length, cb, cbData, loop, cancel,
        .ok, false, false⟩]
      queuedBytes := s.queuedBytes + UInt64.ofNat buf.length
      accepted := s.accepted ++ [buf] } := by
  generalize htok : (⟨addr, s.accepted.length, buf, buf.length, cb, cbData, loop, cancel,
    .ok, false, false⟩ : AxlTcpToken) = tok
  have hT := h.owned
  rw [zero_add] at hT
  have hseq : tok.seq = s.accepted.length := by rw [← htok]
  have hbuf : tok.buf = buf := by rw [← htok]
  have hlt : ∀ x ∈ s.tokens, x.seq < s.accepted.length := fun x hx =>
    (List.getElem?_eq_some_iff.mp (hT.buf x hx)).1
  have hadd : ({ s with
      env := env, sources := sources, live := addr ::ₘ s.live, queued := s.queued ++ [tok]
      queuedBytes := s.queuedBytes + UInt64.ofNat buf.length, accepted := s.accepted ++ [buf] }
      : AxlTcp).tokens = tok ::ₘ s.tokens := by
    simp only [tokens, ← coe_add, ← singleton_add, coe_singleton]
    abel
  exact {
    owned := by
      rw [zero_add, hadd]
      exact {
        sound := hT.sound
        live := by simp [hT.live, ← htok]
        nodup := Multiset.nodup_cons.mpr ⟨hnew, hT.nodup⟩
        seqs := by
          rw [Multiset.map_cons, hseq, cons_add, hT.seqs, length_append,
            length_singleton, Multiset.range_succ]
        freed := hT.freed
        buf := by
          intro x hx
          rcases Multiset.mem_cons.mp hx with rfl | hx
          · rw [hseq, hbuf]
            exact getElem?_concat_length
          · exact getElem?_append_some _ (hT.buf x hx)
        sources := by
          rw [Multiset.map_cons, Multiset.sum_cons, hsrc, hT.sources, ← htok]
          simp [AxlTcpToken.sources, completion, add_assoc] }
    bytes := by
      rw [h.bytes, map_append, sum_append, UInt64.ofNat_add, ← hbuf]
      rfl
    order := by
      rw [← append_assoc]
      refine pairwise_append.mpr ⟨h.order, pairwise_singleton _ _, ?_⟩
      intro x hx y hy
      rw [mem_singleton.mp hy, hseq]
      refine hlt x (mem_tokens.mpr ?_)
      rcases mem_append.mp hx with hx | hx
      · exact .inl (Option.mem_toList.mp hx)
      · exact .inr (.inl hx)
    active := h.active
    queued := by
      intro x hx
      rcases mem_append.mp hx with hx | hx
      · exact h.queued x hx
      · have hfrag : ∀ f ∈ s.wire, f.1 < x.seq := by
          rw [mem_singleton.mp hx, hseq]
          exact fun f hf => (h.frags f hf).1
        obtain rfl := mem_singleton.mp hx
        rw [← htok] at hfrag ⊢
        exact ⟨⟨rfl, rfl, le_rfl, fun f hf => (hfrag f hf).le⟩, rfl, hfrag⟩
    retired := h.retired
    called := fun i hi => getElem?_append_some _ (h.called i hi)
    sorted := h.sorted
    frags := fun f hf => ⟨by
      rw [length_append]
      exact (h.frags f hf).1.trans_le (Nat.le_add_right _ _), (h.frags f hf).2⟩
    part := by
      intro i b hb
      rcases Nat.lt_or_ge i s.accepted.length with hi | hi
      · rw [getElem?_append_left hi] at hb
        exact h.part i b hb
      · have hnil : sentOf s.wire i = [] :=
          sentOf_eq_nil fun f hf => (h.frags f hf).1.trans_le hi
        exact hnil ▸ nil_prefix }

/-- What `tcp_send_enqueue` comes to: nothing, or the token at the end of the queue. -/
theorem tcpSendEnqueue_spec (addr : Nat) (buf : List UInt8) (loop : Nat) (cancel : Bool)
    (cb cbData : Nat) (h : Inv 0 s) : ∃ env,
    tcpSendEnqueue addr buf loop cancel cb cbData s = (false, { s with env := env }) ∨
    ∃ s', tcpSendEnqueue addr buf loop cancel cb cbData s = (true, s') ∧ Inv 0 s' ∧
      ∃ queued bytes sources live accepted, s' = { s with
        env := env, queued := queued, queuedBytes := bytes, sources := sources, live := live
        accepted := accepted } := by
  by_cases hfail : s.env 0 = false ∨ addr ∈ s.live
  · refine ⟨fun n => s.env (n + 1), .inl ?_⟩
    rcases hfail with h0 | hin
    · simp [tcpSendEnqueue, ask, h0]
    · simp [tcpSendEnqueue, ask, hin]
  obtain ⟨h0, hnew⟩ := not_or.mp hfail
  cases cancel with
  | false =>
    have hinv := h.accept addr buf loop false cb cbData (fun n => s.env (n + 1)) _ hnew
      (zero_add s.sources).symm
    refine ⟨fun n => s.env (n + 1), .inr ⟨_, ?_, hinv, _, _, _, _, _, rfl⟩⟩
    simp [tcpSendEnqueue, ask, h0, hnew]
  | true =>
    cases h1 : s.env 1 with
    | false =>
      refine ⟨fun n => s.env (n + 1 + 1), .inl ?_⟩
      simp [tcpSendEnqueue, ask, h0, h1, hnew]
    | true =>
      have hinv := h.accept addr buf loop true cb cbData (fun n => s.env (n + 1 + 1)) _ hnew
        (singleton_add (.cancel loop addr) s.sources).symm
      refine ⟨fun n => s.env (n + 1 + 1), .inr ⟨_, ?_, hinv, _, _, _, _, _, rfl⟩⟩
      simp [tcpSendEnqueue, ask, h0, h1, hnew, addSource]

/-- Behind a send that is armed, the new one waits. -/
theorem tcpSendPromote_armed (ha : s.active = some t) : tcpSendPromote s = s := by
  rw [tcpSendPromote]
  cases s.queued with
  | nil => rfl
  | cons t' rest => rw [promoteLoop, if_pos (by simp [ha])]

/-- A send is refused or queued, and no callback runs. -/
theorem Settled.send (h : Settled s) (addr : Nat) (buf : List UInt8) (loop : Nat) (cancel : Bool)
    (cb cbData : Nat) :
    Settled (step s (.send addr buf loop cancel cb cbData)) ∧
      (step s (.send addr buf loop cancel cb cbData)).called = s.called := by
  rw [step, axlTcpSendAsync]
  split
  case isTrue => exact ⟨h, rfl⟩
  case isFalse hopen =>
    have hc : s.closed = false := by simpa using (not_or.mp hopen).2
    obtain ⟨env, hrefused | ⟨s', hqueued, hinv, _, _, _, _, _, hs'⟩⟩ :=
      tcpSendEnqueue_spec addr buf loop cancel cb cbData h.inv
    · rw [hrefused]
      exact ⟨h.keep { h.inv with owned := { h.inv.owned with } } rfl id id, rfl⟩
    · rw [hqueued]
      simp only [if_true]
      have hc' : s'.closed = false := by rw [hs', hc]
      have hcalled : s'.called = s.called := by rw [hs']
      rcases h.transport with ⟨t', ht'⟩ | ⟨hi, -⟩
      · have hact : s'.active = some t' := by rw [hs', ht'.active]
        rw [tcpSendPromote_armed hact]
        refine ⟨⟨hinv, .inl ⟨t', ?_⟩, by simp [hc']⟩, hcalled⟩
        rw [hs']
        exact { ht' with }
      · have hi' : Idle s' := by
          rw [hs']
          exact { hi with }
        obtain ⟨hsettled, hsame⟩ := tcpSendPromote_settled hinv hi' hc'
        exact ⟨hsettled, hsame.trans hcalled⟩

theorem Settled.step (h : Settled s) (op : Op) : Settled (step s op) := by
  cases op with
  | send addr buf loop cancel cb cbData => exact (h.send addr buf loop cancel cb cbData).1
  | finish ok => exact h.finish ok
  | dispatch => exact h.dispatch
  | cancel loop a => exact h.cancel loop a
  | defer loop a => exact h.defer loop a
  | timer loop a => exact h.timer loop a
  | deliver => exact h.deliver
  | drop cb cbData => exact h.drop cb cbData
  | close => exact h.close

theorem Settled.run (env : Nat → Bool) (ops : List Op) : Settled (run env ops) := by
  unfold Tcp.run
  have hinit : Settled (AxlTcp.init env) :=
    ⟨Inv.init env, .inr ⟨⟨rfl, rfl, rfl⟩, rfl⟩, fun _ => ⟨rfl, rfl⟩⟩
  generalize AxlTcp.init env = s at hinit
  induction ops generalizing s with
  | nil => exact hinit
  | cons op ops ih => exact ih _ (hinit.step op)

/-! ## Every send completes once -/

/-- A closed socket whose deliveries are over has no token left. -/
theorem Settled.over (h : Settled s) (hc : s.closed = true) (hw : s.walks = []) :
    s.tokens = 0 := by
  obtain ⟨hactive, hdone⟩ := h.closed hc
  rcases h.transport with ⟨t, ht⟩ | ⟨-, hqueued⟩
  · rw [ht.active] at hactive
    cases hactive
  · simp [tokens, hactive, hdone, hqueued, hw]

/-- What is freed was called back or dropped, once each; and all was, when the socket is freed,
which is once it is closed and no list is being delivered. -/
theorem send_exactly_once (env : Nat → Bool) (ops : List Op) :
    let s := run env ops
    s.fault = false ∧ s.live.Nodup ∧ (∀ x ∈ s.sources, ∀ a, x.token = some a → a ∈ s.live) ∧
    s.freed.Perm (s.called.map (·.1) ++ s.dropped) ∧ s.freed.Nodup ∧
    (∀ i ∈ s.freed, i < s.accepted.length) ∧
    (s.closed = true → s.walks = [] →
      (s.called.map (·.1) ++ s.dropped).Perm (List.range s.accepted.length) ∧ s.live = 0) ∧
    ∀ addr buf loop cancel cb cbData,
      (step s (.send addr buf loop cancel cb cbData)).called = s.called := by
  intro s
  have h : Settled s := Settled.run env ops
  have hT := h.inv.owned
  rw [zero_add] at hT
  have hfreed : s.freed.Perm (s.called.map (·.1) ++ s.dropped) := coe_eq_coe.mp hT.freed
  have hnodup := Multiset.nodup_range s.accepted.length
  rw [← hT.seqs] at hnodup
  refine ⟨hT.sound, hT.nodup, fun x hx a ha => ?_, hfreed,
    Multiset.coe_nodup.mp (Multiset.nodup_of_le (Multiset.le_add_left _ _) hnodup),
    fun i hi => ?_, fun hc hw => ?_, fun addr buf loop cancel cb cbData => ?_⟩
  · obtain ⟨t, ht, rfl, -⟩ := h.inv.registered hx ha
    exact h.inv.mem_live ht
  · rw [← Multiset.mem_range, ← hT.seqs]
    exact Multiset.mem_add.mpr (.inr hi)
  · have hseqs := hT.seqs
    have hlive := hT.live
    rw [h.over hc hw] at hseqs hlive
    rw [Multiset.map_zero, zero_add] at hseqs
    exact ⟨hfreed.symm.trans (coe_eq_coe.mp hseqs), hlive⟩
  · exact (h.send addr buf loop cancel cb cbData).2

/-! ## The stream -/

theorem filter_split {β : Type} {l : List (Nat × β)} (h : l.Pairwise (·.1 ≤ ·.1)) (n : Nat) :
    l.filter (fun f => f.1 < n) ++ l.filter (fun f => n ≤ f.1) = l := by
  induction l with
  | nil => rfl
  | cons f l ih =>
    obtain ⟨hle, hl⟩ := pairwise_cons.mp h
    by_cases hf : f.1 < n
    · simpa [hf, Nat.not_le.mpr hf] using ih hl
    · have hge : ∀ g ∈ f :: l, n ≤ g.1 := by
        rintro g (_ | ⟨_, hg⟩)
        · exact Nat.not_lt.mp hf
        · exact (Nat.not_lt.mp hf).trans (hle g hg)
      rw [filter_eq_nil_iff.mpr fun g hg => by simpa using hge g hg,
        filter_eq_self.mpr fun g hg => by simpa using hge g hg, nil_append]

/-- A log that is sorted by its tags is its parts, one tag after the other. -/
theorem flatMap_filter_tag {β : Type} {l : List (Nat × β)} (h : l.Pairwise (·.1 ≤ ·.1)) {n : Nat}
    (hlt : ∀ f ∈ l, f.1 < n) : (List.range n).flatMap (fun i => l.filter (·.1 == i)) = l := by
  induction n generalizing l with
  | zero =>
    rw [eq_nil_iff_forall_not_mem.mpr fun f hf => Nat.not_lt_zero _ (hlt f hf)]
    rfl
  | succ n ih =>
    have hpre := ih (h.filter (fun f => f.1 < n)) fun f hf => by
      simpa using (mem_filter.mp hf).2
    have hlast : l.filter (fun f => n ≤ f.1) = l.filter (·.1 == n) :=
      filter_congr fun f hf => by
        have := hlt f hf
        grind
    rw [List.range_succ, flatMap_append, flatMap_singleton, ← hlast]
    conv_rhs => rw [← filter_split h n]
    congr 1
    rw [← hpre]
    refine flatMap_congr fun i hi => ?_
    rw [filter_filter]
    refine filter_congr fun f _ => ?_
    have := List.mem_range.mp hi
    grind

/-- The firmware took a part of each accepted send from its start, in the order of acceptance. -/
theorem send_stream (env : Nat → Bool) (ops : List Op) :
    let s := run env ops
    s.wire.flatMap (·.2) = (List.range s.accepted.length).flatMap (sentOf s.wire) ∧
    (∀ i b, s.accepted[i]? = some b → sentOf s.wire i <+: b) ∧
    (∀ i, (i, .ok) ∈ s.called → s.accepted[i]? = some (sentOf s.wire i)) ∧
    s.outstanding ≤ 1 ∧ (∀ f ∈ s.wire, f.2.length ≤ 32 * 1024) ∧
    s.queuedBytes = UInt64.ofNat (s.queued.map (·.buf.length)).sum := by
  intro s
  have h : Settled s := Settled.run env ops
  refine ⟨?_, h.inv.part, h.inv.called, h.outstanding, fun f hf => (h.inv.frags f hf).2,
    h.inv.bytes⟩
  have htags := flatMap_filter_tag h.inv.sorted fun f hf => (h.inv.frags f hf).1
  conv_lhs => rw [← htags]
  rw [flatMap_assoc]
  rfl

/-- A send that waits is behind one whose Transmit is outstanding or done, and the source that
goes on from there is registered. -/
theorem send_never_stalls (env : Nat → Bool) (ops : List Op) :
    let s := run env ops
    s.queued ≠ [] → s.closed = false ∧ s.active.isSome ∧ .complete s.asyncLoop ∈ s.sources ∧
      s.outstanding + s.signalled.toNat = 1 := by
  intro s hq
  have h : Settled s := Settled.run env ops
  rcases h.transport with ⟨t, ht⟩ | ⟨-, hnil⟩
  · refine ⟨h.open ht.active, by simp [ht.active], ?_, ht.one⟩
    rw [h.inv.owned.sources, completion, if_pos ht.sendSource]
    simp
  · exact absurd hnil hq

end Tcp

end AxlSdk
