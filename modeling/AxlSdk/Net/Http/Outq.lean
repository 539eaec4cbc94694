import AxlSdk.Lib.Linked

/-!
# The outbound WebSocket queue (`src/net/axl-http-ws.c`)

Every outbound frame of a connection is copied into a node of a singly linked
list. Only the head is handed to the transport, and it stays in the list until its
send is over; what is queued behind it may be dropped, oldest first, when a new
frame does not fit.

A send that fails tears the connection down. `reset_connection` first calls the
DISCONNECT handler, with the transport still open, so the handler may enqueue
frames again: `script` is what it enqueues. Nested calls find `tearing_down` set.

- `run_lossy`: along every run whose steps are `Orderly`, the list, its tail and
  its counters agree, the budgets hold, a frame in flight is neither freed nor
  changed, and the frames handed down are a subsequence of those accepted.
- `ws_out_on_sent` leaves a frame whose send failed at the head and clears the
  flag before it resets the connection: a handler that enqueues then hands the
  same frame down again.
-/

namespace AxlSdk

namespace WsOutq

open Linked List

/-- A frame as it was enqueued; `serial` tells equal frames apart. -/
structure Frame where
  serial : Nat
  bytes : List UInt8
  deriving DecidableEq, Repr

structure WsOutNode where
  frame : Frame
  next : Option Nat
  deriving DecidableEq, Repr

def wsOutMaxFrames : Nat := 1024

def wsOutMaxBytes : Nat := 512 * 1024

/-- A connection. `sending` is the send under way in the transport, with the node it
refers to. `accepted` and `handed` are the frames enqueued and those the transport
took; `misfreed` says that a node was freed while the transport referred to it. -/
structure HttpConn where
  active : Bool
  tearingDown : Bool
  wsConnected : Bool
  nodes : Nat → Option WsOutNode
  wsOutHead : Option Nat
  wsOutTail : Option Nat
  wsOutCount : Nat
  wsOutBytes : Nat
  wsOutInflight : Bool
  sending : Option (Nat × Frame)
  accepted : List Frame
  handed : List Frame
  misfreed : Bool

/-- A connection after the upgrade; `wsConnected` says that a handler accepted it. -/
def HttpConn.new (wsConnected : Bool) : HttpConn :=
  ⟨true, false, wsConnected, fun _ => none, none, none, 0, 0, false, none, [], [], false⟩

/-- The successor of a node. -/
def next (nodes : Nat → Option WsOutNode) (a : Nat) : Option Nat := (nodes a).bind (·.next)

def HttpConn.free (c : HttpConn) (a : Nat) : HttpConn :=
  { c with
    nodes := Function.update c.nodes a none
    misfreed := c.misfreed || c.sending.map (·.1) == some a }

/-- `ws_outq_pop_free_head` -/
def popFreeHead (c : HttpConn) : HttpConn :=
  match c.wsOutHead with
  | none => c
  | some a =>
    match c.nodes a with
    | none => c
    | some n =>
      { c with
        wsOutHead := n.next
        wsOutTail := if n.next = none then none else c.wsOutTail
        wsOutCount := c.wsOutCount - 1
        wsOutBytes := c.wsOutBytes - n.frame.bytes.length }.free a

/-- `ws_outq_drop_one` -/
def dropOne (c : HttpConn) : HttpConn :=
  let prev := if c.wsOutInflight then c.wsOutHead else none
  let victim := if c.wsOutInflight then prev.bind (next c.nodes) else c.wsOutHead
  match victim with
  | none => c
  | some v =>
    match c.nodes v with
    | none => c
    | some n =>
      let unlinked := match prev with
        | none => { c with wsOutHead := n.next }
        | some p => { c with nodes := Function.update c.nodes p
                               ((c.nodes p).map fun m : WsOutNode => { m with next := n.next }) }
      { unlinked with
        wsOutTail := if c.wsOutTail = some v then prev else c.wsOutTail
        wsOutCount := c.wsOutCount - 1
        wsOutBytes := c.wsOutBytes - n.frame.bytes.length }.free v

/-- The loop of `ws_outq_enqueue` that drops until a frame of `len` bytes fits. -/
def makeRoom (len : Nat) : Nat → HttpConn → HttpConn
  | 0, c => c
  | fuel + 1, c =>
    if (wsOutMaxFrames ≤ c.wsOutCount ∨ wsOutMaxBytes < c.wsOutBytes + len) ∧
        (if c.wsOutInflight then 1 else 0) < c.wsOutCount then
      let c' := dropOne c
      if c'.wsOutCount = c.wsOutCount then c' else makeRoom len fuel c'
    else c

/-- Appending a node at an address. -/
def link (c : HttpConn) (addr : Nat) (bytes : List UInt8) : HttpConn :=
  let frame : Frame := ⟨c.accepted.length, bytes⟩
  let nodes := Function.update c.nodes addr (some ⟨frame, none⟩)
  let linked := match c.wsOutTail with
    | some t => { c with nodes := Function.update nodes t
                           ((nodes t).map fun m : WsOutNode => { m with next := some addr }) }
    | none => { c with nodes := nodes, wsOutHead := some addr }
  { linked with
    wsOutTail := some addr
    wsOutCount := c.wsOutCount + 1
    wsOutBytes := c.wsOutBytes + bytes.length
    accepted := c.accepted ++ [frame] }

/-- A call of `ws_outq_enqueue`: the frame, whether there is memory and where, and
whether the transport takes a frame that is handed to it in the call. -/
structure Call where
  bytes : List UInt8
  allocated : Bool
  addr : Nat
  sendOk : Bool
  deriving DecidableEq, Repr

/-- `ws_outq_enqueue` up to the pump; `none` when the allocator would return a node
that is in use. -/
def passGate (c : HttpConn) (call : Call) : Option (HttpConn × Bool) :=
  if call.bytes.length = 0 ∨ wsOutMaxBytes < call.bytes.length then some (c, false)
  else
    let c := makeRoom call.bytes.length c.wsOutCount c
    if call.allocated then
      if c.nodes call.addr = none then some (link c call.addr call.bytes, true) else none
    else some (c, false)

/-- `ws_outq_pump` up to its failure, which the second component reports. -/
def pump (c : HttpConn) (sendOk : Bool) : HttpConn × Bool :=
  if c.wsOutInflight || !c.active then (c, false)
  else
    match c.wsOutHead with
    | none => (c, false)
    | some a =>
      match c.nodes a with
      | none => (c, false)
      | some n =>
        if sendOk then
          ({ c with
              wsOutInflight := true
              sending := some (a, n.frame)
              handed := c.handed ++ [n.frame] }, false)
        else (c, true)

/-- A call from the DISCONNECT handler: `reset_connection` returns at once. -/
def enqueueNested (c : HttpConn) (call : Call) : Option HttpConn :=
  match passGate c call with
  | none => none
  | some (c, false) => some c
  | some (c, true) => some (pump c call.sendOk).1

/-- `ws_outq_clear` -/
def clear (c : HttpConn) : HttpConn :=
  let freed := (walk (next c.nodes) c.wsOutCount c.wsOutHead).foldl HttpConn.free c
  { freed with
    wsOutHead := none, wsOutTail := none, wsOutCount := 0, wsOutBytes := 0
    wsOutInflight := false }

/-- The end of `do_reset_connection`: closing the socket retires its send, then the
queue is cleared and the slot zeroed. -/
def closeConn (c : HttpConn) : HttpConn :=
  { clear { c with sending := none } with
    active := false, tearingDown := false, wsConnected := false }

/-- `reset_connection` -/
def reset (c : HttpConn) (script : List Call) : Option HttpConn :=
  if !c.active || c.tearingDown then some c
  else
    let c := { c with tearingDown := true }
    (if c.wsConnected then script.foldlM enqueueNested c else some c).map closeConn

/-- `ws_outq_pump` -/
def pumpOrReset (c : HttpConn) (sendOk : Bool) (script : List Call) : Option HttpConn :=
  match pump c sendOk with
  | (c, false) => some c
  | (c, true) => reset c script

/-- `ws_outq_enqueue` -/
def enqueue (c : HttpConn) (call : Call) (script : List Call) : Option HttpConn :=
  match passGate c call with
  | none => none
  | some (c, false) => some c
  | some (c, true) => pumpOrReset c call.sendOk script

/-- `ws_out_on_sent` -/
def onSent (c : HttpConn) (ok sendOk : Bool) (script : List Call) : Option HttpConn :=
  match c.sending with
  | none => none
  | some _ =>
    let c := { c with sending := none, wsOutInflight := false }
    if ok then pumpOrReset (popFreeHead c) sendOk script else reset c script

inductive Action where
  | enqueue (call : Call) (script : List Call)
  /-- the send under way is over -/
  | sent (ok sendOk : Bool) (script : List Call)
  /-- the connection is torn down for another reason -/
  | teardown (script : List Call)
  deriving DecidableEq, Repr

def step (c : HttpConn) : Action → Option HttpConn
  | .enqueue call script => enqueue c call script
  | .sent ok sendOk script => onSent c ok sendOk script
  | .teardown script => reset c script

/-- The steps at which no frame is enqueued while the failed one is still queued. -/
def Orderly (c : HttpConn) : Action → Prop
  | .sent false _ script => c.wsConnected = true → script = []
  | _ => True

/-- The orderly runs of a connection. -/
inductive Run (wsConnected : Bool) : HttpConn → Prop where
  | start : Run wsConnected (HttpConn.new wsConnected)
  | step {c a c'} : Run wsConnected c → Orderly c a → WsOutq.step c a = some c' →
    Run wsConnected c'

/-! ## The list -/

/-- The list of a connection is `q`: the nodes with their frames, in order. -/
structure Queue (c : HttpConn) (q : List (Nat × Frame)) : Prop where
  path : Path (next c.nodes) c.wsOutHead (q.map (·.1)) none
  nodes : ∀ p ∈ q, (c.nodes p.1).map (·.frame) = some p.2
  nodup : (q.map (·.1)).Nodup
  tail : c.wsOutTail = (q.map (·.1)).getLast?
  count : c.wsOutCount = q.length
  bytes : c.wsOutBytes = (q.map (·.2.bytes.length)).sum

/-- Only the list changes from `c` to `c'`. -/
structure Relinked (c c' : HttpConn) : Prop where
  active : c'.active = c.active
  tearingDown : c'.tearingDown = c.tearingDown
  wsConnected : c'.wsConnected = c.wsConnected
  inflight : c'.wsOutInflight = c.wsOutInflight
  sending : c'.sending = c.sending
  accepted : c'.accepted = c.accepted
  handed : c'.handed = c.handed
  misfreed : c'.misfreed = c.misfreed

theorem Relinked.refl (c : HttpConn) : Relinked c c := ⟨rfl, rfl, rfl, rfl, rfl, rfl, rfl, rfl⟩

theorem Relinked.trans {a b c : HttpConn} (h : Relinked a b) (h' : Relinked b c) : Relinked a c :=
  ⟨h'.1.trans h.1, h'.2.trans h.2, h'.3.trans h.3, h'.4.trans h.4, h'.5.trans h.5,
    h'.6.trans h.6, h'.7.trans h.7, h'.8.trans h.8⟩

namespace Queue

variable {c : HttpConn} {q : List (Nat × Frame)}

theorem nil (h : Queue c []) : c.wsOutHead = none := h.path

theorem head {a : Nat} {f : Frame} (h : Queue c ((a, f) :: q)) :
    c.wsOutHead = some a ∧ ∃ n, c.nodes a = some n ∧ n.frame = f ∧
      Path (next c.nodes) n.next (q.map (·.1)) none := by
  obtain ⟨hhead, hpath⟩ := h.path
  obtain ⟨n, hn, hf⟩ := Option.map_eq_some_iff.mp (h.nodes (a, f) mem_cons_self)
  refine ⟨hhead, n, hn, hf, ?_⟩
  have hnext : next c.nodes a = n.next := by rw [next, hn, Option.bind_some]
  rw [← hnext]
  exact hpath

/-- What the list does not depend on. -/
theorem congr {c' : HttpConn} (h : Queue c q) (hnodes : c'.nodes = c.nodes)
    (hhead : c'.wsOutHead = c.wsOutHead) (htail : c'.wsOutTail = c.wsOutTail)
    (hcount : c'.wsOutCount = c.wsOutCount) (hbytes : c'.wsOutBytes = c.wsOutBytes) :
    Queue c' q := by
  refine ⟨?_, ?_, h.nodup, htail.trans h.tail, hcount.trans h.count, hbytes.trans h.bytes⟩
  · rw [hnodes, hhead]
    exact h.path
  · rw [hnodes]
    exact h.nodes

theorem next_update_none {nodes : Nat → Option WsOutNode} {a b : Nat} (hne : b ≠ a) :
    next (Function.update nodes a none) b = next nodes b := by
  rw [next, next, Function.update_of_ne hne]

/-- Freeing the first node. -/
theorem popFront {a : Nat} {f : Frame} {n : WsOutNode} {c' : HttpConn}
    (h : Queue c ((a, f) :: q)) (hn : c.nodes a = some n)
    (hnodes : c'.nodes = Function.update c.nodes a none) (hhead : c'.wsOutHead = n.next)
    (htail : c'.wsOutTail = (q.map (·.1)).getLast?)
    (hcount : c'.wsOutCount = c.wsOutCount - 1)
    (hbytes : c'.wsOutBytes = c.wsOutBytes - n.frame.bytes.length) : Queue c' q := by
  obtain ⟨-, n', hn', hf, hpath⟩ := h.head
  rw [hn] at hn'
  cases hn'
  have hnotin : ∀ b ∈ q.map (·.1), b ≠ a := by
    intro b hb hba
    have := h.nodup
    rw [map_cons, nodup_cons] at this
    exact this.1 (hba ▸ hb)
  refine ⟨?_, ?_, ?_, htail, ?_, ?_⟩
  · rw [hnodes, hhead]
    exact hpath.congr fun b hb => next_update_none (hnotin b hb)
  · intro p hp
    rw [hnodes, Function.update_of_ne (hnotin p.1 (mem_map_of_mem hp))]
    exact h.nodes p (mem_cons_of_mem _ hp)
  · have := h.nodup
    rw [map_cons, nodup_cons] at this
    exact this.2
  · rw [hcount, h.count, length_cons, Nat.add_sub_cancel]
  · rw [hbytes, h.bytes, map_cons, sum_cons, hf, Nat.add_sub_cancel_left]

theorem tail_cons {a : Nat} {f : Frame} (h : Queue c ((a, f) :: q)) (hne : q ≠ []) :
    c.wsOutTail = (q.map (·.1)).getLast? := by
  rw [h.tail, map_cons]
  obtain ⟨p, q', rfl⟩ := exists_cons_of_ne_nil hne
  rw [map_cons, getLast?_cons_cons]

/-- `ws_outq_pop_free_head` removes the first frame. -/
theorem popFreeHead {a : Nat} {f : Frame} (h : Queue c ((a, f) :: q)) (hs : c.sending = none) :
    Relinked c (WsOutq.popFreeHead c) ∧ Queue (WsOutq.popFreeHead c) q := by
  obtain ⟨hhead, n, hn, hf, hpath⟩ := h.head
  have heq : WsOutq.popFreeHead c = { c with
      wsOutHead := n.next
      wsOutTail := if n.next = none then none else c.wsOutTail
      wsOutCount := c.wsOutCount - 1
      wsOutBytes := c.wsOutBytes - n.frame.bytes.length
      nodes := Function.update c.nodes a none } := by
    unfold WsOutq.popFreeHead HttpConn.free
    rw [hhead]
    dsimp only
    rw [hn]
    dsimp only
    rw [hs]
    simp
  rw [heq]
  refine ⟨⟨rfl, rfl, rfl, rfl, rfl, rfl, rfl, rfl⟩, ?_⟩
  refine h.popFront hn rfl rfl ?_ rfl rfl
  dsimp only
  cases hq : q with
  | nil =>
    rw [hq] at hpath
    rw [if_pos (show n.next = none from hpath)]
    rfl
  | cons p q' =>
    have hnext : n.next ≠ none := by
      rw [hq] at hpath
      rw [hpath.1]
      exact Option.some_ne_none _
    rw [if_neg hnext, ← hq]
    exact h.tail_cons (by rw [hq]; exact cons_ne_nil _ _)

/-- `ws_outq_drop_one` with nothing in flight removes the first frame. -/
theorem dropFirst {a : Nat} {f : Frame} (h : Queue c ((a, f) :: q))
    (hidle : c.wsOutInflight = false) (hs : c.sending = none) :
    Relinked c (dropOne c) ∧ Queue (dropOne c) q := by
  obtain ⟨hhead, n, hn, hf, hpath⟩ := h.head
  have heq : dropOne c = { c with
      wsOutHead := n.next
      wsOutTail := if c.wsOutTail = some a then none else c.wsOutTail
      wsOutCount := c.wsOutCount - 1
      wsOutBytes := c.wsOutBytes - n.frame.bytes.length
      nodes := Function.update c.nodes a none } := by
    unfold dropOne HttpConn.free
    simp only [hidle, hhead, hn, hs, Bool.false_eq_true, if_false]
    simp
  rw [heq]
  refine ⟨⟨rfl, rfl, rfl, rfl, rfl, rfl, rfl, rfl⟩, ?_⟩
  refine h.popFront hn rfl rfl ?_ rfl rfl
  dsimp only
  cases hq : q with
  | nil =>
    have htail : c.wsOutTail = some a := by
      rw [h.tail, hq]
      rfl
    rw [if_pos htail]
    rfl
  | cons p q' =>
    have htail := h.tail_cons (by rw [hq]; exact cons_ne_nil _ _)
    rw [hq] at htail
    rw [htail, if_neg]
    intro hlast
    have hmem : a ∈ (p :: q').map (·.1) := mem_of_getLast? hlast
    have hnodup := h.nodup
    rw [hq, map_cons, nodup_cons] at hnodup
    exact hnodup.1 hmem

/-- `ws_outq_drop_one` with the head in flight removes the second frame. -/
theorem dropSecond {a v : Nat} {f g : Frame} (h : Queue c ((a, f) :: (v, g) :: q))
    (hflight : c.wsOutInflight = true) (hs : ∀ p, c.sending = some p → p.1 = a) :
    Relinked c (dropOne c) ∧ Queue (dropOne c) ((a, f) :: q) := by
  obtain ⟨hhead, m, hm, hmf, hpath⟩ := h.head
  obtain ⟨hmnext, hpath'⟩ := hpath
  obtain ⟨n, hn, hnf⟩ := Option.map_eq_some_iff.mp (h.nodes (v, g) (by simp))
  have hnodup : a ≠ v ∧ a ∉ q.map (·.1) ∧ v ∉ q.map (·.1) ∧ (q.map (·.1)).Nodup := by
    have := h.nodup
    rw [map_cons, map_cons, nodup_cons, nodup_cons, mem_cons,
      not_or] at this
    exact ⟨this.1.1, this.1.2, this.2.1, this.2.2⟩
  obtain ⟨hav, haq, hvq, hq⟩ := hnodup
  have hmis : (c.sending.map (·.1) == some v) = false := by
    cases hsend : c.sending with
    | none => rfl
    | some p =>
      rw [Option.map_some, hs p hsend]
      simpa using hav
  have hnextv : next c.nodes v = n.next := by rw [next, hn, Option.bind_some]
  have hnexta : next c.nodes a = some v := by rw [next, hm, Option.bind_some, hmnext]
  have heq : dropOne c = { c with
      nodes := Function.update (Function.update c.nodes a (some { m with next := n.next })) v none
      wsOutTail := if c.wsOutTail = some v then some a else c.wsOutTail
      wsOutCount := c.wsOutCount - 1
      wsOutBytes := c.wsOutBytes - n.frame.bytes.length } := by
    unfold dropOne HttpConn.free
    simp only [hflight, if_true, hhead, Option.bind_some, hnexta, hn, hm, Option.map_some, hmis,
      Bool.or_false]
  rw [heq]
  refine ⟨⟨rfl, rfl, rfl, rfl, rfl, rfl, rfl, rfl⟩, ?_⟩
  have hother : ∀ b, b ≠ a → b ≠ v → Function.update (Function.update c.nodes a
      (some { m with next := n.next })) v none b = c.nodes b := by
    intro b hba hbv
    rw [Function.update_of_ne hbv, Function.update_of_ne hba]
  have hata : Function.update (Function.update c.nodes a (some { m with next := n.next })) v none a
      = some { m with next := n.next } := by
    rw [Function.update_of_ne hav, Function.update_self]
  refine ⟨?_, ?_, ?_, ?_, ?_, ?_⟩
  · refine ⟨hhead, ?_⟩
    dsimp only at hpath' ⊢
    rw [next, hata, Option.bind_some]
    rw [hnextv] at hpath'
    apply hpath'.congr
    intro b hb
    rw [next, next, hother b (fun e => haq (e ▸ hb)) (fun e => hvq (e ▸ hb))]
  · intro p hp
    dsimp only
    rcases mem_cons.mp hp with rfl | hp
    · rw [hata]
      exact congrArg some hmf
    · have hb := mem_map_of_mem (f := (·.1)) hp
      rw [hother p.1 (fun e => haq (e ▸ hb)) (fun e => hvq (e ▸ hb))]
      exact h.nodes p (by simp [hp])
  · rw [map_cons, nodup_cons]
    exact ⟨haq, hq⟩
  · dsimp only
    rw [h.tail, map_cons, map_cons, getLast?_cons_cons, map_cons]
    cases hqq : q with
    | nil => simp
    | cons p q' =>
      rw [map_cons, getLast?_cons_cons, getLast?_cons_cons, if_neg]
      intro hlast
      apply hvq
      rw [hqq]
      exact mem_of_getLast? hlast
  · dsimp only
    rw [h.count, length_cons, Nat.add_sub_cancel]
    rfl
  · dsimp only
    rw [h.bytes, hnf]
    simp only [map_cons, sum_cons]
    omega

/-- A new node at an unused address comes last. -/
theorem link {addr : Nat} (h : Queue c q) (hfresh : c.nodes addr = none) (bytes : List UInt8) :
    Relinked { c with accepted := c.accepted ++ [⟨c.accepted.length, bytes⟩] }
        (WsOutq.link c addr bytes) ∧
      Queue (WsOutq.link c addr bytes) (q ++ [(addr, ⟨c.accepted.length, bytes⟩)]) := by
  have hnotin : ∀ p ∈ q, p.1 ≠ addr := by
    intro p hp hpa
    have := h.nodes p hp
    rw [hpa, hfresh] at this
    cases this
  have hnodup : ((q ++ [(addr, (⟨c.accepted.length, bytes⟩ : Frame))]).map (·.1)).Nodup := by
    rw [map_append, nodup_append]
    refine ⟨h.nodup, by simp, ?_⟩
    intro x hx y hy
    obtain ⟨p, hp, rfl⟩ := mem_map.mp hx
    have : y = addr := by simpa using hy
    rw [this]
    exact hnotin p hp
  have hlast : ((q ++ [(addr, (⟨c.accepted.length, bytes⟩ : Frame))]).map (·.1)).getLast?
      = some addr := by
    rw [map_append, map_singleton, getLast?_append]
    rfl
  have hlen : c.wsOutCount + 1 = (q ++ [(addr, (⟨c.accepted.length, bytes⟩ : Frame))]).length := by
    rw [h.count, length_append, length_singleton]
  have hsum : c.wsOutBytes + bytes.length
      = ((q ++ [(addr, (⟨c.accepted.length, bytes⟩ : Frame))]).map (·.2.bytes.length)).sum := by
    rw [h.bytes, map_append, sum_append, map_singleton, sum_singleton]
  unfold WsOutq.link
  dsimp only
  cases ht : c.wsOutTail with
  | none =>
    have hq : q = [] := by
      rw [h.tail, getLast?_eq_none_iff, map_eq_nil_iff] at ht
      exact ht
    subst hq
    refine ⟨⟨rfl, rfl, rfl, rfl, rfl, rfl, rfl, rfl⟩, ?_, ?_, hnodup, hlast.symm, hlen, hsum⟩
    · refine ⟨rfl, ?_⟩
      dsimp only
      rw [next, Function.update_self]
      rfl
    · intro p hp
      have hp : p = (addr, ⟨c.accepted.length, bytes⟩) := by simpa using hp
      subst hp
      dsimp only
      rw [Function.update_self]
      rfl
  | some t =>
    have htq : (q.map (·.1)).getLast? = some t := h.tail ▸ ht
    have hta : t ≠ addr := by
      obtain ⟨p, hp, rfl⟩ := mem_map.mp (mem_of_getLast? htq)
      exact hnotin p hp
    obtain ⟨p, hp, rfl⟩ := mem_map.mp (mem_of_getLast? htq)
    obtain ⟨m, hm, hmf⟩ := Option.map_eq_some_iff.mp (h.nodes p hp)
    refine ⟨⟨rfl, rfl, rfl, rfl, rfl, rfl, rfl, rfl⟩, ?_, ?_, hnodup, hlast.symm, hlen, hsum⟩
    · dsimp only
      rw [map_append, path_append]
      refine ⟨some addr, ?_, rfl, ?_⟩
      · apply h.path.setNext h.nodup
        · intro x hx
          rw [htq] at hx
          cases hx
          rw [next, Function.update_self, Function.update_of_ne hta, hm]
          rfl
        · intro x hx hxlast
          have hxp : x ≠ p.1 := fun e => hxlast (e ▸ htq)
          obtain ⟨p', hp', rfl⟩ := mem_map.mp hx
          rw [next, next, Function.update_of_ne hxp, Function.update_of_ne (hnotin p' hp')]
        · intro hnil
          rw [hnil] at htq
          cases htq
      · rw [next, Function.update_of_ne (Ne.symm hta), Function.update_self]
        rfl
    · intro p' hp'
      dsimp only
      rcases mem_append.mp hp' with hp' | hp'
      · by_cases hpp : p'.1 = p.1
        · rw [hpp, Function.update_self, Function.update_of_ne hta, hm]
          have := h.nodes p' hp'
          rw [hpp, hm] at this
          exact this
        · rw [Function.update_of_ne hpp, Function.update_of_ne (hnotin p' hp')]
          exact h.nodes p' hp'
      · have hp' : p' = (addr, ⟨c.accepted.length, bytes⟩) := by simpa using hp'
        subst hp'
        rw [Function.update_of_ne (Ne.symm hta), Function.update_self]
        rfl

end Queue

/-! ## The invariant -/

/-- The part of the queue that was not handed down. -/
def behind (c : HttpConn) (q : List (Nat × Frame)) : List (Nat × Frame) :=
  if c.wsOutInflight then q.tail else q

/-- The bytes of some frames. -/
def size (q : List (Nat × Frame)) : Nat := (q.map (·.2.bytes.length)).sum

structure Inv (c : HttpConn) (q : List (Nat × Frame)) : Prop where
  queue : Queue c q
  few : q.length ≤ wsOutMaxFrames
  small : size (behind c q) ≤ wsOutMaxBytes
  inflight : c.wsOutInflight = true → c.sending.isSome = true
  sending : ∀ p, c.sending = some p → c.wsOutInflight = true ∧ q.head? = some p
  active : c.sending.isSome = true → c.active = true
  order : (c.handed ++ (behind c q).map (·.2)).Sublist c.accepted
  kept : c.misfreed = false

theorem size_behind_le (c : HttpConn) (q : List (Nat × Frame)) : size (behind c q) ≤ size q := by
  unfold behind
  split
  · exact ((tail_sublist q).map _).sum_le_sum fun _ _ => Nat.zero_le _
  · exact Nat.le_refl _

theorem Inv.idle {c : HttpConn} {q : List (Nat × Frame)} (h : Inv c q)
    (hidle : c.wsOutInflight = false) : c.sending = none := by
  cases hs : c.sending with
  | none => rfl
  | some p =>
    have := (h.sending p hs).1
    rw [hidle] at this
    cases this

theorem Inv.first {c : HttpConn} {q : List (Nat × Frame)} (h : Inv c q)
    (hflight : c.wsOutInflight = true) :
    ∃ a f rest, q = (a, f) :: rest ∧ c.sending = some (a, f) := by
  obtain ⟨p, hp⟩ := Option.isSome_iff_exists.mp (h.inflight hflight)
  have hhead := (h.sending p hp).2
  cases q with
  | nil => cases hhead
  | cons p' rest =>
    cases hhead
    exact ⟨p.1, p.2, rest, rfl, hp⟩

/-- A queue that lost a frame behind the one in flight. -/
theorem Inv.dropped {c c' : HttpConn} {q q' : List (Nat × Frame)} (h : Inv c q)
    (hqueue : Queue c' q') (hsame : Relinked c c') (hsub : (behind c q').Sublist (behind c q))
    (hlen : q'.length ≤ q.length) (hhead : ∀ p, c.sending = some p → q'.head? = some p) :
    Inv c' q' := by
  have hbehind : behind c' q' = behind c q' := by rw [behind, behind, hsame.inflight]
  refine ⟨hqueue, Nat.le_trans hlen h.few, ?_, ?_, ?_, ?_, ?_, hsame.misfreed.trans h.kept⟩
  · rw [hbehind]
    exact Nat.le_trans ((hsub.map _).sum_le_sum fun _ _ => Nat.zero_le _) h.small
  · rw [hsame.inflight, hsame.sending]
    exact h.inflight
  · rw [hsame.inflight, hsame.sending]
    exact fun p hp => ⟨(h.sending p hp).1, hhead p hp⟩
  · rw [hsame.active, hsame.sending]
    exact h.active
  · rw [hbehind, hsame.accepted, hsame.handed]
    exact (List.Sublist.append (List.Sublist.refl _) (hsub.map _)).trans h.order

/-- One drop, when something may be dropped. -/
theorem Inv.dropOne {c : HttpConn} {q : List (Nat × Frame)} (h : Inv c q)
    (hmore : (if c.wsOutInflight then 1 else 0) < c.wsOutCount) :
    ∃ q', Relinked c (WsOutq.dropOne c) ∧ Inv (WsOutq.dropOne c) q' ∧
      q'.length + 1 = q.length := by
  by_cases hflight : c.wsOutInflight = true
  · obtain ⟨a, f, rest, rfl, hs⟩ := h.first hflight
    rw [if_pos hflight, h.queue.count, length_cons] at hmore
    obtain ⟨⟨v, g⟩, rest, rfl⟩ := exists_cons_of_length_pos (Nat.lt_of_succ_lt_succ hmore)
    have href : ∀ p, c.sending = some p → p.1 = a := by
      intro p hp
      rw [hs] at hp
      cases hp
      rfl
    obtain ⟨hsame, hqueue⟩ := h.queue.dropSecond hflight href
    refine ⟨(a, f) :: rest, hsame, h.dropped hqueue hsame ?_ (by simp) ?_, rfl⟩
    · unfold behind
      rw [if_pos hflight, if_pos hflight]
      exact sublist_cons_self _ _
    · intro p hp
      rw [hs] at hp
      exact hp
  · have hidle : c.wsOutInflight = false := by simpa using hflight
    rw [if_neg hflight, h.queue.count] at hmore
    obtain ⟨⟨a, f⟩, rest, rfl⟩ := exists_cons_of_length_pos hmore
    have hs := h.idle hidle
    obtain ⟨hsame, hqueue⟩ := h.queue.dropFirst hidle hs
    refine ⟨rest, hsame, h.dropped hqueue hsame ?_ (by simp) ?_, rfl⟩
    · unfold behind
      rw [if_neg hflight, if_neg hflight]
      exact sublist_cons_self _ _
    · intro p hp
      rw [hs] at hp
      cases hp

/-- When the loop stops the new frame fits: only the frame in flight is left, or the
budgets have room. -/
theorem Inv.fits {c : HttpConn} {q : List (Nat × Frame)} {len : Nat} (h : Inv c q)
    (hlen : len ≤ wsOutMaxBytes)
    (hstop : ¬ ((wsOutMaxFrames ≤ c.wsOutCount ∨ wsOutMaxBytes < c.wsOutBytes + len) ∧
      (if c.wsOutInflight then 1 else 0) < c.wsOutCount)) :
    q.length < wsOutMaxFrames ∧ size (behind c q) + len ≤ wsOutMaxBytes := by
  by_cases hmore : (if c.wsOutInflight then 1 else 0) < c.wsOutCount
  · have hroom : ¬ (wsOutMaxFrames ≤ c.wsOutCount ∨ wsOutMaxBytes < c.wsOutBytes + len) :=
      fun hor => hstop ⟨hor, hmore⟩
    have hbytes : c.wsOutBytes = size q := h.queue.bytes
    have hle := size_behind_le c q
    rw [not_or, h.queue.count, hbytes] at hroom
    omega
  · rw [h.queue.count] at hmore
    have hnil : behind c q = [] ∧ q.length ≤ 1 := by
      unfold behind
      split
      · rename_i hflight
        rw [if_pos hflight] at hmore
        refine ⟨length_eq_zero_iff.mp ?_, by omega⟩
        rw [length_tail]
        omega
      · rename_i hflight
        rw [if_neg hflight] at hmore
        exact ⟨length_eq_zero_iff.mp (by omega), by omega⟩
    rw [hnil.1]
    refine ⟨Nat.lt_of_le_of_lt hnil.2 (by decide), ?_⟩
    simpa [size] using hlen

/-- The loop of `ws_outq_enqueue` makes room. -/
theorem Inv.makeRoom {len fuel : Nat} {c : HttpConn} {q : List (Nat × Frame)} (h : Inv c q)
    (hlen : len ≤ wsOutMaxBytes) (hfuel : c.wsOutCount ≤ fuel) :
    ∃ q', Relinked c (WsOutq.makeRoom len fuel c) ∧ Inv (WsOutq.makeRoom len fuel c) q' ∧
      q'.length < wsOutMaxFrames ∧ size (behind c q') + len ≤ wsOutMaxBytes := by
  induction fuel generalizing c q with
  | zero => exact ⟨q, Relinked.refl c, h, h.fits hlen fun hcond => by omega⟩
  | succ fuel ih =>
    unfold WsOutq.makeRoom
    by_cases hcond : (wsOutMaxFrames ≤ c.wsOutCount ∨ wsOutMaxBytes < c.wsOutBytes + len) ∧
        (if c.wsOutInflight then 1 else 0) < c.wsOutCount
    · rw [if_pos hcond]
      obtain ⟨q', hsame, hinv, hlen'⟩ := h.dropOne hcond.2
      have hcount := hinv.queue.count
      have hcount' := h.queue.count
      dsimp only
      rw [if_neg (by omega)]
      obtain ⟨q'', hsame', hinv', hroom⟩ := ih hinv (by omega)
      rw [behind, hsame.inflight] at hroom
      exact ⟨q'', hsame.trans hsame', hinv', hroom⟩
    · rw [if_neg hcond]
      exact ⟨q, Relinked.refl c, h, h.fits hlen hcond⟩

/-- A new frame, for which there is room. -/
theorem Inv.link {c : HttpConn} {q : List (Nat × Frame)} (h : Inv c q) {addr : Nat}
    {bytes : List UInt8} (hfresh : c.nodes addr = none) (hfew : q.length < wsOutMaxFrames)
    (hsmall : size (behind c q) + bytes.length ≤ wsOutMaxBytes) :
    Inv (WsOutq.link c addr bytes) (q ++ [(addr, ⟨c.accepted.length, bytes⟩)]) := by
  obtain ⟨hsame, hqueue⟩ := h.queue.link hfresh bytes
  have hbehind : behind (WsOutq.link c addr bytes) (q ++ [(addr, ⟨c.accepted.length, bytes⟩)])
      = behind c q ++ [(addr, ⟨c.accepted.length, bytes⟩)] := by
    unfold behind
    rw [hsame.inflight]
    dsimp only
    split
    · rename_i hflight
      obtain ⟨a, f, rest, rfl, -⟩ := h.first hflight
      rfl
    · rfl
  refine ⟨hqueue, ?_, ?_, ?_, ?_, ?_, ?_, hsame.misfreed.trans h.kept⟩
  · rw [length_append, length_singleton]
    exact hfew
  · rw [hbehind]
    simpa [size] using hsmall
  · rw [hsame.inflight, hsame.sending]
    exact h.inflight
  · rw [hsame.inflight, hsame.sending]
    intro p hp
    obtain ⟨hflight, hhead⟩ := h.sending p hp
    refine ⟨hflight, ?_⟩
    rw [head?_append, hhead]
    rfl
  · rw [hsame.active, hsame.sending]
    exact h.active
  · rw [hbehind, hsame.accepted, hsame.handed, map_append, ← append_assoc]
    exact h.order.append (List.Sublist.refl _)

/-- What an enqueue does before the pump. -/
theorem Inv.passGate {c c' : HttpConn} {q : List (Nat × Frame)} {call : Call} {ok : Bool}
    (h : Inv c q) (hpass : WsOutq.passGate c call = some (c', ok)) :
    ∃ q', Inv c' q' ∧ c'.tearingDown = c.tearingDown := by
  unfold WsOutq.passGate at hpass
  split at hpass
  · cases hpass
    exact ⟨q, h, rfl⟩
  · rename_i hlen
    dsimp only at hpass
    have hbudget : call.bytes.length ≤ wsOutMaxBytes := by omega
    obtain ⟨q', hsame, hinv, hfew, hsmall⟩ := h.makeRoom hbudget (Nat.le_refl _)
    rw [behind, ← hsame.inflight] at hsmall
    split at hpass
    · split at hpass
      · rename_i hfresh
        cases hpass
        have hlinked := (hinv.queue.link hfresh call.bytes).1
        exact ⟨_, hinv.link hfresh hfew hsmall, hlinked.tearingDown.trans hsame.tearingDown⟩
      · cases hpass
    · cases hpass
      exact ⟨q', hinv, hsame.tearingDown⟩

/-- The pump hands the head down, or changes nothing. -/
theorem Inv.pump {c : HttpConn} {q : List (Nat × Frame)} (h : Inv c q) (sendOk : Bool) :
    Inv (WsOutq.pump c sendOk).1 q ∧ (WsOutq.pump c sendOk).1.tearingDown = c.tearingDown := by
  unfold WsOutq.pump
  split
  · exact ⟨h, rfl⟩
  · rename_i hidle
    rw [Bool.or_eq_true, not_or, Bool.not_eq_true, Bool.not_eq_true] at hidle
    obtain ⟨hidle, hactive⟩ := hidle
    have hactive : c.active = true := by simpa using hactive
    cases q with
    | nil =>
      rw [h.queue.nil]
      exact ⟨h, rfl⟩
    | cons p rest =>
      obtain ⟨a, f⟩ := p
      obtain ⟨hhead, n, hn, hf, -⟩ := h.queue.head
      rw [hhead]
      dsimp only
      rw [hn]
      dsimp only
      split
      · have hunsent : behind c ((a, f) :: rest) = (a, f) :: rest := by
          rw [behind, if_neg (by simp [hidle])]
        have hsmall := h.small
        have horder := h.order
        rw [hunsent] at hsmall horder
        refine ⟨⟨h.queue.congr rfl hhead.symm rfl rfl rfl, h.few, ?_, fun _ => rfl, ?_,
          fun _ => hactive, ?_, h.kept⟩, rfl⟩
        · refine Nat.le_trans ?_ hsmall
          simp [behind, size]
        · rintro p hp
          cases hp
          rw [hf]
          exact ⟨rfl, rfl⟩
        · dsimp only [behind]
          rw [hf, if_pos rfl, List.tail_cons, append_assoc]
          exact horder
      · exact ⟨h, rfl⟩

/-- What the DISCONNECT handler enqueues. -/
theorem Inv.script {c c' : HttpConn} {q : List (Nat × Frame)} (h : Inv c q) {script : List Call}
    (hrun : script.foldlM enqueueNested c = some c') : ∃ q', Inv c' q' := by
  induction script generalizing c q with
  | nil =>
    cases hrun
    exact ⟨q, h⟩
  | cons call script ih =>
    rw [foldlM_cons] at hrun
    obtain ⟨c₁, hcall, hrest⟩ := Option.bind_eq_some_iff.mp hrun
    unfold enqueueNested at hcall
    split at hcall
    · cases hcall
    · rename_i c₂ hpass
      cases hcall
      obtain ⟨q', hinv, -⟩ := h.passGate hpass
      exact ih hinv hrest
    · rename_i c₂ hpass
      cases hcall
      obtain ⟨q', hinv, -⟩ := h.passGate hpass
      exact ih (hinv.pump call.sendOk).1 hrest

/-! ## Teardown -/

theorem foldl_free {l : List Nat} {c : HttpConn} (hs : c.sending = none) :
    ∃ nodes, l.foldl HttpConn.free c = { c with nodes := nodes } := by
  induction l generalizing c with
  | nil => exact ⟨c.nodes, rfl⟩
  | cons a l ih =>
    have hfree : c.free a = { c with nodes := Function.update c.nodes a none } := by
      unfold HttpConn.free
      rw [hs]
      simp
    rw [foldl_cons, hfree]
    obtain ⟨nodes, h⟩ := ih (c := { c with nodes := Function.update c.nodes a none }) hs
    exact ⟨nodes, h⟩

/-- A closed connection has an empty queue. -/
theorem closeConn_inv {c : HttpConn} (horder : c.handed.Sublist c.accepted)
    (hkept : c.misfreed = false) : Inv (closeConn c) [] := by
  unfold closeConn clear
  dsimp only
  obtain ⟨nodes, h⟩ := foldl_free (c := { c with sending := none })
    (l := walk (next c.nodes) c.wsOutCount c.wsOutHead) rfl
  rw [h]
  dsimp only
  refine ⟨⟨rfl, by simp, by simp, rfl, rfl, rfl⟩, Nat.zero_le _, Nat.zero_le _, ?_, ?_, ?_, ?_, hkept⟩
  · intro hfalse
    cases hfalse
  · intro p hp
    cases hp
  · intro hfalse
    cases hfalse
  · simpa [behind] using horder

theorem handed_sublist {c : HttpConn} {q : List (Nat × Frame)} (h : Inv c q) :
    c.handed.Sublist c.accepted := (sublist_append_left _ _).trans h.order

theorem Inv.reset {c c' : HttpConn} {q : List (Nat × Frame)} {script : List Call} (h : Inv c q)
    (hready : c.tearingDown = false) (hreset : WsOutq.reset c script = some c') :
    ∃ q', Inv c' q' ∧ c'.tearingDown = false := by
  unfold WsOutq.reset at hreset
  split at hreset
  · cases hreset
    exact ⟨q, h, hready⟩
  · dsimp only at hreset
    obtain ⟨c₁, hscript, rfl⟩ := Option.map_eq_some_iff.mp hreset
    have hstart : Inv { c with tearingDown := true } q :=
      ⟨h.queue.congr rfl rfl rfl rfl rfl, h.few, h.small, h.inflight, h.sending, h.active, h.order,
        h.kept⟩
    have hend : ∃ q', Inv c₁ q' := by
      split at hscript
      · exact hstart.script hscript
      · cases hscript
        exact ⟨q, hstart⟩
    obtain ⟨q', hinv⟩ := hend
    exact ⟨[], closeConn_inv (handed_sublist hinv) hinv.kept, rfl⟩

theorem Inv.pumpOrReset {c c' : HttpConn} {q : List (Nat × Frame)} {sendOk : Bool}
    {script : List Call} (h : Inv c q) (hready : c.tearingDown = false)
    (hpump : WsOutq.pumpOrReset c sendOk script = some c') :
    ∃ q', Inv c' q' ∧ c'.tearingDown = false := by
  obtain ⟨hinv, hsame⟩ := h.pump sendOk
  unfold WsOutq.pumpOrReset at hpump
  generalize WsOutq.pump c sendOk = r at hpump hinv hsame
  obtain ⟨c₁, failed⟩ := r
  cases failed with
  | false =>
    cases hpump
    exact ⟨q, hinv, hsame.trans hready⟩
  | true => exact hinv.reset (hsame.trans hready) hpump

/-! ## Runs -/

/-- One orderly step. -/
theorem Inv.step {c c' : HttpConn} {q : List (Nat × Frame)} {a : Action} (h : Inv c q)
    (hready : c.tearingDown = false) (horderly : Orderly c a) (hstep : WsOutq.step c a = some c') :
    ∃ q', Inv c' q' ∧ c'.tearingDown = false := by
  cases a with
  | enqueue call script =>
    dsimp only [WsOutq.step] at hstep
    unfold enqueue at hstep
    split at hstep
    · cases hstep
    · rename_i c₁ hpass
      cases hstep
      obtain ⟨q', hinv, hsame⟩ := h.passGate hpass
      exact ⟨q', hinv, hsame.trans hready⟩
    · rename_i c₁ hpass
      obtain ⟨q', hinv, hsame⟩ := h.passGate hpass
      exact hinv.pumpOrReset (hsame.trans hready) hstep
  | teardown script => exact h.reset hready hstep
  | sent ok sendOk script =>
    dsimp only [WsOutq.step] at hstep
    unfold onSent at hstep
    cases hs : c.sending with
    | none =>
      rw [hs] at hstep
      cases hstep
    | some p =>
      rw [hs] at hstep
      dsimp only at hstep
      obtain ⟨hflight, hhead⟩ := h.sending p hs
      obtain ⟨a, f, rest, rfl, -⟩ := h.first hflight
      have hunsent : behind c ((a, f) :: rest) = rest := by
        rw [behind, if_pos hflight]
        rfl
      have hsmall := h.small
      have horder := h.order
      rw [hunsent] at hsmall horder
      have hqueue : Queue { c with sending := none, wsOutInflight := false } ((a, f) :: rest) :=
        h.queue.congr rfl rfl rfl rfl rfl
      cases ok with
      | true =>
        -- the head leaves the list, and the next frame may go
        rw [if_pos rfl] at hstep
        obtain ⟨hsame, hpopped⟩ := hqueue.popFreeHead rfl
        refine Inv.pumpOrReset (q := rest) ?_ (hsame.tearingDown.trans hready) hstep
        refine ⟨hpopped, ?_, ?_, ?_, ?_, ?_, ?_, hsame.misfreed.trans h.kept⟩
        · exact Nat.le_trans (Nat.le_succ _) h.few
        · rw [behind, hsame.inflight]
          exact hsmall
        · rw [hsame.inflight]
          intro hfalse
          cases hfalse
        · rw [hsame.sending]
          intro p hp
          cases hp
        · rw [hsame.sending]
          intro hfalse
          cases hfalse
        · rw [behind, hsame.inflight, hsame.handed, hsame.accepted]
          exact horder
      | false =>
        -- the head stays in the list until it is cleared, with nothing between
        rw [if_neg (by decide)] at hstep
        have hactive : c.active = true := h.active (by rw [hs]; rfl)
        unfold WsOutq.reset at hstep
        rw [if_neg (by simp [hactive, hready])] at hstep
        obtain ⟨c₁, hscript, rfl⟩ := Option.map_eq_some_iff.mp hstep
        have hc₁ : c₁ = { c with
            sending := none, wsOutInflight := false, tearingDown := true } := by
          dsimp only at hscript
          split at hscript
          · rename_i hconn
            rw [horderly hconn] at hscript
            cases hscript
            rfl
          · cases hscript
            rfl
        have hsub := handed_sublist h
        refine ⟨[], closeConn_inv ?_ ?_, rfl⟩
        · rw [hc₁]
          exact hsub
        · rw [hc₁]
          exact h.kept

/-- Every state of an orderly run keeps the invariant. -/
theorem Run.inv {wsConnected : Bool} {c : HttpConn} (h : Run wsConnected c) :
    ∃ q, Inv c q ∧ c.tearingDown = false := by
  induction h with
  | start =>
    refine ⟨[], ⟨⟨rfl, by simp, by simp, rfl, rfl, rfl⟩, Nat.zero_le _, Nat.zero_le _, ?_, ?_, ?_, ?_,
      rfl⟩, rfl⟩
    · intro hfalse
      cases hfalse
    · intro p hp
      cases hp
    · intro hfalse
      cases hfalse
    · exact List.Sublist.refl _
  | step _ horderly hstep ih =>
    obtain ⟨q, hinv, hready⟩ := ih
    exact hinv.step hready horderly hstep

/-- In every state of an orderly run the list from the head to the tail holds whole
accepted frames that the counters count, within the budgets; the frame in flight is
the head, unchanged; no node was freed under the transport; and the frames handed
down are a subsequence of the accepted ones. -/
theorem run_lossy {wsConnected : Bool} {c : HttpConn} (h : Run wsConnected c) :
    ∃ q : List (Nat × Frame),
      walk (next c.nodes) c.wsOutCount c.wsOutHead = q.map (·.1) ∧
      (∀ p ∈ q, (c.nodes p.1).map (·.frame) = some p.2) ∧
      c.wsOutTail = (q.map (·.1)).getLast? ∧
      c.wsOutCount = q.length ∧ c.wsOutBytes = size q ∧
      q.length ≤ wsOutMaxFrames ∧ size (behind c q) ≤ wsOutMaxBytes ∧
      (∀ p, c.sending = some p → c.wsOutInflight = true ∧ q.head? = some p) ∧
      c.misfreed = false ∧ (c.handed ++ (behind c q).map (·.2)).Sublist c.accepted := by
  obtain ⟨q, hinv, -⟩ := h.inv
  refine ⟨q, hinv.queue.path.walk_eq ?_, hinv.queue.nodes, hinv.queue.tail, hinv.queue.count,
    hinv.queue.bytes, hinv.few, hinv.small, hinv.sending, hinv.kept, hinv.order⟩
  rw [length_map]
  exact Nat.le_of_eq hinv.queue.count.symm

/-- Two frames, the first of which is sent. -/
theorem run_lossy_two : ∃ c, Run true c ∧ c.handed.map (·.bytes) = [[1], [2]] ∧
    c.wsOutCount = 1 ∧ c.handed.Sublist c.accepted := by
  have h₁ : Run true _ := Run.step (a := .enqueue ⟨[1], true, 0, true⟩ []) Run.start trivial rfl
  have h₂ : Run true _ := Run.step (a := .enqueue ⟨[2], true, 1, true⟩ []) h₁ trivial rfl
  have h₃ : Run true _ := Run.step (a := .sent true true []) h₂ trivial rfl
  refine ⟨_, h₃, rfl, rfl, ?_⟩
  obtain ⟨q, -, -, -, -, -, -, -, -, -, horder⟩ := run_lossy h₃
  exact (sublist_append_left _ _).trans horder

/-- The handler answers a failed send with a frame, and the failed frame goes out
once more. -/
theorem failed_frame_handed_twice :
    ((step (HttpConn.new true) (.enqueue ⟨[1], true, 0, true⟩ [])).bind
        (step · (.sent false true [⟨[2], true, 1, true⟩]))).map (fun c => (c.handed, c.accepted))
      = some ([⟨0, [1]⟩, ⟨0, [1]⟩], [⟨0, [1]⟩, ⟨1, [2]⟩]) ∧
    ¬ [(⟨0, [1]⟩ : Frame), ⟨0, [1]⟩].Sublist [⟨0, [1]⟩, ⟨1, [2]⟩] := by
  constructor
  · rfl
  · decide

end WsOutq

end AxlSdk
