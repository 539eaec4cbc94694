import Mathlib

/-!
# Event sources of the loop (`src/loop/axl-loop.c`)

The source table of an `AxlLoop` under callbacks that call back into the loop.
User code runs on top of a stack of `Frame`s, one for every callback of the loop
that has not returned yet; each `Action` is one call that user code makes (or its
return), and `step` is all the loop does until control is with user code again.
The firmware is in the actions: which event fired, which key was read.

Four fields of `State` are about the run, not in the source: what was registered
and what was removed, in the sense of the API, and the events that the loop
created and closed.

- `run_lifecycle`: along a run whose steps are `Orderly`, no removed source is
  called, every other source is active as it was registered, and the loop's events
  are closed exactly once when it is freed.
- The three exceptions are kept as they are in the source: `add_source` drops the
  event of a registration that finds no slot, the idle epilogue does not look at
  who is in the slot, and the key loop does not look at whether its source is
  still there.
-/

namespace AxlSdk

namespace EventLoop

open List

inductive SourceType where
  | timer
  | timeout
  | keypress
  | idle
  | protocol
  | event
  deriving DecidableEq, Repr

/-- An event handle: one the loop created, or one of somebody else. -/
inductive Handle where
  | own (n : Nat)
  | external (n : Nat)
  deriving DecidableEq, Repr

/-- What a source is registered with; `callback` stands for the function and its
data. -/
structure Registration where
  id : UInt64
  type : SourceType
  ownsEvent : Bool
  event : Option Handle
  callback : Nat
  deriving DecidableEq, Repr

/-- `LoopSource`. -/
structure LoopSource extends Registration where
  active : Bool
  deriving DecidableEq, Repr

def axlMaxSources : Nat := 64

/-- The part of `AxlLoop` that concerns sources; `sources` is the table up to
`source_count`. -/
structure AxlLoop where
  sources : List LoopSource
  pendingSource : Option Nat
  running : Bool
  quitRequested : Bool
  interceptBreak : Bool
  /-- `g_next_source_id` -/
  nextSourceId : UInt64
  deriving DecidableEq, Repr

/-- A call of the loop into user code that has not returned. -/
inductive Frame where
  /-- `axl_loop_next_event` drains the deferred work -/
  | drain (blocking : Bool)
  /-- the idle callback in slot `i`; the loop itself only remembers `i` -/
  | idle (i : Nat) (id : UInt64) (blocking : Bool)
  /-- the callback of slot `i`, with `dispatched_id` -/
  | dispatch (i : Nat) (id : UInt64) (type : SourceType)
  /-- the key callback of slot `i`, with `dispatched_id` -/
  | key (i : Nat) (id : UInt64)
  deriving DecidableEq, Repr

structure State where
  loop : AxlLoop
  stack : List Frame
  registered : List Registration
  removed : List UInt64
  created : List Handle
  closed : List Handle
  deriving DecidableEq, Repr

/-- A loop without sources, before any was registered in the process. -/
def State.new : State :=
  ⟨⟨[], none, false, false, true, 1⟩, [], [], [], [], []⟩

/-! ## Registering and removing -/

/-- The first inactive slot, or the one behind the table. -/
def freeSlot (sources : List LoopSource) : Nat := sources.findIdx (!·.active)

/-- `add_source`; `none` is the failed registration. -/
def addSource (loop : AxlLoop) (type : SourceType) (event : Option Handle) (ownsEvent : Bool)
    (callback : Nat) : Option (AxlLoop × Registration) :=
  if type = .event ∧ ownsEvent then none
  else
    let i := freeSlot loop.sources
    if i = loop.sources.length ∧ axlMaxSources ≤ loop.sources.length then none
    else
      let id := if loop.nextSourceId = 0 then 1 else loop.nextSourceId
      let reg : Registration := ⟨id, type, ownsEvent, event, callback⟩
      let src : LoopSource := { reg with active := true }
      let sources := if i = loop.sources.length then loop.sources ++ [src]
        else loop.sources.set i src
      some ({ loop with sources := sources, nextSourceId := id + 1 }, reg)

/-- What the firmware does for a source with an event of its own: no event, an
event that cannot be armed, or an armed one. -/
inductive Backend where
  | none
  | unarmed
  | armed
  deriving DecidableEq, Repr

/-- The registration functions. -/
inductive Request where
  /-- `axl_loop_add_timer` -/
  | timer (backend : Backend)
  /-- `axl_loop_add_timeout` -/
  | timeout (backend : Backend)
  /-- `axl_loop_add_protocol_notify` -/
  | protocol (backend : Backend)
  /-- `axl_loop_add_idle` -/
  | idle
  /-- `axl_loop_add_key_press`, with the console's event -/
  | keyPress (event : Option Nat)
  /-- `axl_loop_add_event` -/
  | event (event : Nat)
  deriving DecidableEq, Repr

/-- Register; the handle that `add_source` returns counts as registered. -/
def State.register (s : State) (type : SourceType) (event : Option Handle) (ownsEvent : Bool)
    (callback : Nat) : State :=
  match addSource s.loop type event ownsEvent callback with
  | some (loop, reg) => { s with loop := loop, registered := reg :: s.registered }
  | none => s

/-- Register a source with an event of its own. -/
def State.registerOwned (s : State) (type : SourceType) (callback : Nat) : Backend → State
  | .none => s
  | .unarmed =>
    { s with
      created := .own s.created.length :: s.created
      closed := .own s.created.length :: s.closed }
  | .armed =>
    -- a failed registration forgets the event
    { s with created := .own s.created.length :: s.created }.register type
      (some (.own s.created.length)) true callback

def State.add (s : State) (callback : Nat) : Request → State
  | .timer backend => s.registerOwned .timer callback backend
  | .timeout backend => s.registerOwned .timeout callback backend
  | .protocol backend => s.registerOwned .protocol callback backend
  | .idle => s.register .idle none false callback
  | .keyPress event => s.register .keypress (event.map .external) false callback
  | .event event => s.register .event (some (.external event)) false callback

/-- Close the event of a slot if the loop owns it, and deactivate the slot. -/
def State.retire (s : State) (i : Nat) : State :=
  match s.loop.sources[i]? with
  | none => s
  | some src =>
    match src.ownsEvent, src.event with
    | true, some event =>
      { s with
        loop := { s.loop with
          sources := s.loop.sources.set i { src with event := none, active := false } }
        closed := event :: s.closed }
    | _, _ =>
      { s with
        loop := { s.loop with sources := s.loop.sources.set i { src with active := false } } }

/-- In the sense of the API, a registered source is removed. -/
def State.forget (s : State) (id : UInt64) : State :=
  if s.registered.any (·.id == id) then { s with removed := id :: s.removed } else s

/-- `axl_loop_remove_source`. -/
def State.removeSource (s : State) (id : UInt64) : State :=
  if id = 0 then s
  else
    let s' := s.forget id
    match s.loop.sources.findIdx? (fun src => src.id == id && src.active) with
    | some i => s'.retire i
    | none => s'

/-- `axl_loop_free`: the active slots' own events are closed. -/
def State.free (s : State) : State :=
  { s with
    closed := (s.loop.sources.filterMap fun src =>
      if src.active && src.ownsEvent then src.event else none) ++ s.closed }

/-! ## Iterating -/

/-- A key read from the console: whether it is the serial Ctrl-C. -/
structure Key where
  ctrlC : Bool
  deriving DecidableEq, Repr

/-- What ends the wait of `axl_loop_next_event`. -/
inductive Wake where
  | nothing
  | source (k : Nat)
  | poll
  | breakEvent
  | console (key : Key)
  deriving DecidableEq, Repr

/-- The slots in the event array. -/
def eventSlots (sources : List LoopSource) : List Nat :=
  (List.range sources.length).filter fun i =>
    match sources[i]? with
    | some src => src.active && src.event.isSome && src.type != .keypress && src.type != .idle
    | none => false

/-- `keypress_src` -/
def keypressSlot (sources : List LoopSource) : Option Nat :=
  sources.findIdx? fun src => src.active && src.type == .keypress

/-- The rest of `axl_loop_next_event` behind the idle callbacks: wait for an event,
or check for one, and leave its slot pending. -/
def settle (loop : AxlLoop) (blocking hasIdle : Bool) (wake : Wake) : AxlLoop :=
  if blocking && !hasIdle then
    match wake with
    | .nothing => loop
    | .source k => { loop with pendingSource := (eventSlots loop.sources)[k]? }
    | .poll => { loop with pendingSource := keypressSlot loop.sources }
    | .breakEvent =>
      if loop.interceptBreak then { loop with quitRequested := true } else loop
    | .console key =>
      if (keypressSlot loop.sources).isNone && key.ctrlC && loop.interceptBreak then
        { loop with quitRequested := true }
      else loop
  else
    match wake with
    | .source k => { loop with pendingSource := (eventSlots loop.sources)[k]? }
    | .poll => { loop with pendingSource := keypressSlot loop.sources }
    | _ => loop

/-- The first active idle source from slot `i` on. -/
def nextIdle (sources : List LoopSource) (i : Nat) : Option (Nat × LoopSource) :=
  (((sources.zipIdx).drop i).find? fun p => p.1.active && p.1.type == .idle).map
    fun p => (p.2, p.1)

/-- The idle loop of `axl_loop_next_event` from slot `i` on: up to the next idle
callback, or through the rest of the function. The second component is the source
whose callback is called. -/
def State.scanIdle (s : State) (i : Nat) (blocking hasIdle : Bool) (wake : Wake) :
    State × Option UInt64 :=
  match nextIdle s.loop.sources i with
  | some (j, src) => ({ s with stack := .idle j src.id blocking :: s.stack }, some src.id)
  | none => ({ s with loop := settle s.loop blocking hasIdle wake }, none)

/-- An iteration starts: a loop that was not running does not remember a quit. -/
def AxlLoop.start (loop : AxlLoop) : AxlLoop :=
  { loop with
    pendingSource := none
    running := true
    quitRequested := loop.running && loop.quitRequested }

/-- `axl_loop_next_event` up to the deferred work; `broken` is the shell's break
flag. -/
def State.nextEvent (s : State) (blocking broken : Bool) : State :=
  let loop := s.loop.start
  if broken && loop.interceptBreak then { s with loop := { loop with quitRequested := true } }
  else if loop.quitRequested then { s with loop := loop }
  else { s with loop := loop, stack := .drain blocking :: s.stack }

/-- The key loop of `axl_loop_dispatch_event` for slot `i`, at a read of the
console. -/
def State.readKey (s : State) (i : Nat) (id : UInt64) : Option Key → State × Option UInt64
  | none => (s, none)
  | some key =>
    if key.ctrlC && s.loop.interceptBreak then
      ({ s with loop := { s.loop with quitRequested := true } }, none)
    else ({ s with stack := .key i id :: s.stack }, some id)

/-- `axl_loop_dispatch_event`, up to its first callback. -/
def State.dispatchEvent (s : State) (key : Option Key) : State × Option UInt64 :=
  match s.loop.pendingSource with
  | none => (s, none)
  | some i =>
    let s := { s with loop := { s.loop with pendingSource := none } }
    match s.loop.sources[i]? with
    | none => (s, none)
    | some src =>
      if src.active then
        if src.type = .keypress then s.readKey i src.id key
        else ({ s with stack := .dispatch i src.id src.type :: s.stack }, some src.id)
      else (s, none)

/-- Whether slot `i` still holds the source `id` (`src->id == dispatched_id`). -/
def AxlLoop.holds (loop : AxlLoop) (i : Nat) (id : UInt64) : Bool :=
  match loop.sources[i]? with
  | some src => src.id == id
  | none => false

/-- A callback returns; `cont` is its result. The frame tells where the loop goes
on. -/
def State.ret (s : State) (cont : Bool) (key : Option Key) (wake : Wake) :
    Option (State × Option UInt64) :=
  match s.stack with
  | [] => none
  | .drain _ :: _ => none
  | .idle i id blocking :: stack =>
    let s := { s with stack := stack }
    let s := if cont then s else
      { s.forget id with
        loop := { s.loop with sources := s.loop.sources.modify i ({ · with active := false }) } }
    if s.loop.quitRequested then some (s, none)
    else some (s.scanIdle (i + 1) blocking true wake)
  | .dispatch i id type :: stack =>
    let s := { s with stack := stack }
    -- a callback that asks for it is removed, and a timeout that fired
    let done := !cont || type == .timeout
    let s' := if done then s.forget id else s
    if s.loop.holds i id && done then some (s'.retire i, none) else some (s', none)
  | .key i id :: stack =>
    let s := { s with stack := stack }
    if cont then
      if s.loop.holds i id then some (s.readKey i id key) else some (s, none)
    else
      let s' := s.forget id
      if s.loop.holds i id then some (s'.retire i, none) else some (s', none)

/-- What user code does next. -/
inductive Action where
  | add (request : Request) (callback : Nat)
  | remove (id : UInt64)
  | quit
  | setInterceptBreak (intercept : Bool)
  /-- another loop registers a source -/
  | otherLoop
  | nextEvent (blocking broken : Bool)
  /-- the last deferred callback of an iteration has returned -/
  | drained (wake : Wake)
  | dispatchEvent (key : Option Key)
  | ret (cont : Bool) (key : Option Key) (wake : Wake)
  deriving DecidableEq, Repr

/-- One action and what the loop does on it, with the source whose callback it
calls; `none` when user code cannot take the action. -/
def step (s : State) : Action → Option (State × Option UInt64)
  | .add request callback => some (s.add callback request, none)
  | .remove id => some (s.removeSource id, none)
  | .quit => some ({ s with loop := { s.loop with quitRequested := true } }, none)
  | .setInterceptBreak b => some ({ s with loop := { s.loop with interceptBreak := b } }, none)
  | .otherLoop =>
    let id := if s.loop.nextSourceId = 0 then 1 else s.loop.nextSourceId
    some ({ s with loop := { s.loop with nextSourceId := id + 1 } }, none)
  | .nextEvent blocking broken => some (s.nextEvent blocking broken, none)
  | .drained wake =>
    match s.stack with
    | .drain blocking :: stack =>
      let s := { s with stack := stack }
      if s.loop.quitRequested then some (s, none)
      else some (s.scanIdle 0 blocking false wake)
    | _ => none
  | .dispatchEvent key => some (s.dispatchEvent key)
  | .ret cont key wake => s.ret cont key wake

/-! ## Runs -/

def run : State → List Action → Option State
  | s, [] => some s
  | s, a :: as =>
    match step s a with
    | some (s', _) => run s' as
    | none => none

/-- There is no slot left for a new source. -/
def AxlLoop.full (loop : AxlLoop) : Bool :=
  freeSlot loop.sources == loop.sources.length && axlMaxSources ≤ loop.sources.length

/-- The registration creates an event that has to be kept. -/
def Request.armed : Request → Bool
  | .timer backend => backend == .armed
  | .timeout backend => backend == .armed
  | .protocol backend => backend == .armed
  | _ => false

def AxlLoop.activeAt (loop : AxlLoop) (i : Nat) : Bool :=
  match loop.sources[i]? with
  | some src => src.active
  | none => false

/-- A return that stays clear of the exceptions: an idle callback only asks to be
removed while it has its slot, and a key callback whose source was removed is not
asked to go on with another key. -/
def OrderlyRet (loop : AxlLoop) (cont : Bool) (key : Option Key) : List Frame → Prop
  | .idle i id _ :: _ => cont = false → loop.holds i id = true
  | .key i id :: _ =>
    cont = true → key.any (fun k => !(k.ctrlC && loop.interceptBreak)) = true →
      loop.holds i id = true → loop.activeAt i = true
  | _ => True

/-- The steps that stay clear of the exceptions: orderly returns, and no source
with an event of its own is added to a full table; and the 64-bit counter of ids
does not wrap. -/
def Orderly (s : State) : Action → Prop
  | .add request _ =>
    s.loop.nextSourceId.toNat + 1 < 2 ^ 64 ∧ (request.armed = true → s.loop.full = false)
  | .otherLoop => s.loop.nextSourceId.toNat + 1 < 2 ^ 64
  | .ret cont key _ => OrderlyRet s.loop cont key s.stack
  | _ => True

/-- Every step of the run is orderly. -/
def OrderlyRun : State → List Action → Prop
  | _, [] => True
  | s, a :: as => Orderly s a ∧
    match step s a with
    | some (s', _) => OrderlyRun s' as
    | none => True

instance (loop : AxlLoop) (cont : Bool) (key : Option Key) :
    (stack : List Frame) → Decidable (OrderlyRet loop cont key stack)
  | .idle _ _ _ :: _ => inferInstanceAs (Decidable (_ → _))
  | .key _ _ :: _ => inferInstanceAs (Decidable (_ → _ → _ → _))
  | [] => isTrue trivial
  | .drain _ :: _ => isTrue trivial
  | .dispatch _ _ _ :: _ => isTrue trivial

instance (s : State) : (a : Action) → Decidable (Orderly s a)
  | .add _ _ => inferInstanceAs (Decidable (_ ∧ _))
  | .otherLoop => inferInstanceAs (Decidable (_ < _))
  | .ret _ _ _ => inferInstanceAs (Decidable (OrderlyRet _ _ _ _))
  | .remove _ => isTrue trivial
  | .quit => isTrue trivial
  | .setInterceptBreak _ => isTrue trivial
  | .nextEvent _ _ => isTrue trivial
  | .drained _ => isTrue trivial
  | .dispatchEvent _ => isTrue trivial

instance decidableOrderlyRun (s : State) : (as : List Action) → Decidable (OrderlyRun s as)
  | [] => isTrue trivial
  | a :: as =>
    have : Decidable (match step s a with
        | some (s', _) => OrderlyRun s' as
        | none => True) :=
      match step s a with
      | some (s', _) => decidableOrderlyRun s' as
      | none => isTrue trivial
    inferInstanceAs (Decidable (_ ∧ _))

/-! ## The invariant -/

/-- Slot `i` holds `src`. -/
def AxlLoop.InSlot (loop : AxlLoop) (i : Nat) (src : LoopSource) : Prop :=
  loop.sources[i]? = some src

/-- Where the source of a frame can be: in its slot or nowhere. -/
def FrameOk (s : State) : Frame → Prop
  | .drain _ => True
  | .idle i id _ => ∀ j src, s.loop.InSlot j src → src.id = id →
      j = i ∧ src.type = .idle
  | .dispatch i id _ => ∀ j src, s.loop.InSlot j src → src.id = id → j = i
  | .key i id => ∀ j src, s.loop.InSlot j src → src.id = id → j = i

def Frame.id? : Frame → Option UInt64
  | .drain _ => none
  | .idle _ id _ => some id
  | .dispatch _ id _ => some id
  | .key _ id => some id

structure Inv (s : State) : Prop where
  counter : s.loop.nextSourceId ≠ 0
  past : ∀ r ∈ s.registered, r.id.toNat < s.loop.nextSourceId.toNat
  known : ∀ i src, s.loop.InSlot i src → ∃ r ∈ s.registered, r.id = src.id
  slot : ∀ i j a b, s.loop.InSlot i a → s.loop.InSlot j b → a.id = b.id → i = j
  live : ∀ i src, s.loop.InSlot i src → src.active = true →
    src.toRegistration ∈ s.registered ∧ src.id ∉ s.removed
  removedKnown : ∀ id ∈ s.removed, ∃ r ∈ s.registered, r.id = id
  kept : ∀ r ∈ s.registered, r.id ∉ s.removed →
    ∃ i src, s.loop.InSlot i src ∧ src.active = true ∧ src.toRegistration = r
  plain : ∀ i src, s.loop.InSlot i src → src.type = .idle → src.ownsEvent = false
  shut : ∀ i src, s.loop.InSlot i src → src.active = false → src.ownsEvent = true →
    src.event = none
  owned : ∀ i src, s.loop.InSlot i src → src.active = true → src.ownsEvent = true →
    ∃ e, src.event = some e ∧ e ∈ s.created ∧ e ∉ s.closed
  once : ∀ i j a b, s.loop.InSlot i a → s.loop.InSlot j b →
    a.active = true → b.active = true → a.ownsEvent = true → b.ownsEvent = true →
    a.event = b.event → i = j
  unclosed : ∀ e ∈ s.created, e ∉ s.closed → ∃ i src, s.loop.InSlot i src ∧
    src.active = true ∧ src.ownsEvent = true ∧ src.event = some e
  closedOnce : s.closed.Nodup
  closedCreated : ∀ e ∈ s.closed, e ∈ s.created
  numbered : ∀ e ∈ s.created, ∃ n < s.created.length, e = .own n
  frames : ∀ f ∈ s.stack, FrameOk s f
  frameKnown : ∀ f ∈ s.stack, ∀ id, f.id? = some id → ∃ r ∈ s.registered, r.id = id

theorem inv_new : Inv State.new := by
  constructor <;> simp [State.new, AxlLoop.InSlot]

variable {s : State} {id : UInt64}

/-- An id that the counter has passed is not the next one. -/
theorem Inv.ne_next (h : Inv s) (hid : ∃ r ∈ s.registered, r.id = id) :
    id ≠ s.loop.nextSourceId := by
  rintro rfl
  obtain ⟨r, hr, hid⟩ := hid
  have := h.past r hr
  rw [hid] at this
  exact Nat.lt_irrefl _ this

/-! ### Deactivating a slot -/

/-- A slot after its source was removed. -/
def LoopSource.shut (src : LoopSource) : LoopSource :=
  { src with event := if src.ownsEvent then none else src.event, active := false }

/-- The event that is closed with a slot. -/
def LoopSource.ownEvent (src : LoopSource) : List Handle :=
  if src.ownsEvent then src.event.toList else []

variable {i : Nat} {src : LoopSource}

theorem retire_eq (hi : s.loop.InSlot i src) :
    s.retire i = { s with
      loop := { s.loop with sources := s.loop.sources.set i src.shut }
      closed := src.ownEvent ++ s.closed } := by
  rw [AxlLoop.InSlot] at hi
  unfold State.retire LoopSource.shut LoopSource.ownEvent
  rw [hi]
  obtain ⟨⟨id, type, ownsEvent, event, callback⟩, active⟩ := src
  cases ownsEvent <;> cases event <;> rfl

variable {loop : AxlLoop}

theorem inSlot_set {j : Nat} {src' x : LoopSource} (hi : loop.InSlot i src) :
    { loop with sources := loop.sources.set i src' }.InSlot j x ↔
      if j = i then x = src' else loop.InSlot j x := by
  obtain ⟨hlt, -⟩ := List.getElem?_eq_some_iff.mp hi
  unfold AxlLoop.InSlot
  rw [getElem?_set]
  by_cases hj : j = i
  · subst hj
    simp [hlt, eq_comm]
  · simp [hj, Ne.symm hj]

/-- Removing the source of a slot, in the table and in the sense of the API, keeps
the invariant. -/
theorem Inv.retired (h : Inv s) (hi : s.loop.InSlot i src) :
    Inv { s with
      loop := { s.loop with sources := s.loop.sources.set i src.shut }
      removed := src.id :: s.removed
      closed := src.ownEvent ++ s.closed } := by
  have hset : ∀ {j x}, { s.loop with sources := s.loop.sources.set i src.shut }.InSlot j x ↔
      if j = i then x = src.shut else s.loop.InSlot j x := inSlot_set hi
  -- a slot of the new table holds what it held, up to the one that is shut
  have hold : ∀ {j x}, { s.loop with sources := s.loop.sources.set i src.shut }.InSlot j x →
      ∃ x₀, s.loop.InSlot j x₀ ∧ x₀.id = x.id ∧ x₀.type = x.type ∧ x₀.ownsEvent = x.ownsEvent := by
    intro j x hx
    rw [hset] at hx
    split at hx
    · rename_i hj
      subst hj hx
      exact ⟨src, hi, rfl, rfl, rfl⟩
    · exact ⟨x, hx, rfl, rfl, rfl⟩
  have hactive : ∀ {j x}, { s.loop with sources := s.loop.sources.set i src.shut }.InSlot j x →
      x.active = true → j ≠ i ∧ s.loop.InSlot j x := by
    intro j x hx hact
    rw [hset] at hx
    split at hx
    · subst hx
      cases hact
    · rename_i hj
      exact ⟨hj, hx⟩
  have howned : ∀ {e}, e ∈ src.ownEvent → src.ownsEvent = true ∧ src.event = some e ∧
      src.active = true := by
    intro e he
    unfold LoopSource.ownEvent at he
    split at he
    · rename_i howns
      have hev : src.event = some e := by simpa using he
      refine ⟨howns, hev, ?_⟩
      by_contra hact
      have := h.shut i src hi (by simpa using hact) howns
      rw [hev] at this
      cases this
    · cases he
  constructor
  case counter => exact h.counter
  case past => exact h.past
  case known =>
    intro j x hx
    obtain ⟨x₀, hx₀, hid, -, -⟩ := hold hx
    rw [← hid]
    exact h.known j x₀ hx₀
  case slot =>
    intro j k a b ha hb hab
    obtain ⟨a₀, ha₀, hida, -, -⟩ := hold ha
    obtain ⟨b₀, hb₀, hidb, -, -⟩ := hold hb
    exact h.slot j k a₀ b₀ ha₀ hb₀ (by rw [hida, hidb, hab])
  case live =>
    intro j x hx hact
    obtain ⟨hj, hx⟩ := hactive hx hact
    obtain ⟨hreg, hrem⟩ := h.live j x hx hact
    refine ⟨hreg, fun hmem => ?_⟩
    rcases mem_cons.mp hmem with heq | hmem
    · exact hj (h.slot j i x src hx hi heq)
    · exact hrem hmem
  case removedKnown =>
    intro id hid
    rcases mem_cons.mp hid with rfl | hid
    · exact h.known i src hi
    · exact h.removedKnown id hid
  case kept =>
    intro r hr hrem
    obtain ⟨hne, hrem⟩ := not_or.mp (fun hc => hrem (mem_cons.mpr hc))
    obtain ⟨j, x, hx, hact, rfl⟩ := h.kept r hr hrem
    have hj : j ≠ i := by
      rintro rfl
      rw [AxlLoop.InSlot, hi] at hx
      cases hx
      exact hne rfl
    exact ⟨j, x, by rw [hset, if_neg hj]; exact hx, hact, rfl⟩
  case plain =>
    intro j x hx htype
    obtain ⟨x₀, hx₀, -, ht, ho⟩ := hold hx
    rw [← ho]
    exact h.plain j x₀ hx₀ (ht.trans htype)
  case shut =>
    intro j x hx hact howns
    rw [hset] at hx
    split at hx
    · subst hx
      have : src.ownsEvent = true := howns
      simp [LoopSource.shut, this]
    · exact h.shut j x hx hact howns
  case owned =>
    intro j x hx hact howns
    obtain ⟨hj, hx⟩ := hactive hx hact
    obtain ⟨e, hev, hcr, hcl⟩ := h.owned j x hx hact howns
    refine ⟨e, hev, hcr, fun hmem => ?_⟩
    rcases mem_append.mp hmem with hmem | hmem
    · obtain ⟨howns', hev', hact'⟩ := howned hmem
      exact hj (h.once j i x src hx hi hact hact' howns howns' (hev.trans hev'.symm))
    · exact hcl hmem
  case once =>
    intro j k a b ha hb hacta hactb
    obtain ⟨-, ha⟩ := hactive ha hacta
    obtain ⟨-, hb⟩ := hactive hb hactb
    exact h.once j k a b ha hb hacta hactb
  case unclosed =>
    intro e he hcl
    obtain ⟨hne, hcl⟩ := not_or.mp (fun hc => hcl (mem_append.mpr hc))
    obtain ⟨j, x, hx, hact, howns, hev⟩ := h.unclosed e he hcl
    have hj : j ≠ i := by
      rintro rfl
      rw [AxlLoop.InSlot, hi] at hx
      cases hx
      exact hne (by simp [LoopSource.ownEvent, howns, hev])
    exact ⟨j, x, by rw [hset, if_neg hj]; exact hx, hact, howns, hev⟩
  case closedOnce =>
    refine nodup_append.mpr ⟨?_, h.closedOnce, ?_⟩
    · unfold LoopSource.ownEvent
      split
      · cases src.event <;> simp
      · exact nodup_nil
    · rintro e he e' he' rfl
      obtain ⟨howns, hev, hact⟩ := howned he
      obtain ⟨e₁, hev₁, -, hcl⟩ := h.owned i src hi hact howns
      obtain rfl : e = e₁ := Option.some.inj (hev.symm.trans hev₁)
      exact hcl he'
  case closedCreated =>
    intro e he
    rcases mem_append.mp he with he | he
    · obtain ⟨howns, hev, hact⟩ := howned he
      obtain ⟨e₁, hev₁, hcr, -⟩ := h.owned i src hi hact howns
      obtain rfl : e = e₁ := Option.some.inj (hev.symm.trans hev₁)
      exact hcr
    · exact h.closedCreated e he
  case numbered => exact h.numbered
  case frames =>
    intro f hf
    have hok := h.frames f hf
    cases f with
    | drain b => trivial
    | idle k id b =>
      intro j x hx hid
      obtain ⟨x₀, hx₀, hid₀, ht₀, -⟩ := hold hx
      have := hok j x₀ hx₀ (hid₀.trans hid)
      exact ⟨this.1, ht₀ ▸ this.2⟩
    | dispatch k id t =>
      intro j x hx hid
      obtain ⟨x₀, hx₀, hid₀, -, -⟩ := hold hx
      exact hok j x₀ hx₀ (hid₀.trans hid)
    | key k id =>
      intro j x hx hid
      obtain ⟨x₀, hx₀, hid₀, -, -⟩ := hold hx
      exact hok j x₀ hx₀ (hid₀.trans hid)
  case frameKnown => exact h.frameKnown

theorem forget_of_known (hid : ∃ r ∈ s.registered, r.id = id) :
    s.forget id = { s with removed := id :: s.removed } := by
  obtain ⟨r, hr, rfl⟩ := hid
  unfold State.forget
  rw [if_pos]
  rw [any_eq_true]
  exact ⟨r, hr, by simp⟩

/-- A source that no slot holds actively can count as removed. -/
theorem Inv.forget (h : Inv s)
    (hid : ∀ i src, s.loop.InSlot i src → src.active = true → src.id ≠ id) : Inv (s.forget id) := by
  by_cases hknown : ∃ r ∈ s.registered, r.id = id
  · rw [forget_of_known hknown]
    refine { h with live := ?_, removedKnown := ?_, kept := ?_, frames := h.frames }
    · intro i src hi hact
      obtain ⟨hreg, hrem⟩ := h.live i src hi hact
      refine ⟨hreg, fun hmem => ?_⟩
      rcases mem_cons.mp hmem with heq | hmem
      · exact hid i src hi hact heq
      · exact hrem hmem
    · intro id' hid'
      rcases mem_cons.mp hid' with rfl | hid'
      · exact hknown
      · exact h.removedKnown id' hid'
    · intro r hr hrem
      exact h.kept r hr fun hmem => hrem (mem_cons_of_mem _ hmem)
  · have : s.forget id = s := by
      unfold State.forget
      rw [if_neg]
      rw [any_eq_true]
      rintro ⟨r, hr, heq⟩
      exact hknown ⟨r, hr, by simpa using heq⟩
    rw [this]
    exact h

theorem Inv.forget_retire (h : Inv s) (hi : s.loop.InSlot i src) :
    Inv ((s.forget src.id).retire i) := by
  rw [forget_of_known (h.known i src hi), retire_eq (by exact hi)]
  exact h.retired hi

/-! ### Taking a slot -/

theorem addSource_eq_none (hfull : loop.full = true) (type : SourceType) (event : Option Handle)
    (ownsEvent : Bool) (callback : Nat) :
    addSource loop type event ownsEvent callback = none := by
  unfold addSource
  split
  · rfl
  · rw [if_pos]
    simpa [AxlLoop.full] using hfull

/-- A registration takes one slot that was not in use. -/
theorem addSource_spec (hid : loop.nextSourceId ≠ 0) (hfull : loop.full = false) (type : SourceType)
    (ownsEvent : Bool) (htype : ¬ (type = .event ∧ ownsEvent = true)) (event : Option Handle)
    (callback : Nat) :
    ∃ loop' i, addSource loop type event ownsEvent callback
        = some (loop', ⟨loop.nextSourceId, type, ownsEvent, event, callback⟩) ∧
      loop'.nextSourceId = loop.nextSourceId + 1 ∧
      (∀ x, loop.InSlot i x → x.active = false) ∧
      ∀ j x, loop'.InSlot j x ↔ if j = i then
        x = ⟨⟨loop.nextSourceId, type, ownsEvent, event, callback⟩, true⟩ else loop.InSlot j x := by
  have hroom : ¬ (freeSlot loop.sources = loop.sources.length ∧
      axlMaxSources ≤ loop.sources.length) := by
    simpa [AxlLoop.full] using hfull
  let src : LoopSource := ⟨⟨loop.nextSourceId, type, ownsEvent, event, callback⟩, true⟩
  refine ⟨{ loop with
      sources := if freeSlot loop.sources = loop.sources.length then loop.sources ++ [src]
        else loop.sources.set (freeSlot loop.sources) src
      nextSourceId := loop.nextSourceId + 1 }, freeSlot loop.sources, ?_, rfl, ?_, ?_⟩
  · unfold addSource
    rw [if_neg htype]
    dsimp only
    rw [if_neg hroom, if_neg hid]
  · intro x hx
    obtain ⟨hlt, rfl⟩ := List.getElem?_eq_some_iff.mp hx
    have hinactive : (!loop.sources[freeSlot loop.sources].active) = true :=
      findIdx_getElem (w := hlt)
    simpa using hinactive
  · intro j x
    unfold AxlLoop.InSlot
    dsimp only
    by_cases hend : freeSlot loop.sources = loop.sources.length
    · rw [if_pos hend, getElem?_append]
      by_cases hj : j = freeSlot loop.sources
      · subst hj
        simp [hend, eq_comm, src]
      · rw [if_neg hj]
        by_cases hlt : j < loop.sources.length
        · rw [if_pos hlt]
        · rw [if_neg hlt]
          have h1 : loop.sources[j]? = none := getElem?_eq_none (Nat.le_of_not_lt hlt)
          have h2 : 0 < j - loop.sources.length := by omega
          simp [h1, Nat.ne_of_gt h2]
    · have hlt : freeSlot loop.sources < loop.sources.length :=
        Nat.lt_of_le_of_ne findIdx_le_length hend
      rw [if_neg hend, getElem?_set]
      by_cases hj : j = freeSlot loop.sources
      · subst hj
        simp [hlt, eq_comm, src]
      · simp [hj, Ne.symm hj]

/-- A new source in a slot that was not in use keeps the invariant; its event, if
it owns one, is new too. -/
theorem Inv.place (h : Inv s) {loop' : AxlLoop} {reg : Registration} {created' : List Handle}
    (hwrap : s.loop.nextSourceId.toNat + 1 < 2 ^ 64) (hid : reg.id = s.loop.nextSourceId)
    (hnext : loop'.nextSourceId = s.loop.nextSourceId + 1)
    (hfree : ∀ x, s.loop.InSlot i x → x.active = false)
    (hslots : ∀ j x, loop'.InSlot j x ↔ if j = i then x = ⟨reg, true⟩ else s.loop.InSlot j x)
    (hplain : reg.type = .idle → reg.ownsEvent = false)
    (hcreated : (reg.ownsEvent = false ∧ created' = s.created) ∨
      (reg.ownsEvent = true ∧ reg.event = some (.own s.created.length) ∧
        created' = .own s.created.length :: s.created)) :
    Inv { s with loop := loop', registered := reg :: s.registered, created := created' } := by
  have hnat : loop'.nextSourceId.toNat = s.loop.nextSourceId.toNat + 1 := by
    rw [hnext, UInt64.toNat_add]
    exact Nat.mod_eq_of_lt hwrap
  have hcases : ∀ {j x}, loop'.InSlot j x →
      (j = i ∧ x = ⟨reg, true⟩) ∨ (j ≠ i ∧ s.loop.InSlot j x) := by
    intro j x hx
    rw [hslots] at hx
    split at hx
    · rename_i hj
      exact .inl ⟨hj, hx⟩
    · rename_i hj
      exact .inr ⟨hj, hx⟩
  have hother : ∀ {j x}, s.loop.InSlot j x → x.active = true → loop'.InSlot j x := by
    intro j x hx hact
    rw [hslots, if_neg]
    · exact hx
    · rintro rfl
      have := hfree x hx
      rw [hact] at this
      cases this
  have hnew : ∀ {id}, (∃ r ∈ s.registered, r.id = id) → id ≠ reg.id := by
    intro id hex
    rw [hid]
    exact h.ne_next hex
  have hsub : ∀ e ∈ s.created, e ∈ created' := by
    intro e he
    rcases hcreated with ⟨-, rfl⟩ | ⟨-, -, rfl⟩
    · exact he
    · exact mem_cons_of_mem _ he
  have hfresh : Handle.own s.created.length ∉ s.created := by
    intro hmem
    obtain ⟨n, hn, heq⟩ := h.numbered _ hmem
    cases heq
    exact Nat.lt_irrefl _ hn
  constructor
  case counter =>
    intro h0
    have := congrArg UInt64.toNat h0
    rw [hnat] at this
    simp at this
  case past =>
    intro r hr
    rw [hnat]
    rcases mem_cons.mp hr with rfl | hr
    · rw [hid]
      exact Nat.lt_succ_self _
    · exact Nat.lt_succ_of_lt (h.past r hr)
  case known =>
    intro j x hx
    rcases hcases hx with ⟨-, rfl⟩ | ⟨-, hx⟩
    · exact ⟨reg, mem_cons_self, rfl⟩
    · obtain ⟨r, hr, hid⟩ := h.known j x hx
      exact ⟨r, mem_cons_of_mem _ hr, hid⟩
  case slot =>
    intro j k a b ha hb hab
    rcases hcases ha with ⟨rfl, rfl⟩ | ⟨hj, ha⟩
    · rcases hcases hb with ⟨rfl, -⟩ | ⟨-, hb⟩
      · rfl
      · exact absurd hab.symm (hnew (h.known k b hb))
    · rcases hcases hb with ⟨rfl, rfl⟩ | ⟨-, hb⟩
      · exact absurd hab (hnew (h.known j a ha))
      · exact h.slot j k a b ha hb hab
  case live =>
    intro j x hx hact
    rcases hcases hx with ⟨-, rfl⟩ | ⟨-, hx⟩
    · exact ⟨mem_cons_self, fun hmem => hnew (h.removedKnown _ hmem) rfl⟩
    · exact ⟨mem_cons_of_mem _ (h.live j x hx hact).1, (h.live j x hx hact).2⟩
  case removedKnown =>
    intro id hmem
    obtain ⟨r, hr, hid⟩ := h.removedKnown id hmem
    exact ⟨r, mem_cons_of_mem _ hr, hid⟩
  case kept =>
    intro r hr hrem
    rcases mem_cons.mp hr with rfl | hr
    · exact ⟨i, ⟨r, true⟩, by rw [hslots, if_pos rfl], rfl, rfl⟩
    · obtain ⟨j, x, hx, hact, hreg⟩ := h.kept r hr hrem
      exact ⟨j, x, hother hx hact, hact, hreg⟩
  case plain =>
    intro j x hx
    rcases hcases hx with ⟨-, rfl⟩ | ⟨-, hx⟩
    · exact hplain
    · exact h.plain j x hx
  case shut =>
    intro j x hx hact
    rcases hcases hx with ⟨-, rfl⟩ | ⟨-, hx⟩
    · cases hact
    · exact h.shut j x hx hact
  case owned =>
    intro j x hx hact howns
    rcases hcases hx with ⟨-, rfl⟩ | ⟨-, hx⟩
    · rcases hcreated with ⟨hno, -⟩ | ⟨-, hev, rfl⟩
      · exact absurd (howns.symm.trans hno) (by decide)
      · exact ⟨_, hev, mem_cons_self, fun hmem => hfresh (h.closedCreated _ hmem)⟩
    · obtain ⟨e, hev, hcr, hcl⟩ := h.owned j x hx hact howns
      exact ⟨e, hev, hsub e hcr, hcl⟩
  case once =>
    intro j k a b ha hb hacta hactb howna hownb hev
    -- the new event is in no other slot
    have hdiff : ∀ {k b}, s.loop.InSlot k b → b.active = true → b.ownsEvent = true →
        reg.ownsEvent = true → reg.event ≠ b.event := by
      intro k b hb hactb hownb howna hev
      obtain ⟨e, heb, hcr, -⟩ := h.owned k b hb hactb hownb
      rcases hcreated with ⟨hno, -⟩ | ⟨-, her, -⟩
      · rw [howna] at hno
        cases hno
      · rw [her, heb] at hev
        cases hev
        exact hfresh hcr
    rcases hcases ha with ⟨rfl, rfl⟩ | ⟨hj, ha⟩
    · rcases hcases hb with ⟨rfl, -⟩ | ⟨-, hb⟩
      · rfl
      · exact absurd hev (hdiff hb hactb hownb howna)
    · rcases hcases hb with ⟨rfl, rfl⟩ | ⟨-, hb⟩
      · exact absurd hev.symm (hdiff ha hacta howna hownb)
      · exact h.once j k a b ha hb hacta hactb howna hownb hev
  case unclosed =>
    intro e he hcl
    have hold : e ∈ s.created → _ := fun he => h.unclosed e he hcl
    rcases hcreated with ⟨-, rfl⟩ | ⟨howns, hev, rfl⟩
    · obtain ⟨j, x, hx, hact, hrest⟩ := hold he
      exact ⟨j, x, hother hx hact, hact, hrest⟩
    · rcases mem_cons.mp he with rfl | he
      · exact ⟨i, ⟨reg, true⟩, by rw [hslots, if_pos rfl], rfl, howns, hev⟩
      · obtain ⟨j, x, hx, hact, hrest⟩ := hold he
        exact ⟨j, x, hother hx hact, hact, hrest⟩
  case closedOnce => exact h.closedOnce
  case closedCreated => exact fun e he => hsub e (h.closedCreated e he)
  case numbered =>
    intro e he
    rcases hcreated with ⟨-, rfl⟩ | ⟨-, -, rfl⟩
    · exact h.numbered e he
    · rcases mem_cons.mp he with rfl | he
      · exact ⟨_, by simp, rfl⟩
      · obtain ⟨n, hn, heq⟩ := h.numbered e he
        exact ⟨n, by simpa using Nat.lt_succ_of_lt hn, heq⟩
  case frames =>
    intro f hf
    have hok := h.frames f hf
    have hknown := h.frameKnown f hf
    cases f with
    | drain b => trivial
    | idle k id b =>
      intro j x hx hid
      rcases hcases hx with ⟨-, rfl⟩ | ⟨-, hx⟩
      · exact absurd hid.symm (hnew (hknown id rfl))
      · exact hok j x hx hid
    | dispatch k id t =>
      intro j x hx hid
      rcases hcases hx with ⟨-, rfl⟩ | ⟨-, hx⟩
      · exact absurd hid.symm (hnew (hknown id rfl))
      · exact hok j x hx hid
    | key k id =>
      intro j x hx hid
      rcases hcases hx with ⟨-, rfl⟩ | ⟨-, hx⟩
      · exact absurd hid.symm (hnew (hknown id rfl))
      · exact hok j x hx hid
  case frameKnown =>
    intro f hf id hid
    obtain ⟨r, hr, heq⟩ := h.frameKnown f hf id hid
    exact ⟨r, mem_cons_of_mem _ hr, heq⟩

/-! ### The other parts of a step -/

/-- Nothing but the table and the counter of ids matters in the loop. -/
theorem Inv.setLoop (h : Inv s) {loop' : AxlLoop} (hsources : loop'.sources = s.loop.sources)
    (hnext : loop'.nextSourceId = s.loop.nextSourceId) : Inv { s with loop := loop' } := by
  obtain ⟨sources, pending, running, quit, intercept, next⟩ := loop'
  dsimp only at hsources hnext
  subst hsources hnext
  exact ⟨h.counter, h.past, h.known, h.slot, h.live, h.removedKnown, h.kept, h.plain, h.shut,
    h.owned, h.once, h.unclosed, h.closedOnce, h.closedCreated, h.numbered,
    fun f hf => by cases f <;> exact h.frames _ hf, h.frameKnown⟩

theorem Inv.setStack (h : Inv s) {stack' : List Frame} (hok : ∀ f ∈ stack', FrameOk s f)
    (hknown : ∀ f ∈ stack', ∀ id, f.id? = some id → ∃ r ∈ s.registered, r.id = id) :
    Inv { s with stack := stack' } :=
  ⟨h.counter, h.past, h.known, h.slot, h.live, h.removedKnown, h.kept, h.plain, h.shut,
    h.owned, h.once, h.unclosed, h.closedOnce, h.closedCreated, h.numbered,
    fun f hf => by cases f <;> exact hok _ hf, hknown⟩

theorem Inv.pop (h : Inv s) {f : Frame} {k : List Frame} (hs : s.stack = f :: k) :
    Inv { s with stack := k } := by
  refine h.setStack ?_ ?_ <;> intro f' hf'
  · exact h.frames f' (hs ▸ mem_cons_of_mem _ hf')
  · exact h.frameKnown f' (hs ▸ mem_cons_of_mem _ hf')

/-- A frame for the source in a slot. -/
theorem Inv.push (h : Inv s) (hi : s.loop.InSlot i src) {f : Frame}
    (hf : f = .dispatch i src.id src.type ∨ f = .key i src.id ∨
      ∃ blocking, src.type = .idle ∧ f = .idle i src.id blocking) :
    Inv { s with stack := f :: s.stack } := by
  have hid : f.id? = some src.id := by
    rcases hf with rfl | rfl | ⟨b, -, rfl⟩ <;> rfl
  refine h.setStack ?_ ?_
  · intro f' hf'
    rcases mem_cons.mp hf' with rfl | hf'
    · rcases hf with rfl | rfl | ⟨b, htype, rfl⟩
      · exact fun j x hx heq => h.slot j i x src hx hi heq
      · exact fun j x hx heq => h.slot j i x src hx hi heq
      · intro j x hx heq
        have hj := h.slot j i x src hx hi heq
        subst hj
        rw [AxlLoop.InSlot, hi] at hx
        cases hx
        exact ⟨rfl, htype⟩
    · exact h.frames f' hf'
  · intro f' hf' id hid'
    rcases mem_cons.mp hf' with rfl | hf'
    · obtain rfl : src.id = id := Option.some.inj (hid.symm.trans hid')
      exact h.known i src hi
    · exact h.frameKnown f' hf' id hid'

theorem settle_sources (loop : AxlLoop) (blocking hasIdle : Bool) (wake : Wake) :
    (settle loop blocking hasIdle wake).sources = loop.sources ∧
      (settle loop blocking hasIdle wake).nextSourceId = loop.nextSourceId := by
  unfold settle
  split
  · cases wake with
    | breakEvent =>
      dsimp only
      split <;> exact ⟨rfl, rfl⟩
    | console key =>
      dsimp only
      split <;> exact ⟨rfl, rfl⟩
    | _ => exact ⟨rfl, rfl⟩
  · cases wake <;> exact ⟨rfl, rfl⟩

theorem nextIdle_spec {j : Nat} (h : nextIdle loop.sources i = some (j, src)) :
    loop.InSlot j src ∧ src.active = true ∧ src.type = .idle := by
  unfold nextIdle at h
  obtain ⟨⟨src', j'⟩, hfind, heq⟩ := Option.map_eq_some_iff.mp h
  cases heq
  have hmem := mem_of_mem_drop (mem_of_find?_eq_some hfind)
  have hp := find?_some hfind
  simp only [Bool.and_eq_true, beq_iff_eq] at hp
  exact ⟨mem_zipIdx_iff_getElem?.mp hmem, hp⟩

/-- The callback that a step calls is one of an active slot. -/
def Calls (s : State) (c : Option UInt64) : Prop :=
  ∀ id, c = some id → ∃ i src, s.loop.InSlot i src ∧ src.active = true ∧ src.id = id

theorem calls_none (s : State) : Calls s none := by
  intro id hid
  cases hid

theorem Inv.scanIdle (h : Inv s) (i : Nat) (blocking hasIdle : Bool) (wake : Wake) :
    Inv (s.scanIdle i blocking hasIdle wake).1 ∧
      Calls (s.scanIdle i blocking hasIdle wake).1 (s.scanIdle i blocking hasIdle wake).2 := by
  unfold State.scanIdle
  split
  · rename_i j src hidle
    obtain ⟨hj, hact, htype⟩ := nextIdle_spec hidle
    refine ⟨h.push hj (.inr (.inr ⟨blocking, htype, rfl⟩)), ?_⟩
    intro id hid
    exact ⟨j, src, hj, hact, Option.some.inj hid⟩
  · exact ⟨h.setLoop (settle_sources _ _ _ _).1 (settle_sources _ _ _ _).2, calls_none _⟩

theorem Inv.readKey (h : Inv s) (hi : s.loop.InSlot i src) {key : Option Key}
    (hact : key.any (fun k => !(k.ctrlC && s.loop.interceptBreak)) = true → src.active = true) :
    Inv (s.readKey i src.id key).1 ∧ Calls (s.readKey i src.id key).1 (s.readKey i src.id key).2 := by
  cases key with
  | none => exact ⟨h, calls_none _⟩
  | some key =>
    unfold State.readKey
    dsimp only
    split
    · exact ⟨h.setLoop rfl rfl, calls_none _⟩
    · rename_i hkey
      refine ⟨h.push hi (.inr (.inl rfl)), ?_⟩
      intro id hid
      refine ⟨i, src, hi, hact ?_, Option.some.inj hid⟩
      rw [Option.any_some, Bool.not_eq_true']
      exact Bool.eq_false_iff.mpr hkey

theorem Inv.dispatchEvent (h : Inv s) (key : Option Key) :
    Inv (s.dispatchEvent key).1 ∧ Calls (s.dispatchEvent key).1 (s.dispatchEvent key).2 := by
  unfold State.dispatchEvent
  split
  · exact ⟨h, calls_none _⟩
  · rename_i i hpending
    have h' : Inv { s with loop := { s.loop with pendingSource := none } } := h.setLoop rfl rfl
    dsimp only
    split
    · exact ⟨h', calls_none _⟩
    · rename_i src hi
      split
      · rename_i hact
        split
        · exact h'.readKey hi fun _ => hact
        · refine ⟨h'.push hi (.inl rfl), ?_⟩
          intro id hid
          exact ⟨i, src, hi, hact, Option.some.inj hid⟩
      · exact ⟨h', calls_none _⟩

theorem holds_iff :
    loop.holds i id = true ↔ ∃ src, loop.InSlot i src ∧ src.id = id := by
  unfold AxlLoop.holds AxlLoop.InSlot
  cases loop.sources[i]? with
  | none => simp
  | some src => simp

/-- The end of a source whose callback returned: its slot is shut if it still has
it, and otherwise it is gone already. -/
theorem Inv.finish (h : Inv s) (i : Nat) (id : UInt64)
    (hframe : ∀ j src, s.loop.InSlot j src → src.id = id → j = i) :
    (s.loop.holds i id = true → Inv ((s.forget id).retire i)) ∧
      (s.loop.holds i id = false → Inv (s.forget id)) := by
  constructor
  · intro hholds
    obtain ⟨src, hi, rfl⟩ := holds_iff.mp hholds
    exact h.forget_retire hi
  · intro hholds
    refine h.forget ?_
    intro j src hj _ hid
    have := hframe j src hj hid
    subst this
    rw [holds_iff.mpr ⟨src, hj, hid⟩] at hholds
    cases hholds

/-- An idle callback that returns `AXL_SOURCE_REMOVE` while it has its slot. -/
theorem Inv.finishIdle (h : Inv s)
    (hframe : ∀ j src, s.loop.InSlot j src → src.id = id → j = i ∧ src.type = .idle)
    (hholds : s.loop.holds i id = true) :
    Inv { s.forget id with
      loop := { s.loop with sources := s.loop.sources.modify i ({ · with active := false }) } } := by
  obtain ⟨src, hi, rfl⟩ := holds_iff.mp hholds
  have hplain : src.ownsEvent = false := h.plain i src hi (hframe i src hi rfl).2
  have hshut :
      s.loop.sources.modify i ({ · with active := false }) = s.loop.sources.set i src.shut := by
    rw [modify_eq_set_getElem?, show s.loop.sources[i]? = some src from hi]
    obtain ⟨⟨id, type, ownsEvent, event, callback⟩, active⟩ := src
    dsimp only at hplain
    subst hplain
    rfl
  have := h.retired hi
  rw [forget_of_known (h.known i src hi), hshut]
  simpa [LoopSource.ownEvent, hplain] using this

theorem Inv.ret {s' : State} (h : Inv s) {cont : Bool} {key : Option Key} {wake : Wake}
    {c : Option UInt64} (ho : Orderly s (.ret cont key wake))
    (hs : s.ret cont key wake = some (s', c)) : Inv s' ∧ Calls s' c := by
  unfold State.ret at hs
  change OrderlyRet s.loop cont key s.stack at ho
  cases hstack : s.stack with
  | nil =>
    rw [hstack] at hs
    cases hs
  | cons f k =>
    rw [hstack] at hs ho
    have hpop := h.pop hstack
    have hframe := h.frames f (hstack ▸ mem_cons_self)
    cases f with
    | drain b => cases hs
    | idle i id blocking =>
      dsimp only at hs ho
      -- the epilogue of the idle callback, then the scan goes on
      have hend : Inv (if cont then { s with stack := k } else
          { State.forget { s with stack := k } id with
            loop := { s.loop with
              sources := s.loop.sources.modify i ({ · with active := false }) } }) := by
        cases cont with
        | true => exact hpop
        | false => exact hpop.finishIdle hframe (ho rfl)
      generalize hnew : (if cont then { s with stack := k } else
          { State.forget { s with stack := k } id with
            loop := { s.loop with
              sources := s.loop.sources.modify i ({ · with active := false }) } }) = s₁ at hs hend
      split at hs
      · cases hs
        exact ⟨hend, calls_none _⟩
      · have hscan := hend.scanIdle (i + 1) blocking true wake
        rw [Option.some.inj hs] at hscan
        exact hscan
    | dispatch i id type =>
      dsimp only at hs
      obtain ⟨hin, hout⟩ := hpop.finish i id hframe
      by_cases hdone : (!cont || type == .timeout) = true
      · simp only [hdone, if_true, Bool.and_true] at hs
        split at hs
        · rename_i hholds
          cases hs
          exact ⟨hin hholds, calls_none _⟩
        · rename_i hholds
          cases hs
          exact ⟨hout (Bool.eq_false_iff.mpr hholds), calls_none _⟩
      · simp only [hdone, Bool.false_eq_true, if_false, Bool.and_false] at hs
        cases hs
        exact ⟨hpop, calls_none _⟩
    | key i id =>
      dsimp only at hs ho
      obtain ⟨hin, hout⟩ := hpop.finish i id hframe
      cases cont with
      | true =>
        simp only [if_true] at hs
        split at hs
        · rename_i hholds
          obtain ⟨src, hi, rfl⟩ := holds_iff.mp hholds
          have hread := hpop.readKey hi fun hkey => by
            have hact := ho rfl hkey hholds
            unfold AxlLoop.activeAt at hact
            rw [show s.loop.sources[i]? = some src from hi] at hact
            exact hact
          rw [Option.some.inj hs] at hread
          exact hread
        · cases hs
          exact ⟨hpop, calls_none _⟩
      | false =>
        simp only [Bool.false_eq_true, if_false] at hs
        split at hs
        · rename_i hholds
          cases hs
          exact ⟨hin hholds, calls_none _⟩
        · rename_i hholds
          cases hs
          exact ⟨hout (Bool.eq_false_iff.mpr hholds), calls_none _⟩

theorem Inv.register (h : Inv s) (hwrap : s.loop.nextSourceId.toNat + 1 < 2 ^ 64)
    (type : SourceType) (event : Option Handle) (callback : Nat) :
    Inv (s.register type event false callback) := by
  unfold State.register
  cases hfull : s.loop.full with
  | true =>
    rw [addSource_eq_none hfull]
    exact h
  | false =>
    obtain ⟨loop', i, hadd, hnext, hfree, hslots⟩ :=
      addSource_spec h.counter hfull type false (by simp) event callback
    rw [hadd]
    exact h.place hwrap rfl hnext hfree hslots (fun _ => rfl) (.inl ⟨rfl, rfl⟩)

theorem Inv.registerOwned (h : Inv s) (hwrap : s.loop.nextSourceId.toNat + 1 < 2 ^ 64)
    {type : SourceType} (htype : type ≠ .event ∧ type ≠ .idle) (callback : Nat) {backend : Backend}
    (hroom : backend = .armed → s.loop.full = false) :
    Inv (s.registerOwned type callback backend) := by
  cases backend with
  | none => exact h
  | unarmed =>
    have hfresh : Handle.own s.created.length ∉ s.created := by
      intro hmem
      obtain ⟨n, hn, heq⟩ := h.numbered _ hmem
      cases heq
      exact Nat.lt_irrefl _ hn
    refine { h with owned := ?_, unclosed := ?_, closedOnce := ?_, closedCreated := ?_,
                    numbered := ?_, frames := ?_ }
    · intro i src hi hact howns
      obtain ⟨e, hev, hcr, hcl⟩ := h.owned i src hi hact howns
      refine ⟨e, hev, mem_cons_of_mem _ hcr, fun hmem => ?_⟩
      rcases mem_cons.mp hmem with rfl | hmem
      · exact hfresh hcr
      · exact hcl hmem
    · intro e he hcl
      obtain ⟨hne, hcl⟩ := not_or.mp (fun hc => hcl (mem_cons.mpr hc))
      rcases mem_cons.mp he with rfl | he
      · exact absurd rfl hne
      · exact h.unclosed e he hcl
    · exact nodup_cons.mpr ⟨fun hmem => hfresh (h.closedCreated _ hmem), h.closedOnce⟩
    · intro e he
      rcases mem_cons.mp he with rfl | he
      · exact mem_cons_self
      · exact mem_cons_of_mem _ (h.closedCreated e he)
    · intro e he
      rcases mem_cons.mp he with rfl | he
      · exact ⟨_, by simp [State.registerOwned], rfl⟩
      · obtain ⟨n, hn, heq⟩ := h.numbered e he
        exact ⟨n, by simpa [State.registerOwned] using Nat.lt_succ_of_lt hn, heq⟩
    · intro f hf
      have := h.frames f hf
      cases f <;> exact this
  | armed =>
    obtain ⟨loop', i, hadd, hnext, hfree, hslots⟩ :=
      addSource_spec h.counter (hroom rfl) type true
        (fun hc => htype.1 hc.1) (some (.own s.created.length)) callback
    unfold State.registerOwned State.register
    dsimp only
    rw [hadd]
    exact h.place hwrap rfl hnext hfree hslots (fun hc => absurd hc htype.2)
      (.inr ⟨rfl, rfl, rfl⟩)

theorem Inv.add (h : Inv s) {request : Request} {callback : Nat}
    (ho : Orderly s (.add request callback)) : Inv (s.add callback request) := by
  obtain ⟨hwrap, hroom⟩ := ho
  cases request with
  | timer backend =>
    exact h.registerOwned hwrap (by decide) callback fun hb => hroom (by rw [hb]; rfl)
  | timeout backend =>
    exact h.registerOwned hwrap (by decide) callback fun hb => hroom (by rw [hb]; rfl)
  | protocol backend =>
    exact h.registerOwned hwrap (by decide) callback fun hb => hroom (by rw [hb]; rfl)
  | idle => exact h.register hwrap _ _ _
  | keyPress event => exact h.register hwrap _ _ _
  | event event => exact h.register hwrap _ _ _

theorem Inv.removeSource (h : Inv s) (id : UInt64) : Inv (s.removeSource id) := by
  unfold State.removeSource
  split
  · exact h
  · dsimp only
    split
    · rename_i i hfind
      obtain ⟨hlt, hp, -⟩ := findIdx?_eq_some_iff_getElem.mp hfind
      simp only [Bool.and_eq_true, beq_iff_eq] at hp
      have hi : s.loop.InSlot i s.loop.sources[i] := getElem?_eq_getElem hlt
      have := h.forget_retire hi
      rw [hp.1] at this
      exact this
    · rename_i hfind
      refine h.forget ?_
      intro i src hi hact hid
      have hall := findIdx?_eq_none_iff.mp hfind src (mem_of_getElem? hi)
      simp [hid, hact] at hall

theorem Inv.nextEvent (h : Inv s) (blocking broken : Bool) :
    Inv (s.nextEvent blocking broken) := by
  have hinv : Inv { s with loop := s.loop.start } := h.setLoop rfl rfl
  unfold State.nextEvent
  dsimp only
  split
  · exact hinv.setLoop rfl rfl
  · split
    · exact hinv
    · refine hinv.setStack ?_ ?_
      · intro f hf
        rcases mem_cons.mp hf with rfl | hf
        · trivial
        · exact hinv.frames f hf
      · intro f hf id hid
        rcases mem_cons.mp hf with rfl | hf
        · cases hid
        · exact hinv.frameKnown f hf id hid

/-- One orderly step keeps the invariant and calls an active source, if any. -/
theorem Inv.step {s' : State} (h : Inv s) {a : Action} {c : Option UInt64} (ho : Orderly s a)
    (hs : step s a = some (s', c)) : Inv s' ∧ Calls s' c := by
  cases a with
  | add request callback =>
    cases hs
    exact ⟨h.add ho, calls_none _⟩
  | remove id =>
    cases hs
    exact ⟨h.removeSource id, calls_none _⟩
  | quit =>
    cases hs
    exact ⟨h.setLoop rfl rfl, calls_none _⟩
  | setInterceptBreak b =>
    cases hs
    exact ⟨h.setLoop rfl rfl, calls_none _⟩
  | otherLoop =>
    cases hs
    refine ⟨?_, calls_none _⟩
    rw [if_neg h.counter]
    have hnat : (s.loop.nextSourceId + 1).toNat = s.loop.nextSourceId.toNat + 1 := by
      rw [UInt64.toNat_add]
      exact Nat.mod_eq_of_lt ho
    refine { h with counter := ?_, past := ?_, frames := ?_ }
    · intro h0
      have := congrArg UInt64.toNat h0
      rw [hnat] at this
      simp at this
    · intro r hr
      show r.id.toNat < (s.loop.nextSourceId + 1).toNat
      rw [hnat]
      exact Nat.lt_succ_of_lt (h.past r hr)
    · intro f hf
      have := h.frames f hf
      cases f <;> exact this
  | nextEvent blocking broken =>
    cases hs
    exact ⟨h.nextEvent blocking broken, calls_none _⟩
  | drained wake =>
    rw [EventLoop.step] at hs
    split at hs
    · rename_i blocking k hstack
      have hpop := h.pop hstack
      dsimp only at hs
      split at hs
      · cases hs
        exact ⟨hpop, calls_none _⟩
      · have hscan := hpop.scanIdle 0 blocking false wake
        rw [Option.some.inj hs] at hscan
        exact hscan
    · cases hs
  | dispatchEvent key =>
    have hdispatch := h.dispatchEvent key
    rw [Option.some.inj hs] at hdispatch
    exact hdispatch
  | ret cont key wake => exact h.ret ho hs

/-! ## The lifecycle of a source -/

/-- When the loop is freed, each of its events has been closed once. -/
theorem Inv.count_closed (h : Inv s) {e : Handle} (he : e ∈ s.created) :
    s.free.closed.count e = 1 := by
  let own : LoopSource → Option Handle := fun src =>
    if src.active && src.ownsEvent then src.event else none
  have hown : ∀ {src e}, own src = some e →
      src.active = true ∧ src.ownsEvent = true ∧ src.event = some e := by
    intro src e hsrc
    dsimp only [own] at hsrc
    split at hsrc
    · rename_i hc
      rw [Bool.and_eq_true] at hc
      exact ⟨hc.1, hc.2, hsrc⟩
    · cases hsrc
  -- the active slots own different events
  have hnodup : (s.loop.sources.filterMap own).Nodup := by
    refine pairwise_filterMap.mpr (pairwise_iff_getElem.mpr ?_)
    rintro i j hi hj hij e he e' he' rfl
    obtain ⟨hact, howns, hev⟩ := hown he
    obtain ⟨hact', howns', hev'⟩ := hown he'
    have := h.once i j _ _ (getElem?_eq_getElem hi) (getElem?_eq_getElem hj)
      hact hact' howns howns' (hev.trans hev'.symm)
    omega
  show ((s.loop.sources.filterMap own) ++ s.closed).count e = 1
  rw [count_append]
  by_cases hcl : e ∈ s.closed
  · have hnot : e ∉ s.loop.sources.filterMap own := by
      intro hmem
      obtain ⟨src, hsrc, hev⟩ := mem_filterMap.mp hmem
      obtain ⟨i, hi⟩ := getElem?_of_mem hsrc
      obtain ⟨hact, howns, hev⟩ := hown hev
      obtain ⟨e', hev', -, hncl⟩ := h.owned i src hi hact howns
      obtain rfl : e = e' := Option.some.inj (hev.symm.trans hev')
      exact hncl hcl
    rw [count_eq_zero_of_not_mem hnot, count_eq_one_of_mem h.closedOnce hcl]
  · obtain ⟨i, src, hi, hact, howns, hev⟩ := h.unclosed e he hcl
    have hmem : e ∈ s.loop.sources.filterMap own := by
      refine mem_filterMap.mpr ⟨src, mem_of_getElem? hi, ?_⟩
      simp [own, hact, howns, hev]
    rw [count_eq_one_of_mem hnodup hmem, count_eq_zero_of_not_mem hcl]

/-- What holds of a state: every source that was not removed is active as it was
registered, and freeing the loop leaves each of its events closed once. -/
structure Lifecycle (s : State) : Prop where
  kept : ∀ r ∈ s.registered, r.id ∉ s.removed →
    ∃ src ∈ s.loop.sources, src.active = true ∧ src.toRegistration = r
  closed : ∀ e ∈ s.created, s.free.closed.count e = 1

theorem Inv.lifecycle (h : Inv s) : Lifecycle s := by
  refine ⟨?_, fun e he => h.count_closed he⟩
  intro r hr hrem
  obtain ⟨i, src, hi, hact, hreg⟩ := h.kept r hr hrem
  exact ⟨src, mem_of_getElem? hi, hact, hreg⟩

theorem Inv.run {s s' : State} (h : Inv s) {as : List Action} (ho : OrderlyRun s as)
    (hrun : run s as = some s') : Inv s' := by
  induction as generalizing s with
  | nil =>
    cases hrun
    exact h
  | cons a as ih =>
    obtain ⟨hoa, hrest⟩ := ho
    rw [EventLoop.run] at hrun
    cases hs : EventLoop.step s a with
    | none =>
      rw [hs] at hrun
      cases hrun
    | some p =>
      obtain ⟨s₁, c⟩ := p
      rw [hs] at hrun hrest
      exact ih (h.step hoa hs).1 hrest hrun

/-- Along every orderly run, sources live as the API says, and no step calls a
source that was removed. -/
theorem run_lifecycle (as : List Action) {s : State} (ho : OrderlyRun State.new as)
    (hrun : run State.new as = some s) :
    Lifecycle s ∧ ∀ a s' id, Orderly s a → step s a = some (s', some id) → id ∉ s'.removed := by
  have h := inv_new.run ho hrun
  refine ⟨h.lifecycle, ?_⟩
  intro a s' id hoa hs
  obtain ⟨h', hcalls⟩ := h.step hoa hs
  obtain ⟨i, src, hi, hact, rfl⟩ := hcalls id rfl
  exact (h'.live i src hi hact).2

/-- A timer whose callback removes it and adds a timeout, which takes its slot. -/
def reuseRun : List Action :=
  [.add (.timer .armed) 7, .nextEvent true false, .drained (.source 0), .dispatchEvent none,
    .remove 1, .add (.timeout .armed) 8, .ret false none .nothing]

/-- The return of the timer's callback does not touch the timeout in its slot. -/
theorem run_lifecycle_reuse :
    ∃ s, run State.new reuseRun = some s ∧ s.loop.sources.length = 1 ∧ Lifecycle s :=
  ⟨_, rfl, rfl, (run_lifecycle reuseRun (by decide) rfl).1⟩

/-- The three exceptions: a key callback that removes its source is called again
for the next key; an idle callback that removes itself and adds a timer takes the
timer down with its return; and a timer that finds no slot leaves its event open. -/
theorem exceptions_break_lifecycle :
    (∃ s s', run State.new [.add (.keyPress none) 7, .nextEvent true false, .drained .poll,
        .dispatchEvent (some ⟨false⟩), .remove 1] = some s ∧
      step s (.ret true (some ⟨false⟩) .nothing) = some (s', some 1) ∧ 1 ∈ s'.removed) ∧
    (∃ s, run State.new [.add .idle 7, .nextEvent true false, .drained .nothing, .remove 1,
        .add (.timer .armed) 8, .ret false none .nothing] = some s ∧ ¬ Lifecycle s) ∧
    ∃ s, run State.new (List.replicate 64 (.add .idle 7) ++ [.add (.timer .armed) 8]) = some s ∧
      ¬ Lifecycle s := by
  refine ⟨⟨_, _, rfl, rfl, by decide⟩, ⟨_, rfl, ?_⟩, ⟨_, rfl, ?_⟩⟩
  · intro h
    obtain ⟨src, hsrc, hact, -⟩ := h.kept ⟨2, .timer, true, some (.own 0), 8⟩ (by decide) (by decide)
    revert hact
    revert src
    decide
  · intro h
    have := h.closed (.own 0) (by decide +kernel)
    revert this
    decide +kernel

end EventLoop

end AxlSdk
