import AxlSdk.Lib.Runs
import AxlSdk.Data.RingBuf.Records

/-!
# Messages in the ring buffer

A message is a header of four bytes with the length, and the payload. `push_msg` compares
the free bytes with header plus payload in 32 bits: from a length of `2 ^ 32 - 4` on the
sum wraps, and what is pushed is the header with as much of the payload as fits.

- `Framed r accepted popped`: the ring holds the messages that were accepted and not yet
  popped.
- `messages_whole_iff`: a run is all-or-nothing, and its messages come out as they went in,
  exactly if no push gets through by the wrap.
-/

namespace AxlSdk

namespace RingBuf

open Runs List

/-! ## The message layer -/

/-- The bytes of a `uint32_t` in memory. -/
def le32 (n : Nat) : List UInt8 :=
  [UInt8.ofNat n, UInt8.ofNat (n / 2 ^ 8), UInt8.ofNat (n / 2 ^ 16), UInt8.ofNat (n / 2 ^ 24)]

/-- The `uint32_t` that four bytes in memory are. -/
def readLe32 : List UInt8 → Nat
  | [a, b, c, d] => a.toNat + 2 ^ 8 * b.toNat + 2 ^ 16 * c.toNat + 2 ^ 24 * d.toNat
  | _ => 0

/-- `axl_ring_buf_push_msg` of the `len` bytes at `data`; the result is `true` for
`AXL_OK`. -/
def pushMsg (rb : Ring) (data : Nat → UInt8) (len : UInt32) : Bool × Ring :=
  let total := u32 (4 + len.toNat)
  if !rb.overwrite && writable rb < total then (false, reject rb total)
  else
    let rb := (push rb (le32 len.toNat)).2
    (true, if len > 0 then (push rb (bytesAt data len.toNat)).2 else rb)

/-- `ring_buf_msg_read_internal`; the bytes are what it leaves in `dest`, their number is
`*actual_len`. -/
def msgReadInternal (rb : Ring) (maxLen : UInt32) (consume : Bool) : Option (List UInt8) × Ring :=
  let readable := readable rb
  if readable < 4 then (none, rb)
  else
    let msgLen := readLe32 (copyOut rb 4 rb.readPos)
    if readable < u32 (4 + msgLen) then (none, rb)
    else if maxLen.toNat < msgLen then (none, rb)
    else if consume then
      let rb := { rb with readPos := u32 (rb.readPos + 4) }
      if msgLen > 0 then
        let r := pop rb msgLen
        (some r.1, r.2)
      else (some [], rb)
    else (some (if msgLen > 0 then copyOut rb msgLen (u32 (rb.readPos + 4)) else []), rb)

/-- `axl_ring_buf_pop_msg`. -/
def popMsg (rb : Ring) (maxLen : UInt32) : Option (List UInt8) × Ring :=
  msgReadInternal rb maxLen true

/-- `axl_ring_buf_peek_msg`. -/
def peekMsg (rb : Ring) (maxLen : UInt32) : Option (List UInt8) × Ring :=
  msgReadInternal rb maxLen false

/-- `axl_ring_buf_peek_msg_size`. -/
def peekMsgSize (rb : Ring) : Nat :=
  if readable rb < 4 then 0 else readLe32 (copyOut rb 4 rb.readPos)

/-- The calls of a run; peeking changes nothing. -/
inductive MsgOp where
  | push (data : Nat → UInt8) (len : UInt32)
  | pop (maxLen : UInt32)

/-- A ring with the payloads it accepted and the payloads that were popped. -/
structure Mailbox where
  ring : Ring
  accepted : List (List UInt8)
  popped : List (List UInt8)

/-- The result of a push, written down. -/
def Mailbox.pushed (m : Mailbox) (payload : List UInt8) (r : Bool × Ring) : Mailbox :=
  { m with ring := r.2, accepted := if r.1 then m.accepted ++ [payload] else m.accepted }

/-- The result of a pop, written down. -/
def Mailbox.read (m : Mailbox) (r : Option (List UInt8) × Ring) : Mailbox :=
  { m with ring := r.2, popped := m.popped ++ r.1.toList }

/-- A call, with its result written down. -/
def execMsg (m : Mailbox) : MsgOp → Mailbox
  | .push data len => m.pushed (bytesAt data len.toNat) (pushMsg m.ring data len)
  | .pop maxLen => m.read (popMsg m.ring maxLen)

/-! ## All or nothing -/

/-- The bytes to be read from a ring. -/
def contents (rb : Ring) : List UInt8 := peek rb (readable rb)

/-- A message as it is stored. -/
def frame (payload : List UInt8) : List UInt8 := le32 payload.length ++ payload

/-- A push of `payload` stored the whole message, or reported failure and left the bytes
as they were. -/
def Stored (rb : Ring) (payload : List UInt8) (r : Bool × Ring) : Prop :=
  (r.1 = true ∧ contents r.2 = contents rb ++ frame payload) ∨
    (r.1 = false ∧ r.2.buf = rb.buf ∧ r.2.readPos = rb.readPos ∧ r.2.writePos = rb.writePos)

/-- Every push is all-or-nothing. -/
def AllOrNothing (m : Mailbox) : MsgOp → Prop
  | .push data len => Stored m.ring (bytesAt data len.toNat) (pushMsg m.ring data len)
  | .pop _ => True

/-- The message that a reader with room for `maxLen` bytes gets. -/
def fitting (maxLen : UInt32) (payload : List UInt8) : Option (List UInt8) :=
  if payload.length ≤ maxLen.toNat then some payload else none

/-- What is read is what was accepted, in order: `waiting` is what is still to come. -/
def InOrder (m : Mailbox) : Prop :=
  ∃ waiting, m.accepted = m.popped ++ waiting ∧
    (∀ maxLen, (peekMsg m.ring maxLen).1 = waiting.head?.bind (fitting maxLen)) ∧
    (∀ maxLen, (popMsg m.ring maxLen).1 = waiting.head?.bind (fitting maxLen)) ∧
    peekMsgSize m.ring = waiting.head?.elim 0 List.length

/-- The sum of header and payload wraps and the free bytes look enough for it. -/
def Overflows (m : Mailbox) : MsgOp → Prop
  | .push _ len => 2 ^ 32 - 4 ≤ len.toNat ∧ len.toNat - (2 ^ 32 - 4) ≤ writable m.ring
  | .pop _ => False

/-! ## What a ring of messages stands for -/

theorem length_le32 (n : Nat) : (le32 n).length = 4 := rfl

theorem readLe32_le32 {n : Nat} (hn : n < 2 ^ 32) : readLe32 (le32 n) = n := by
  simp only [le32, readLe32, UInt8.toNat_ofNat']
  omega

theorem length_frame (payload : List UInt8) : (frame payload).length = 4 + payload.length := by
  rw [frame, length_append, length_le32]

theorem Contains.contents_eq {rb : Ring} {bytes : List UInt8} (h : Contains rb bytes) :
    contents rb = bytes := by
  rw [contents, h.peek_eq, h.readable_eq, take_length]

/-- The ring holds the messages that wait, one after the other. -/
structure Framed (m : Mailbox) (waiting : List (List UInt8)) : Prop where
  rejects : m.ring.overwrite = false
  inOrder : m.accepted = m.popped ++ waiting
  holds : Contains m.ring (waiting.flatMap frame)

/-- The body of the reader, with the length of the message known. -/
theorem msgReadInternal_eq {rb : Ring} {n : Nat} (h4 : ¬ readable rb < 4)
    (hlen : readLe32 (copyOut rb 4 rb.readPos) = n) (hall : ¬ readable rb < u32 (4 + n))
    (maxLen : UInt32) (consume : Bool) :
    msgReadInternal rb maxLen consume =
      if maxLen.toNat < n then (none, rb)
      else if consume then
        if n > 0 then (some (pop { rb with readPos := u32 (rb.readPos + 4) } n).1,
          (pop { rb with readPos := u32 (rb.readPos + 4) } n).2)
        else (some [], { rb with readPos := u32 (rb.readPos + 4) })
      else (some (if n > 0 then copyOut rb n (u32 (rb.readPos + 4)) else []), rb) := by
  unfold msgReadInternal
  dsimp only
  rw [if_neg h4, hlen, if_neg hall]

/-- A message at the front: what the reader of it finds. -/
theorem msgReadInternal_spec {rb : Ring} {payload : List UInt8} {rest : List UInt8}
    (h : Contains rb (frame payload ++ rest)) (maxLen : UInt32) :
    (∀ consume, (msgReadInternal rb maxLen consume).1 = fitting maxLen payload) ∧
      (maxLen.toNat < payload.length → (msgReadInternal rb maxLen true).2 = rb) ∧
      (payload.length ≤ maxLen.toNat → Contains (msgReadInternal rb maxLen true).2 rest ∧
        (msgReadInternal rb maxLen true).2.overwrite = rb.overwrite) ∧
      peekMsgSize rb = payload.length := by
  have hread := h.readable_eq
  have hle := h.length_le
  have hsize := h.size_le
  have hlen := length_frame payload
  rw [length_append] at hread hle
  have hhead : copyOut rb 4 rb.readPos = le32 payload.length := by
    rw [h.front_eq (by rw [length_append]; omega), frame, append_assoc,
      take_left' (length_le32 _)]
  have hdecode : readLe32 (copyOut rb 4 rb.readPos) = payload.length := by
    rw [hhead, readLe32_le32 (by omega)]
  have htotal : ¬ readable rb < u32 (4 + payload.length) := by
    rw [u32_of_lt (by omega)]
    omega
  have hbody : (frame payload ++ rest).drop 4 = payload ++ rest := by
    rw [frame, append_assoc, drop_left' (length_le32 _)]
  have hnext := h.advance (by rw [length_append]; omega : 4 ≤ (frame payload ++ rest).length)
  rw [hbody] at hnext
  have hpop := hnext.pop payload.length
  rw [drop_left] at hpop
  have hgot := hnext.pop_fst payload.length
  rw [take_left] at hgot
  have hpeek : copyOut rb payload.length (u32 (rb.readPos + 4)) = payload := by
    rw [h.copyOut_eq (by rw [length_append]; omega), hbody, take_left]
  have h4 : ¬ readable rb < 4 := by omega
  have heq := msgReadInternal_eq h4 hdecode htotal maxLen
  have hsize' : peekMsgSize rb = payload.length := by rw [peekMsgSize, if_neg h4, hdecode]
  generalize msgReadInternal rb maxLen = reader at *
  have hover : { rb with readPos := u32 (rb.readPos + 4) }.overwrite = rb.overwrite := rfl
  generalize { rb with readPos := u32 (rb.readPos + 4) } = ahead at *
  refine ⟨fun consume => ?_, fun hlt => ?_, fun hfit => ?_, ?_⟩
  · rw [heq, fitting]
    by_cases hlt : maxLen.toNat < payload.length
    · rw [if_pos hlt, if_neg (by omega)]
    · rw [if_neg hlt, if_pos (by omega : payload.length ≤ maxLen.toNat)]
      by_cases h0 : payload.length > 0
      · cases consume with
        | true => simp only [if_true, if_pos h0, hgot]
        | false => simp only [Bool.false_eq_true, if_false, if_pos h0, hpeek]
      · have hnil : payload = [] := eq_nil_of_length_eq_zero (by omega)
        cases consume <;> simp [hnil]
  · rw [heq, if_pos hlt]
  · rw [heq, if_neg (by omega), if_pos rfl]
    by_cases h0 : payload.length > 0
    · rw [if_pos h0]
      exact ⟨hpop, (pop_keeps ahead payload.length).2.trans hover⟩
    · have hnil : payload = [] := eq_nil_of_length_eq_zero (by omega)
      rw [if_neg h0]
      rw [hnil, nil_append] at hnext
      exact ⟨hnext, hover⟩
  · exact hsize'

theorem msgReadInternal_empty {rb : Ring} (h : Contains rb []) (maxLen : UInt32) (consume : Bool) :
    msgReadInternal rb maxLen consume = (none, rb) ∧ peekMsgSize rb = 0 := by
  have hread : readable rb < 4 := by
    rw [h.readable_eq]
    exact Nat.succ_pos 3
  refine ⟨?_, by rw [peekMsgSize, if_pos hread]⟩
  unfold msgReadInternal
  dsimp only
  rw [if_pos hread]

namespace Framed

variable {m : Mailbox} {waiting : List (List UInt8)} (h : Framed m waiting)

include h

theorem inOrder_of : InOrder m := by
  refine ⟨waiting, h.inOrder, ?_⟩
  cases waiting with
  | nil =>
    have hholds := h.holds
    rw [flatMap_nil] at hholds
    have hempty := fun maxLen consume => msgReadInternal_empty hholds maxLen consume
    simp only [peekMsg, popMsg, (hempty _ _).1, (hempty 0 true).2, head?_nil,
      Option.bind_none, Option.elim_none, implies_true, and_self]
  | cons payload waiting =>
    have hholds := h.holds
    simp only [flatMap_cons] at hholds
    have hspec := fun maxLen => msgReadInternal_spec hholds maxLen
    simp only [peekMsg, popMsg, (hspec _).1, (hspec 0).2.2.2, head?_cons, Option.bind_some,
      Option.elim_some, implies_true, and_self]

theorem pop (maxLen : UInt32) : ∃ waiting', Framed (execMsg m (.pop maxLen)) waiting' := by
  rw [execMsg, popMsg]
  cases waiting with
  | nil =>
    have hholds := h.holds
    rw [flatMap_nil] at hholds
    rw [(msgReadInternal_empty hholds maxLen true).1]
    refine ⟨[], h.rejects, ?_, h.holds⟩
    rw [Mailbox.read, Option.toList_none, append_nil]
    exact h.inOrder
  | cons payload waiting =>
    have hholds := h.holds
    simp only [flatMap_cons] at hholds
    obtain ⟨hgot, hlong, hshort, -⟩ := msgReadInternal_spec hholds maxLen
    replace hgot := hgot true
    generalize msgReadInternal m.ring maxLen true = r at *
    obtain ⟨msg, rb⟩ := r
    dsimp only at hgot hlong hshort
    by_cases hfit : payload.length ≤ maxLen.toNat
    · obtain ⟨hrest, hover⟩ := hshort hfit
      refine ⟨waiting, hover.trans h.rejects, ?_, hrest⟩
      rw [fitting, if_pos hfit] at hgot
      rw [Mailbox.read, hgot, Option.toList_some, h.inOrder, append_assoc,
        singleton_append]
    · -- the message stays
      rw [fitting, if_neg hfit] at hgot
      rw [hgot, hlong (by omega)]
      refine ⟨payload :: waiting, h.rejects, ?_, h.holds⟩
      rw [Mailbox.read, Option.toList_none, append_nil]
      exact h.inOrder

/-- What is pushed when the comparison lets the message through. -/
theorem pushMsg_through (data : Nat → UInt8) (len : UInt32)
    (hthrough : ¬ writable m.ring < u32 (4 + len.toNat)) :
    pushMsg m.ring data len
      = (true, if len > 0 then (RingBuf.push (RingBuf.push m.ring (le32 len.toNat)).2
          (bytesAt data len.toNat)).2 else (RingBuf.push m.ring (le32 len.toNat)).2) := by
  unfold pushMsg
  dsimp only
  rw [h.rejects, if_neg (by simpa using hthrough)]

/-- A push that does not overflow either stores the message or changes no byte. -/
theorem push (data : Nat → UInt8) (len : UInt32) (hno : ¬ Overflows m (.push data len)) :
    AllOrNothing m (.push data len) ∧ ∃ waiting', Framed (execMsg m (.push data len)) waiting' := by
  have hw := h.holds.writable_eq
  have hle := h.holds.length_le
  have hsize := h.holds.size_le
  have hlen := len.toNat_lt
  rw [AllOrNothing, execMsg]
  rw [Overflows] at hno
  by_cases hrej : writable m.ring < u32 (4 + len.toNat)
  · have heq : pushMsg m.ring data len
        = (false, RingBuf.reject m.ring (u32 (4 + len.toNat))) := by
      unfold pushMsg
      dsimp only
      rw [h.rejects, if_pos (by simpa using hrej)]
    rw [heq]
    exact ⟨.inr ⟨rfl, rfl, rfl, rfl⟩, waiting, h.rejects, h.inOrder, h.holds.reject _⟩
  · -- without a wrap, header and payload fit
    have hfits : 4 + len.toNat ≤ m.ring.size - (waiting.flatMap frame).length := by
      rw [u32] at hrej
      omega
    have hheader := h.holds.push_fits (by rw [length_le32]; omega :
      (waiting.flatMap frame).length + (le32 len.toNat).length ≤ m.ring.size)
    have hkept := push_keeps m.ring (le32 len.toNat)
    have hframe : le32 len.toNat ++ bytesAt data len.toNat = frame (bytesAt data len.toNat) := by
      rw [frame, length_bytesAt]
    rw [h.pushMsg_through data len hrej]
    generalize (RingBuf.push m.ring (le32 len.toNat)).2 = rb at *
    have hstored : Contains (if len > 0 then (RingBuf.push rb (bytesAt data len.toNat)).2 else rb)
        (waiting.flatMap frame ++ frame (bytesAt data len.toNat)) ∧
          (if len > 0 then (RingBuf.push rb (bytesAt data len.toNat)).2 else rb).overwrite
            = false := by
      rw [← hframe, ← append_assoc]
      by_cases hpos : len > 0
      · rw [if_pos hpos]
        refine ⟨hheader.push_fits ?_, (push_keeps _ _).2.trans (hkept.2.trans h.rejects)⟩
        rw [hkept.1, length_append, length_le32, length_bytesAt]
        omega
      · have h0 : len.toNat = 0 := by
          have := UInt32.lt_iff_toNat_lt.not.mp hpos
          rw [UInt32.toNat_zero] at this
          omega
        rw [if_neg hpos, h0, bytesAt, range_zero, map_nil, append_nil, ← h0]
        exact ⟨hheader, hkept.2.trans h.rejects⟩
    generalize (if len > 0 then (RingBuf.push rb (bytesAt data len.toNat)).2 else rb) = rb' at *
    refine ⟨.inl ⟨rfl, ?_⟩, waiting ++ [bytesAt data len.toNat], hstored.2, ?_, ?_⟩
    · rw [hstored.1.contents_eq, h.holds.contents_eq]
    · rw [Mailbox.pushed, if_pos rfl, h.inOrder, append_assoc]
    · rw [flatMap_append, flatMap_singleton]
      exact hstored.1

/-- A push that overflows reports success, and the ring has no room for such a message. -/
theorem not_allOrNothing (data : Nat → UInt8) (len : UInt32)
    (hover : Overflows m (.push data len)) : ¬ AllOrNothing m (.push data len) := by
  have hlen := len.toNat_lt
  obtain ⟨hbig, hroom⟩ := hover
  have hthrough : ¬ writable m.ring < u32 (4 + len.toNat) := by
    rw [u32]
    omega
  have hpos : len > 0 := by
    refine UInt32.lt_iff_toNat_lt.mpr ?_
    rw [UInt32.toNat_zero]
    omega
  have hheader := h.holds.push_reject h.rejects (le32 len.toNat)
  have hkept := push_keeps m.ring (le32 len.toNat)
  have hbody := hheader.push_reject (hkept.2.trans h.rejects) (bytesAt data len.toNat)
  rw [AllOrNothing, h.pushMsg_through data len hthrough, if_pos hpos]
  generalize (RingBuf.push (RingBuf.push m.ring (le32 len.toNat)).2
    (bytesAt data len.toNat)).2 = rb at *
  rintro (⟨-, hcontents⟩ | ⟨hfalse, -⟩)
  · -- what the ring holds is shorter than the message
    have hshort := hbody.length_le
    have hsize := hbody.size_le
    rw [hbody.contents_eq] at hcontents
    rw [hcontents, length_append, length_frame, length_bytesAt] at hshort
    omega
  · cases hfalse

end Framed

/-! ## Runs -/

/-- An empty mailbox on a ring. -/
def Mailbox.on (rb : Ring) : Mailbox := ⟨rb, [], []⟩

theorem framed_init {buf : List UInt8} {rb : Ring} (h : init buf false = some rb) :
    Framed (Mailbox.on rb) [] := by
  refine ⟨?_, rfl, Contains.init h⟩
  unfold init at h
  split at h <;> cases h
  rfl

/-- **Messages are all-or-nothing, and come out as they went in**, exactly in the runs in
which no push overflows. -/
theorem messages_whole_iff {buf : List UInt8} {rb : Ring} (hinit : init buf false = some rb)
    (ops : List MsgOp) :
    (EveryStep execMsg AllOrNothing (Mailbox.on rb) ops ∧
      EveryState execMsg InOrder (Mailbox.on rb) ops) ↔
      EveryStep execMsg (fun m op => ¬ Overflows m op) (Mailbox.on rb) ops := by
  have hstart : ∃ waiting, Framed (Mailbox.on rb) waiting := ⟨[], framed_init hinit⟩
  have hkeep : ∀ m op, (∃ waiting, Framed m waiting) → ¬ Overflows m op →
      ∃ waiting, Framed (execMsg m op) waiting := by
    rintro m op ⟨waiting, h⟩ hno
    cases op with
    | push data len => exact (h.push data len hno).2
    | pop maxLen => exact h.pop maxLen
  have hiff : ∀ m op, (∃ waiting, Framed m waiting) → (AllOrNothing m op ↔ ¬ Overflows m op) := by
    rintro m op ⟨waiting, h⟩
    cases op with
    | push data len =>
      exact ⟨fun hall hover => h.not_allOrNothing data len hover hall,
        fun hno => (h.push data len hno).1⟩
    | pop maxLen => exact ⟨fun _ => id, fun _ => trivial⟩
  rw [everyStep_iff (I := fun m => ∃ waiting, Framed m waiting) hstart hiff hkeep]
  refine and_iff_left_of_imp fun hsteps => ?_
  have hstates := hsteps.invariant (I := fun m => ∃ waiting, Framed m waiting) hstart hkeep
  intro pre post heq
  obtain ⟨waiting, h⟩ := hstates pre post heq
  exact h.inOrder_of

/-- Two bytes go through a ring of eight. -/
theorem messages_whole_iff_two_bytes : ∃ rb, init [0, 0, 0, 0, 0, 0, 0, 0] false = some rb ∧
    EveryState execMsg InOrder (Mailbox.on rb) [.push (fun _ => 7) 2, .pop 4] := by
  refine ⟨_, rfl, ((@messages_whole_iff [0, 0, 0, 0, 0, 0, 0, 0] _ rfl _).mpr ?_).2⟩
  refine everyStep_cons.mpr ⟨fun hover => absurd hover.1 (by decide), ?_⟩
  exact everyStep_cons.mpr ⟨id, everyStep_nil⟩

/-- A length of `2 ^ 32 - 1` wraps to a total of three: the push into a ring of eight bytes
reports success, and cannot have stored the message. -/
theorem wrapped_length_stored : ∃ rb, init [0, 0, 0, 0, 0, 0, 0, 0] false = some rb ∧
    ¬ EveryStep execMsg AllOrNothing (Mailbox.on rb) [.push (fun _ => 7) 0xFFFFFFFF] := by
  refine ⟨_, rfl, fun hall => ?_⟩
  have hstep := (everyStep_cons.mp hall).1
  have hstart := @framed_init [0, 0, 0, 0, 0, 0, 0, 0] _ rfl
  exact hstart.not_allOrNothing (fun _ => 7) 0xFFFFFFFF ⟨by decide, by decide⟩ hstep

end RingBuf

end AxlSdk
