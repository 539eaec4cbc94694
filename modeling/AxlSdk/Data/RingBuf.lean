import AxlSdk.Lib.Circular

/-!
# The ring buffer (`src/data/axl-ring-buf.c`)

`read_pos` and `write_pos` are free-running `uint32_t` indices; they are masked
only to address the buffer. The byte layer is modelled, with the two zero-copy
interfaces: `peek_regions` and `pop_advance`, `push_regions` and `push_advance`.
What a client writes into the regions of `push_regions` is a call of its own,
`stage`.

- `Holds rb q`: the ring holds the queue `q`; the view from `read_pos` is `q`
  and then the spare bytes.
- `run_fifo`: the ring is a bounded queue along every run.
-/

namespace AxlSdk

namespace RingBuf

open Circular List

/-! ## The ring -/

/-- `uint32_t` and `uint64_t` arithmetic. -/
def u32 (n : Nat) : Nat := n % 2 ^ 32

def u64 (n : Nat) : Nat := n % 2 ^ 64

/-- `a - b` on `uint32_t`. -/
def sub32 (a b : Nat) : Nat := (a + 2 ^ 32 - b) % 2 ^ 32

/-- `AxlRingBuf`, without the fields of the element layer and the deallocator. -/
structure Ring where
  buf : List UInt8
  size : Nat
  mask : Nat
  readPos : Nat
  writePos : Nat
  overwrite : Bool
  pushesTotal : Nat
  pushesLost : Nat
  deriving DecidableEq, Repr

/-- `is_pow2`. -/
def isPow2 (v : Nat) : Bool := v > 0 && v &&& (v - 1) == 0

/-- `axl_ring_buf_init` on a buffer of `size` bytes; `size` is a `uint32_t`. -/
def init (buf : List UInt8) (overwrite : Bool) : Option Ring :=
  if buf.length < 2 ^ 32 ∧ isPow2 buf.length then
    some ⟨buf, buf.length, buf.length - 1, 0, 0, overwrite, 0, 0⟩
  else none

/-- `ring_readable`. -/
def readable (rb : Ring) : Nat := sub32 rb.writePos rb.readPos

/-- `ring_writable`. -/
def writable (rb : Ring) : Nat := sub32 rb.size (readable rb)

/-- `ring_copy_in`. -/
def copyIn (rb : Ring) (data : List UInt8) (pos : Nat) : List UInt8 :=
  let offset := pos &&& rb.mask
  let first := rb.size - offset
  if first ≥ data.length then write rb.buf offset data
  else write (write rb.buf offset (data.take first)) 0 (data.drop first)

/-- `ring_copy_out`. -/
def copyOut (rb : Ring) (len pos : Nat) : List UInt8 :=
  let offset := pos &&& rb.mask
  let first := rb.size - offset
  if first ≥ len then (rb.buf.drop offset).take len
  else rb.buf.drop offset ++ rb.buf.take (len - first)

/-- `axl_ring_buf_push`. -/
def push (rb : Ring) (data : List UInt8) : Nat × Ring :=
  if data = [] then (0, rb)
  else
    let origLen := data.length
    let writable := writable rb
    let rb := { rb with pushesTotal := u64 (rb.pushesTotal + origLen) }
    if rb.overwrite then
      -- only the last `size` bytes of the input can stay
      let inputDropped := origLen - rb.size
      let data := data.drop inputDropped
      let displacedOld := data.length - writable
      let rb := { rb with readPos := u32 (rb.readPos + displacedOld) }
      (data.length, { rb with
        buf := copyIn rb data rb.writePos
        writePos := u32 (rb.writePos + data.length)
        pushesLost := u64 (rb.pushesLost + (inputDropped + displacedOld)) })
    else
      let data := data.take writable
      if data = [] then (0, { rb with pushesLost := u64 (rb.pushesLost + origLen) })
      else
        (data.length, { rb with
          buf := copyIn rb data rb.writePos
          writePos := u32 (rb.writePos + data.length)
          pushesLost := u64 (rb.pushesLost + (origLen - data.length)) })

/-- `axl_ring_buf_peek`; the bytes are what it leaves in `dest`. -/
def peek (rb : Ring) (len : Nat) : List UInt8 :=
  let len := min len (readable rb)
  if len = 0 then [] else copyOut rb len rb.readPos

/-- `axl_ring_buf_discard` and `axl_ring_buf_pop_advance`. -/
def discard (rb : Ring) (len : Nat) : Nat × Ring :=
  let len := min len (readable rb)
  (len, { rb with readPos := u32 (rb.readPos + len) })

/-- `axl_ring_buf_pop`. -/
def pop (rb : Ring) (len : Nat) : List UInt8 × Ring :=
  let len := min len (readable rb)
  if len = 0 then ([], rb)
  else (copyOut rb len rb.readPos, { rb with readPos := u32 (rb.readPos + len) })

/-- An `AxlRingBufRegion`: its offset in the buffer and its length. -/
structure Region where
  offset : Nat
  len : Nat
  deriving DecidableEq, Repr

/-- The regions of `n` bytes from `pos` on. -/
def regionsAt (rb : Ring) (n pos : Nat) : List Region :=
  if n = 0 then []
  else
    let offset := pos &&& rb.mask
    let first := rb.size - offset
    if first ≥ n then [⟨offset, n⟩] else [⟨offset, first⟩, ⟨0, n - first⟩]

/-- `axl_ring_buf_peek_regions`. -/
def peekRegions (rb : Ring) : List Region := regionsAt rb (readable rb) rb.readPos

/-- `axl_ring_buf_push_regions`. -/
def pushRegions (rb : Ring) : List Region := regionsAt rb (writable rb) rb.writePos

/-- The bytes of a region. -/
def Region.bytes (rb : Ring) (r : Region) : List UInt8 := (rb.buf.drop r.offset).take r.len

/-- The bytes of some regions, in order. -/
def regionBytes (rb : Ring) (rs : List Region) : List UInt8 := rs.flatMap (Region.bytes rb)

/-- A client fills regions in order, as far as its bytes reach. -/
def fillRegions (buf : List UInt8) : List Region → List UInt8 → List UInt8
  | [], _ => buf
  | r :: rs, data => fillRegions (write buf r.offset (data.take r.len)) rs (data.drop r.len)

/-- A client writes into the regions of `axl_ring_buf_push_regions`. -/
def stage (rb : Ring) (data : List UInt8) : Ring :=
  { rb with buf := fillRegions rb.buf (pushRegions rb) data }

/-- `axl_ring_buf_push_advance`. -/
def pushAdvance (rb : Ring) (origLen : Nat) : Ring :=
  let len := min origLen (writable rb)
  { rb with
    writePos := u32 (rb.writePos + len)
    pushesTotal := u64 (rb.pushesTotal + origLen)
    pushesLost := u64 (rb.pushesLost + (origLen - len)) }

/-- `axl_ring_buf_clear`. -/
def clear (rb : Ring) : Ring :=
  { rb with readPos := 0, writePos := 0, pushesTotal := 0, pushesLost := 0 }

/-! ## Runs -/

/-- The calls of a run; peeking and looking at regions change nothing. -/
inductive Op where
  | push (data : List UInt8)
  | pop (len : Nat)
  | discard (len : Nat)
  | popAdvance (len : Nat)
  | stage (data : List UInt8)
  | pushAdvance (len : Nat)
  | clear

/-- The ring after a call. -/
def exec (rb : Ring) : Op → Ring
  | .push data => (push rb data).2
  | .pop len => (pop rb len).2
  | .discard len => (discard rb len).2
  | .popAdvance len => (discard rb len).2
  | .stage data => stage rb data
  | .pushAdvance len => pushAdvance rb len
  | .clear => clear rb

/-- The last `n` bytes. -/
def lastBytes (n : Nat) (l : List UInt8) : List UInt8 := l.drop (l.length - n)

/-- A bounded queue with its history since it was last cleared: the bytes that
went in, in order, and the bytes that were consumed. -/
structure Fifo where
  queue : List UInt8
  pushed : List UInt8
  taken : List UInt8

/-- The empty queue. -/
def Fifo.empty : Fifo := ⟨[], [], []⟩

/-- Append to the queue. -/
def Fifo.enqueue (q : Fifo) (data : List UInt8) : Fifo :=
  { q with queue := q.queue ++ data, pushed := q.pushed ++ data }

/-- Append to the queue and keep its last `size` bytes. -/
def Fifo.overwrite (size : Nat) (q : Fifo) (data : List UInt8) : Fifo :=
  { q with queue := lastBytes size (q.queue ++ data), pushed := q.pushed ++ data }

/-- Consume from the front. -/
def Fifo.dequeue (q : Fifo) (n : Nat) : Fifo :=
  { q with queue := q.queue.drop n, taken := q.taken ++ q.queue.take n }

/-- What a call does to the queue; `spare` is what the write regions hold. -/
def Fifo.exec (size : Nat) (overwrite : Bool) (spare : List UInt8) (q : Fifo) : Op → Fifo
  | .push data =>
    if overwrite then q.overwrite size data else q.enqueue (data.take (size - q.queue.length))
  | .pop len | .discard len | .popAdvance len => q.dequeue len
  | .stage _ => q
  | .pushAdvance len => q.enqueue (spare.take len)
  | .clear => Fifo.empty

/-- A ring and the queue it stands for, over a run. -/
def runFifo (rb : Ring) (q : Fifo) : List Op → Ring × Fifo
  | [] => (rb, q)
  | op :: ops =>
    runFifo (exec rb op)
      (q.exec rb.size rb.overwrite (regionBytes rb (pushRegions rb)) op) ops

/-! ## What a ring holds -/

/-- The ring holds the queue `q`: it is the front of the view from `read_pos`. -/
structure Holds (rb : Ring) (q spare : List UInt8) : Prop where
  pow : ∃ k ≤ 31, rb.size = 2 ^ k
  length : rb.buf.length = rb.size
  mask : rb.mask = rb.size - 1
  read : rb.readPos < 2 ^ 32
  write : rb.writePos = u32 (rb.readPos + q.length)
  view : rb.buf.rotate rb.readPos = q ++ spare

namespace Holds

variable {rb : Ring} {q spare : List UInt8} (h : Holds rb q spare)

include h

theorem size_pos : 0 < rb.size ∧ rb.size ≤ 2 ^ 31 := by
  obtain ⟨k, hk, hsize⟩ := h.pow
  rw [hsize]
  exact ⟨Nat.two_pow_pos k, Nat.pow_le_pow_right (by omega) hk⟩

theorem total : q.length + spare.length = rb.size := by
  rw [← length_append, ← h.view, length_rotate, h.length]

theorem readable_eq : readable rb = q.length := by
  have := h.read
  have := h.total
  have := h.size_pos
  rw [readable, sub32, h.write, u32]
  omega

theorem writable_eq : writable rb = spare.length := by
  have := h.total
  have := h.size_pos
  rw [writable, sub32, h.readable_eq]
  omega

theorem offset_eq (pos : Nat) : pos &&& rb.mask = pos % rb.size := by
  obtain ⟨k, -, hsize⟩ := h.pow
  rw [h.mask, hsize, Nat.and_two_pow_sub_one_eq_mod]

theorem offset_lt (pos : Nat) : pos % rb.size ≤ rb.buf.length := by
  rw [h.length]
  exact (Nat.mod_lt _ h.size_pos.1).le

omit h in
/-- Positions count modulo the size. -/
theorem rotate_mod {l : List UInt8} (hl : l.length = rb.size) (pos : Nat) :
    l.rotate (pos % rb.size) = l.rotate pos := by
  rw [← hl, List.rotate_mod]

/-- The wrap of an index does not move the view. -/
theorem rotate_u32 {l : List UInt8} (hl : l.length = rb.size) (n : Nat) :
    l.rotate (u32 n) = l.rotate n := by
  obtain ⟨k, hk, hsize⟩ := h.pow
  have hdvd : (2 : Nat) ^ k ∣ 2 ^ 32 := Nat.pow_dvd_pow 2 (by omega)
  rw [← rotate_mod hl, ← rotate_mod hl n, u32, hsize, Nat.mod_mod_of_dvd n hdvd]

theorem writeView : rb.buf.rotate rb.writePos = spare ++ q := by
  rw [h.write, h.rotate_u32 h.length]
  exact rotate_add_append h.view

theorem copyOut_eq {n : Nat} (hn : n ≤ rb.size) (pos : Nat) :
    copyOut rb n pos = (rb.buf.rotate pos).take n := by
  have hread := readAround_eq (h.offset_lt pos) (h.length.symm ▸ hn)
  rw [rotate_mod h.length] at hread
  rw [← hread]
  unfold copyOut readAround
  rw [h.offset_eq, h.length]

/-- `ring_copy_in` puts the bytes at the front of the view from `pos`. -/
theorem copyIn_spec {data : List UInt8} (hd : data.length ≤ rb.size) (pos : Nat) :
    (copyIn rb data pos).length = rb.size ∧
      (copyIn rb data pos).rotate pos = data ++ (rb.buf.rotate pos).drop data.length := by
  have hcopy : copyIn rb data pos = writeAround rb.buf (pos % rb.size) data := by
    unfold copyIn writeAround
    rw [h.offset_eq, h.length]
  have hlen := length_writeAround (h.offset_lt pos) (h.length.symm ▸ hd)
  have hrot := rotate_writeAround (h.offset_lt pos) (h.length.symm ▸ hd)
  rw [← hcopy, h.length] at hlen
  rw [← hcopy, rotate_mod hlen, rotate_mod h.length] at hrot
  exact ⟨hlen, hrot⟩

/-- The regions of `n` bytes expose the view. -/
theorem regionBytes_eq {n : Nat} (hn : n ≤ rb.size) (pos : Nat) :
    regionBytes rb (regionsAt rb n pos) = (rb.buf.rotate pos).take n := by
  rw [← h.copyOut_eq hn pos]
  unfold regionsAt copyOut
  split
  case isTrue h₀ => simp [regionBytes, h₀]
  case isFalse =>
    dsimp only
    split
    · simp [regionBytes, Region.bytes]
    · have hfull : (rb.buf.drop (pos &&& rb.mask)).take (rb.size - (pos &&& rb.mask))
          = rb.buf.drop (pos &&& rb.mask) := by
        refine take_of_length_le ?_
        rw [length_drop, h.length]
      simp [regionBytes, Region.bytes, hfull]

end Holds

/-! ## Consuming -/

theorem Holds.advance {rb : Ring} {q spare : List UInt8} (h : Holds rb q spare) {n : Nat}
    (hn : n ≤ q.length) :
    Holds { rb with readPos := u32 (rb.readPos + n) } (q.drop n) (spare ++ q.take n) := by
  have htotal := h.total
  have hsize := h.size_pos
  refine ⟨h.pow, h.length, h.mask, Nat.mod_lt _ (by omega), ?_, ?_⟩
  · show rb.writePos = u32 (u32 (rb.readPos + n) + (q.drop n).length)
    rw [h.write, length_drop, u32, u32, u32, Nat.mod_add_mod]
    congr 1
    omega
  · show rb.buf.rotate (u32 (rb.readPos + n)) = _
    have hview : rb.buf.rotate rb.readPos = q.take n ++ (q.drop n ++ spare) := by
      rw [← append_assoc, take_append_drop, h.view]
    have hrot := rotate_add_append hview
    rw [length_take, Nat.min_eq_left hn] at hrot
    rw [h.rotate_u32 h.length, hrot, append_assoc]

theorem Holds.peek_eq {rb : Ring} {q spare : List UInt8} (h : Holds rb q spare) (n : Nat) :
    peek rb n = q.take n := by
  have htotal := h.total
  unfold peek
  rw [h.readable_eq]
  dsimp only
  split
  case isTrue h₀ =>
    rcases Nat.min_eq_zero_iff.mp h₀ with hn | hq
    · rw [hn, take_zero]
    · rw [length_eq_zero_iff.mp hq, take_nil]
  case isFalse =>
    rw [h.copyOut_eq (by omega), h.view, take_append_of_le_length (by omega),
      ← take_eq_take_min]

theorem Holds.discard {rb : Ring} {q spare : List UInt8} (h : Holds rb q spare) (n : Nat) :
    (discard rb n).1 = min n q.length ∧
      ∃ spare', Holds (discard rb n).2 (q.drop n) spare' := by
  unfold RingBuf.discard
  rw [h.readable_eq]
  refine ⟨rfl, spare ++ q.take (min n q.length), ?_⟩
  have hadv := h.advance (Nat.min_le_right n q.length)
  rw [show q.drop (min n q.length) = q.drop n by
    by_cases hn : n ≤ q.length
    · rw [Nat.min_eq_left hn]
    · rw [Nat.min_eq_right (by omega), drop_length, drop_eq_nil_of_le (by omega)]] at hadv
  exact hadv

theorem u32_of_lt {n : Nat} (h : n < 2 ^ 32) : u32 n = n := Nat.mod_eq_of_lt h

theorem Holds.pop {rb : Ring} {q spare : List UInt8} (h : Holds rb q spare) (n : Nat) :
    (pop rb n).1 = q.take n ∧ (pop rb n).2 = (RingBuf.discard rb n).2 := by
  unfold RingBuf.pop RingBuf.discard
  dsimp only
  rw [← h.peek_eq n]
  unfold peek
  split
  case isTrue h₀ =>
    rw [h₀, if_pos rfl, Nat.add_zero, u32_of_lt h.read]
    exact ⟨rfl, rfl⟩
  case isFalse h₀ =>
    rw [if_neg h₀]
    exact ⟨rfl, rfl⟩

/-! ## Producing -/

/-- Bytes are written behind the queue; what does not fit pushes out the oldest
`data.length - spare.length` bytes. -/
theorem Holds.displace {rb : Ring} {q spare data : List UInt8} (h : Holds rb q spare)
    (hd : data.length ≤ rb.size) :
    Holds { rb with
        readPos := u32 (rb.readPos + (data.length - spare.length))
        buf := copyIn rb data rb.writePos
        writePos := u32 (rb.writePos + data.length) }
      (q.drop (data.length - spare.length) ++ data) (spare.drop data.length) := by
  have htotal := h.total
  obtain ⟨hlen, hrot⟩ := h.copyIn_spec hd rb.writePos
  refine ⟨h.pow, hlen, h.mask, Nat.mod_lt _ (by omega), ?_, ?_⟩
  · show u32 (rb.writePos + data.length) = u32 (u32 _ + _)
    rw [h.write, length_append, length_drop]
    simp only [u32, Nat.mod_add_mod]
    congr 1
    omega
  · show (copyIn rb data rb.writePos).rotate (u32 _) = _
    rw [h.rotate_u32 hlen, append_assoc]
    refine rotate_of_rotate_add ?_
    have hpos : rb.readPos + (data.length - spare.length)
        + (q.drop (data.length - spare.length)).length = rb.readPos + q.length := by
      rw [length_drop]
      omega
    rw [hpos, ← h.rotate_u32 hlen, ← h.write, hrot, h.writeView, drop_append,
      append_assoc]

/-- Bytes that fit push nothing out. -/
theorem Holds.append {rb : Ring} {q spare data : List UInt8} (h : Holds rb q spare)
    (hd : data.length ≤ spare.length) :
    Holds { rb with
        buf := copyIn rb data rb.writePos
        writePos := u32 (rb.writePos + data.length) }
      (q ++ data) (spare.drop data.length) := by
  have htotal := h.total
  have hdis := @Holds.displace rb q spare data h (by omega)
  rw [Nat.sub_eq_zero_of_le hd, Nat.add_zero, u32_of_lt h.read, drop_zero] at hdis
  exact hdis

/-- `axl_ring_buf_push_advance` takes over what the spare bytes hold. -/
theorem Holds.pushAdvance {rb : Ring} {q spare : List UInt8} (h : Holds rb q spare) (n : Nat) :
    ∃ spare', Holds (pushAdvance rb n) (q ++ spare.take n) spare' := by
  have htotal := h.total
  refine ⟨spare.drop n, h.pow, h.length, h.mask, h.read, ?_, ?_⟩
  · show u32 (rb.writePos + min n (writable rb)) = u32 (rb.readPos + (q ++ spare.take n).length)
    rw [h.write, h.writable_eq, length_append, length_take]
    simp only [u32, Nat.mod_add_mod]
    congr 1
    omega
  · show rb.buf.rotate rb.readPos = _
    rw [h.view, append_assoc, take_append_drop]

theorem write_nil (l : List UInt8) (off : Nat) : write l off [] = l := by
  rw [write, nil_append, length_nil, Nat.add_zero, take_append_drop]

/-- Filling the regions of `n` bytes is copying in what fits. -/
theorem fillRegions_eq (rb : Ring) (n pos : Nat) (data : List UInt8) :
    fillRegions rb.buf (regionsAt rb n pos) data = copyIn rb (data.take n) pos := by
  unfold regionsAt copyIn
  split
  case isTrue h₀ =>
    rw [h₀, take_zero, fillRegions, if_pos (by simp), write_nil]
  case isFalse =>
    dsimp only
    generalize rb.size - (pos &&& rb.mask) = first
    by_cases hfit : first ≥ n
    · have hlen : first ≥ (data.take n).length := by
        rw [length_take]
        omega
      rw [if_pos hfit, if_pos hlen]
      rfl
    · rw [if_neg hfit]
      have hlong : (data.take n).take first = data.take first := by
        rw [take_take, Nat.min_eq_left (by omega)]
      have hrest : (data.take n).drop first = (data.drop first).take (n - first) := drop_take
      rw [fillRegions, fillRegions, fillRegions, hlong, hrest]
      split
      case isTrue hshort =>
        -- the bytes end in the first region
        rw [length_take] at hshort
        have hdrop : data.drop first = [] := drop_eq_nil_of_le (by omega)
        have hfirst : data.take first = data := take_of_length_le (by omega)
        have hall : data.take n = data := take_of_length_le (by omega)
        rw [hdrop, take_nil, write_nil, hall, hfirst]
      case isFalse => rfl

/-- A client that writes into the write regions does not touch the queue. -/
theorem Holds.stage {rb : Ring} {q spare : List UInt8} (h : Holds rb q spare)
    (data : List UInt8) : ∃ spare', Holds (stage rb data) q spare' := by
  have htotal := h.total
  have hfill := fillRegions_eq rb (writable rb) rb.writePos data
  unfold RingBuf.stage pushRegions
  rw [hfill, h.writable_eq]
  have hle : (data.take spare.length).length ≤ spare.length := by
    rw [length_take]
    exact Nat.min_le_left _ _
  obtain ⟨hlen, hrot⟩ := @Holds.copyIn_spec rb q spare h (data.take spare.length) (by omega)
    rb.writePos
  refine ⟨data.take spare.length ++ spare.drop (data.take spare.length).length, h.pow, hlen,
    h.mask, h.read, h.write, ?_⟩
  refine rotate_of_rotate_add ?_
  dsimp only
  rw [← h.rotate_u32 hlen, ← h.write, hrot, h.writeView, drop_append_of_le_length hle,
    append_assoc]

/-! ## Runs -/

/-- The ring stands for the queue, and its counters for the history of it. -/
structure Tracks (rb : Ring) (q : Fifo) : Prop where
  holds : ∃ spare, Holds rb q.queue spare
  counters : rb.pushesTotal < 2 ^ 64 ∧ rb.pushesLost < 2 ^ 64
  balance : rb.pushesTotal % 2 ^ 64
    = (rb.pushesLost + (q.taken.length + q.queue.length)) % 2 ^ 64
  suffix : q.queue <:+ q.pushed
  fifo : rb.overwrite = false → q.pushed = q.taken ++ q.queue

theorem isPow2_iff {v : Nat} (h : isPow2 v = true) : ∃ k, v = 2 ^ k := by
  have h : v > 0 ∧ v &&& (v - 1) = 0 := by simpa [isPow2] using h
  exact (Nat.and_sub_one_eq_zero_iff_isPowerOfTwo (by omega)).mp h.2

theorem tracks_init {buf : List UInt8} {overwrite : Bool} {rb : Ring}
    (h : init buf overwrite = some rb) : Tracks rb Fifo.empty := by
  unfold init at h
  split at h
  case isFalse => cases h
  case isTrue hb =>
    cases h
    obtain ⟨k, hk⟩ := isPow2_iff hb.2
    have hk31 : k ≤ 31 := by
      by_contra hlt
      have : 2 ^ 32 ≤ 2 ^ k := Nat.pow_le_pow_right (by omega) (by omega)
      omega
    exact ⟨⟨buf, ⟨k, hk31, hk⟩, rfl, rfl, Nat.two_pow_pos 32, rfl, rotate_zero buf⟩,
      ⟨Nat.two_pow_pos 64, Nat.two_pow_pos 64⟩, rfl, suffix_rfl, fun _ => rfl⟩

theorem Tracks.dequeue {rb : Ring} {q : Fifo} (h : Tracks rb q) (n : Nat) :
    Tracks (RingBuf.discard rb n).2 (q.dequeue n) := by
  obtain ⟨⟨spare, hold⟩, hc, hb, hs, hf⟩ := h
  refine ⟨(hold.discard n).2, hc, ?_, (drop_suffix n _).trans hs, ?_⟩
  · refine hb.trans ?_
    simp only [RingBuf.discard, Fifo.dequeue, length_append, length_take,
      length_drop]
    congr 2
    omega
  · intro ho
    simp only [Fifo.dequeue, append_assoc, take_append_drop]
    exact hf ho

theorem Tracks.enqueue {rb rb' : Ring} {q : Fifo} (h : Tracks rb q) {data : List UInt8}
    (hold : ∃ spare, Holds rb' (q.queue ++ data) spare) (horig : rb'.overwrite = rb.overwrite)
    {n : Nat} (hn : data.length ≤ n) (htotal : rb'.pushesTotal = u64 (rb.pushesTotal + n))
    (hlost : rb'.pushesLost = u64 (rb.pushesLost + (n - data.length))) :
    Tracks rb' (q.enqueue data) := by
  obtain ⟨-, -, hb, hs, hf⟩ := h
  refine ⟨hold, ?_, ?_, ?_, ?_⟩
  · rw [htotal, hlost]
    exact ⟨Nat.mod_lt _ (by omega), Nat.mod_lt _ (by omega)⟩
  · rw [htotal, hlost]
    simp only [u64, Fifo.enqueue, length_append]
    omega
  · obtain ⟨l, hl⟩ := hs
    exact ⟨l, by rw [Fifo.enqueue, ← hl, append_assoc]⟩
  · intro ho
    rw [horig] at ho
    simp only [Fifo.enqueue, hf ho, append_assoc]

/-- `axl_ring_buf_push` in reject mode. -/
theorem Tracks.push_reject {rb : Ring} {q : Fifo} (h : Tracks rb q) (ho : rb.overwrite = false)
    (data : List UInt8) :
    (push rb data).1 = min data.length (rb.size - q.queue.length) ∧
      Tracks (push rb data).2 (q.enqueue (data.take (rb.size - q.queue.length))) := by
  obtain ⟨spare, hold⟩ := h.holds
  have htotal := hold.total
  have hfree : rb.size - q.queue.length = spare.length := by omega
  have hw := hold.writable_eq
  unfold push
  split
  case isTrue hnil =>
    subst hnil
    simpa [Fifo.enqueue] using h
  case isFalse hne =>
    simp only [ho, Bool.false_eq_true, if_false, hw, hfree]
    split
    case isTrue hnil =>
      have hzero : min data.length spare.length = 0 := by
        have := congrArg List.length hnil
        rw [length_take, length_nil] at this
        omega
      refine ⟨hzero.symm, ?_⟩
      rw [hnil]
      refine h.enqueue ?_ ho.symm (n := data.length) (Nat.zero_le _) rfl (by simp)
      rw [append_nil]
      exact ⟨spare, hold.pow, hold.length, hold.mask, hold.read, hold.write, hold.view⟩
    case isFalse hne' =>
      have hlen : (data.take spare.length).length ≤ spare.length := by
        rw [length_take]
        omega
      refine ⟨by rw [length_take, Nat.min_comm], h.enqueue ?_ ho.symm (n := data.length)
        (by rw [length_take]; omega) rfl rfl⟩
      obtain ⟨h₁, h₂, h₃, h₄, h₅, h₆⟩ := hold.append hlen
      exact ⟨_, h₁, h₂, h₃, h₄, h₅, h₆⟩

theorem suffix_append_right {a b : List UInt8} (h : a <:+ b) (c : List UInt8) :
    a ++ c <:+ b ++ c := by
  obtain ⟨l, rfl⟩ := h
  exact ⟨l, (append_assoc l a c).symm⟩

/-- `axl_ring_buf_push` in overwrite mode. -/
theorem Tracks.push_overwrite {rb : Ring} {q : Fifo} (h : Tracks rb q) (ho : rb.overwrite = true)
    (data : List UInt8) : Tracks (push rb data).2 (q.overwrite rb.size data) := by
  obtain ⟨spare, hold⟩ := h.holds
  have htotal := hold.total
  have hw := hold.writable_eq
  unfold push
  split
  case isTrue hnil =>
    subst hnil
    have hq : lastBytes rb.size q.queue = q.queue := by
      rw [lastBytes, Nat.sub_eq_zero_of_le (by omega), drop_zero]
    simpa [Fifo.overwrite, hq] using h
  case isFalse hne =>
    simp only [ho, if_true, hw]
    -- the input that can stay, and how much of the queue it pushes out
    generalize hkeep : data.drop (data.length - rb.size) = keep
    have hlen : keep.length = min data.length rb.size := by
      rw [← hkeep, length_drop]
      omega
    have hqueue : lastBytes rb.size (q.queue ++ data)
        = q.queue.drop (keep.length - spare.length) ++ keep := by
      rw [lastBytes, drop_append, ← hkeep, length_append, length_drop]
      by_cases hbig : data.length ≤ rb.size
      · rw [Nat.sub_eq_zero_of_le hbig, show q.queue.length + data.length - rb.size
          - q.queue.length = 0 by omega, show q.queue.length + data.length - rb.size
          = data.length - 0 - spare.length by omega]
      · rw [drop_eq_nil_of_le (by omega : q.queue.length ≤ _),
          drop_eq_nil_of_le (by omega : q.queue.length ≤ _), show q.queue.length + data.length
          - rb.size - q.queue.length = data.length - rb.size by omega]
    obtain ⟨h₁, h₂, h₃, h₄, h₅, h₆⟩ := @Holds.displace rb q.queue spare keep hold (by omega)
    obtain ⟨-, -, hb, hs, -⟩ := h
    refine ⟨?_, ⟨Nat.mod_lt _ (by omega), Nat.mod_lt _ (by omega)⟩, ?_, ?_, by simp⟩
    · rw [Fifo.overwrite, hqueue]
      exact ⟨_, h₁, h₂, h₃, h₄, h₅, h₆⟩
    · simp only [Fifo.overwrite, hqueue, length_append, length_drop, u64]
      omega
    · exact (drop_suffix _ _).trans (suffix_append_right hs data)

theorem Tracks.pushAdvance {rb : Ring} {q : Fifo} (h : Tracks rb q) (len : Nat) :
    Tracks (pushAdvance rb len)
      (q.enqueue ((regionBytes rb (pushRegions rb)).take len)) := by
  obtain ⟨spare, hold⟩ := h.holds
  have htotal := hold.total
  have hspare : regionBytes rb (pushRegions rb) = spare := by
    rw [pushRegions, hold.regionBytes_eq (by rw [hold.writable_eq]; omega), hold.writeView,
      hold.writable_eq, take_left]
  rw [hspare]
  refine h.enqueue (hold.pushAdvance len) rfl (n := len) (by rw [length_take]; omega) rfl ?_
  rw [length_take, ← hold.writable_eq]
  rfl

theorem Tracks.clear {rb : Ring} {q : Fifo} (h : Tracks rb q) : Tracks (clear rb) Fifo.empty := by
  obtain ⟨spare, hold⟩ := h.holds
  exact ⟨⟨rb.buf, hold.pow, hold.length, hold.mask, Nat.two_pow_pos 32, rfl,
    rotate_zero rb.buf⟩, ⟨Nat.two_pow_pos 64, Nat.two_pow_pos 64⟩, rfl, suffix_rfl,
    fun _ => rfl⟩

theorem push_keeps (rb : Ring) (data : List UInt8) :
    (push rb data).2.size = rb.size ∧ (push rb data).2.overwrite = rb.overwrite := by
  by_cases hnil : data = []
  · simp only [push, hnil, if_true, and_self]
  · simp only [push, hnil, if_false]
    by_cases ho : rb.overwrite = true
    · simp only [ho, if_true, and_self]
    · simp only [ho, Bool.false_eq_true, if_false]
      by_cases hfull : data.take (writable rb) = []
      · simp only [hfull, if_true, and_self]
      · simp only [hfull, if_false, and_self]

theorem Tracks.stage {rb : Ring} {q : Fifo} (h : Tracks rb q) (data : List UInt8) :
    Tracks (stage rb data) q := by
  obtain ⟨spare, hold⟩ := h.holds
  have hold' := hold.stage data
  unfold RingBuf.stage at hold' ⊢
  exact ⟨hold', h.counters, h.balance, h.suffix, h.fifo⟩

/-- No call changes the size or the mode. -/
theorem exec_keeps (rb : Ring) (op : Op) :
    (exec rb op).size = rb.size ∧ (exec rb op).overwrite = rb.overwrite := by
  cases op with
  | push data => exact push_keeps rb data
  | pop len =>
    by_cases h₀ : min len (readable rb) = 0
    · simp only [exec, pop, h₀, if_true, and_self]
    · simp only [exec, pop, h₀, if_false, and_self]
  | discard len | popAdvance len => simp only [exec, discard, and_self]
  | stage data => constructor <;> rw [exec, stage]
  | pushAdvance len => simp only [exec, pushAdvance, and_self]
  | clear => simp only [exec, clear, and_self]

/-- **Every call keeps the ring and the queue together.** -/
theorem Tracks.exec {rb : Ring} {q : Fifo} (h : Tracks rb q) (op : Op) :
    Tracks (exec rb op) (q.exec rb.size rb.overwrite (regionBytes rb (pushRegions rb)) op) := by
  obtain ⟨spare, hold⟩ := h.holds
  cases op with
  | push data =>
    cases ho : rb.overwrite with
    | false => exact (h.push_reject ho data).2
    | true => exact h.push_overwrite ho data
  | pop len =>
    have hpop : RingBuf.exec rb (.pop len) = (RingBuf.discard rb len).2 := (hold.pop len).2
    rw [hpop]
    exact h.dequeue len
  | discard len | popAdvance len => exact h.dequeue len
  | stage data => exact h.stage data
  | pushAdvance len => exact h.pushAdvance len
  | clear => exact h.clear

theorem Tracks.run {rb : Ring} {q : Fifo} (h : Tracks rb q) (ops : List Op) :
    Tracks (runFifo rb q ops).1 (runFifo rb q ops).2 ∧ (runFifo rb q ops).1.size = rb.size ∧
      (runFifo rb q ops).1.overwrite = rb.overwrite := by
  induction ops generalizing rb q with
  | nil => exact ⟨h, rfl, rfl⟩
  | cons op ops ih =>
    obtain ⟨hsize, ho⟩ := exec_keeps rb op
    obtain ⟨h₁, h₂, h₃⟩ := ih (h.exec op)
    exact ⟨h₁, h₂.trans hsize, h₃.trans ho⟩

/-- `pushes_total - pushes_lost` on `uint64_t`. -/
def sub64 (a b : Nat) : Nat := (a + 2 ^ 64 - b) % 2 ^ 64

/-- What can be seen of a ring that holds the queue. -/
structure Shows (rb : Ring) (q : Fifo) : Prop where
  readable : readable rb = q.queue.length
  bounded : q.queue.length ≤ rb.size
  peek : ∀ n, peek rb n = q.queue.take n
  pop : ∀ n, (pop rb n).1 = q.queue.take n
  regions : regionBytes rb (peekRegions rb) = q.queue
  accepted : rb.overwrite = false → ∀ data,
    (push rb data).1 = min data.length (rb.size - q.queue.length)
  suffix : q.queue <:+ q.pushed
  fifo : rb.overwrite = false → q.pushed = q.taken ++ q.queue
  counters : sub64 rb.pushesTotal rb.pushesLost = u64 (q.taken.length + q.queue.length)

theorem Tracks.shows {rb : Ring} {q : Fifo} (h : Tracks rb q) : Shows rb q := by
  obtain ⟨spare, hold⟩ := h.holds
  have htotal := hold.total
  refine ⟨hold.readable_eq, by omega, hold.peek_eq, fun n => (hold.pop n).1, ?_,
    fun ho data => (h.push_reject ho data).1, h.suffix, h.fifo, ?_⟩
  · rw [peekRegions, hold.regionBytes_eq (by rw [hold.readable_eq]; omega), hold.view,
      hold.readable_eq, take_left]
  · have hb := h.balance
    have hc := h.counters
    unfold sub64 u64
    omega

/-- **The ring is a bounded queue**, in either mode, along every run, however
often the indices wrap. -/
theorem run_fifo {buf : List UInt8} {overwrite : Bool} {rb : Ring}
    (h : init buf overwrite = some rb) (ops : List Op) :
    (runFifo rb Fifo.empty ops).1 = ops.foldl exec rb ∧
      Shows (runFifo rb Fifo.empty ops).1 (runFifo rb Fifo.empty ops).2 ∧
      (runFifo rb Fifo.empty ops).1.size = buf.length ∧
      (runFifo rb Fifo.empty ops).1.overwrite = overwrite := by
  have hfold : ∀ (rb : Ring) (q : Fifo), (runFifo rb q ops).1 = ops.foldl RingBuf.exec rb := by
    induction ops with
    | nil => exact fun _ _ => rfl
    | cons op ops ih => exact fun rb q => ih _ _
  obtain ⟨htracks, hsize, ho⟩ := (tracks_init h).run ops
  refine ⟨hfold rb Fifo.empty, htracks.shows, hsize.trans ?_, ho.trans ?_⟩
  all_goals
    unfold init at h
    split at h <;> cases h
    rfl

/-- Four bytes in overwrite mode: the third call pushes out the two oldest bytes
that are left. -/
theorem run_fifo_four_bytes : ∃ rb, init [0, 0, 0, 0] true = some rb ∧
    Shows (runFifo rb Fifo.empty [.push [1, 2, 3], .pop 1, .push [4, 5, 6, 7]]).1
      ⟨[4, 5, 6, 7], [1, 2, 3, 4, 5, 6, 7], [1]⟩ :=
  ⟨_, rfl, (@run_fifo [0, 0, 0, 0] true _ rfl
    [.push [1, 2, 3], .pop 1, .push [4, 5, 6, 7]]).2.1⟩

end RingBuf

end AxlSdk
