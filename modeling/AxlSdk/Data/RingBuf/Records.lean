import AxlSdk.Data.RingBuf

/-!
# What the message and the element layer share

Both layers write records into the byte ring and read them back. `Contains rb bytes` says
what the ring holds, with its counters in order; there is one lemma for each thing the
layers do to a ring.
-/

namespace AxlSdk

namespace RingBuf

open Circular List

/-- The `n` bytes at a pointer. -/
def bytesAt (src : Nat → UInt8) (n : Nat) : List UInt8 := (List.range n).map src

@[simp] theorem length_bytesAt (src : Nat → UInt8) (n : Nat) : (bytesAt src n).length = n := by
  rw [bytesAt, length_map, length_range]

/-- The counters when `n` bytes are rejected. -/
def reject (rb : Ring) (n : Nat) : Ring :=
  { rb with
    pushesTotal := u64 (rb.pushesTotal + n)
    pushesLost := u64 (rb.pushesLost + n) }

/-- The ring holds the bytes, and its counters fit them. -/
def Contains (rb : Ring) (bytes : List UInt8) : Prop := ∃ f : Fifo, Tracks rb f ∧ f.queue = bytes

namespace Contains

variable {rb : Ring} {bytes : List UInt8} (h : Contains rb bytes)

theorem init {buf : List UInt8} {overwrite : Bool} (h : init buf overwrite = some rb) :
    Contains rb [] := ⟨Fifo.empty, tracks_init h, rfl⟩

include h

theorem holds : ∃ spare, Holds rb bytes spare := by
  obtain ⟨f, ht, rfl⟩ := h
  exact ht.holds

theorem length_le : bytes.length ≤ rb.size := by
  obtain ⟨spare, hold⟩ := h.holds
  have := hold.total
  omega

theorem size_le : 0 < rb.size ∧ rb.size ≤ 2 ^ 31 := by
  obtain ⟨spare, hold⟩ := h.holds
  exact hold.size_pos

theorem readable_eq : readable rb = bytes.length := by
  obtain ⟨spare, hold⟩ := h.holds
  exact hold.readable_eq

theorem writable_eq : writable rb = rb.size - bytes.length := by
  obtain ⟨spare, hold⟩ := h.holds
  have := hold.total
  rw [hold.writable_eq]
  omega

theorem peek_eq (n : Nat) : peek rb n = bytes.take n := by
  obtain ⟨spare, hold⟩ := h.holds
  exact hold.peek_eq n

/-- Bytes are read at any place of what the ring holds. -/
theorem copyOut_eq {n off : Nat} (hn : off + n ≤ bytes.length) :
    copyOut rb n (u32 (rb.readPos + off)) = (bytes.drop off).take n := by
  obtain ⟨spare, hold⟩ := h.holds
  have htotal := hold.total
  have hview : rb.buf.rotate rb.readPos = bytes.take off ++ (bytes.drop off ++ spare) := by
    rw [← append_assoc, take_append_drop, hold.view]
  have hrot := rotate_add_append hview
  rw [length_take, Nat.min_eq_left (by omega)] at hrot
  rw [hold.copyOut_eq (by omega), hold.rotate_u32 hold.length, hrot, append_assoc,
    take_append_of_le_length (by rw [length_drop]; omega)]

/-- The first bytes are read at `read_pos`. -/
theorem front_eq {n : Nat} (hn : n ≤ bytes.length) : copyOut rb n rb.readPos = bytes.take n := by
  have hread := h.copyOut_eq (by omega : 0 + n ≤ bytes.length)
  obtain ⟨spare, hold⟩ := h.holds
  rwa [Nat.add_zero, u32_of_lt hold.read, drop_zero] at hread

/-- The first bytes are given up. -/
theorem advance {n : Nat} (hn : n ≤ bytes.length) :
    Contains { rb with readPos := u32 (rb.readPos + n) } (bytes.drop n) := by
  have hread := h.readable_eq
  obtain ⟨f, ht, rfl⟩ := h
  have hdis := ht.dequeue n
  rw [discard, hread, Nat.min_eq_left hn] at hdis
  exact ⟨f.dequeue n, hdis, rfl⟩

/-- Bytes are written over what the ring holds. -/
theorem patch {data : List UInt8} {off : Nat} (hn : off + data.length ≤ bytes.length) :
    Contains { rb with buf := copyIn rb data (u32 (rb.readPos + off)) }
      (bytes.take off ++ (data ++ bytes.drop (off + data.length))) := by
  obtain ⟨f, ht, rfl⟩ := h
  obtain ⟨spare, hold⟩ := ht.holds
  have htotal := hold.total
  have hfits : data.length ≤ rb.size := by omega
  obtain ⟨hlen, hrot⟩ := hold.copyIn_spec hfits (u32 (rb.readPos + off))
  have hview : rb.buf.rotate rb.readPos = f.queue.take off ++ (f.queue.drop off ++ spare) := by
    rw [← append_assoc, take_append_drop, hold.view]
  have hahead := rotate_add_append hview
  rw [length_take, Nat.min_eq_left (by omega)] at hahead
  rw [hold.rotate_u32 hold.length, hahead, hold.rotate_u32 hlen,
    drop_append_of_le_length (by rw [length_append, length_drop]; omega),
    drop_append_of_le_length (by rw [length_drop]; omega), drop_drop,
    ← append_assoc, ← append_assoc] at hrot
  generalize hnew : f.queue.take off ++ (data ++ f.queue.drop (off + data.length)) = queue
  have hsize : queue.length = f.queue.length := by
    rw [← hnew, length_append, length_append, length_take, length_drop]
    omega
  refine ⟨⟨queue, f.taken ++ queue, f.taken⟩, ⟨⟨spare, hold.pow, hlen, hold.mask, hold.read, ?_, ?_⟩,
    ht.counters, ?_, suffix_append _ _, fun _ => rfl⟩, rfl⟩
  · show rb.writePos = u32 (rb.readPos + queue.length)
    rw [hsize]
    exact hold.write
  · show (copyIn rb data (u32 (rb.readPos + off))).rotate rb.readPos = queue ++ spare
    have hback : (copyIn rb data (u32 (rb.readPos + off))).rotate
        (rb.readPos + (f.queue.take off).length)
          = data ++ f.queue.drop (off + data.length) ++ spare ++ f.queue.take off := by
      rw [length_take, Nat.min_eq_left (by omega)]
      exact hrot
    rw [rotate_of_rotate_add hback, ← hnew]
    simp only [append_assoc]
  · rw [hsize]
    exact ht.balance

theorem reject (n : Nat) : Contains (reject rb n) bytes := by
  obtain ⟨f, ht, rfl⟩ := h
  obtain ⟨spare, hold⟩ := ht.holds
  refine ⟨f, ⟨⟨spare, hold.pow, hold.length, hold.mask, hold.read, hold.write, hold.view⟩,
    ⟨Nat.mod_lt _ (by omega), Nat.mod_lt _ (by omega)⟩, ?_, ht.suffix, ht.fifo⟩, rfl⟩
  have := ht.balance
  simp only [RingBuf.reject, u64]
  omega

theorem pop (n : Nat) : Contains (pop rb n).2 (bytes.drop n) := by
  obtain ⟨f, ht, rfl⟩ := h
  obtain ⟨spare, hold⟩ := ht.holds
  rw [(hold.pop n).2]
  exact ⟨f.dequeue n, ht.dequeue n, rfl⟩

theorem pop_fst (n : Nat) : (RingBuf.pop rb n).1 = bytes.take n := by
  obtain ⟨spare, hold⟩ := h.holds
  exact (hold.pop n).1

/-- In reject mode a push takes the bytes that fit. -/
theorem push_reject (ho : rb.overwrite = false) (data : List UInt8) :
    Contains (push rb data).2 (bytes ++ data.take (rb.size - bytes.length)) := by
  obtain ⟨f, ht, rfl⟩ := h
  exact ⟨_, (ht.push_reject ho data).2, rfl⟩

/-- In overwrite mode the ring keeps the last bytes. -/
theorem push_overwrite (ho : rb.overwrite = true) (data : List UInt8) :
    Contains (push rb data).2 (lastBytes rb.size (bytes ++ data)) := by
  obtain ⟨f, ht, rfl⟩ := h
  exact ⟨_, ht.push_overwrite ho data, rfl⟩

/-- In either mode bytes that fit come to the end. -/
theorem push_fits {data : List UInt8} (hd : bytes.length + data.length ≤ rb.size) :
    Contains (push rb data).2 (bytes ++ data) := by
  cases ho : rb.overwrite with
  | false =>
    have hpush := h.push_reject ho data
    rwa [take_of_length_le (by omega)] at hpush
  | true =>
    have hpush := h.push_overwrite ho data
    rwa [lastBytes, length_append, Nat.sub_eq_zero_of_le hd, drop_zero] at hpush

end Contains

theorem reject_keeps (rb : Ring) (n : Nat) :
    (reject rb n).size = rb.size ∧ (reject rb n).overwrite = rb.overwrite := ⟨rfl, rfl⟩

theorem pop_keeps (rb : Ring) (n : Nat) :
    (pop rb n).2.size = rb.size ∧ (pop rb n).2.overwrite = rb.overwrite := exec_keeps rb (.pop n)

end RingBuf

end AxlSdk
