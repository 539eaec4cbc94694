import AxlSdk.Lib.Blocks
import AxlSdk.Lib.Runs
import AxlSdk.Data.RingBuf.Records

/-!
# Elements in the ring buffer

The element layer reads and writes `elem_size` bytes at a time. When it overwrites, the
byte layer pushes out as many bytes as are missing, which is a whole element only if the
size of the ring is a multiple of `elem_size`.

- `Queue`: what the layer is for, a queue of elements that keeps the most recent ones.
- `Whole r q`: the calls show the elements of the queue `q`.
- `elements_whole_iff`: every run shows whole elements exactly if the ring rejects or its
  size is a multiple of `elem_size`.
-/

namespace AxlSdk

namespace RingBuf

open Blocks Runs List

/-! ## The element layer -/

/-- `AxlRingBuf` in element mode. -/
structure ElemRing where
  ring : Ring
  elemSize : Nat

/-- `axl_ring_buf_init_fixed`. -/
def initFixed (buf : List UInt8) (elemSize : Nat) (overwrite : Bool) : Option ElemRing :=
  if elemSize = 0 then none else (init buf overwrite).map (⟨·, elemSize⟩)

/-- `axl_ring_buf_push_elem`; the result is `true` for `AXL_OK`. -/
def pushElem (r : ElemRing) (elem : Nat → UInt8) : Bool × ElemRing :=
  if r.elemSize = 0 then (false, r)
  else if !r.ring.overwrite && writable r.ring < r.elemSize then
    (false, { r with ring := reject r.ring r.elemSize })
  else (true, { r with ring := (push r.ring (bytesAt elem r.elemSize)).2 })

/-- `axl_ring_buf_pop_elem`; the bytes are what it leaves in `elem`. -/
def popElem (r : ElemRing) : Option (List UInt8) × ElemRing :=
  if r.elemSize = 0 then (none, r)
  else if readable r.ring < r.elemSize then (none, r)
  else (some (pop r.ring r.elemSize).1, { r with ring := (pop r.ring r.elemSize).2 })

/-- `axl_ring_buf_peek_elem`. -/
def peekElem (r : ElemRing) : Option (List UInt8) :=
  if r.elemSize = 0 then none
  else if readable r.ring < r.elemSize then none
  else some (peek r.ring r.elemSize)

/-- `axl_ring_buf_peek_nth_elem`. -/
def peekNthElem (r : ElemRing) (index : Nat) : Option (List UInt8) :=
  if r.elemSize = 0 then none
  else
    let count := readable r.ring / r.elemSize
    if index ≥ count then none
    else some (copyOut r.ring r.elemSize (u32 (r.ring.readPos + index * r.elemSize)))

/-- `axl_ring_buf_set_nth_elem`. -/
def setNthElem (r : ElemRing) (index : Nat) (src : Nat → UInt8) : Bool × ElemRing :=
  if r.elemSize = 0 then (false, r)
  else
    let count := readable r.ring / r.elemSize
    if index ≥ count then (false, r)
    else
      (true, { r with ring := { r.ring with
        buf := copyIn r.ring (bytesAt src r.elemSize)
          (u32 (r.ring.readPos + index * r.elemSize)) } })

/-- `axl_ring_buf_get_length`. -/
def getLength (r : ElemRing) : Nat :=
  if r.elemSize > 0 then readable r.ring / r.elemSize else readable r.ring

/-- The calls of a run; peeking changes nothing. -/
inductive ElemOp where
  | push (elem : Nat → UInt8)
  | pop
  | setNth (index : Nat) (src : Nat → UInt8)

/-- The ring after a call. -/
def execElem (r : ElemRing) : ElemOp → ElemRing
  | .push elem => (pushElem r elem).2
  | .pop => (popElem r).2
  | .setNth index src => (setNthElem r index src).2

/-! ## The queue of elements -/

/-- A queue of elements with its history: the elements that were accepted, in order, as
they read now, and the elements that were popped. -/
structure Queue where
  elems : List (List UInt8)
  accepted : List (List UInt8)
  popped : List (List UInt8)

/-- The empty queue. -/
def Queue.empty : Queue := ⟨[], [], []⟩

/-- What a call does to a queue of at most `cap` elements of `size` bytes: a full queue
rejects the element, or gives up its oldest one for it. -/
def Queue.exec (cap size : Nat) (overwrite : Bool) (q : Queue) : ElemOp → Queue
  | .push elem =>
    if overwrite || q.elems.length < cap then
      { q with
        elems := (q.elems ++ [bytesAt elem size]).drop (q.elems.length + 1 - cap)
        accepted := q.accepted ++ [bytesAt elem size] }
    else q
  | .pop => { q with elems := q.elems.tail, popped := q.popped ++ q.elems.take 1 }
  | .setNth index src =>
    if index < q.elems.length then
      { q with
        elems := q.elems.set index (bytesAt src size)
        accepted :=
          q.accepted.set (q.accepted.length - q.elems.length + index) (bytesAt src size) }
    else q

/-- A ring and the queue it stands for, after a call. -/
def execBoth (p : ElemRing × Queue) (op : ElemOp) : ElemRing × Queue :=
  (execElem p.1 op,
    p.2.exec (p.1.ring.size / p.1.elemSize) p.1.elemSize p.1.ring.overwrite op)

/-- The calls show the elements of the queue, each whole: these are the most recent of the
accepted ones, and what was popped came before them. -/
structure Whole (r : ElemRing) (q : Queue) : Prop where
  length : getLength r = q.elems.length
  nth : ∀ i, peekNthElem r i = q.elems[i]?
  peek : peekElem r = q.elems.head?
  pop : (popElem r).1 = q.elems.head?
  recent : q.elems <:+ q.accepted
  order : (q.popped ++ q.elems).Sublist q.accepted

/-- The ring and the queue show the same. -/
def Agrees (p : ElemRing × Queue) : Prop := Whole p.1 p.2

/-- Overwriting pushes out a whole element or nothing: not a part of one. -/
def Fits (p : ElemRing × Queue) : ElemOp → Prop
  | .push _ => p.1.ring.overwrite = true →
      writable p.1.ring = 0 ∨ p.1.elemSize ≤ writable p.1.ring
  | _ => True

/-! ## What a ring of elements stands for -/

/-- The ring holds the elements of the queue one after the other. -/
structure Stands (r : ElemRing) (q : Queue) : Prop where
  pos : 0 < r.elemSize
  bounded : r.elemSize ≤ r.ring.size
  holds : Contains r.ring q.elems.flatten
  sized : Sized r.elemSize q.elems
  history : ∃ before, q.accepted = before ++ q.elems ∧ q.popped.Sublist before

namespace Stands

variable {r : ElemRing} {q : Queue} (h : Stands r q)

include h

theorem readable_eq : readable r.ring = q.elems.length * r.elemSize := by
  rw [h.holds.readable_eq, h.sized.length_flatten]

theorem writable_eq : writable r.ring = r.ring.size - q.elems.length * r.elemSize := by
  rw [h.holds.writable_eq, h.sized.length_flatten]

theorem room : q.elems.length * r.elemSize ≤ r.ring.size := by
  have := h.holds.length_le
  rwa [h.sized.length_flatten] at this

theorem count : readable r.ring / r.elemSize = q.elems.length := by
  rw [h.readable_eq, Nat.mul_div_cancel _ h.pos]

/-- An element fits into the free bytes if the queue is not full. -/
theorem fits_iff : r.elemSize ≤ writable r.ring ↔ q.elems.length < r.ring.size / r.elemSize := by
  have hroom := h.room
  rw [h.writable_eq, Nat.lt_iff_add_one_le, Nat.le_div_iff_mul_le h.pos, Nat.succ_mul]
  omega

theorem length_lt_iff (i : Nat) : (i + 1) * r.elemSize ≤ q.elems.length * r.elemSize
    ↔ i < q.elems.length := by
  rw [Nat.mul_le_mul_right_iff h.pos]
  omega

theorem not_short_iff : ¬ readable r.ring < r.elemSize ↔ 0 < q.elems.length := by
  have := h.length_lt_iff 0
  rw [h.readable_eq]
  omega

theorem head_eq (hne : 0 < q.elems.length) :
    some (q.elems.flatten.take r.elemSize) = q.elems.head? := by
  have hblock := h.sized.block_flatten hne
  rw [Nat.zero_mul, drop_zero] at hblock
  rw [hblock, head?_eq_getElem?, getElem?_eq_getElem hne]

/-- The calls show the elements. -/
theorem whole : Whole r q := by
  have hne : r.elemSize ≠ 0 := Nat.ne_of_gt h.pos
  have hempty : ¬ 0 < q.elems.length → q.elems.head? = none := by
    intro h0
    have hnil : q.elems = [] := eq_nil_of_length_eq_zero (by omega)
    rw [hnil, head?_nil]
  constructor
  · rw [getLength, if_pos h.pos, h.count]
  · intro i
    rw [peekNthElem, if_neg hne]
    simp only [h.count]
    split
    case isTrue hge => rw [getElem?_eq_none hge]
    case isFalse hlt =>
      have hi : i < q.elems.length := by omega
      have hend := (h.length_lt_iff i).mpr hi
      rw [Nat.succ_mul] at hend
      rw [h.holds.copyOut_eq (by rwa [h.sized.length_flatten]), h.sized.block_flatten hi,
        getElem?_eq_getElem hi]
  · rw [peekElem, if_neg hne]
    split
    case isTrue hlt => exact (hempty fun h0 => h.not_short_iff.mpr h0 hlt).symm
    case isFalse hge => rw [h.holds.peek_eq, h.head_eq (h.not_short_iff.mp hge)]
  · rw [popElem, if_neg hne]
    split
    case isTrue hlt => exact (hempty fun h0 => h.not_short_iff.mpr h0 hlt).symm
    case isFalse hge => rw [h.holds.pop_fst, h.head_eq (h.not_short_iff.mp hge)]
  · obtain ⟨before, hacc, -⟩ := h.history
    exact ⟨before, hacc.symm⟩
  · obtain ⟨before, hacc, hpop⟩ := h.history
    rw [hacc]
    exact hpop.append_right q.elems

/-- `axl_ring_buf_pop_elem` takes the first element. -/
theorem pop (cap size : Nat) (overwrite : Bool) :
    Stands (popElem r).2 (q.exec cap size overwrite .pop) := by
  have hne : r.elemSize ≠ 0 := Nat.ne_of_gt h.pos
  obtain ⟨before, hacc, hpop⟩ := h.history
  have hhist : ∃ before, q.accepted = before ++ q.elems.tail ∧
      (q.popped ++ q.elems.take 1).Sublist before := by
    refine ⟨before ++ q.elems.take 1, ?_, hpop.append_right _⟩
    rw [hacc, append_assoc, ← drop_one, take_append_drop]
  have hsized : Sized r.elemSize q.elems.tail := by
    rw [← drop_one]
    exact h.sized.drop 1
  rw [popElem, if_neg hne]
  split
  case isTrue hlt =>
    -- nothing to pop: the queue is empty
    have h0 : q.elems = [] := eq_nil_of_length_eq_zero
      (Nat.eq_zero_of_not_pos fun h0 => h.not_short_iff.mpr h0 hlt)
    refine ⟨h.pos, h.bounded, ?_, hsized, hhist⟩
    simp only [Queue.exec, h0, tail_nil]
    rw [← h0]
    exact h.holds
  case isFalse hge =>
    refine ⟨h.pos, ?_, ?_, hsized, hhist⟩
    · rw [(pop_keeps r.ring r.elemSize).1]
      exact h.bounded
    · have hdrop := h.sized.drop_flatten 1
      rw [Nat.one_mul] at hdrop
      simp only [Queue.exec]
      rw [← drop_one, ← hdrop]
      exact h.holds.pop r.elemSize

/-- `axl_ring_buf_set_nth_elem` writes over one element. -/
theorem setNth (cap : Nat) (overwrite : Bool) (index : Nat) (src : Nat → UInt8) :
    Stands (setNthElem r index src).2
      (q.exec cap r.elemSize overwrite (.setNth index src)) := by
  have hne : r.elemSize ≠ 0 := Nat.ne_of_gt h.pos
  obtain ⟨before, hacc, hpop⟩ := h.history
  rw [setNthElem, if_neg hne]
  simp only [h.count, Queue.exec]
  split
  case isTrue hge =>
    rw [if_neg (by omega)]
    exact h
  case isFalse hlt =>
    have hi : index < q.elems.length := by omega
    have hend := (h.length_lt_iff index).mpr hi
    rw [Nat.succ_mul] at hend
    have hpatch := @Contains.patch _ _ h.holds (bytesAt src r.elemSize) (index * r.elemSize)
      (by rwa [length_bytesAt, h.sized.length_flatten])
    rw [length_bytesAt, h.sized.patch_flatten index _ hi] at hpatch
    rw [if_pos hi]
    refine ⟨h.pos, h.bounded, hpatch, h.sized.set (length_bytesAt _ _) index, before, ?_, hpop⟩
    show q.accepted.set _ _ = _
    rw [hacc, length_append, Nat.add_sub_cancel, set_append_right _ _ (by omega),
      Nat.add_sub_cancel_left]

/-- `axl_ring_buf_push_elem` puts an element behind the others, unless a part of an element
would have to go for it. -/
theorem push (elem : Nat → UInt8) (hfits : Fits (r, q) (.push elem)) :
    Stands (pushElem r elem).2
      (q.exec (r.ring.size / r.elemSize) r.elemSize r.ring.overwrite (.push elem)) := by
  have hne : r.elemSize ≠ 0 := Nat.ne_of_gt h.pos
  obtain ⟨before, hacc, hpop⟩ := h.history
  have hsized := h.sized.append (sized_cons.mpr ⟨length_bytesAt elem r.elemSize, sized_nil⟩)
  have hfiti := h.fits_iff
  rw [pushElem, if_neg hne]
  simp only [Queue.exec]
  split
  case isTrue hrej =>
    obtain ⟨ho, hlt⟩ := Bool.and_eq_true_iff.mp hrej
    rw [Bool.not_eq_true'] at ho
    have hfull : ¬ q.elems.length < r.ring.size / r.elemSize := by
      have := of_decide_eq_true hlt
      omega
    rw [if_neg (by simp [ho, hfull])]
    exact ⟨h.pos, h.bounded, h.holds.reject r.elemSize, h.sized, before, hacc, hpop⟩
  case isFalse hacc' =>
    have htake : (r.ring.overwrite || decide (q.elems.length < r.ring.size / r.elemSize)) = true := by
      cases ho : r.ring.overwrite with
      | true => rfl
      | false => simpa [ho, hfiti] using hacc'
    rw [if_pos htake]
    have hsize : (RingBuf.push r.ring (bytesAt elem r.elemSize)).2.size = r.ring.size :=
      (push_keeps r.ring _).1
    by_cases hroom : r.elemSize ≤ writable r.ring
    · -- there is room: nothing is pushed out
      have hlt := hfiti.mp hroom
      rw [Nat.sub_eq_zero_of_le hlt, drop_zero]
      refine ⟨h.pos, by rw [hsize]; exact h.bounded, ?_, hsized, before, ?_, hpop⟩
      · rw [flatten_append, flatten_singleton]
        refine h.holds.push_fits ?_
        have := h.writable_eq
        have := h.room
        rw [length_bytesAt, h.sized.length_flatten]
        omega
      · rw [hacc, append_assoc]
    · -- the ring is full to the last byte: the oldest element is pushed out
      have ho : r.ring.overwrite = true := by
        cases ho : r.ring.overwrite with
        | true => rfl
        | false => exact absurd (by simpa [ho, hfiti] using hacc') (mt hfiti.mpr hroom)
      have hzero : writable r.ring = 0 := (hfits ho).resolve_right hroom
      have hfull : q.elems.length * r.elemSize = r.ring.size := by
        have := h.writable_eq
        have := h.room
        omega
      have hcap : r.ring.size / r.elemSize = q.elems.length := by
        rw [← hfull, Nat.mul_div_cancel _ h.pos]
      have hsucc : q.elems.length + 1 - q.elems.length = 1 := by omega
      rw [hcap, hsucc]
      refine ⟨h.pos, by rw [hsize]; exact h.bounded, ?_, hsized.drop 1, ?_⟩
      · have hover := h.holds.push_overwrite ho (bytesAt elem r.elemSize)
        have hlast : lastBytes r.ring.size (q.elems.flatten ++ bytesAt elem r.elemSize)
            = ((q.elems ++ [bytesAt elem r.elemSize]).drop 1).flatten := by
          rw [← hsized.drop_flatten, flatten_append, flatten_singleton, lastBytes,
            length_append, length_bytesAt, h.sized.length_flatten, hfull, Nat.one_mul,
            Nat.add_sub_cancel_left]
        rwa [hlast] at hover
      · refine ⟨before ++ q.elems.take 1, ?_, hpop.trans (sublist_append_left _ _)⟩
        have hpos : 1 ≤ q.elems.length := by
          have := h.length_lt_iff 0
          have := h.bounded
          omega
        rw [hacc, drop_append_of_le_length hpos, append_assoc, append_assoc,
          ← append_assoc (q.elems.take 1), take_append_drop]

end Stands

/-- Every call that fits keeps the ring and the queue together. -/
theorem Stands.step {p : ElemRing × Queue} (h : Stands p.1 p.2) (op : ElemOp)
    (hfits : Fits p op) : Stands (execBoth p op).1 (execBoth p op).2 := by
  cases op with
  | push elem => exact Stands.push h elem hfits
  | pop => exact Stands.pop h (p.1.ring.size / p.1.elemSize) p.1.elemSize p.1.ring.overwrite
  | setNth index src =>
    exact Stands.setNth h (p.1.ring.size / p.1.elemSize) p.1.ring.overwrite index src

/-! ## Runs -/

theorem stands_init {buf : List UInt8} {elemSize : Nat} {overwrite : Bool} {r : ElemRing}
    (h : initFixed buf elemSize overwrite = some r) (hle : elemSize ≤ buf.length) :
    Stands r Queue.empty ∧ r.elemSize = elemSize ∧ r.ring.size = buf.length ∧
      r.ring.overwrite = overwrite := by
  unfold initFixed at h
  split at h
  case isTrue => cases h
  case isFalse hne =>
    obtain ⟨rb, hrb, rfl⟩ := Option.map_eq_some_iff.mp h
    have hcont := Contains.init hrb
    have hsize : rb.size = buf.length ∧ rb.overwrite = overwrite := by
      unfold init at hrb
      split at hrb <;> cases hrb
      exact ⟨rfl, rfl⟩
    exact ⟨⟨Nat.pos_of_ne_zero hne, hsize.1.symm ▸ hle, hcont, sized_nil, [], rfl,
      List.Sublist.refl []⟩, rfl, hsize⟩

/-- No call changes the size of the ring or of the elements, or the mode. -/
theorem execElem_keeps (r : ElemRing) (op : ElemOp) :
    (execElem r op).elemSize = r.elemSize ∧ (execElem r op).ring.size = r.ring.size ∧
      (execElem r op).ring.overwrite = r.ring.overwrite := by
  by_cases h0 : r.elemSize = 0
  · cases op <;> simp only [execElem, pushElem, popElem, setNthElem, h0, if_true, and_self]
  · cases op with
    | push elem =>
      simp only [execElem, pushElem, h0, if_false]
      cases (!r.ring.overwrite && decide (writable r.ring < r.elemSize)) with
      | true => simp only [if_true, reject_keeps, and_self]
      | false => simp only [Bool.false_eq_true, if_false, push_keeps, and_self]
    | pop =>
      by_cases hlt : readable r.ring < r.elemSize
      · simp only [execElem, popElem, h0, hlt, if_true, if_false, and_self]
      · simp only [execElem, popElem, h0, hlt, if_false, pop_keeps, and_self]
    | setNth index src =>
      by_cases hge : index ≥ readable r.ring / r.elemSize
      · simp only [execElem, setNthElem, h0, hge, if_true, if_false, and_self]
      · simp only [execElem, setNthElem, h0, hge, if_false, and_self]

/-- In a ring that rejects, or whose size is a multiple of `elem_size`, no part of an
element ever has to go. -/
theorem Stands.fits {p : ElemRing × Queue} (h : Stands p.1 p.2)
    (hring : p.1.ring.overwrite = false ∨ p.1.elemSize ∣ p.1.ring.size) (op : ElemOp) :
    Fits p op := by
  cases op with
  | pop | setNth => trivial
  | push elem =>
    intro ho
    rcases hring with hrej | ⟨k, hk⟩
    · rw [hrej] at ho
      cases ho
    · have hw : writable p.1.ring = (k - p.2.elems.length) * p.1.elemSize := by
        rw [h.writable_eq, hk, Nat.sub_mul, Nat.mul_comm]
      rcases Nat.eq_zero_or_pos (k - p.2.elems.length) with h0 | hpos
      · rw [h0, Nat.zero_mul] at hw
        exact .inl hw
      · exact .inr (hw ▸ Nat.le_mul_of_pos_left _ hpos)

theorem everyStep_fits {p : ElemRing × Queue} (h : Stands p.1 p.2)
    (hring : p.1.ring.overwrite = false ∨ p.1.elemSize ∣ p.1.ring.size) (ops : List ElemOp) :
    EveryStep execBoth Fits p ops := by
  induction ops generalizing p with
  | nil => exact everyStep_nil
  | cons op ops ih =>
    have hfits := h.fits hring op
    obtain ⟨helem, hsize, ho⟩ := execElem_keeps p.1 op
    refine everyStep_cons.mpr ⟨hfits, ih (h.step op hfits) ?_⟩
    rw [execBoth, helem, hsize, ho]
    exact hring

/-! ## A torn element -/

/-- Pushing the same element `n` times, where there is room for it. -/
theorem pushes_stand {r : ElemRing} (h : Stands r Queue.empty) (elem : Nat → UInt8) {n : Nat}
    (hn : n ≤ r.ring.size / r.elemSize) :
    let p := (List.replicate n (.push elem)).foldl execBoth (r, Queue.empty)
    Stands p.1 p.2 ∧ p.2.elems = List.replicate n (bytesAt elem r.elemSize) ∧
      p.1.elemSize = r.elemSize ∧ p.1.ring.size = r.ring.size ∧
      p.1.ring.overwrite = r.ring.overwrite := by
  induction n with
  | zero => exact ⟨h, rfl, rfl, rfl, rfl⟩
  | succ n ih =>
    obtain ⟨hstands, helems, helem, hsize, ho⟩ := ih (by omega)
    dsimp only
    rw [replicate_succ', foldl_append, foldl_cons, foldl_nil]
    generalize (List.replicate n (ElemOp.push elem)).foldl execBoth (r, Queue.empty) = p at *
    have hlen : p.2.elems.length = n := by rw [helems, length_replicate]
    have hroom : p.2.elems.length < p.1.ring.size / p.1.elemSize := by
      rw [hlen, hsize, helem]
      omega
    obtain ⟨helem', hsize', ho'⟩ := execElem_keeps p.1 (.push elem)
    refine ⟨hstands.step _ fun _ => .inr (hstands.fits_iff.mpr hroom), ?_, helem'.trans helem,
      hsize'.trans hsize, ho'.trans ho⟩
    simp only [execBoth, Queue.exec, hroom, decide_true, Bool.or_true, if_true]
    rw [Nat.sub_eq_zero_of_le hroom, drop_zero, helems, helem, ← replicate_succ']

/-- Fill the ring with elements of zeros, and push one element more. -/
def tearing (r : ElemRing) : List ElemOp :=
  List.replicate (r.ring.size / r.elemSize) (ElemOp.push fun _ => 0) ++ [ElemOp.push fun _ => 1]

/-- A full ring that cannot give up a whole element shows a torn one after the next push. -/
theorem not_agrees_of_torn {r : ElemRing} (h : Stands r Queue.empty)
    (ho : r.ring.overwrite = true) (hdvd : ¬ r.elemSize ∣ r.ring.size) :
    ¬ Agrees ((tearing r).foldl execBoth (r, Queue.empty)) := by
  intro hagrees
  obtain ⟨hstands, helems, helem, hsize, ho'⟩ :=
    pushes_stand h (fun _ => 0) (Nat.le_refl (r.ring.size / r.elemSize))
  rw [tearing, foldl_append, foldl_cons, foldl_nil] at hagrees
  generalize (List.replicate (r.ring.size / r.elemSize) (ElemOp.push fun _ => 0)).foldl
    execBoth (r, Queue.empty) = p at *
  have hpos := h.pos
  have hcap : 0 < r.ring.size / r.elemSize := Nat.div_pos h.bounded hpos
  have hmod : 0 < r.ring.size % r.elemSize := Nat.pos_of_ne_zero fun h0 =>
    hdvd (Nat.dvd_of_mod_eq_zero h0)
  have hdiv := Nat.div_add_mod r.ring.size r.elemSize
  have hlt := Nat.mod_lt r.ring.size hpos
  generalize hk : r.ring.size / r.elemSize = k at *
  obtain ⟨j, rfl⟩ : ∃ j, k = j + 1 := ⟨k - 1, by omega⟩
  rw [Nat.mul_succ] at hdiv
  -- the bytes after the last push
  have hold : p.2.elems.flatten = List.replicate ((j + 1) * r.elemSize) 0 := by
    rw [helems, bytesAt, map_const', length_range, flatten_replicate_replicate]
  have hnew : bytesAt (fun _ => 1) r.elemSize = List.replicate r.elemSize (1 : UInt8) := by
    rw [bytesAt, map_const', length_range]
  have hring : (pushElem p.1 fun _ => 1).2
      = ⟨(RingBuf.push p.1.ring (List.replicate r.elemSize 1)).2, r.elemSize⟩ := by
    rw [pushElem, if_neg (by omega), if_neg (by simp [ho', ho]), helem, hnew]
  have hcont := hstands.holds.push_overwrite (ho'.trans ho) (List.replicate r.elemSize 1)
  rw [hold, hsize, lastBytes, length_append, length_replicate,
    length_replicate] at hcont
  have hsub : (j + 1) * r.elemSize + r.elemSize - r.ring.size
      = r.elemSize - r.ring.size % r.elemSize := by
    rw [Nat.succ_mul, Nat.mul_comm j]
    omega
  rw [hsub] at hcont
  have hlen := hcont.readable_eq
  rw [length_drop, length_append, length_replicate, length_replicate] at hlen
  generalize (RingBuf.push p.1.ring (List.replicate r.elemSize 1)).2 = rb at *
  -- the last element as it was pushed, and as the ring shows it
  have hnth := hagrees.nth j
  have hspec : (execBoth p (.push fun _ => 1)).2.elems[j]? =
      some (List.replicate r.elemSize (1 : UInt8)) := by
    simp only [execBoth, Queue.exec, ho', ho, Bool.true_or, if_true, helems, helem, hsize, hk,
      length_replicate, hnew, getElem?_drop]
    rw [getElem?_append_right (by rw [length_replicate]; omega), length_replicate]
    have h0 : j + 1 + 1 - (j + 1) + j - (j + 1) = 0 := by omega
    rw [h0]
    rfl
  have hshown : peekNthElem ⟨rb, r.elemSize⟩ j = some (List.replicate r.elemSize 1) := by
    rw [← hring, ← hspec]
    exact hnth
  rw [peekNthElem, if_neg (by dsimp only; omega)] at hshown
  dsimp only at hshown
  split at hshown
  case isTrue => cases hshown
  case isFalse =>
    have hend : j * r.elemSize + r.elemSize ≤ (j + 1) * r.elemSize + r.elemSize
        - (r.elemSize - r.ring.size % r.elemSize) := by
      rw [Nat.succ_mul]
      omega
    rw [hcont.copyOut_eq (by simpa using hend)] at hshown
    -- its first byte is one of the zeros
    have hfirst := congrArg (fun l => (l.getD [])[0]?) hshown
    have hplace : r.elemSize - r.ring.size % r.elemSize + j * r.elemSize
        < (j + 1) * r.elemSize := by
      rw [Nat.succ_mul]
      omega
    simp only [Option.getD_some, getElem?_take_of_lt hpos, getElem?_drop, Nat.add_zero,
      getElem?_replicate, if_pos hpos] at hfirst
    rw [getElem?_append_left (by rwa [length_replicate]), getElem?_replicate,
      if_pos hplace] at hfirst
    exact absurd (Option.some.inj hfirst) (by decide)

/-- **No element is torn** in a run whose pushes never push out a part of one; and no run
tears one exactly if the ring rejects, or its size is a multiple of the element size. -/
theorem elements_whole_iff {buf : List UInt8} {elemSize : Nat} {overwrite : Bool} {r : ElemRing}
    (hinit : initFixed buf elemSize overwrite = some r) (hle : elemSize ≤ buf.length) :
    (∀ ops, EveryStep execBoth Fits (r, Queue.empty) ops →
      EveryState execBoth Agrees (r, Queue.empty) ops) ∧
    ((∀ ops, EveryState execBoth Agrees (r, Queue.empty) ops) ↔
      overwrite = false ∨ elemSize ∣ buf.length) := by
  obtain ⟨hstands, helem, hsize, ho⟩ := stands_init hinit hle
  have hrun : ∀ ops, EveryStep execBoth Fits (r, Queue.empty) ops →
      EveryState execBoth Agrees (r, Queue.empty) ops := by
    intro ops hops pre post heq
    have hstate := hops.invariant (I := fun p => Stands p.1 p.2) hstands
      (fun p op hp hfits => hp.step op hfits)
    exact (hstate pre post heq).whole
  refine ⟨hrun, fun hall => ?_, fun hring ops => hrun ops ?_⟩
  · by_contra hnot
    rw [not_or, Bool.not_eq_false, ← ho, ← helem, ← hsize] at hnot
    exact not_agrees_of_torn hstands hnot.1 hnot.2 (hall _ _ [] (append_nil _).symm)
  · rw [← ho, ← helem, ← hsize] at hring
    exact everyStep_fits hstands hring ops

/-- Three elements of two bytes in a ring of four that overwrites: the first is gone, the
others are whole. -/
theorem elements_whole_iff_four_bytes : ∃ r, initFixed [0, 0, 0, 0] 2 true = some r ∧
    EveryState execBoth Agrees (r, Queue.empty)
      [.push fun _ => 1, .push fun _ => 2, .push fun _ => 3, .pop] :=
  ⟨_, rfl, (@elements_whole_iff [0, 0, 0, 0] 2 true _ rfl (by decide)).2.mpr (.inr (by decide)) _⟩

/-- Elements of three bytes in a ring of four: the second push leaves three bytes of which
the first belongs to the first element. -/
theorem second_element_torn : ∃ r, initFixed [0, 0, 0, 0] 3 true = some r ∧
    ¬ EveryState execBoth Agrees (r, Queue.empty) [.push fun _ => 1, .push fun _ => 2] ∧
    peekElem (([.push fun _ => 1, .push fun _ => 2] : List ElemOp).foldl execElem r)
      = some [1, 2, 2] := by
  refine ⟨_, rfl, fun hall => ?_, by decide⟩
  have hpeek := (hall [.push fun _ => 1, .push fun _ => 2] [] rfl).peek
  revert hpeek
  decide

end RingBuf

end AxlSdk
