import Mathlib

/-!
# The allocator (`axl-mem.c`)

Every allocation is a block of the backend: a header, the bytes of the user, and in debug
builds a fence behind them. A block that is freed in a debug build is held for a while.

- `Heap`: the blocks that the backend has handed out, and the counters.
- `axlMallocImpl`, `axlCallocImpl`, `axlReallocImpl`, `axlMemdupImpl`, `axlFreeImpl`: the
  calls. A write outside of the block it is meant for has no result.
- `Request`, `Good`: what a caller asks for, and what it may rely on.
- `honest_iff`: which requests get what they ask for. The size that goes to the backend is
  a sum that may wrap.
-/

namespace AxlSdk

namespace Mem

open List

/-- The two builds; `AXL_MEM_DEBUG` is defined in the second. -/
inductive Mode
  | release
  | debug
  deriving DecidableEq

/-- `sizeof (AXL_MEM_HEADER)` -/
def Mode.header : Mode → UInt64
  | .release => 8
  | .debug => 56

/-- The bytes of the tail fence. -/
def Mode.fence : Mode → UInt64
  | .release => 0
  | .debug => 8

/-- `align_up`; `sizeof (size_t)` is 8. -/
def alignUp (value : UInt64) : UInt64 := (value + 8 - 1) &&& ~~~(8 - 1)

/-- `total_size` -/
def totalSize (m : Mode) (size : UInt64) : UInt64 :=
  let aligned := alignUp size
  match m with
  | .debug => m.header + aligned + 8
  | .release => m.header + aligned

/-! ## The heap -/

/-- The bytes of a block behind its header, by their offset. -/
abbrev Bytes := Nat → UInt8

/-- A block of the backend: how many bytes it has, the fields of its header, and the bytes
behind the header. -/
structure Block where
  capacity : Nat
  size : UInt64
  fenceHead : Nat
  fenceMid : Nat
  body : Bytes

/-- The bytes of a block behind the header. -/
def Block.room (m : Mode) (b : Block) : Nat := b.capacity - m.header.toNat

def AXL_FENCE_HEAD : Nat := 0xC0C0AB1B
def AXL_ALLOC_FILL : UInt8 := 0xDA
def AXL_FREE_FILL : UInt8 := 0xDF

/-- The bytes of `AXL_FENCE_TAIL`. -/
def fenceTail : List UInt8 := [0x69, 0xDE, 0xCA, 0xFA, 0, 0, 0, 0]

/-- `mem_set` -/
def memSet (dst : Bytes) (c : UInt8) (n : Nat) : Bytes := fun i => if i < n then c else dst i

/-- `mem_cpy` -/
def memCpy (dst src : Bytes) (n : Nat) : Bytes := fun i => if i < n then src i else dst i

/-- A store of `bytes` at an offset. -/
def storeAt (dst : Bytes) (off : Nat) (bytes : List UInt8) : Bytes := fun i =>
  if off ≤ i then bytes.getD (i - off) (dst i) else dst i

/-- The static variables, and the blocks by the address of their header. The blocks that
are held are there too, the oldest first in `held`. -/
structure Heap where
  blocks : Nat → Option Block
  allocList : List Nat
  allocCount : UInt64
  allocBytes : UInt64
  totalCount : UInt64
  totalBytes : UInt64
  corruptionCount : Nat
  failNextAlloc : UInt64
  held : List Nat
  heldBytes : Nat
  quarantineLimit : Nat

/-- What `axl_backend_alloc` answers: an address and the bytes that happen to be there. -/
abbrev Answer := Option (Nat × Bytes)

/-- `user_ptr` -/
def userPtr (m : Mode) (hdr : Nat) : Nat := hdr + m.header.toNat

/-- `get_header` -/
def getHeader (m : Mode) (ptr : Nat) : Nat := ptr - m.header.toNat

/-- What an allocating call leaves: what it returns, the size it asked the backend for, and
the heap. -/
structure Outcome where
  ptr : Option Nat
  asked : Option UInt64
  heap : Heap

def Heap.set (h : Heap) (hdr : Nat) (b : Option Block) : Heap :=
  { h with blocks := Function.update h.blocks hdr b }

/-! ## Allocation -/

/-- The block that `axl_malloc_impl` makes of what the backend gave, unless its header or
its fence does not fit. -/
def newBlock (m : Mode) (total size : UInt64) (junk : Bytes) : Option Block :=
  if total < m.header then none
  else
    let b : Block := ⟨total.toNat, size, AXL_FENCE_HEAD, AXL_FENCE_HEAD, junk⟩
    match m with
    | .release => some b
    | .debug =>
      let n := (alignUp size).toNat
      if n + 8 > b.room m then none
      else some { b with body := storeAt (memSet junk AXL_ALLOC_FILL n) n fenceTail }

/-- `axl_malloc_impl` -/
def axlMallocImpl (m : Mode) (h : Heap) (size : UInt64) (answer : Answer) : Option Outcome :=
  let size := if size = 0 then 1 else size
  if h.failNextAlloc = 1 then some ⟨none, none, { h with failNextAlloc := 0 }⟩
  else
    let h := if h.failNextAlloc > 0 then { h with failNextAlloc := h.failNextAlloc - 1 } else h
    let total := totalSize m size
    match answer with
    | none => some ⟨none, some total, h⟩
    | some (hdr, junk) =>
      (newBlock m total size junk).map fun b =>
        ⟨some (userPtr m hdr), some total,
          { h.set hdr (some b) with
            allocList := if m = .debug then hdr :: h.allocList else h.allocList
            allocCount := h.allocCount + 1
            allocBytes := h.allocBytes + size
            totalCount := h.totalCount + 1
            totalBytes := h.totalBytes + size }⟩

/-- A write of `n` bytes from the pointer on, into the block it belongs to. -/
def Heap.fill (m : Mode) (h : Heap) (ptr : Nat) (n : Nat) (write : Bytes → Bytes) : Option Heap :=
  match h.blocks (getHeader m ptr) with
  | none => none
  | some b =>
    if n > b.room m then none
    else some (h.set (getHeader m ptr) (some { b with body := write b.body }))

/-- `axl_calloc_impl` -/
def axlCallocImpl (m : Mode) (h : Heap) (count size : UInt64) (answer : Answer) : Option Outcome :=
  if count ≠ 0 ∧ size > (0xFFFFFFFFFFFFFFFF : UInt64) / count then some ⟨none, none, h⟩
  else
    let total := count * size
    (axlMallocImpl m h total answer).bind fun o =>
      match o.ptr with
      | none => some o
      | some ptr =>
        (o.heap.fill m ptr total.toNat fun dst => memSet dst 0 total.toNat).map fun h =>
          { o with heap := h }

/-- `axl_memdup_impl` -/
def axlMemdupImpl (m : Mode) (h : Heap) (src : Option Bytes) (size : UInt64) (answer : Answer) :
    Option Outcome :=
  match src with
  | none => some ⟨none, none, h⟩
  | some src =>
    (axlMallocImpl m h size answer).bind fun o =>
      match o.ptr with
      | none => some o
      | some ptr =>
        (o.heap.fill m ptr size.toNat fun dst => memCpy dst src size.toNat).map fun h =>
          { o with heap := h }

/-! ## The blocks that are held -/

def AXL_MEM_QUARANTINE_MAX : Nat := 32
def AXL_MEM_QUARANTINE_BYTES : Nat := 64 * 1024

/-- `validate_fences` -/
def validateFences (b : Block) : Bool :=
  b.fenceHead == AXL_FENCE_HEAD && b.fenceMid == AXL_FENCE_HEAD &&
    (List.range 8).map (fun i => b.body ((alignUp b.size).toNat + i)) == fenceTail

/-- `quarantine_release` of a block. -/
def quarantineRelease (h : Heap) (hdr : Nat) (b : Block) : Heap :=
  let bad := !validateFences b ||
    (List.range (alignUp b.size).toNat).any fun i => b.body i != AXL_FREE_FILL
  { h.set hdr none with
    corruptionCount := if bad then h.corruptionCount + 1 else h.corruptionCount }

/-- The loop of `quarantine_push`: `quarantine_evict` on the oldest until there is room. -/
def evictFor (cap : Nat) (size : Nat) (h : Heap) : List Nat → Option Heap
  | [] => some { h with held := [] }
  | hdr :: held =>
    if (hdr :: held).length ≥ cap ∨ h.heldBytes + size > AXL_MEM_QUARANTINE_BYTES then
      match h.blocks hdr with
      | none => none
      | some b =>
        evictFor cap size
          (quarantineRelease { h with heldBytes := h.heldBytes - b.size.toNat } hdr b) held
    else some { h with held := hdr :: held }

/-- `quarantine_push` -/
def quarantinePush (h : Heap) (hdr : Nat) (size : Nat) : Option Heap :=
  let cap := if h.quarantineLimit > AXL_MEM_QUARANTINE_MAX then AXL_MEM_QUARANTINE_MAX
    else h.quarantineLimit
  if cap = 0 ∨ size > AXL_MEM_QUARANTINE_BYTES then some (h.set hdr none)
  else
    (evictFor cap size h h.held).map fun h =>
      { h with held := h.held ++ [hdr], heldBytes := h.heldBytes + size }

/-- `quarantine_will_hold` -/
def quarantineWillHold (h : Heap) (b : Block) : Bool :=
  h.quarantineLimit > 0 && b.size.toNat ≤ AXL_MEM_QUARANTINE_BYTES

/-- The counters after a free. -/
def Heap.uncount (h : Heap) (b : Block) : Heap :=
  { h with allocCount := h.allocCount - 1, allocBytes := h.allocBytes - b.size }

/-- `axl_free_impl` -/
def axlFreeImpl (m : Mode) (h : Heap) (ptr : Option Nat) : Option Heap :=
  match ptr with
  | none => some h
  | some ptr =>
    let hdr := getHeader m ptr
    match h.blocks hdr with
    | none => none
    | some b =>
      match m with
      | .release => some ((h.uncount b).set hdr none)
      | .debug =>
        if hdr ∈ h.held then some { h with corruptionCount := h.corruptionCount + 1 }
        else if (alignUp b.size).toNat + 8 > b.room m then none
        else
          let h := if !validateFences b && !quarantineWillHold h b then
            { h with corruptionCount := h.corruptionCount + 1 } else h
          let h := { h with allocList := h.allocList.erase hdr }
          let h := h.set hdr (some { b with
            body := memSet b.body AXL_FREE_FILL (alignUp b.size).toNat })
          quarantinePush (h.uncount b) hdr b.size.toNat

/-- `axl_realloc_impl` -/
def axlReallocImpl (m : Mode) (h : Heap) (ptr : Option Nat) (size : UInt64) (answer : Answer) :
    Option Outcome :=
  match ptr with
  | none => axlMallocImpl m h size answer
  | some ptr =>
    if size = 0 then (axlFreeImpl m h (some ptr)).map fun h => ⟨none, none, h⟩
    else
      match h.blocks (getHeader m ptr) with
      | none => none
      | some old =>
        (axlMallocImpl m h size answer).bind fun o =>
          match o.ptr with
          | none => some o
          | some newPtr =>
            let copySize := if old.size < size then old.size else size
            (o.heap.fill m newPtr copySize.toNat fun dst =>
              memCpy dst old.body copySize.toNat).bind fun h =>
                (axlFreeImpl m h (some ptr)).map fun h => { o with heap := h }

/-! ## Sizes -/

theorem and_not_seven {n : Nat} (h : n < 2 ^ 64) : n &&& (2 ^ 64 - 8) = n / 8 * 8 := by
  have hmask : 2 ^ 64 - 8 = (2 ^ 61 - 1) <<< 3 := by decide
  have hround : n / 8 * 8 = n >>> 3 <<< 3 := by
    rw [Nat.shiftLeft_eq, Nat.shiftRight_eq_div_pow]
  rw [hmask, hround]
  refine Nat.eq_of_testBit_eq fun i => ?_
  rw [Nat.testBit_and, Nat.testBit_shiftLeft, Nat.testBit_shiftLeft, Nat.testBit_two_pow_sub_one,
    Nat.testBit_shiftRight]
  by_cases h3 : 3 ≤ i
  · rw [Nat.add_sub_cancel' h3]
    by_cases h64 : i < 64
    · simp [h3, show i - 3 < 61 by omega]
    · have : n.testBit i = false :=
        Nat.testBit_lt_two_pow (h.trans_le (Nat.pow_le_pow_right (by decide) (by omega)))
      simp [this]
  · simp [h3]

theorem alignUp_toNat (value : UInt64) :
    (alignUp value).toNat = (value.toNat + 7) % 2 ^ 64 / 8 * 8 := by
  have hmask : (~~~(8 - 1) : UInt64).toNat = 2 ^ 64 - 8 := by decide
  have hadd : (value + 8 - 1).toNat = (value.toNat + 7) % 2 ^ 64 := by
    have h := value.toNat_lt
    rw [UInt64.toNat_sub, UInt64.toNat_add]
    simp only [UInt64.reduceToNat]
    omega
  rw [alignUp, UInt64.toNat_and, hmask, hadd, and_not_seven (Nat.mod_lt _ (by decide))]

/-- The largest request whose total does not wrap. -/
def Mode.limit : Mode → Nat
  | .release => 2 ^ 64 - 16
  | .debug => 2 ^ 64 - 72

theorem totalSize_toNat (m : Mode) (size : UInt64) : (totalSize m size).toNat =
    (m.header.toNat + (alignUp size).toNat + m.fence.toNat) % 2 ^ 64 := by
  cases m with
  | release => simp [totalSize, Mode.header, Mode.fence, UInt64.toNat_add]
  | debug => simp [totalSize, Mode.header, Mode.fence, UInt64.toNat_add]

variable {size : UInt64}

/-- Up to the limit the total is what it stands for. -/
theorem totalSize_fits {m : Mode} (h : size.toNat ≤ m.limit) :
    size.toNat ≤ (alignUp size).toNat ∧
      (totalSize m size).toNat = m.header.toNat + (alignUp size).toNat + m.fence.toNat := by
  rw [totalSize_toNat, alignUp_toNat]
  cases m with
  | release =>
    simp only [Mode.limit, Mode.header, Mode.fence, UInt64.reduceToNat] at h ⊢
    omega
  | debug =>
    simp only [Mode.limit, Mode.header, Mode.fence, UInt64.reduceToNat] at h ⊢
    omega

/-- Beyond the limit it is too small. -/
theorem totalSize_wraps {m : Mode} (h : m.limit < size.toNat) :
    (totalSize m size).toNat < m.header.toNat + size.toNat + m.fence.toNat := by
  have hlt := size.toNat_lt
  rw [totalSize_toNat, alignUp_toNat]
  cases m with
  | release =>
    simp only [Mode.limit, Mode.header, Mode.fence, UInt64.reduceToNat] at h ⊢
    omega
  | debug =>
    simp only [Mode.limit, Mode.header, Mode.fence, UInt64.reduceToNat] at h ⊢
    omega

/-! ## Heaps -/

/-- The block has room for its header, its bytes and its fence. -/
structure Block.Ok (m : Mode) (b : Block) : Prop where
  small : b.size.toNat ≤ m.limit
  room : m.header.toNat + (alignUp b.size).toNat + m.fence.toNat ≤ b.capacity

structure Heap.Valid (m : Mode) (h : Heap) : Prop where
  ok : ∀ hdr b, h.blocks hdr = some b → b.Ok m
  held : ∀ hdr ∈ h.held, ∃ b, h.blocks hdr = some b
  nodup : h.held.Nodup

/-- The blocks and the live counters are the same. -/
structure Heap.Same (h h' : Heap) : Prop where
  blocks : h'.blocks = h.blocks
  held : h'.held = h.held
  allocList : h'.allocList = h.allocList
  allocCount : h'.allocCount = h.allocCount
  allocBytes : h'.allocBytes = h.allocBytes

/-- The backend hands out blocks that are not in use. -/
def Fresh (h : Heap) (answer : Answer) : Prop := ∀ p ∈ answer, h.blocks p.1 = none

/-- A block of the user, which has not been freed. -/
def Heap.Live (h : Heap) (hdr : Nat) : Prop := (∃ b, h.blocks hdr = some b) ∧ hdr ∉ h.held

@[simp] theorem getHeader_userPtr (m : Mode) (hdr : Nat) : getHeader m (userPtr m hdr) = hdr :=
  Nat.add_sub_cancel ..

variable {b : Block}

theorem Block.Ok.room_le {m : Mode} (h : b.Ok m) :
    (alignUp b.size).toNat + m.fence.toNat ≤ b.room m := by
  have := h.room
  unfold Block.room
  omega

theorem Block.Ok.size_le {m : Mode} (h : b.Ok m) : b.size.toNat ≤ b.room m := by
  have := (totalSize_fits h.small).1
  have := h.room_le
  omega

variable {h' : Heap}

theorem Heap.Valid.of_blocks {m : Mode} {h : Heap} (hv : h.Valid m) (hb : h'.blocks = h.blocks)
    (hh : h'.held = h.held) : h'.Valid m where
  ok := by
    rw [hb]
    exact hv.ok
  held := by
    rw [hb, hh]
    exact hv.held
  nodup := by
    rw [hh]
    exact hv.nodup

variable {hdr : Nat}

theorem Heap.Valid.set_some {m : Mode} {h : Heap} (hv : h.Valid m) (hb : b.Ok m) :
    (h.set hdr (some b)).Valid m where
  ok x c hc := by
    by_cases hx : x = hdr
    · subst hx
      have : b = c := by simpa [Heap.set] using hc
      exact this ▸ hb
    · exact hv.ok x c (by simpa [Heap.set, hx] using hc)
  held x hx := by
    by_cases he : x = hdr
    · exact ⟨b, by simp [Heap.set, he]⟩
    · obtain ⟨c, hc⟩ := hv.held x hx
      exact ⟨c, by simpa [Heap.set, he] using hc⟩
  nodup := hv.nodup

theorem Heap.Valid.set_none {m : Mode} {h : Heap} (hv : h.Valid m) (hn : hdr ∉ h.held) :
    (h.set hdr none).Valid m where
  ok x c hc := by
    by_cases hx : x = hdr
    · simp [Heap.set, hx] at hc
    · exact hv.ok x c (by simpa [Heap.set, hx] using hc)
  held x hx := by
    have he : x ≠ hdr := fun he => hn (he ▸ hx)
    obtain ⟨c, hc⟩ := hv.held x hx
    exact ⟨c, by simpa [Heap.set, he] using hc⟩
  nodup := hv.nodup

/-! ## Allocating -/

/-- What `axl_malloc_impl` leaves when it has a block: a new one, large enough. -/
structure Allocated (m : Mode) (h : Heap) (size : UInt64) (o : Outcome) (hdr : Nat) (b : Block) :
    Prop where
  ptr : o.ptr = some (userPtr m hdr)
  asked : ∃ total, o.asked = some total ∧ b.capacity = total.toNat ∧
    m.header.toNat + size.toNat + m.fence.toNat ≤ total.toNat
  new : h.blocks hdr = none
  blocks : o.heap.blocks = Function.update h.blocks hdr (some b)
  held : o.heap.held = h.held
  ok : b.Ok m
  size : size.toNat ≤ b.size.toNat

theorem newBlock_fits {m : Mode} (hs : size.toNat ≤ m.limit) (junk : Bytes) :
    ∃ b, newBlock m (totalSize m size) size junk = some b ∧ b.Ok m ∧ b.size = size ∧
      b.capacity = (totalSize m size).toNat := by
  obtain ⟨-, htotal⟩ := totalSize_fits hs
  have hh : ¬ totalSize m size < m.header := by
    rw [UInt64.lt_iff_toNat_lt]
    omega
  rw [newBlock, if_neg hh]
  cases m with
  | release => exact ⟨_, rfl, ⟨hs, htotal.ge⟩, rfl, rfl⟩
  | debug =>
    have hn : ¬ (alignUp size).toNat + 8 > Block.room .debug
        ⟨(totalSize .debug size).toNat, size, AXL_FENCE_HEAD, AXL_FENCE_HEAD, junk⟩ := by
      have hf : Mode.debug.fence.toNat = 8 := rfl
      simp only [Block.room]
      omega
    exact ⟨_, if_neg hn, ⟨hs, htotal.ge⟩, rfl, rfl⟩

theorem axlMallocImpl_fits {m : Mode} {h : Heap} {answer : Answer} (hf : Fresh h answer)
    (hs : size.toNat ≤ m.limit) :
    ∃ o, axlMallocImpl m h size answer = some o ∧
      ((o.ptr = none ∧ h.Same o.heap) ∨ ∃ hdr b, Allocated m h size o hdr b) := by
  have hone : (if size = 0 then 1 else size).toNat ≤ m.limit ∧
      size.toNat ≤ (if size = 0 then 1 else size).toNat := by
    split
    · subst size
      cases m <;> decide
    · exact ⟨hs, le_rfl⟩
  unfold axlMallocImpl
  revert hone
  generalize (if size = 0 then 1 else size) = n
  rintro ⟨hn, hle⟩
  dsimp only
  by_cases hfail : h.failNextAlloc = 1
  · rw [if_pos hfail]
    exact ⟨_, rfl, .inl ⟨rfl, rfl, rfl, rfl, rfl, rfl⟩⟩
  rw [if_neg hfail]
  have hsame : h.Same (if h.failNextAlloc > 0 then { h with failNextAlloc := h.failNextAlloc - 1 }
      else h) := by
    split <;> exact ⟨rfl, rfl, rfl, rfl, rfl⟩
  revert hsame
  generalize (if h.failNextAlloc > 0 then { h with failNextAlloc := h.failNextAlloc - 1 } else h) = h'
  intro hsame
  cases answer with
  | none => exact ⟨_, rfl, .inl ⟨rfl, hsame⟩⟩
  | some p =>
    obtain ⟨hdr, junk⟩ := p
    obtain ⟨b, hb, hok, hsize, hcap⟩ := newBlock_fits hn junk
    obtain ⟨-, htotal⟩ := totalSize_fits hn
    have halign := (totalSize_fits hn).1
    dsimp only
    rw [hb]
    refine ⟨_, rfl, .inr ⟨hdr, b, rfl, ⟨_, rfl, hcap, by omega⟩, hf _ rfl, ?_, hsame.held, hok, ?_⟩⟩
    · simp only [Heap.set, hsame.blocks]
    · rwa [hsize]

variable {o : Outcome}

theorem Allocated.valid {m : Mode} {h : Heap} (ha : Allocated m h size o hdr b) (hv : h.Valid m) :
    o.heap.Valid m :=
  (hv.set_some ha.ok).of_blocks ha.blocks ha.held

/-- A write that the block has room for. -/
theorem Heap.fill_of {m : Mode} {h : Heap} {n : Nat} (hb : h.blocks hdr = some b)
    (hn : n ≤ b.room m) (write : Bytes → Bytes) : h.fill m (userPtr m hdr) n write =
      some (h.set hdr (some { b with body := write b.body })) := by
  simp only [Heap.fill, getHeader_userPtr, hb, if_neg (Nat.not_lt.mpr hn)]

theorem Block.Ok.write {m : Mode} (h : b.Ok m) (body : Bytes) :
    Block.Ok m { b with body := body } := ⟨h.small, h.room⟩

/-- A new block that has been written to. -/
theorem Allocated.fill {m : Mode} {h : Heap} (ha : Allocated m h size o hdr b) {n : Nat}
    (hn : n ≤ size.toNat) (write : Bytes → Bytes) :
    ∃ h', o.heap.fill m (userPtr m hdr) n write = some h' ∧
      Allocated m h size { o with heap := h' } hdr { b with body := write b.body } := by
  have hb : o.heap.blocks hdr = some b := by simp [ha.blocks]
  have hroom : n ≤ b.room m := hn.trans (ha.size.trans ha.ok.size_le)
  refine ⟨_, Heap.fill_of hb hroom write, ha.ptr, ha.asked, ha.new, ?_, ha.held, ha.ok.write _,
    ha.size⟩
  simp only [Heap.set, ha.blocks, Function.update_idem]

/-! ## Freeing -/

/-- Some blocks are gone, and no other has changed. -/
structure Heap.Released (gone : List Nat) (h h' : Heap) : Prop where
  kept : ∀ hdr, hdr ∉ gone → h'.blocks hdr = h.blocks hdr
  sub : ∀ hdr b, h'.blocks hdr = some b → h.blocks hdr = some b

theorem Heap.Released.trans {gone gone' : List Nat} {h h'' : Heap} (a : Heap.Released gone h h')
    (b : Heap.Released gone' h' h'') :
    Heap.Released (gone ++ gone') h h'' where
  kept hdr hn := by
    rw [mem_append, not_or] at hn
    rw [b.kept hdr hn.2, a.kept hdr hn.1]
  sub hdr c hc := a.sub hdr c (b.sub hdr c hc)

theorem released_set_none (h : Heap) (hdr : Nat)
    (hb : h'.blocks = Function.update h.blocks hdr none) : Heap.Released [hdr] h h' where
  kept x hx := by
    have hne : x ≠ hdr := by simpa using hx
    simp [hb, hne]
  sub x c hc := by
    by_cases hx : x = hdr
    · simp [hb, hx] at hc
    · simpa [hb, hx] using hc

/-- The loop releases the oldest blocks that are held, and keeps the others. -/
theorem evictFor_spec (cap size : Nat) {held : List Nat} {h : Heap}
    (hb : ∀ hdr ∈ held, ∃ b, h.blocks hdr = some b) (hnd : held.Nodup) :
    ∃ h' gone, evictFor cap size h held = some h' ∧ held = gone ++ h'.held ∧
      Heap.Released gone h h' := by
  induction held generalizing h with
  | nil => exact ⟨_, [], rfl, rfl, fun _ _ => rfl, fun _ _ hc => hc⟩
  | cons hdr held ih =>
    rw [evictFor]
    split
    case isTrue =>
      obtain ⟨b, hhdr⟩ := hb hdr mem_cons_self
      obtain ⟨hnot, hnd⟩ := nodup_cons.mp hnd
      have hrel : Heap.Released [hdr] h
          (quarantineRelease { h with heldBytes := h.heldBytes - b.size.toNat } hdr b) :=
        released_set_none h hdr rfl
      have hb' : ∀ x ∈ held, ∃ c, (quarantineRelease
          { h with heldBytes := h.heldBytes - b.size.toNat } hdr b).blocks x = some c := fun x hx => by
        obtain ⟨c, hc⟩ := hb x (mem_cons_of_mem _ hx)
        have hne : x ∉ [hdr] := by
          rw [mem_singleton]
          rintro rfl
          exact hnot hx
        exact ⟨c, (hrel.kept x hne).trans hc⟩
      obtain ⟨h', gone, he, hheld, hr⟩ := ih hb' hnd
      rw [hhdr]
      exact ⟨h', hdr :: gone, he, by rw [hheld]; rfl, hrel.trans hr⟩
    case isFalse => exact ⟨_, [], rfl, rfl, fun _ _ => rfl, fun _ _ hc => hc⟩

theorem quarantinePush_spec {m : Mode} {h : Heap} (hv : h.Valid m) (hb : h.blocks hdr = some b)
    (hnot : hdr ∉ h.held) (size : Nat) :
    ∃ h', quarantinePush h hdr size = some h' ∧ h'.Valid m ∧
      ∀ x, x ≠ hdr → x ∉ h.held → h'.blocks x = h.blocks x := by
  unfold quarantinePush
  dsimp only
  generalize (if h.quarantineLimit > AXL_MEM_QUARANTINE_MAX then AXL_MEM_QUARANTINE_MAX
    else h.quarantineLimit) = cap
  split
  case isTrue =>
    exact ⟨_, rfl, hv.set_none hnot, fun x hx _ => by simp [Heap.set, hx]⟩
  case isFalse =>
    obtain ⟨h', gone, he, hheld, hr⟩ := evictFor_spec cap size hv.held hv.nodup
    have hnd : (gone ++ h'.held).Nodup := hheld ▸ hv.nodup
    have hgone : ∀ x ∈ h'.held, x ∉ gone := fun x hx hg => (disjoint_of_nodup_append hnd) hg hx
    have hsub : ∀ x ∈ h'.held, x ∈ h.held := fun x hx => hheld ▸ mem_append_right _ hx
    have hhdr : hdr ∉ gone := fun hg => hnot (hheld ▸ mem_append_left _ hg)
    rw [he]
    refine ⟨_, rfl, ⟨fun x c hc => hv.ok x c (hr.sub x c hc), fun x hx => ?_, ?_⟩, fun x hx hn => ?_⟩
    · rcases mem_append.mp hx with hx | hx
      · obtain ⟨c, hc⟩ := hv.held x (hsub x hx)
        exact ⟨c, (hr.kept x (hgone x hx)).trans hc⟩
      · obtain rfl := mem_singleton.mp hx
        exact ⟨b, (hr.kept x hhdr).trans hb⟩
    · exact nodup_append.mpr ⟨(nodup_append.mp hnd).2.1, nodup_singleton _,
        fun x hx y hy => by
          obtain rfl := mem_singleton.mp hy
          rintro rfl
          exact hnot (hsub x hx)⟩
    · exact hr.kept x fun hg => hn (hheld ▸ mem_append_left _ hg)

/-- A block that is live can be freed, and no other live block changes. -/
theorem axlFreeImpl_spec {m : Mode} {h : Heap} (hv : h.Valid m) (hlive : h.Live hdr) :
    ∃ h', axlFreeImpl m h (some (userPtr m hdr)) = some h' ∧ h'.Valid m ∧
      ∀ x, x ≠ hdr → x ∉ h.held → h'.blocks x = h.blocks x := by
  obtain ⟨⟨b, hb⟩, hnot⟩ := hlive
  simp only [axlFreeImpl, getHeader_userPtr, hb]
  cases m with
  | release =>
    have hv' : (h.uncount b).Valid .release := hv.of_blocks rfl rfl
    refine ⟨_, rfl, hv'.set_none hnot, fun x hx _ => ?_⟩
    simp [Heap.set, Heap.uncount, hx]
  | debug =>
    have hroom := (hv.ok hdr b hb).room_le
    have hfence : Mode.debug.fence.toNat = 8 := rfl
    dsimp only
    rw [if_neg hnot, if_neg (by omega)]
    let h₁ := if !validateFences b && !quarantineWillHold h b then
      { h with corruptionCount := h.corruptionCount + 1 } else h
    have h₁b : h₁.blocks = h.blocks := by simp only [h₁]; split <;> rfl
    have h₁h : h₁.held = h.held := by simp only [h₁]; split <;> rfl
    let filled : Block := { b with body := memSet b.body AXL_FREE_FILL (alignUp b.size).toNat }
    let h₂ := (Heap.set { h₁ with allocList := h₁.allocList.erase hdr } hdr (some filled)).uncount b
    have h₂v : h₂.Valid .debug := Heap.Valid.of_blocks (h := h.set hdr (some filled))
      (hv.set_some ((hv.ok hdr b hb).write _)) (by simp only [h₂, Heap.set, Heap.uncount, h₁b]) h₁h
    have h₂b : h₂.blocks = Function.update h.blocks hdr (some filled) := by
      simp only [h₂, Heap.set, Heap.uncount, h₁b]
    have hfilled : h₂.blocks hdr = some filled := by simp [h₂b]
    obtain ⟨h', he, hv', hsame⟩ := quarantinePush_spec h₂v hfilled
      (by rwa [show h₂.held = h.held from h₁h]) b.size.toNat
    refine ⟨h', he, hv', fun x hx hn => ?_⟩
    rw [hsame x hx (by rwa [show h₂.held = h.held from h₁h]), h₂b, Function.update_of_ne hx]

/-! ## Requests -/

/-- What a caller asks for. The block of `realloc` is one that an earlier call returned. -/
inductive Request
  | malloc (size : UInt64)
  | calloc (count size : UInt64)
  | realloc (block : Option Nat) (size : UInt64)
  | memdup (src : Option Bytes) (size : UInt64)

def Request.run (m : Mode) (h : Heap) (answer : Answer) : Request → Option Outcome
  | .malloc size => axlMallocImpl m h size answer
  | .calloc count size => axlCallocImpl m h count size answer
  | .realloc block size => axlReallocImpl m h (block.map (userPtr m)) size answer
  | .memdup src size => axlMemdupImpl m h src size answer

/-- The bytes asked for, without a bound. -/
def Request.bytes : Request → Nat
  | .malloc size => size.toNat
  | .calloc count size => count.toNat * size.toNat
  | .realloc _ size => size.toNat
  | .memdup _ size => size.toNat

/-- Requests that are turned down without asking for memory. -/
def Request.Refused : Request → Prop
  | .calloc count size => 2 ^ 64 ≤ count.toNat * size.toNat
  | .memdup src _ => src = none
  | _ => False

def Request.Live (h : Heap) : Request → Prop
  | .realloc (some hdr) _ => h.Live hdr
  | _ => True

/-- What the bytes returned hold. -/
def Request.Contents (h : Heap) (body : Bytes) : Request → Prop
  | .malloc _ => True
  | .calloc count size => ∀ i < count.toNat * size.toNat, body i = 0
  | .realloc none _ => True
  | .realloc (some hdr) size => ∀ old, h.blocks hdr = some old → ∀ i < old.size.toNat, i < size.toNat →
      body i = old.body i
  | .memdup none _ => True
  | .memdup (some src) size => ∀ i < size.toNat, body i = src i

/-- What the caller may rely on: either there is a block with room for what was asked for, or
everything is as before. -/
structure Good (m : Mode) (h : Heap) (r : Request) (o : Outcome) : Prop where
  enough : ∀ ptr, o.ptr = some ptr → ∃ total b, o.asked = some total ∧
    m.header.toNat + r.bytes + m.fence.toNat ≤ total.toNat ∧
    o.heap.blocks (getHeader m ptr) = some b ∧ b.capacity = total.toNat ∧ r.Contents h b.body
  null : o.ptr = none → r.bytes ≠ 0 → h.Same o.heap
  valid : o.heap.Valid m

/-- The sizes that do not wrap. -/
def Request.Fits (m : Mode) (r : Request) : Prop := r.bytes ≤ m.limit ∨ r.Refused

/-- In every valid heap, whatever the backend answers, the call is good. -/
def Request.Honest (m : Mode) (r : Request) : Prop :=
  ∀ h answer, h.Valid m → Fresh h answer → r.Live h → ∃ o, r.run m h answer = some o ∧ Good m h r o

theorem size_max : (0xFFFFFFFFFFFFFFFF : UInt64).toNat = 2 ^ 64 - 1 := by decide

theorem Heap.Same.refl (h : Heap) : h.Same h := ⟨rfl, rfl, rfl, rfl, rfl⟩

theorem Heap.Same.valid {m : Mode} {h : Heap} (hs : h.Same h') (hv : h.Valid m) : h'.Valid m :=
  hv.of_blocks hs.blocks hs.held

variable {r : Request}

theorem good_null {m : Mode} {h : Heap} (hp : o.ptr = none) (hs : h.Same o.heap) (hv : h.Valid m) :
    Good m h r o where
  enough ptr h := by
    rw [hp] at h
    cases h
  null _ _ := hs
  valid := hs.valid hv

theorem Allocated.good {m : Mode} {h : Heap} (ha : Allocated m h size o hdr b) (hv : h.Valid m)
    (hr : r.bytes = size.toNat) (hc : r.Contents h b.body) : Good m h r o where
  enough ptr hp := by
    obtain rfl : userPtr m hdr = ptr := by simpa [ha.ptr] using hp
    obtain ⟨total, ht, hcap, hle⟩ := ha.asked
    refine ⟨total, b, ht, by omega, ?_, hcap, hc⟩
    simp [ha.blocks]
  null hp _ := by
    rw [ha.ptr] at hp
    cases hp
  valid := ha.valid hv

section
variable {m : Mode} {h : Heap} {answer : Answer} (hv : h.Valid m) (hf : Fresh h answer)
include hv hf

variable {size : UInt64}

theorem malloc_good (hs : size.toNat ≤ m.limit) :
    ∃ o, Request.run m h answer (.malloc size) = some o ∧ Good m h (.malloc size) o := by
  obtain ⟨o, ho, ⟨hp, hsame⟩ | ⟨hdr, b, ha⟩⟩ := axlMallocImpl_fits hf hs
  · exact ⟨o, ho, good_null hp hsame hv⟩
  · exact ⟨o, ho, ha.good hv rfl trivial⟩

theorem realloc_null_good (hs : size.toNat ≤ m.limit) :
    ∃ o, Request.run m h answer (.realloc none size) = some o ∧ Good m h (.realloc none size) o := by
  obtain ⟨o, ho, hg⟩ := malloc_good hv hf hs
  exact ⟨o, ho, ⟨hg.enough, hg.null, hg.valid⟩⟩

theorem calloc_good {count : UInt64} (hs : count.toNat * size.toNat ≤ m.limit) :
    ∃ o, Request.run m h answer (.calloc count size) = some o ∧ Good m h (.calloc count size) o := by
  have hlt : count.toNat * size.toNat < 2 ^ 64 := by
    refine lt_of_le_of_lt hs ?_
    cases m <;> decide
  have hmul : (count * size).toNat = count.toNat * size.toNat := by
    rw [UInt64.toNat_mul, Nat.mod_eq_of_lt hlt]
  have hcheck : ¬ (count ≠ 0 ∧ size > (0xFFFFFFFFFFFFFFFF : UInt64) / count) := by
    rintro ⟨hne, hgt⟩
    have hpos : 0 < count.toNat := Nat.pos_of_ne_zero fun h0 => hne (UInt64.toNat_inj.mp h0)
    rw [gt_iff_lt, UInt64.lt_iff_toNat_lt, UInt64.toNat_div, size_max, Nat.div_lt_iff_lt_mul hpos,
      Nat.mul_comm] at hgt
    omega
  simp only [Request.run, axlCallocImpl]
  rw [if_neg hcheck]
  obtain ⟨o, ho, ⟨hp, hsame⟩ | ⟨hdr, b, ha⟩⟩ := axlMallocImpl_fits hf (hmul ▸ hs)
  · exact ⟨o, by simp [ho, hp], good_null hp hsame hv⟩
  · obtain ⟨h', hfill, ha'⟩ := ha.fill le_rfl fun dst => memSet dst 0 (count * size).toNat
    refine ⟨{ o with heap := h' }, ?_, ha'.good hv hmul.symm fun i hi => if_pos (hmul ▸ hi)⟩
    rw [ho, Option.bind_some]
    simp only [ha.ptr, hfill, Option.map_some]

theorem memdup_good {src : Bytes} (hs : size.toNat ≤ m.limit) :
    ∃ o, Request.run m h answer (.memdup (some src) size) = some o ∧
      Good m h (.memdup (some src) size) o := by
  simp only [Request.run, axlMemdupImpl]
  obtain ⟨o, ho, ⟨hp, hsame⟩ | ⟨hdr, b, ha⟩⟩ := axlMallocImpl_fits hf hs
  · exact ⟨o, by simp [ho, hp], good_null hp hsame hv⟩
  · obtain ⟨h', hfill, ha'⟩ := ha.fill le_rfl fun dst => memCpy dst src size.toNat
    refine ⟨{ o with heap := h' }, by simp [ho, ha.ptr, hfill], ha'.good hv rfl fun i hi => ?_⟩
    exact if_pos hi

/-- The old block is copied before it is freed, and freeing it leaves the new one alone. -/
theorem realloc_good {hdr : Nat} (hlive : h.Live hdr) (hs : size.toNat ≤ m.limit) :
    ∃ o, Request.run m h answer (.realloc (some hdr) size) = some o ∧
      Good m h (.realloc (some hdr) size) o := by
  have ⟨⟨old, hold⟩, hnot⟩ := hlive
  simp only [Request.run, Option.map_some, axlReallocImpl]
  by_cases h0 : size = 0
  · rw [if_pos h0]
    obtain ⟨h', he, hv', -⟩ := axlFreeImpl_spec hv hlive
    refine ⟨⟨none, none, h'⟩, by simp [he], ⟨?_, fun _ hne => absurd ?_ hne, hv'⟩⟩
    · rintro ptr ⟨⟩
    · simp [Request.bytes, h0]
  rw [if_neg h0]
  simp only [getHeader_userPtr, hold]
  obtain ⟨o, ho, ⟨hp, hsame⟩ | ⟨new, b, ha⟩⟩ := axlMallocImpl_fits hf hs
  · exact ⟨o, by simp [ho, hp], good_null hp hsame hv⟩
  · let copySize := if old.size < size then old.size else size
    have hcopy : copySize.toNat ≤ size.toNat ∧ ∀ i < old.size.toNat, i < size.toNat →
        i < copySize.toNat := by
      simp only [copySize]
      split
      case isTrue hlt =>
        rw [UInt64.lt_iff_toNat_lt] at hlt
        exact ⟨by omega, fun i hi _ => hi⟩
      case isFalse => exact ⟨le_rfl, fun i _ hi => hi⟩
    obtain ⟨h₁, hfill, ha₁⟩ := ha.fill hcopy.1 fun dst => memCpy dst old.body copySize.toNat
    have hne : hdr ≠ new := fun he => by
      have := ha.new
      rw [← he, hold] at this
      cases this
    have hlive₁ : h₁.Live hdr := by
      refine ⟨⟨old, ?_⟩, ?_⟩
      · have := ha₁.blocks
        dsimp only at this
        rw [this, Function.update_of_ne hne, hold]
      · have := ha₁.held
        dsimp only at this
        rwa [this]
    obtain ⟨h₂, hfree, hv₂, hsame₂⟩ := axlFreeImpl_spec (ha₁.valid hv) hlive₁
    -- the new block is not one of those held, since the backend had it
    have hnew : h₂.blocks new = h₁.blocks new := hsame₂ new hne.symm fun hh => by
      have hh' : new ∈ h.held := ha₁.held ▸ hh
      obtain ⟨c, hc⟩ := hv.held new hh'
      rw [ha.new] at hc
      cases hc
    have hrun : (axlMallocImpl m h size answer).bind (fun o =>
        match o.ptr with
        | none => some o
        | some newPtr =>
          (o.heap.fill m newPtr copySize.toNat fun dst =>
            memCpy dst old.body copySize.toNat).bind fun h =>
              (axlFreeImpl m h (some (userPtr m hdr))).map fun h => { o with heap := h }) =
        some { o with heap := h₂ } := by
      rw [ho]
      simp only [Option.bind_some, ha.ptr, hfill]
      rw [show axlFreeImpl m h₁ (some (userPtr m hdr)) = some h₂ from hfree]
      rfl
    refine ⟨{ o with heap := h₂ }, hrun, ⟨fun ptr hp => ?_, fun hp => ?_, hv₂⟩⟩
    · obtain rfl : userPtr m new = ptr := by simpa [ha.ptr] using hp
      obtain ⟨total, ht, hcap, hle⟩ := ha₁.asked
      refine ⟨total, _, ht, by simpa [Request.bytes] using hle, ?_, hcap, ?_⟩
      · rw [getHeader_userPtr]
        have := ha₁.blocks
        dsimp only at this
        rw [hnew, this, Function.update_self]
      · intro old' hold' i hi hi'
        obtain rfl : old = old' := by simpa [hold] using hold'
        exact if_pos (hcopy.2 i hi hi')
    · rw [show ({ o with heap := h₂ } : Outcome).ptr = o.ptr from rfl, ha.ptr] at hp
      cases hp

end

theorem refused_good {m : Mode} {h : Heap} {answer : Answer} (hv : h.Valid m) (hr : r.Refused) :
    ∃ o, r.run m h answer = some o ∧ Good m h r o := by
  have hnull : Good m h r ⟨none, none, h⟩ := good_null rfl (.refl h) hv
  cases r with
  | malloc => exact hr.elim
  | realloc => exact hr.elim
  | memdup src size =>
    obtain rfl : src = none := hr
    exact ⟨_, rfl, hnull⟩
  | calloc count size =>
    have hr : 2 ^ 64 ≤ count.toNat * size.toNat := hr
    have hpos : 0 < count.toNat := Nat.pos_of_ne_zero fun h0 => by
      rw [h0, Nat.zero_mul] at hr
      omega
    have hne : count ≠ 0 := by
      rintro rfl
      exact absurd hpos (by decide)
    refine ⟨_, if_pos ⟨hne, ?_⟩, hnull⟩
    rw [gt_iff_lt, UInt64.lt_iff_toNat_lt, UInt64.toNat_div, size_max, Nat.div_lt_iff_lt_mul hpos,
      Nat.mul_comm]
    omega

/-- A request that fits is good. -/
theorem Request.Fits.honest {m : Mode} (hr : r.Fits m) : r.Honest m := by
  intro h answer hv hf hlive
  rcases hr with hs | hr
  · match r with
    | .malloc _ => exact malloc_good hv hf hs
    | .calloc _ _ => exact calloc_good hv hf hs
    | .realloc none _ => exact realloc_null_good hv hf hs
    | .realloc (some _) _ => exact realloc_good hv hf hlive hs
    | .memdup none _ => exact refused_good hv rfl
    | .memdup (some _) _ => exact memdup_good hv hf hs
  · exact refused_good hv hr

/-! ## Requests that do not fit -/

/-- A request that the backend grants asks it for `totalSize`, and has a pointer. -/
theorem axlMallocImpl_asked {m : Mode} {h : Heap} {p : Nat × Bytes} (hfail : h.failNextAlloc = 0)
    (hne : size ≠ 0) (ho : axlMallocImpl m h size (some p) = some o) :
    o.ptr = some (userPtr m p.1) ∧ o.asked = some (totalSize m size) := by
  simp only [axlMallocImpl, if_neg hne] at ho
  rw [if_neg (by rw [hfail]; decide)] at ho
  obtain ⟨b, -, rfl⟩ := Option.map_eq_some_iff.mp ho
  exact ⟨rfl, rfl⟩

theorem Request.asked {m : Mode} {h : Heap} {p : Nat × Bytes} (hfail : h.failNextAlloc = 0)
    (hr : ¬ r.Fits m) (ho : r.run m h (some p) = some o) :
    ∃ ptr total size, o.ptr = some ptr ∧ o.asked = some total ∧ total = totalSize m size ∧
      size.toNat = r.bytes := by
  obtain ⟨hbig, hnot⟩ := not_or.mp hr
  have hpos : ∀ size : UInt64, m.limit < size.toNat → size ≠ 0 := fun size hs h0 => by
    rw [h0] at hs
    exact absurd hs (Nat.not_lt_zero _)
  have hmalloc : ∀ {size o'}, m.limit < size.toNat → axlMallocImpl m h size (some p) = some o' →
      o'.ptr = some (userPtr m p.1) ∧ o'.asked = some (totalSize m size) :=
    fun hs ho' => axlMallocImpl_asked hfail (hpos _ hs) ho'
  rw [Nat.not_le] at hbig
  match r with
  | .malloc size =>
    obtain ⟨hp, ha⟩ := hmalloc hbig ho
    exact ⟨_, _, size, hp, ha, rfl, rfl⟩
  | .calloc count size =>
    have hlt : count.toNat * size.toNat < 2 ^ 64 := Nat.not_le.mp hnot
    have hmul : (count * size).toNat = count.toNat * size.toNat := by
      rw [UInt64.toNat_mul, Nat.mod_eq_of_lt hlt]
    simp only [Request.run, axlCallocImpl] at ho
    split at ho
    case isTrue hc =>
      obtain ⟨hne, hgt⟩ := hc
      have hcount : 0 < count.toNat := Nat.pos_of_ne_zero fun h0 => hne (UInt64.toNat_inj.mp h0)
      rw [gt_iff_lt, UInt64.lt_iff_toNat_lt, UInt64.toNat_div, size_max,
        Nat.div_lt_iff_lt_mul hcount, Nat.mul_comm] at hgt
      omega
    case isFalse =>
      obtain ⟨o', ho', hbind⟩ := Option.bind_eq_some_iff.mp ho
      obtain ⟨hp, ha⟩ := hmalloc (hmul ▸ hbig) ho'
      simp only [hp] at hbind
      obtain ⟨h₁, -, rfl⟩ := Option.map_eq_some_iff.mp hbind
      exact ⟨_, _, count * size, rfl, ha, rfl, hmul⟩
  | .memdup none size => exact (hnot rfl).elim
  | .memdup (some src) size =>
    simp only [Request.run, axlMemdupImpl] at ho
    obtain ⟨o', ho', hbind⟩ := Option.bind_eq_some_iff.mp ho
    obtain ⟨hp, ha⟩ := hmalloc hbig ho'
    simp only [hp] at hbind
    obtain ⟨h₁, -, rfl⟩ := Option.map_eq_some_iff.mp hbind
    exact ⟨_, _, size, rfl, ha, rfl, rfl⟩
  | .realloc none size =>
    obtain ⟨hp, ha⟩ := hmalloc hbig ho
    exact ⟨_, _, size, hp, ha, rfl, rfl⟩
  | .realloc (some hdr) size =>
    simp only [Request.run, Option.map_some, axlReallocImpl, if_neg (hpos size hbig)] at ho
    split at ho
    · cases ho
    · obtain ⟨o', ho', hbind⟩ := Option.bind_eq_some_iff.mp ho
      obtain ⟨hp, ha⟩ := hmalloc hbig ho'
      simp only [hp] at hbind
      obtain ⟨h₁, -, hmap⟩ := Option.bind_eq_some_iff.mp hbind
      obtain ⟨h₂, -, rfl⟩ := Option.map_eq_some_iff.mp hmap
      exact ⟨_, _, size, rfl, ha, rfl, rfl⟩

/-- A heap with one block. -/
def oneBlock (m : Mode) (hdr : Nat) : Heap where
  blocks x := if x = hdr then
    some ⟨m.header.toNat + 8 + m.fence.toNat, 1, AXL_FENCE_HEAD, AXL_FENCE_HEAD, fun _ => 0⟩ else none
  allocList := [hdr]
  allocCount := 1
  allocBytes := 1
  totalCount := 1
  totalBytes := 1
  corruptionCount := 0
  failNextAlloc := 0
  held := []
  heldBytes := 0
  quarantineLimit := 16

theorem oneBlock_valid (m : Mode) (hdr : Nat) : (oneBlock m hdr).Valid m where
  ok x b hb := by
    by_cases hx : x = hdr
    · simp only [oneBlock, if_pos hx, Option.some.injEq] at hb
      subst hb
      refine ⟨?_, ?_⟩
      · cases m <;> decide
      · cases m <;> decide
    · simp [oneBlock, if_neg hx] at hb
  held x hx := absurd hx not_mem_nil
  nodup := nodup_nil

theorem oneBlock_live (m : Mode) (hdr : Nat) : (oneBlock m hdr).Live hdr :=
  ⟨⟨_, if_pos rfl⟩, not_mem_nil⟩

/-- The block that a request is about. -/
def Request.block : Request → Nat
  | .realloc (some hdr) _ => hdr
  | _ => 0

theorem Request.live_oneBlock (m : Mode) (r : Request) : r.Live (oneBlock m r.block) := by
  match r with
  | .malloc _ => exact trivial
  | .calloc _ _ => exact trivial
  | .memdup _ _ => exact trivial
  | .realloc none _ => exact trivial
  | .realloc (some hdr) _ => exact oneBlock_live m hdr

/-- A request gets what it asks for, in every heap and whatever the backend answers, when the
size does not wrap: up to `2 ^ 64 - 16` bytes in a release build, `2 ^ 64 - 72` in a debug
build, or more than `axl_calloc` lets through. -/
theorem honest_iff (m : Mode) (r : Request) : r.Honest m ↔ r.Fits m := by
  refine ⟨fun hh => by_contra fun hr => ?_, Request.Fits.honest⟩
  -- the backend has room for the small size that is left after the wrap
  have hfresh : Fresh (oneBlock m r.block) (some (r.block + 1, fun _ => 0)) := by
    rintro p ⟨⟩
    exact if_neg (Nat.succ_ne_self _)
  obtain ⟨o, ho, hg⟩ := hh _ _ (oneBlock_valid m r.block) hfresh (r.live_oneBlock m)
  obtain ⟨ptr, total, size, hp, ha, rfl, hsize⟩ := r.asked rfl hr ho
  obtain ⟨total, b, ha', hle, -⟩ := hg.enough ptr hp
  obtain rfl : totalSize m size = total := by simpa [ha] using ha'
  have hwrap : m.limit < size.toNat := by
    rw [hsize]
    exact Nat.not_le.mp (not_or.mp hr).1
  have := totalSize_wraps hwrap
  omega

/-- `axl_malloc (SIZE_MAX)` in a release build gets a block of eight bytes, the header. -/
theorem malloc_size_max : ∃ o total ptr,
    axlMallocImpl .release (oneBlock .release 0) 0xFFFFFFFFFFFFFFFF (some (1, fun _ => 0)) = some o ∧
      o.ptr = some ptr ∧ o.asked = some total ∧
      total.toNat < Mode.release.header.toNat + (0xFFFFFFFFFFFFFFFF : UInt64).toNat :=
  ⟨_, _, _, rfl, rfl, rfl, by decide⟩

/-! ## Runs -/

/-- What a program does with the heap: calls, and stores into its blocks. -/
inductive Step
  | request (r : Request) (answer : Answer)
  | free (block : Option Nat)
  | store (hdr off : Nat) (c : UInt8)
  | failNextAlloc (n : UInt64)

/-- Requests fit, and blocks are used while they are live and within their size. -/
def Step.Proper (m : Mode) (h : Heap) : Step → Prop
  | .request r answer => r.Fits m ∧ Fresh h answer ∧ r.Live h
  | .free none => True
  | .free (some hdr) => h.Live hdr
  | .store hdr off _ => h.Live hdr ∧ ∀ b, h.blocks hdr = some b → off < b.size.toNat
  | .failNextAlloc _ => True

def Step.run (m : Mode) (h : Heap) : Step → Option Heap
  | .request r answer => (r.run m h answer).map Outcome.heap
  | .free block => axlFreeImpl m h (block.map (userPtr m))
  | .store hdr off c => h.fill m (userPtr m hdr) (off + 1) fun dst => Function.update dst off c
  | .failNextAlloc n => some { h with failNextAlloc := n }

theorem Step.Proper.valid {m : Mode} {h : Heap} {step : Step} (hv : h.Valid m)
    (hp : step.Proper m h) : ∃ h', step.run m h = some h' ∧ h'.Valid m := by
  match step with
  | .request r answer =>
    obtain ⟨o, ho, hg⟩ := hp.1.honest h answer hv hp.2.1 hp.2.2
    exact ⟨o.heap, by rw [Step.run, ho]; rfl, hg.valid⟩
  | .free none => exact ⟨h, rfl, hv⟩
  | .free (some hdr) =>
    obtain ⟨h', he, hv', -⟩ := axlFreeImpl_spec hv hp
    exact ⟨h', he, hv'⟩
  | .store hdr off c =>
    obtain ⟨⟨⟨b, hb⟩, -⟩, hoff⟩ := hp
    have hroom := (hv.ok hdr b hb).size_le
    have hlt := hoff b hb
    have hfill := Heap.fill_of hb (show off + 1 ≤ b.room m by omega) fun dst =>
      Function.update dst off c
    exact ⟨_, hfill, hv.set_some ((hv.ok hdr b hb).write _)⟩
  | .failNextAlloc n => exact ⟨_, rfl, hv.of_blocks rfl rfl⟩

/-- The heaps that proper steps lead to. -/
inductive Run (m : Mode) : Heap → Heap → Prop
  | nil (h : Heap) : Run m h h
  | cons {h h' h'' : Heap} {step : Step} (hp : step.Proper m h) (hs : step.run m h = some h')
      (hr : Run m h' h'') : Run m h h''

theorem Run.valid {m : Mode} {h : Heap} (hr : Run m h h') (hv : h.Valid m) : h'.Valid m := by
  induction hr with
  | nil => exact hv
  | cons hp hs _ ih =>
    obtain ⟨h₁, hs₁, hv₁⟩ := hp.valid hv
    obtain rfl := Option.some.inj (hs.symm.trans hs₁)
    exact ih hv₁

/-- The heap at the start. -/
def Heap.init : Heap where
  blocks _ := none
  allocList := []
  allocCount := 0
  allocBytes := 0
  totalCount := 0
  totalBytes := 0
  corruptionCount := 0
  failNextAlloc := 0
  held := []
  heldBytes := 0
  quarantineLimit := 16

end Mem

end AxlSdk
