import AxlSdk.Data.PieceTree.Pieces
import AxlSdk.Lib.Memory

/-!
# The gap buffer (`src/data/axl-text-buffer.c`)

One block of bytes with a gap in it, and beside it a sorted array with the
offset of every newline. An insertion or a deletion moves the gap to the place
of the edit and then patches the array; nothing is scanned again.

- `text`: the bytes before the gap and the bytes after it.
- `Layout`: the block as prefix, gap and suffix; `Index`: the array as the
  newlines of the text and unused cells.
- `run_denotes`: whatever allocations fail, every call either fails and leaves
  the text as it was or edits it, and the queries answer for the text.
-/

namespace AxlSdk

namespace TextBuffer

open Memory EditHistory List
open PieceTree (Rc newline newlineOffsets IsNthNewline)

/-! ## The store -/

/-- `AxlTextBuffer`. -/
structure TextBuffer where
  buf : List UInt8
  cap : Nat
  gapStart : Nat
  gapEnd : Nat
  nl : List Nat
  nlCount : Nat
  nlCap : Nat

/-- What the allocator returns to a call: for each of the two arrays NULL, or a
block with anything in its new cells. -/
structure Grant where
  nl : Option (Nat → Nat)
  buf : Option (Nat → UInt8)

/-- `tb_gapsize`. -/
def gapSize (tb : TextBuffer) : Nat := tb.gapEnd - tb.gapStart

/-- `tb_len`. -/
def length (tb : TextBuffer) : Nat := tb.cap - gapSize tb

/-- `nl_lower_bound`: the same search as the piece tree's. -/
def nlLowerBound (nl : List Nat) (count val : Nat) : Nat :=
  PieceTree.lowerCountLoop nl val count 0 count

/-- `count_nl`. -/
def countNl (data : List UInt8) : Nat :=
  data.foldl (fun c b => if b = newline then c + 1 else c) 0

/-- The doubling loops, which give up when a `size_t` overflows. -/
def grow (nc need : Nat) : Option Nat :=
  if nc < need then
    let nx := nc * 2 % 2 ^ 64
    if nx ≤ nc then none else grow nx need
  else some nc
termination_by 2 ^ 64 - nc
decreasing_by
  have : nc * 2 % 2 ^ 64 < 2 ^ 64 := Nat.mod_lt _ (by decide)
  omega

/-- `ensure_nl_cap`. -/
def ensureNlCap (tb : TextBuffer) (g : Grant) (need : Nat) : Rc × TextBuffer :=
  if need ≤ tb.nlCap then (.ok, tb)
  else
    match grow (if tb.nlCap = 0 then 16 else tb.nlCap) need, g.nl with
    | some nc, some junk => (.ok, { tb with nl := realloc tb.nl nc junk, nlCap := nc })
    | _, _ => (.err, tb)

/-- `ensure_gap`. The text and the bytes to come are both in memory, so that the
sum of their lengths is a `size_t`. -/
def ensureGap (tb : TextBuffer) (g : Grant) (need : Nat) : Rc × TextBuffer :=
  let length := length tb
  if tb.cap - length ≥ need then (.ok, tb)
  else
    let tail := tb.cap - tb.gapEnd
    match grow (if tb.cap = 0 then 16 else tb.cap) (length + need), g.buf with
    | some newcap, some junk =>
      let nb := realloc tb.buf newcap junk
      (.ok, { tb with
        buf := move nb (newcap - tail) tb.gapEnd tail
        gapEnd := newcap - tail
        cap := newcap })
    | _, _ => (.err, tb)

/-- `move_gap`. -/
def moveGap (tb : TextBuffer) (pos : Nat) : TextBuffer :=
  if pos = tb.gapStart then tb
  else if pos < tb.gapStart then
    let n := tb.gapStart - pos
    { tb with
      buf := move tb.buf (tb.gapEnd - n) pos n
      gapStart := tb.gapStart - n
      gapEnd := tb.gapEnd - n }
  else
    let n := pos - tb.gapStart
    { tb with
      buf := move tb.buf tb.gapStart tb.gapEnd n
      gapStart := tb.gapStart + n
      gapEnd := tb.gapEnd + n }

/-- `axl_text_buffer_new`, with the memory it got. -/
def new (initialCapacity : Nat) (junk : Nat → UInt8) : TextBuffer :=
  let cap := if initialCapacity = 0 then 16 else initialCapacity
  ⟨realloc [] cap junk, cap, 0, cap, [], 0, 0⟩

/-- The loops that append the newlines of `data` to the index, from entry `i` on;
`base` is the offset of the first byte. -/
def indexLoop : Nat → List UInt8 → Nat → List Nat → List Nat × Nat
  | _, [], i, nl => (nl, i)
  | base, b :: bs, i, nl =>
    if b = newline then indexLoop (base + 1) bs (i + 1) (nl.set i base)
    else indexLoop (base + 1) bs i nl

/-- `axl_text_buffer_set_bytes`; `none` is NULL with a length above 0. -/
def setBytes (tb : TextBuffer) (g : Grant) (data : Option (List UInt8)) : Rc × TextBuffer :=
  match data with
  | none => (.err, tb)
  | some data =>
    let len := data.length
    match ensureNlCap tb g (countNl data) with
    | (.err, tb) => (.err, tb)
    | (.ok, tb) =>
      let grown : Option TextBuffer :=
        if len > tb.cap then
          match grow (if tb.cap = 0 then 16 else tb.cap) len, g.buf with
          | some newcap, some junk =>
            some { tb with buf := realloc tb.buf newcap junk, cap := newcap }
          | _, _ => none
        else some tb
      match grown with
      | none => (.err, tb)
      | some tb =>
        let index := indexLoop 0 data 0 tb.nl
        (.ok, { tb with
          buf := write tb.buf 0 data
          gapStart := len
          gapEnd := tb.cap
          nl := index.1
          nlCount := index.2 })

/-- The end of `axl_text_buffer_insert`: later entries shift and the newlines of
`data` come in before them. -/
def insertIndex (nl : List Nat) (count offset : Nat) (data : List UInt8) : List Nat × Nat :=
  let len := data.length
  let k := countNl data
  let idx := nlLowerBound nl count offset
  if k > 0 then
    let nl := move nl (idx + k) idx (count - idx)
    let nl := updateLoop (· + len) (count + k - (idx + k)) (idx + k) nl
    ((indexLoop offset data idx nl).1, count + k)
  else (updateLoop (· + len) (count - idx) idx nl, count)

/-- `axl_text_buffer_insert`; `none` is NULL with a length above 0. -/
def insert (tb : TextBuffer) (g : Grant) (offset : Nat) (data : Option (List UInt8)) :
    Rc × TextBuffer :=
  match data with
  | none => (.err, tb)
  | some data =>
    let len := data.length
    if len = 0 then (.ok, tb)
    else
      let offset := if offset > length tb then length tb else offset
      match ensureNlCap tb g (tb.nlCount + countNl data) with
      | (.err, tb) => (.err, tb)
      | (.ok, tb) =>
        match ensureGap tb g len with
        | (.err, tb) => (.err, tb)
        | (.ok, tb) =>
          let tb := moveGap tb offset
          let index := insertIndex tb.nl tb.nlCount offset data
          (.ok, { tb with
            buf := write tb.buf tb.gapStart data
            gapStart := tb.gapStart + len
            nl := index.1
            nlCount := index.2 })

/-- The end of `axl_text_buffer_delete`: the entries of the deleted range are
dropped and later ones shift. -/
def deleteIndex (nl : List Nat) (count offset len : Nat) : List Nat × Nat :=
  let lo := nlLowerBound nl count offset
  let hi := nlLowerBound nl count (offset + len)
  let nl := updateLoop (· - len) (count - hi) hi nl
  if hi > lo then (move nl lo hi (count - hi), count - (hi - lo)) else (nl, count)

/-- `axl_text_buffer_delete`. -/
def delete (tb : TextBuffer) (offset len : Nat) : Rc × TextBuffer :=
  if offset ≥ length tb ∨ len = 0 then (.ok, tb)
  else
    let len := if len > length tb - offset then length tb - offset else len
    let tb := moveGap tb offset
    let index := deleteIndex tb.nl tb.nlCount offset len
    (.ok, { tb with gapEnd := tb.gapEnd + len, nl := index.1, nlCount := index.2 })

/-! ## Queries -/

/-- `axl_text_buffer_get`: the bytes written to an output buffer of size `cap`. -/
def get (tb : TextBuffer) (offset len cap : Nat) : List UInt8 :=
  if cap = 0 ∨ offset ≥ length tb then []
  else
    let len := if len > length tb - offset then length tb - offset else len
    let len := if len > cap then cap else len
    let gs := tb.gapStart
    let before :=
      if offset < gs then
        let stop := if offset + len > gs then gs else offset + len
        read tb.buf offset (stop - offset)
      else []
    let after :=
      if offset + len > gs then
        let lstart := if offset < gs then gs else offset
        read tb.buf (lstart + gapSize tb) (offset + len - lstart)
      else []
    before ++ after

/-- `axl_text_buffer_byte_at`; `none` is -1. -/
def byteAt (tb : TextBuffer) (offset : Nat) : Option UInt8 :=
  if offset ≥ length tb then none
  else tb.buf[if offset < tb.gapStart then offset else offset + gapSize tb]?

/-- `axl_text_buffer_line_count`. -/
def lineCount (tb : TextBuffer) : Nat := tb.nlCount + 1

/-- `axl_text_buffer_line_of_offset`. -/
def lineOfOffset (tb : TextBuffer) (offset : Nat) : Nat :=
  nlLowerBound tb.nl tb.nlCount (if offset > length tb then length tb else offset)

/-- `axl_text_buffer_line_bounds`. -/
def lineBounds (tb : TextBuffer) (line : Nat) : Option (Nat × Nat) :=
  if line > tb.nlCount then none
  else
    some (if line = 0 then 0 else tb.nl.getD (line - 1) 0 + 1,
      if line < tb.nlCount then tb.nl.getD line 0 else length tb)

/-! ## Runs -/

/-- The edits, with what the allocator does. -/
inductive Op where
  | setBytes (g : Grant) (data : Option (List UInt8))
  | insert (g : Grant) (offset : Nat) (data : Option (List UInt8))
  | delete (offset len : Nat)

/-- One call. -/
def exec (tb : TextBuffer) : Op → Rc × TextBuffer
  | .setBytes g data => setBytes tb g data
  | .insert g offset data => insert tb g offset data
  | .delete offset len => delete tb offset len

/-- The buffer after a run. -/
def run (tb : TextBuffer) (ops : List Op) : TextBuffer :=
  ops.foldl (fun tb op => (exec tb op).2) tb

/-- The text: what is before the gap and what is after it. -/
def text (tb : TextBuffer) : List UInt8 := tb.buf.take tb.gapStart ++ tb.buf.drop tb.gapEnd

/-- What a successful call does to the text. -/
def edit (D : List UInt8) : Op → List UInt8
  | .setBytes _ data => data.getD []
  | .insert _ offset data => splice D (min offset D.length) (data.getD [])
  | .delete offset len => D.take offset ++ D.drop (min (offset + len) D.length)

/-! ## The invariant -/

/-- The block is a prefix, a gap and a suffix. -/
structure Layout (tb : TextBuffer) (P G S : List UInt8) : Prop where
  buf : tb.buf = P ++ G ++ S
  start : tb.gapStart = P.length
  stop : tb.gapEnd = P.length + G.length
  cap : tb.cap = P.length + G.length + S.length

/-- The index starts with the newlines of `D`; the other cells are unused. -/
structure Index (tb : TextBuffer) (D : List UInt8) : Prop where
  nl : ∃ J, tb.nl = newlineOffsets 0 D ++ J
  count : tb.nlCount = D.count newline
  cap : tb.nlCap = tb.nl.length

/-- The two arrays agree on the text. -/
def Wf (tb : TextBuffer) : Prop := ∃ P G S, Layout tb P G S ∧ Index tb (P ++ S)

section Layout

variable {tb : TextBuffer} {P G S : List UInt8}

theorem Layout.text (h : Layout tb P G S) : text tb = P ++ S := by
  have htake : tb.buf.take tb.gapStart = P := by
    rw [h.buf, h.start, append_assoc, take_left]
  have hdrop : tb.buf.drop tb.gapEnd = S := by
    rw [h.buf, h.stop, ← length_append, drop_left]
  rw [TextBuffer.text, htake, hdrop]

theorem Layout.gapSize (h : Layout tb P G S) : gapSize tb = G.length := by
  rw [TextBuffer.gapSize, h.start, h.stop]
  omega

theorem Layout.length (h : Layout tb P G S) : length tb = (P ++ S).length := by
  rw [TextBuffer.length, h.gapSize, h.cap, length_append]
  omega

end Layout

/-- Only the index differs. -/
structure SameText (tb tb' : TextBuffer) : Prop where
  buf : tb'.buf = tb.buf
  cap : tb'.cap = tb.cap
  gapStart : tb'.gapStart = tb.gapStart
  gapEnd : tb'.gapEnd = tb.gapEnd

theorem Layout.same {tb tb' : TextBuffer} {P G S : List UInt8} (h : Layout tb P G S)
    (hs : SameText tb tb') : Layout tb' P G S :=
  ⟨hs.buf.trans h.buf, hs.gapStart.trans h.start, hs.gapEnd.trans h.stop, hs.cap.trans h.cap⟩

/-- Only the text differs. -/
structure SameIndex (tb tb' : TextBuffer) : Prop where
  nl : tb'.nl = tb.nl
  count : tb'.nlCount = tb.nlCount
  cap : tb'.nlCap = tb.nlCap

theorem SameIndex.refl (tb : TextBuffer) : SameIndex tb tb := ⟨rfl, rfl, rfl⟩

theorem Index.same {tb tb' : TextBuffer} {D : List UInt8} (h : Index tb D)
    (hs : SameIndex tb tb') : Index tb' D :=
  ⟨hs.nl ▸ h.nl, hs.count.trans h.count, by rw [hs.cap, hs.nl, h.cap]⟩

theorem wf_new (cap : Nat) (junk : Nat → UInt8) : Wf (new cap junk) := by
  refine ⟨[], (new cap junk).buf, [], ⟨?_, rfl, ?_, ?_⟩, ⟨[], rfl⟩, rfl, rfl⟩
  · simp
  · simp [new, length_realloc]
  · simp [new, length_realloc]

/-! ### Growing -/

theorem countNl_eq (data : List UInt8) : countNl data = data.count newline := by
  have h : ∀ (bs : List UInt8) c,
      bs.foldl (fun c b => if b = newline then c + 1 else c) c = c + bs.count newline := by
    intro bs
    induction bs with
    | nil => simp
    | cons b bs ih =>
      intro c
      rw [foldl_cons, ih, count_cons]
      by_cases hb : b = newline
      · simp [hb]
        omega
      · simp [hb]
  rw [countNl, h, Nat.zero_add]

theorem grow_spec {nc need c : Nat} (h : grow nc need = some c) : need ≤ c ∧ nc ≤ c := by
  induction nc using grow.induct need with
  | case1 nc hlt nx hle =>
    rw [grow, if_pos hlt, if_pos hle] at h
    cases h
  | case2 nc hlt nx hle ih =>
    rw [grow, if_pos hlt, if_neg hle] at h
    have := ih h
    omega
  | case3 nc hlt =>
    rw [grow, if_neg hlt] at h
    cases h
    omega

/-- `ensure_nl_cap` makes room in the index or fails; it keeps the entries. -/
theorem ensureNlCap_spec {tb : TextBuffer} {D : List UInt8} (h : Index tb D) (g : Grant)
    (need : Nat) :
    ∃ rc tb', ensureNlCap tb g need = (rc, tb') ∧ SameText tb tb' ∧ Index tb' D ∧
      (rc = .ok → need ≤ tb'.nlCap) := by
  unfold ensureNlCap
  split
  · rename_i hle
    exact ⟨_, _, rfl, ⟨rfl, rfl, rfl, rfl⟩, h, fun _ => hle⟩
  · split
    · rename_i nc junk hgrow _
      obtain ⟨hneed, hnc⟩ := grow_spec hgrow
      have hge : tb.nl.length ≤ nc := by
        rw [← h.cap]
        refine Nat.le_trans ?_ hnc
        split <;> omega
      obtain ⟨j, hj, -⟩ := realloc_grow hge junk
      obtain ⟨J, hJ⟩ := h.nl
      refine ⟨_, _, rfl, ⟨rfl, rfl, rfl, rfl⟩, ⟨⟨J ++ j, ?_⟩, h.count, ?_⟩, fun _ => hneed⟩
      · show realloc tb.nl nc junk = _
        rw [hj, hJ, append_assoc]
      · exact (length_realloc _ _ _).symm
    · refine ⟨_, _, rfl, ⟨rfl, rfl, rfl, rfl⟩, h, ?_⟩
      rintro ⟨⟩

/-- `ensure_gap` widens the gap or fails. -/
theorem ensureGap_spec {tb : TextBuffer} {P G S : List UInt8} (h : Layout tb P G S) (g : Grant)
    (need : Nat) :
    ∃ rc tb' G', ensureGap tb g need = (rc, tb') ∧ SameIndex tb tb' ∧ Layout tb' P G' S ∧
      (rc = .ok → need ≤ G'.length) := by
  have hlen := h.length
  rw [length_append] at hlen
  unfold ensureGap
  dsimp only
  rw [hlen]
  split
  · rename_i hge
    have := h.cap
    exact ⟨_, _, G, rfl, SameIndex.refl tb, h, fun _ => by omega⟩
  · split
    · rename_i newcap junk hgrow _
      obtain ⟨hneed, hnc⟩ := grow_spec hgrow
      have hcap := h.cap
      have hstop := h.stop
      have hge : tb.cap ≤ newcap := by
        refine Nat.le_trans ?_ hnc
        split <;> omega
      have hbuf : tb.buf.length ≤ newcap := by
        rw [h.buf]
        simp only [length_append]
        omega
      obtain ⟨j, hj, hjlen⟩ := realloc_grow hbuf junk
      rw [h.buf] at hj hjlen
      simp only [length_append] at hjlen
      have htail : tb.cap - tb.gapEnd = S.length := by omega
      -- the suffix moves up by the size of the new memory
      obtain ⟨g', hg', hglen⟩ := @move_up _ (P ++ G) S j (newcap - S.length) tb.gapEnd
        S.length j.length (by simp [hstop]) rfl (by simp; omega) (Nat.le_refl _)
      rw [drop_length, append_nil] at hg'
      refine ⟨_, _, G ++ g', rfl, ⟨rfl, rfl, rfl⟩, ⟨?_, h.start, ?_, ?_⟩, fun _ => ?_⟩
      · show move (realloc tb.buf newcap junk) _ _ _ = _
        rw [h.buf, hj, htail, hg']
        simp [append_assoc]
      · show newcap - (tb.cap - tb.gapEnd) = _
        simp only [length_append]
        omega
      · show newcap = _
        simp only [length_append]
        omega
      · simp only [length_append]
        omega
    · refine ⟨_, _, G, rfl, SameIndex.refl tb, h, ?_⟩
      rintro ⟨⟩

/-- `move_gap` puts the gap at `pos` and keeps the text. -/
theorem moveGap_spec {tb : TextBuffer} {P G S : List UInt8} (h : Layout tb P G S) {pos : Nat}
    (hpos : pos ≤ (P ++ S).length) :
    ∃ P' G' S', Layout (moveGap tb pos) P' G' S' ∧ SameIndex tb (moveGap tb pos) ∧
      P' ++ S' = P ++ S ∧ P'.length = pos ∧ G'.length = G.length := by
  have hstart := h.start
  have hstop := h.stop
  have hcap := h.cap
  rw [length_append] at hpos
  unfold moveGap
  split
  · rename_i heq
    exact ⟨P, G, S, h, SameIndex.refl tb, rfl, by omega, rfl⟩
  · split
    · rename_i hlt
      -- the end of the prefix moves over the gap
      have hP : P = P.take pos ++ P.drop pos := (take_append_drop pos P).symm
      have hlen : (P.take pos).length = pos := length_take_of_le (by omega)
      obtain ⟨g', hg', hglen⟩ := @move_up _ (P.take pos) (P.drop pos) (G ++ S)
        (tb.gapEnd - (tb.gapStart - pos)) pos (tb.gapStart - pos) G.length hlen.symm (by simp; omega) (by rw [hlen]; omega) (by simp)
      rw [drop_left] at hg'
      refine ⟨P.take pos, g', P.drop pos ++ S, ⟨?_, ?_, ?_, ?_⟩, ⟨rfl, rfl, rfl⟩, ?_, hlen, hglen⟩
      · show move tb.buf _ _ _ = _
        rw [h.buf, ← append_assoc, ← hg', take_append_drop, append_assoc]
      · show tb.gapStart - (tb.gapStart - pos) = _
        omega
      · show tb.gapEnd - (tb.gapStart - pos) = _
        omega
      · show tb.cap = _
        simp only [length_append, length_drop]
        omega
      · rw [← append_assoc, take_append_drop]
    · rename_i hne hlt
      -- the start of the suffix moves over the gap
      have hlen : (S.take (pos - tb.gapStart)).length = pos - tb.gapStart :=
        length_take_of_le (by omega)
      obtain ⟨g', hg', hglen⟩ := @move_down _ P G (S.take (pos - tb.gapStart))
        (S.drop (pos - tb.gapStart)) tb.gapStart tb.gapEnd (pos - tb.gapStart) hstart hstop hlen.symm
      refine ⟨P ++ S.take (pos - tb.gapStart), g', S.drop (pos - tb.gapStart),
        ⟨?_, ?_, ?_, ?_⟩, ⟨rfl, rfl, rfl⟩, ?_, ?_, hglen⟩
      · show move tb.buf _ _ _ = _
        rw [h.buf, ← hg', append_assoc (P ++ G), take_append_drop]
      · show tb.gapStart + (pos - tb.gapStart) = _
        rw [length_append]
        omega
      · show tb.gapEnd + (pos - tb.gapStart) = _
        rw [length_append]
        omega
      · show tb.cap = _
        simp only [length_append, length_drop]
        omega
      · rw [append_assoc, take_append_drop]
      · rw [length_append]
        omega

/-! ### The index -/

theorem newlineOffsets_add (base k : Nat) (bs : List UInt8) :
    newlineOffsets (base + k) bs = (newlineOffsets base bs).map (· + k) := by
  induction bs generalizing base with
  | nil => rfl
  | cons b bs ih =>
    have hnext : base + k + 1 = base + 1 + k := by omega
    rw [newlineOffsets, newlineOffsets, hnext, ih]
    split <;> simp

theorem lowerCountLoop_append {xs J : List Nat} {val fuel lo hi : Nat} (hhi : hi ≤ xs.length) :
    PieceTree.lowerCountLoop (xs ++ J) val fuel lo hi
      = PieceTree.lowerCountLoop xs val fuel lo hi := by
  induction fuel generalizing lo hi with
  | zero => rfl
  | succ fuel ih =>
    rw [PieceTree.lowerCountLoop, PieceTree.lowerCountLoop]
    split
    · rename_i hlt
      have hm : (hi - lo) / 2 < hi - lo := Nat.div_lt_self (by omega) (by omega)
      dsimp only
      rw [getD_eq_getElem?_getD, getElem?_append_left (by omega),
        ← getD_eq_getElem?_getD, ih hhi, ih (by omega)]
    · rfl

/-- `nl_lower_bound` counts the newlines before an offset. -/
theorem Index.lowerBound {tb : TextBuffer} {D : List UInt8} (h : Index tb D) (val : Nat) :
    nlLowerBound tb.nl tb.nlCount val = (D.take val).count newline := by
  obtain ⟨J, hJ⟩ := h.nl
  have hlen := PieceTree.length_newlineOffsets 0 D
  rw [nlLowerBound, h.count, ← hlen, hJ, lowerCountLoop_append (Nat.le_refl _)]
  have hcount := PieceTree.countP_newlineOffsets 0 val D
  rw [Nat.zero_add] at hcount
  rw [← hcount]
  exact PieceTree.lowerCount_eq (PieceTree.pairwise_newlineOffsets 0 D) val

theorem indexLoop_spec {base i : Nat} {data : List UInt8} {A G R : List Nat} (hi : i = A.length)
    (hG : G.length = data.count newline) :
    indexLoop base data i (A ++ G ++ R)
      = (A ++ newlineOffsets base data ++ R, i + data.count newline) := by
  induction data generalizing base i A G with
  | nil =>
    have hnil : G = [] := by simpa using hG
    simp [indexLoop, newlineOffsets, hnil]
  | cons b bs ih =>
    rw [indexLoop, newlineOffsets]
    by_cases hb : b = newline
    · rw [if_pos hb, if_pos hb]
      cases G with
      | nil => simp [hb] at hG
      | cons x G =>
        have hset : (A ++ x :: G ++ R).set i base = (A ++ [base]) ++ G ++ R := by
          subst hi
          simp
        rw [hset, ih (by simp [hi]) (by simpa [hb] using hG)]
        simp [hb, append_assoc]
        omega
    · rw [if_neg hb, if_neg hb, ih hi (by simpa [hb] using hG)]
      simp [hb]

/-- The index of a text in two parts. -/
theorem Index.split {tb : TextBuffer} {P S : List UInt8} (h : Index tb (P ++ S)) :
    ∃ J, tb.nl = newlineOffsets 0 P ++ newlineOffsets P.length S ++ J ∧
      tb.nlCap = (newlineOffsets 0 P).length + (newlineOffsets P.length S).length + J.length ∧
      tb.nlCount = (newlineOffsets 0 P).length + (newlineOffsets P.length S).length := by
  obtain ⟨J, hJ⟩ := h.nl
  rw [PieceTree.newlineOffsets_append, Nat.zero_add] at hJ
  refine ⟨J, hJ, ?_, ?_⟩
  · rw [h.cap, hJ]
    simp only [length_append]
  · rw [h.count, count_append, PieceTree.length_newlineOffsets,
      PieceTree.length_newlineOffsets]

/-- The index after an insertion. -/
theorem Index.insert {tb : TextBuffer} {P S data : List UInt8} (h : Index tb (P ++ S))
    (hroom : tb.nlCount + data.count newline ≤ tb.nlCap) :
    ∃ J, insertIndex tb.nl tb.nlCount P.length data
        = (newlineOffsets 0 (P ++ data ++ S) ++ J, (P ++ data ++ S).count newline) ∧
      tb.nlCap = (newlineOffsets 0 (P ++ data ++ S) ++ J).length := by
  obtain ⟨J, hJ, hJcap, hcount⟩ := h.split
  have hidx : nlLowerBound tb.nl tb.nlCount P.length = (newlineOffsets 0 P).length := by
    rw [h.lowerBound, take_left, PieceTree.length_newlineOffsets]
  have hk : data.count newline = (newlineOffsets P.length data).length :=
    (PieceTree.length_newlineOffsets _ _).symm
  have hnew : newlineOffsets 0 (P ++ data ++ S)
      = newlineOffsets 0 P ++ newlineOffsets P.length data
        ++ (newlineOffsets P.length S).map (· + data.length) := by
    rw [PieceTree.newlineOffsets_append, PieceTree.newlineOffsets_append, Nat.zero_add,
      ← newlineOffsets_add]
    simp
  have hlen : (newlineOffsets 0 (P ++ data ++ S)).length
      = (newlineOffsets 0 P).length + data.count newline + (newlineOffsets P.length S).length := by
    rw [hnew]
    simp [hk, Nat.add_assoc]
  rw [insertIndex, hidx, countNl_eq]
  dsimp only
  split
  · -- a hole opens before the later entries, which shift; the new ones fill it
    obtain ⟨g', hg', hglen⟩ := @move_up _ (newlineOffsets 0 P) (newlineOffsets P.length S) J
      ((newlineOffsets 0 P).length + data.count newline) (newlineOffsets 0 P).length
      (tb.nlCount - (newlineOffsets 0 P).length) (data.count newline) rfl (by omega) rfl (by omega)
    refine ⟨J.drop (data.count newline), ?_, ?_⟩
    · rw [hJ, hg', updateLoop_append _ (by simp [hglen]) (by omega),
        append_assoc (newlineOffsets 0 P ++ g'), indexLoop_spec rfl hglen, hnew]
      refine Prod.ext (by simp [append_assoc]) ?_
      rw [← PieceTree.length_newlineOffsets 0 (P ++ data ++ S), hlen, hcount]
      dsimp only
      omega
    · rw [length_append, hlen, length_drop]
      omega
  · rename_i hzero
    have hnil : newlineOffsets P.length data = [] := by
      rw [← length_eq_zero_iff]
      omega
    refine ⟨J, ?_, ?_⟩
    · rw [hJ, updateLoop_append _ rfl (by omega), hnew, hnil, append_nil]
      refine Prod.ext rfl ?_
      rw [← PieceTree.length_newlineOffsets 0 (P ++ data ++ S), hlen, hcount]
      dsimp only
      omega
    · rw [length_append, hlen]
      omega

/-- The index after a deletion. -/
theorem Index.delete {tb : TextBuffer} {P X S : List UInt8} (h : Index tb (P ++ (X ++ S))) :
    ∃ J, deleteIndex tb.nl tb.nlCount P.length X.length
        = (newlineOffsets 0 (P ++ S) ++ J, (P ++ S).count newline) ∧
      tb.nlCap = (newlineOffsets 0 (P ++ S) ++ J).length := by
  obtain ⟨J, hJ, hJcap, hcount⟩ := h.split
  rw [PieceTree.newlineOffsets_append, length_append] at hcount hJcap
  rw [PieceTree.newlineOffsets_append, ← append_assoc (newlineOffsets 0 P)] at hJ
  have hlo : nlLowerBound tb.nl tb.nlCount P.length = (newlineOffsets 0 P).length := by
    rw [h.lowerBound, take_left, PieceTree.length_newlineOffsets]
  have hhi : nlLowerBound tb.nl tb.nlCount (P.length + X.length)
      = (newlineOffsets 0 P).length + (newlineOffsets P.length X).length := by
    rw [h.lowerBound, ← append_assoc, ← length_append, take_left,
      count_append, PieceTree.length_newlineOffsets, PieceTree.length_newlineOffsets]
  -- the later entries shift back to where they are in the shorter text
  have hshift : (newlineOffsets (P.length + X.length) S).map (· - X.length)
      = newlineOffsets P.length S := by
    rw [newlineOffsets_add, map_map]
    simp [Function.comp_def]
  have hnew : newlineOffsets 0 (P ++ S) = newlineOffsets 0 P ++ newlineOffsets P.length S := by
    rw [PieceTree.newlineOffsets_append, Nat.zero_add]
  have hlenS : (newlineOffsets (P.length + X.length) S).length
      = (newlineOffsets P.length S).length := by
    rw [PieceTree.length_newlineOffsets, PieceTree.length_newlineOffsets]
  have hcnt : (P ++ S).count newline
      = (newlineOffsets 0 P).length + (newlineOffsets P.length S).length := by
    rw [← PieceTree.length_newlineOffsets 0 (P ++ S), hnew, length_append]
  rw [deleteIndex, hlo, hhi, hnew, hcnt]
  rw [hJ, updateLoop_append _ (by simp) (by omega), hshift]
  split
  · obtain ⟨g', hg', hglen⟩ := @move_down _ (newlineOffsets 0 P) (newlineOffsets P.length X)
      (newlineOffsets P.length S) J (newlineOffsets 0 P).length
      ((newlineOffsets 0 P).length + (newlineOffsets P.length X).length)
      (tb.nlCount - ((newlineOffsets 0 P).length + (newlineOffsets P.length X).length)) rfl rfl
      (by omega)
    refine ⟨g' ++ J, Prod.ext ?_ ?_, ?_⟩
    · rw [hg']
      simp [append_assoc]
    · dsimp only
      omega
    · simp only [length_append]
      omega
  · rename_i hzero
    have hnil : newlineOffsets P.length X = [] := by
      rw [← length_eq_zero_iff]
      omega
    rw [hnil] at hcount hJcap ⊢
    rw [length_nil] at hcount hJcap
    refine ⟨J, Prod.ext (by simp) ?_, ?_⟩
    · dsimp only
      omega
    · simp only [length_append]
      omega

/-! ## The calls -/

/-- A call succeeds and turns the text into `D'`, or fails and keeps it. -/
structure Edits (tb : TextBuffer) (D' : List UInt8) (r : Rc × TextBuffer) : Prop where
  wf : Wf r.2
  ok : r.1 = .ok → text r.2 = D'
  err : r.1 = .err → text r.2 = text tb

/-- A failed call. -/
theorem Edits.failed {tb tb' : TextBuffer} {P G G' S D' : List UInt8} (h : Layout tb P G S)
    (h' : Layout tb' P G' S) (hi : Index tb' (P ++ S)) : Edits tb D' (.err, tb') := by
  refine ⟨⟨P, G', S, h', hi⟩, ?_, fun _ => h'.text.trans h.text.symm⟩
  rintro ⟨⟩

/-- A successful call. -/
theorem Edits.done {tb tb' : TextBuffer} {P G S : List UInt8} (h : Layout tb' P G S)
    (hi : Index tb' (P ++ S)) : Edits tb (P ++ S) (.ok, tb') := by
  refine ⟨⟨P, G, S, h, hi⟩, fun _ => h.text, ?_⟩
  rintro ⟨⟩

theorem setBytes_edits {tb : TextBuffer} (h : Wf tb) (g : Grant) (data : Option (List UInt8)) :
    Edits tb (data.getD []) (setBytes tb g data) := by
  obtain ⟨P, G, S, hl, hi⟩ := h
  cases data with
  | none => exact Edits.failed hl hl hi
  | some data =>
    unfold setBytes
    dsimp only
    obtain ⟨rc, tb₁, hres, hsame, hi₁, hroom⟩ := ensureNlCap_spec hi g (countNl data)
    have hl₁ := hl.same hsame
    rw [hres]
    cases rc with
    | err => exact Edits.failed hl hl₁ hi₁
    | ok =>
      have hroom := hroom rfl
      rw [countNl_eq] at hroom
      dsimp only
      -- from here on only the size of the block counts
      have hfinish : ∀ buf cap, buf.length = cap → data.length ≤ cap →
          Edits tb data (.ok, { tb₁ with
            buf := write buf 0 data
            cap := cap
            gapStart := data.length
            gapEnd := cap
            nl := (indexLoop 0 data 0 tb₁.nl).1
            nlCount := (indexLoop 0 data 0 tb₁.nl).2 }) := by
        intro buf cap hbuf hle
        have hnl : tb₁.nl
            = [] ++ tb₁.nl.take (data.count newline) ++ tb₁.nl.drop (data.count newline) := by
          simp
        have hindex := @indexLoop_spec 0 0 data [] (tb₁.nl.take (data.count newline))
          (tb₁.nl.drop (data.count newline)) rfl
          (length_take_of_le (by rw [← hi₁.cap]; exact hroom))
        rw [← hnl] at hindex
        have hw : write buf 0 data = data ++ buf.drop data.length := by
          simp [write]
        have := @Edits.done tb { tb₁ with
            buf := write buf 0 data
            cap := cap
            gapStart := data.length
            gapEnd := cap
            nl := (indexLoop 0 data 0 tb₁.nl).1
            nlCount := (indexLoop 0 data 0 tb₁.nl).2 } data (buf.drop data.length) []
          ⟨by simp [hw], rfl, by simp; omega, by simp; omega⟩ ?_
        · simpa using this
        · rw [append_nil]
          refine ⟨⟨tb₁.nl.drop (data.count newline), ?_⟩, ?_, ?_⟩
          · rw [hindex]
            simp
          · rw [hindex]
            simp
          · rw [hindex]
            have := hi₁.cap
            have hk := PieceTree.length_newlineOffsets 0 data
            simp only [length_append, length_nil, length_drop]
            omega
      have hbuf₁ : tb₁.buf.length = tb₁.cap := by
        rw [hl₁.buf, hl₁.cap]
        simp only [length_append]
      split
      · exact Edits.failed hl hl₁ hi₁
      · rename_i tb₂ hgrown
        split at hgrown
        · split at hgrown
          · rename_i newcap junk hgrow _
            cases hgrown
            exact hfinish _ _ (length_realloc _ _ _) (grow_spec hgrow).1
          · cases hgrown
        · cases hgrown
          exact hfinish _ _ hbuf₁ (by omega)

theorem insert_edits {tb : TextBuffer} (h : Wf tb) (g : Grant) (offset : Nat)
    (data : Option (List UInt8)) :
    Edits tb (splice (text tb) (min offset (text tb).length) (data.getD []))
      (insert tb g offset data) := by
  obtain ⟨P, G, S, hl, hi⟩ := h
  cases data with
  | none => exact Edits.failed hl hl hi
  | some data =>
    obtain ⟨o, ho⟩ : ∃ o, o = min offset (P ++ S).length := ⟨_, rfl⟩
    rw [hl.text, Option.getD_some, ← ho]
    unfold insert
    dsimp only
    split
    · rename_i hzero
      obtain rfl : data = [] := length_eq_zero_iff.mp hzero
      rw [splice, nil_append, take_append_drop]
      exact Edits.done hl hi
    · have hoff : (if offset > length tb then length tb else offset) = o := by
        rw [hl.length, ho]
        split <;> omega
      rw [hoff]
      obtain ⟨rc, tb₁, hres, hsame, hi₁, hroom⟩ :=
        ensureNlCap_spec hi g (tb.nlCount + countNl data)
      have hl₁ := hl.same hsame
      rw [hres]
      cases rc with
      | err => exact Edits.failed hl hl₁ hi₁
      | ok =>
        dsimp only
        obtain ⟨rc, tb₂, G₂, hres, hsame₂, hl₂, hgap⟩ := ensureGap_spec hl₁ g data.length
        have hi₂ := hi₁.same hsame₂
        rw [hres]
        cases rc with
        | err => exact Edits.failed hl hl₂ hi₂
        | ok =>
          dsimp only
          obtain ⟨P', G', S', hl', hsame', htext, hP', hG'⟩ :=
            moveGap_spec hl₂ (show o ≤ (P ++ S).length by omega)
          have hgap := hgap rfl
          have hi' := hi₂.same hsame'
          rw [← htext] at hi'
          have hroom' : (moveGap tb₂ o).nlCount + data.count newline ≤ (moveGap tb₂ o).nlCap := by
            have := hroom rfl
            rw [countNl_eq] at this
            rw [hsame'.count, hsame'.cap, hsame₂.count, hsame₂.cap, hi₁.count, ← hi.count]
            exact this
          obtain ⟨J, hindex, hJcap⟩ := hi'.insert hroom'
          rw [hP'] at hindex
          have hdone : splice (P ++ S) o data = (P' ++ data) ++ S' := by
            rw [← htext, ← hP', splice, take_left, drop_left, append_assoc]
          rw [hdone]
          refine Edits.done (G := G'.drop data.length) ⟨?_, ?_, ?_, ?_⟩ ⟨⟨J, ?_⟩, ?_, ?_⟩
          · dsimp only
            have hsplit : P' ++ G' ++ S'
                = P' ++ G'.take data.length ++ (G'.drop data.length ++ S') := by
              simp only [append_assoc]
              rw [← append_assoc (G'.take data.length), take_append_drop]
            rw [hl'.buf, hsplit, write_append hl'.start (length_take_of_le (by omega))]
            simp [append_assoc]
          · dsimp only
            rw [hl'.start, length_append]
          · dsimp only
            rw [hl'.stop, length_append, length_drop]
            omega
          · dsimp only
            rw [hl'.cap, length_append, length_drop]
            omega
          · dsimp only
            rw [hindex]
          · dsimp only
            rw [hindex]
          · dsimp only
            rw [hindex]
            exact hJcap

theorem delete_edits {tb : TextBuffer} (h : Wf tb) (offset len : Nat) :
    Edits tb ((text tb).take offset ++ (text tb).drop (min (offset + len) (text tb).length))
      (delete tb offset len) := by
  obtain ⟨P, G, S, hl, hi⟩ := h
  rw [hl.text]
  unfold delete
  rw [hl.length]
  split
  · rename_i hnothing
    have hsame : (P ++ S).take offset ++ (P ++ S).drop (min (offset + len) (P ++ S).length)
        = P ++ S := by
      rcases hnothing with hge | rfl
      · rw [take_of_length_le hge, Nat.min_eq_right (by omega), drop_length,
          append_nil]
      · rw [Nat.add_zero]
        rcases Nat.le_total offset (P ++ S).length with hle | hle
        · rw [Nat.min_eq_left hle, take_append_drop]
        · rw [Nat.min_eq_right hle, take_of_length_le hle, drop_length, append_nil]
    rw [hsame]
    exact Edits.done hl hi
  · rename_i hsome
    rw [not_or] at hsome
    dsimp only
    -- the length after the clamp
    obtain ⟨n, hn⟩ : ∃ n, n = if len > (P ++ S).length - offset then (P ++ S).length - offset
        else len := ⟨_, rfl⟩
    have hmin : min (offset + len) (P ++ S).length = offset + n := by
      rw [hn]
      split <;> omega
    have hle : offset + n ≤ (P ++ S).length := by omega
    rw [← hn, hmin]
    obtain ⟨P', G', S', hl', hsame', htext, hP', hG'⟩ := moveGap_spec hl
      (show offset ≤ (P ++ S).length by omega)
    have hi' := hi.same hsame'
    rw [← htext] at hi' hle ⊢
    rw [length_append] at hle
    have hX : (S'.take n).length = n := length_take_of_le (by omega)
    rw [← take_append_drop n S'] at hi'
    obtain ⟨J, hindex, hJcap⟩ := hi'.delete
    rw [hP', hX] at hindex
    have hdone : (P' ++ S').take offset ++ (P' ++ S').drop (offset + n) = P' ++ S'.drop n := by
      rw [← hP', take_left, drop_length_add_append]
    rw [hdone]
    refine Edits.done (G := G' ++ S'.take n) ⟨?_, ?_, ?_, ?_⟩ ⟨⟨J, ?_⟩, ?_, ?_⟩
    · dsimp only
      rw [hl'.buf]
      simp only [append_assoc, take_append_drop]
    · exact hl'.start
    · dsimp only
      rw [hl'.stop, length_append, hX]
      omega
    · dsimp only
      rw [hl'.cap, length_append, hX, length_drop]
      omega
    · dsimp only
      rw [hindex]
    · dsimp only
      rw [hindex]
    · dsimp only
      rw [hindex]
      exact hJcap

/-! ## The answers -/

/-- `[s, e)` is the line `k` of `D`, its newline excluded. -/
structure IsLine (D : List UInt8) (k s e : Nat) : Prop where
  first : k = 0 → s = 0
  start : 0 < k → ∃ p, s = p + 1 ∧ IsNthNewline D (k - 1) p
  stop : k < D.count newline → IsNthNewline D k e
  last : k = D.count newline → e = D.length

/-- Every query answers for `D`. -/
structure Answers (tb : TextBuffer) (D : List UInt8) : Prop where
  length : length tb = D.length
  get : ∀ o len cap, get tb o len cap = (D.drop o).take (min (min len cap) (D.length - o))
  byteAt : ∀ o, byteAt tb o = D[o]?
  lineCount : lineCount tb = 1 + D.count newline
  lineOfOffset : ∀ o, lineOfOffset tb o = (D.take (min o D.length)).count newline
  noLine : ∀ k, lineBounds tb k = none ↔ D.count newline < k
  line : ∀ k s e, lineBounds tb k = some (s, e) → IsLine D k s e

section Answers

variable {tb : TextBuffer} {P G S : List UInt8}

theorem Layout.read_before (h : Layout tb P G S) {o n : Nat} (hn : o + n ≤ P.length) :
    Memory.read tb.buf o n = ((P ++ S).drop o).take n := by
  rw [Memory.read, h.buf, append_assoc, drop_append_of_le_length (by omega),
    drop_append_of_le_length (by omega), take_append_of_le_length (by simp; omega),
    take_append_of_le_length (by simp; omega)]

theorem Layout.read_after (h : Layout tb P G S) {o n : Nat} (ho : P.length ≤ o) :
    Memory.read tb.buf (o + TextBuffer.gapSize tb) n = ((P ++ S).drop o).take n := by
  obtain ⟨i, rfl⟩ := Nat.exists_eq_add_of_le ho
  have hpos : P.length + i + G.length = (P ++ G).length + i := by
    rw [length_append]
    omega
  rw [Memory.read, h.buf, h.gapSize, hpos, drop_length_add_append, drop_length_add_append]

theorem Layout.get_eq (h : Layout tb P G S) (o len cap : Nat) :
    get tb o len cap = ((P ++ S).drop o).take (min (min len cap) ((P ++ S).length - o)) := by
  unfold get
  rw [h.length, h.start]
  split
  · rename_i hnone
    rcases hnone with rfl | hge
    · simp
    · rw [drop_of_length_le hge]
      simp
  · rename_i hsome
    rw [not_or] at hsome
    -- the length after the two clamps
    obtain ⟨n, hn⟩ : ∃ n, n = min (min len cap) ((P ++ S).length - o) := ⟨_, rfl⟩
    have hclamp : (if (if len > (P ++ S).length - o then (P ++ S).length - o else len) > cap
        then cap else if len > (P ++ S).length - o then (P ++ S).length - o else len) = n := by
      rw [hn]
      split <;> split <;> omega
    dsimp only
    rw [hclamp, ← hn]
    by_cases hbefore : o < P.length
    · rw [if_pos hbefore, if_pos hbefore]
      by_cases hacross : o + n > P.length
      · rw [if_pos hacross, if_pos hacross, h.read_before (by omega),
          h.read_after (Nat.le_refl _)]
        have hsum : n = (P.length - o) + (o + n - P.length) := by omega
        conv_rhs => rw [hsum, take_add, drop_drop]
        rw [Nat.add_sub_cancel' (Nat.le_of_lt hbefore)]
      · rw [if_neg hacross, if_neg hacross, append_nil, Nat.add_sub_cancel_left,
          h.read_before (by omega)]
    · rw [if_neg hbefore, if_neg hbefore, nil_append]
      split
      · rw [h.read_after (by omega), Nat.add_sub_cancel_left]
      · rename_i hzero
        have : n = 0 := by omega
        rw [this, take_zero]

theorem Layout.byteAt_eq (h : Layout tb P G S) (o : Nat) : byteAt tb o = (P ++ S)[o]? := by
  rw [byteAt, h.length]
  split
  · rename_i hge
    rw [getElem?_eq_none hge]
  · rw [h.start, h.gapSize, h.buf]
    split
    · rename_i hlt
      rw [append_assoc, getElem?_append_left hlt, getElem?_append_left hlt]
    · rename_i hge
      have hpos : o + G.length = (P ++ G).length + (o - P.length) := by
        rw [length_append]
        omega
      rw [hpos, getElem?_append_right (by omega), Nat.add_sub_cancel_left,
        getElem?_append_right (by omega)]

end Answers

theorem Index.nth {tb : TextBuffer} {D : List UInt8} (h : Index tb D) {k : Nat}
    (hk : k < D.count newline) : IsNthNewline D k (tb.nl.getD k 0) := by
  obtain ⟨J, hJ⟩ := h.nl
  obtain ⟨p, hp, hn⟩ := @PieceTree.getD_newlineOffsets 0 k D hk
  have hlt : k < (newlineOffsets 0 D).length := by
    rw [PieceTree.length_newlineOffsets]
    exact hk
  rw [hJ, getD_eq_getElem?_getD, getElem?_append_left hlt, ← getD_eq_getElem?_getD,
    hp, Nat.zero_add]
  exact hn

theorem Wf.answers {tb : TextBuffer} (h : Wf tb) : Answers tb (text tb) := by
  obtain ⟨P, G, S, hl, hi⟩ := h
  rw [hl.text]
  refine ⟨hl.length, hl.get_eq, hl.byteAt_eq, ?_, fun o => ?_, fun k => ?_, fun k s e hse => ?_⟩
  · rw [lineCount, hi.count, Nat.add_comm]
  · rw [lineOfOffset, hi.lowerBound, hl.length]
    congr 2
    split <;> omega
  · rw [lineBounds, hi.count]
    split
    · rename_i hgt
      simp only [true_iff]
      exact hgt
    · rename_i hle
      simp only [reduceCtorEq, false_iff]
      exact hle
  · rw [lineBounds, hi.count, hl.length] at hse
    split at hse
    · cases hse
    · rename_i hle
      obtain ⟨rfl, rfl⟩ := Prod.mk.inj (Option.some.inj hse)
      refine ⟨fun h0 => if_pos h0, fun hpos => ?_, fun hlt => ?_, fun hlast => ?_⟩
      · rw [if_neg (by omega)]
        exact ⟨_, rfl, hi.nth (by omega)⟩
      · rw [if_pos hlt]
        exact hi.nth hlt
      · rw [if_neg (by omega)]

/-- One call. -/
theorem exec_edits {tb : TextBuffer} (h : Wf tb) (op : Op) :
    Edits tb (edit (text tb) op) (exec tb op) := by
  cases op with
  | setBytes g data => exact setBytes_edits h g data
  | insert g offset data => exact insert_edits h g offset data
  | delete offset len => exact delete_edits h offset len

theorem Wf.run {tb : TextBuffer} (h : Wf tb) (ops : List Op) : Wf (run tb ops) := by
  induction ops generalizing tb with
  | nil => exact h
  | cons op ops ih => exact ih (exec_edits h op).wf

theorem mem_newlineOffsets {base i : Nat} {bs : List UInt8} :
    base + i ∈ newlineOffsets base bs ↔ bs[i]? = some newline := by
  induction bs generalizing base i with
  | nil => simp [newlineOffsets]
  | cons b bs ih =>
    have hlt : base ∉ newlineOffsets (base + 1) bs := fun hmem => by
      have := PieceTree.mem_newlineOffsets_ge _ hmem
      omega
    rw [newlineOffsets]
    cases i with
    | zero =>
      by_cases hb : b = newline
      · simp [hb]
      · simp [hb, hlt]
    | succ i =>
      have hnext : base + (i + 1) = base + 1 + i := by omega
      rw [hnext, getElem?_cons_succ, ← @ih (base + 1) i]
      split
      · rw [mem_cons]
        constructor
        · rintro (hbase | hmem)
          · omega
          · exact hmem
        · exact .inr
      · rfl

theorem Index.ascending {tb : TextBuffer} {D : List UInt8} (h : Index tb D) :
    (tb.nl.take tb.nlCount).Pairwise (· < ·) ∧
      ∀ i, i ∈ tb.nl.take tb.nlCount ↔ D[i]? = some newline := by
  obtain ⟨J, hJ⟩ := h.nl
  have htake : tb.nl.take tb.nlCount = newlineOffsets 0 D := by
    rw [hJ, h.count, ← PieceTree.length_newlineOffsets 0 D, take_left]
  rw [htake]
  refine ⟨PieceTree.pairwise_newlineOffsets 0 D, fun i => ?_⟩
  have := @mem_newlineOffsets 0 i D
  rwa [Nat.zero_add] at this

/-- **Refinement.** Whatever the allocator does in a run, the buffer denotes its
`text`: a call that succeeds edits it, a call that fails keeps it, the index in
use is the ascending list of the offsets of its newlines, and every query
answers for it. -/
theorem run_denotes (cap : Nat) (junk : Nat → UInt8) (ops : List Op) :
    text (new cap junk) = [] ∧
      (∀ op, ((exec (run (new cap junk) ops) op).1 = .ok →
          text (exec (run (new cap junk) ops) op).2 = edit (text (run (new cap junk) ops)) op) ∧
        ((exec (run (new cap junk) ops) op).1 = .err →
          text (exec (run (new cap junk) ops) op).2 = text (run (new cap junk) ops))) ∧
      ((run (new cap junk) ops).nl.take (run (new cap junk) ops).nlCount).Pairwise (· < ·) ∧
      (∀ i, i ∈ (run (new cap junk) ops).nl.take (run (new cap junk) ops).nlCount ↔
        (text (run (new cap junk) ops))[i]? = some newline) ∧
      Answers (run (new cap junk) ops) (text (run (new cap junk) ops)) := by
  have hw : Wf (run (new cap junk) ops) := (wf_new cap junk).run ops
  have hempty : text (new cap junk) = [] := by
    simp [text, new, length_realloc]
  generalize run (new cap junk) ops = tb at hw
  obtain ⟨P, G, S, hl, hi⟩ := id hw
  have hasc := hi.ascending
  rw [← hl.text] at hasc
  exact ⟨hempty, fun op => ⟨(exec_edits hw op).ok, (exec_edits hw op).err⟩, hasc.1, hasc.2,
    hw.answers⟩

end TextBuffer

end AxlSdk
