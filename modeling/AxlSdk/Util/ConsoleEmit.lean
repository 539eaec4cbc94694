import AxlSdk.Json.Utf8

/-!
# Console text on its way to a terminal (`src/util/axl-console-emit.c`)

A string is the list of its 16-bit units, and what is emitted the list of the chunks
that are handed to the sink. The cursor is kept by a loop of its own.

- `shown`: the code point a unit is shown as. `emitOutputText_groups`: each chunk is
  the encoding of some of them, in order, and nothing is lost between chunks.
- `vtPut`: what a terminal with immediate autowrap makes of a code point.
- `console_text_iff`: no control gets through but those of C1, which are let through
  as they are; and the cursor is right up to the first horizontal tab or delete.
-/

namespace AxlSdk

namespace ConsoleEmit

open List

/-! ## The code -/

/-- `sanitize_char` -/
def sanitizeChar (c : UInt16) : UInt16 :=
  if 0x20 ≤ c then c
  else if c = 0x08 ∨ c = 0x09 ∨ c = 0x0A ∨ c = 0x0D then c
  else 0x3F

/-- `axl_utf8_encode`, into a buffer that is large enough. Its ladder is that of the JSON
reader. -/
def axlUtf8Encode (codepoint : Nat) : List UInt8 :=
  if 0xD800 ≤ codepoint ∧ codepoint ≤ 0xDFFF ∨ 0x10FFFF < codepoint then []
  else Json.utf8Encode codepoint

/-- A turn of `emit_output_text`: the chunks handed over and the bytes in `buf`. -/
def emitUnit (st : List (List UInt8) × List UInt8) (u : UInt16) : List (List UInt8) × List UInt8 :=
  let tmp := axlUtf8Encode (sanitizeChar u).toNat
  let tmp := if tmp.length = 0 then axlUtf8Encode 0xFFFD else tmp
  let st := if 256 < st.2.length + tmp.length then (st.1 ++ [st.2], []) else st
  (st.1, st.2 ++ tmp)

/-- `emit_output_text` -/
def emitOutputText (s : List UInt16) : List (List UInt8) :=
  let st := s.foldl emitUnit ([], [])
  if 0 < st.2.length then st.1 ++ [st.2] else st.1

/-- The cursor of `SIMPLE_TEXT_OUTPUT_MODE`. -/
structure Cursor where
  col : Int
  row : Int
deriving DecidableEq, Repr

/-- `(uint32_t)x` -/
def toU32 (x : Int) : Nat := (x % 2 ^ 32).toNat

/-- Where a unit takes the cursor, before the row is looked at. -/
def advance (cols : Nat) (cur : Cursor) (c : UInt16) : Cursor :=
  if c = 0x08 then { cur with col := if 0 < cur.col then cur.col - 1 else cur.col }
  else if c = 0x0D then { cur with col := 0 }
  else if c = 0x0A then { cur with row := cur.row + 1 }
  else if 0x20 ≤ c then
    if 0 < cols ∧ cols ≤ toU32 (cur.col + 1) then { col := 0, row := cur.row + 1 }
    else { cur with col := cur.col + 1 }
  else cur

/-- A turn of `track_cursor`. -/
def trackUnit (cols rows : Nat) (cur : Cursor) (u : UInt16) : Cursor :=
  let cur := advance cols cur (sanitizeChar u)
  if 0 < rows ∧ rows ≤ toU32 cur.row then { cur with row := (rows : Int) - 1 } else cur

/-- `track_cursor` -/
def trackCursor (cur : Cursor) (s : List UInt16) (cols rows : Nat) : Cursor :=
  s.foldl (trackUnit cols rows) cur

/-! ## A terminal -/

/-- The size of a screen whose cells an `INT32` can address. -/
structure Screen where
  cols : Nat
  rows : Nat
  colsPos : 0 < cols
  rowsPos : 0 < rows
  colsFit : cols < 2 ^ 31
  rowsFit : rows < 2 ^ 31

structure Cell where
  col : Nat
  row : Nat
deriving DecidableEq, Repr

def Cell.Inside (cell : Cell) (scr : Screen) : Prop := cell.col < scr.cols ∧ cell.row < scr.rows

/-- The next line; the last one scrolls. -/
def lineFeed (scr : Screen) (cell : Cell) : Cell :=
  { cell with row := if cell.row + 1 < scr.rows then cell.row + 1 else cell.row }

/-- A control of C1. It starts a control function. -/
def IsC1 (cp : Nat) : Prop := 0x80 ≤ cp ∧ cp < 0xA0

/-- A control of C0 other than those of a text. -/
def IsC0 (cp : Nat) : Prop := cp < 0x20 ∧ cp ≠ 0x08 ∧ cp ≠ 0x09 ∧ cp ≠ 0x0A ∧ cp ≠ 0x0D

instance (cp : Nat) : Decidable (IsC1 cp) := inferInstanceAs (Decidable (_ ∧ _))

instance (cp : Nat) : Decidable (IsC0 cp) := inferInstanceAs (Decidable (_ ∧ _))

/-- What a code point does to the cursor of a screen with immediate autowrap; none for a
control function. Tabs stop at every eighth column and at the last one. -/
def vtPut (scr : Screen) (cell : Cell) (cp : Nat) : Option Cell :=
  if IsC0 cp ∨ IsC1 cp then none
  else if cp = 0x08 then some { cell with col := cell.col - 1 }
  else if cp = 0x09 then some { cell with col := min (scr.cols - 1) ((cell.col / 8 + 1) * 8) }
  else if cp = 0x0A then some (lineFeed scr cell)
  else if cp = 0x0D then some { cell with col := 0 }
  else if cp = 0x7F then some cell
  else if cell.col + 1 < scr.cols then some { cell with col := cell.col + 1 }
  else some { lineFeed scr cell with col := 0 }

def vtText (scr : Screen) (cell : Cell) : List Nat → Option Cell
  | [] => some cell
  | cp :: cps => (vtPut scr cell cp).bind fun cell => vtText scr cell cps

/-- The code point that a unit is shown as. -/
def shown (u : UInt16) : Nat :=
  if IsC0 u.toNat then 0x3F
  else if 0xD800 ≤ u.toNat ∧ u.toNat < 0xE000 then 0xFFFD
  else u.toNat

/-- What is handed over is well-formed, a code point for each unit, whole in its chunk, and
none of them a control. -/
structure Clean (s : List UInt16) : Prop where
  groups : ∃ groups : List (List Nat), emitOutputText s = groups.map (·.flatMap Utf8.encode) ∧
    groups.flatten = s.map shown
  wellFormed : ∀ chunk ∈ emitOutputText s, Utf8.WellFormed chunk
  controls : ∀ u ∈ s, ¬ IsC0 (shown u) ∧ ¬ IsC1 (shown u)

/-- On every screen and from every cell of it, the cursor is left in the cell in which the
screen has it. -/
def Tracks (s : List UInt16) : Prop :=
  ∀ (scr : Screen) (cell : Cell), cell.Inside scr →
    ∃ cell' : Cell, vtText scr cell (s.map shown) = some cell' ∧ cell'.Inside scr ∧
      trackCursor ⟨cell.col, cell.row⟩ s scr.cols scr.rows = ⟨cell'.col, cell'.row⟩

/-- No control of C1, no tab and no delete. -/
def Plain (u : UInt16) : Prop := ¬ IsC1 u.toNat ∧ u ≠ 0x09 ∧ u ≠ 0x7F

/-! ## Bytes -/

variable {s t : List UInt16} {u : UInt16}

theorem sanitizeChar_eq (u : UInt16) : sanitizeChar u = if IsC0 u.toNat then 0x3F else u := by
  have hle : 0x20 ≤ u ↔ ¬ u.toNat < 0x20 := by
    rw [UInt16.le_iff_toNat_le, Nat.not_lt]
    rfl
  have hctl : (u = 0x08 ∨ u = 0x09 ∨ u = 0x0A ∨ u = 0x0D) ↔
      u.toNat = 0x08 ∨ u.toNat = 0x09 ∨ u.toNat = 0x0A ∨ u.toNat = 0x0D := by
    simp only [← UInt16.toNat_inj]
    rfl
  rw [sanitizeChar]
  simp only [hle, hctl]
  by_cases hlow : u.toNat < 0x20
  · by_cases hkeep : u.toNat = 0x08 ∨ u.toNat = 0x09 ∨ u.toNat = 0x0A ∨ u.toNat = 0x0D
    · have hno : ¬ IsC0 u.toNat := by
        unfold IsC0
        omega
      rw [if_neg (not_not.mpr hlow), if_pos hkeep, if_neg hno]
    · have hyes : IsC0 u.toNat := by
        unfold IsC0
        omega
      rw [if_neg (not_not.mpr hlow), if_neg hkeep, if_pos hyes]
  · have hno : ¬ IsC0 u.toNat := fun h => hlow h.1
    rw [if_pos hlow, if_neg hno]

theorem shown_scalar (u : UInt16) : Utf8.Scalar (shown u) := by
  have hlt := u.toNat_lt
  rw [shown]
  unfold Utf8.Scalar
  split
  · omega
  · split <;> omega

theorem encode_length_pos (cp : Nat) : 0 < (Utf8.encode cp).length := by
  rw [Utf8.encode]
  split
  · exact Nat.succ_pos _
  · split
    · exact Nat.succ_pos _
    · split <;> exact Nat.succ_pos _

/-- The bytes of a unit. -/
theorem unit_bytes (u : UInt16) :
    (let tmp := axlUtf8Encode (sanitizeChar u).toNat
      if tmp.length = 0 then axlUtf8Encode 0xFFFD else tmp) = Utf8.encode (shown u) := by
  have hlt := u.toNat_lt
  have hne : ∀ cp, (Utf8.encode cp).length ≠ 0 := fun cp => Nat.ne_of_gt (encode_length_pos cp)
  dsimp only
  rw [sanitizeChar_eq, shown]
  by_cases hc0 : IsC0 u.toNat
  · rw [if_pos hc0, if_pos hc0]
    rfl
  · rw [if_neg hc0, if_neg hc0]
    by_cases hsur : 0xD800 ≤ u.toNat ∧ u.toNat < 0xE000
    · have hnone : axlUtf8Encode u.toNat = [] := if_pos (.inl ⟨hsur.1, by omega⟩)
      rw [hnone, if_pos hsur]
      rfl
    · have henc : axlUtf8Encode u.toNat = Utf8.encode u.toNat := by
        rw [axlUtf8Encode, if_neg (by omega), Json.utf8Encode_eq (by omega)]
      rw [henc, if_neg (hne _), if_neg hsur]

/-- Between turns: chunks and buffer are encodings of code points that are those of the
units read. -/
def Holds (s : List UInt16) (st : List (List UInt8) × List UInt8) : Prop :=
  ∃ (groups : List (List Nat)) (cps : List Nat), st.1 = groups.map (·.flatMap Utf8.encode) ∧
    st.2 = cps.flatMap Utf8.encode ∧ groups.flatten ++ cps = s.map shown

theorem emitUnit_holds {st : List (List UInt8) × List UInt8} (h : Holds s st) (u : UInt16) :
    Holds (s ++ [u]) (emitUnit st u) := by
  obtain ⟨groups, cps, hchunks, hbuf, hall⟩ := h
  have hbytes := unit_bytes u
  dsimp only at hbytes
  rw [emitUnit, hbytes]
  split
  · refine ⟨groups ++ [cps], [shown u], ?_, ?_, ?_⟩
    · rw [hchunks, hbuf, map_append]
      rfl
    · rw [nil_append, flatMap_singleton]
    · rw [flatten_append, flatten_singleton, hall, map_append]
      rfl
  · refine ⟨groups, cps ++ [shown u], hchunks, ?_, ?_⟩
    · rw [hbuf, flatMap_append, flatMap_singleton]
    · rw [← append_assoc, hall, map_append]
      rfl

theorem foldl_holds {st : List (List UInt8) × List UInt8} (h : Holds s st) (t : List UInt16) :
    Holds (s ++ t) (t.foldl emitUnit st) := by
  induction t generalizing s st with
  | nil => rwa [append_nil]
  | cons u t ih =>
    have := ih (emitUnit_holds h u)
    rwa [append_assoc, singleton_append] at this

/-- Each chunk encodes some of the code points, and together they are all, in order. -/
theorem emitOutputText_groups (s : List UInt16) :
    ∃ groups : List (List Nat), emitOutputText s = groups.map (·.flatMap Utf8.encode) ∧
      groups.flatten = s.map shown := by
  have hstart : Holds [] ([], []) := ⟨[], [], rfl, rfl, rfl⟩
  obtain ⟨groups, cps, hchunks, hbuf, hall⟩ := foldl_holds hstart s
  rw [nil_append] at hall
  rw [emitOutputText]
  split
  · refine ⟨groups ++ [cps], ?_, ?_⟩
    · rw [hchunks, hbuf, map_append]
      rfl
    · rw [flatten_append, flatten_singleton, hall]
  · rename_i hempty
    have hcps : cps = [] := by
      cases cps with
      | nil => rfl
      | cons cp cps =>
        have hpos := encode_length_pos cp
        rw [hbuf, flatMap_cons, length_append] at hempty
        omega
    rw [hcps, append_nil] at hall
    exact ⟨groups, hchunks, hall⟩

theorem wellFormed_flatMap {cps : List Nat} (h : ∀ cp ∈ cps, Utf8.Scalar cp) :
    Utf8.WellFormed (cps.flatMap Utf8.encode) := by
  induction cps with
  | nil => exact .nil
  | cons cp cps ih =>
    have hrest := ih fun x hx => h x (mem_cons_of_mem cp hx)
    rw [flatMap_cons]
    by_cases hlow : cp < 0x80
    · rw [Utf8.encode, if_pos hlow]
      refine .ascii ?_ hrest
      rw [UInt8.toNat_ofNat']
      omega
    · exact .multi (Utf8.encode_multi (h cp mem_cons_self) (by omega)) hrest

theorem emitOutputText_wellFormed {chunk : List UInt8} (h : chunk ∈ emitOutputText s) :
    Utf8.WellFormed chunk := by
  obtain ⟨groups, hchunks, hall⟩ := emitOutputText_groups s
  rw [hchunks] at h
  obtain ⟨cps, hcps, rfl⟩ := mem_map.mp h
  refine wellFormed_flatMap fun cp hcp => ?_
  have hmem : cp ∈ groups.flatten := mem_flatten.mpr ⟨cps, hcps, hcp⟩
  rw [hall] at hmem
  obtain ⟨u, -, rfl⟩ := mem_map.mp hmem
  exact shown_scalar u

/-- Of the controls only those of C1 get through. -/
theorem shown_control (u : UInt16) : (¬ IsC0 (shown u) ∧ ¬ IsC1 (shown u)) ↔ ¬ IsC1 u.toNat := by
  rw [shown]
  unfold IsC1
  split
  · rename_i hc0
    have hlow := hc0.1
    refine iff_of_true ⟨fun h => ?_, by omega⟩ (by omega)
    exact absurd h.1 (by decide)
  · rename_i hc0
    split
    · refine iff_of_true ⟨fun h => ?_, by omega⟩ (by omega)
      exact absurd h.1 (by decide)
    · exact and_iff_right hc0

theorem clean_iff (s : List UInt16) : Clean s ↔ ∀ u ∈ s, ¬ IsC1 u.toNat := by
  constructor
  · exact fun h u hu => (shown_control u).mp (h.controls u hu)
  · intro h
    exact ⟨emitOutputText_groups s, fun chunk => emitOutputText_wellFormed,
      fun u hu => (shown_control u).mpr (h u hu)⟩

/-! ## The cursor -/

theorem toU32_of_lt {x : Nat} (h : x < 2 ^ 32) : toU32 x = x := by
  rw [toU32]
  omega

/-- The row is kept on the screen. -/
theorem pin_row {rows : Nat} (hrows : rows < 2 ^ 31) {col : Int} {row : Nat} (hrow : row ≤ rows)
    (hpos : 0 < rows) :
    (if 0 < rows ∧ rows ≤ toU32 (row : Int) then (⟨col, (rows : Int) - 1⟩ : Cursor) else ⟨col, row⟩) =
      ⟨col, (if row < rows then row else rows - 1 : Nat)⟩ := by
  rw [toU32_of_lt (by omega)]
  by_cases h : row < rows
  · rw [if_neg (by omega), if_pos h]
  · rw [if_pos (by omega), if_neg h, Nat.cast_sub hpos]
    rfl

/-- A character moves the cursor on, or to the next line. -/
theorem advance_char {c : UInt16} (hc : 0x20 ≤ c.toNat) {cols : Nat} (hcols : cols < 2 ^ 31)
    {col : Nat} (hcol : col < cols) (row : Int) :
    advance cols ⟨col, row⟩ c =
      if col + 1 < cols then ⟨(col + 1 : Nat), row⟩ else ⟨0, row + 1⟩ := by
  have hne : ∀ k : UInt16, k.toNat < 0x20 → c ≠ k := by
    intro k hk heq
    rw [heq] at hc
    omega
  have hle : 0x20 ≤ c := UInt16.le_iff_toNat_le.mpr hc
  have hnext : toU32 ((col : Int) + 1) = col + 1 := toU32_of_lt (x := col + 1) (by omega)
  rw [advance, if_neg (hne 0x08 (by decide)), if_neg (hne 0x0D (by decide)),
    if_neg (hne 0x0A (by decide)), if_pos hle]
  dsimp only
  rw [hnext]
  by_cases h : col + 1 < cols
  · rw [if_neg (by omega), if_pos h]
    rfl
  · rw [if_pos (by omega), if_neg h]

theorem vtPut_char {scr : Screen} {cell : Cell} {cp : Nat} (hlow : 0x20 ≤ cp) (hdel : cp ≠ 0x7F)
    (hc1 : ¬ IsC1 cp) : vtPut scr cell cp =
      if cell.col + 1 < scr.cols then some { cell with col := cell.col + 1 }
      else some { lineFeed scr cell with col := 0 } := by
  have hc0 : ¬ IsC0 cp := fun h => absurd h.1 (by omega)
  rw [vtPut, if_neg (by tauto), if_neg (by omega), if_neg (by omega), if_neg (by omega),
    if_neg (by omega), if_neg hdel]

/-- A plain unit takes the cursor where the screen has it. -/
theorem trackUnit_plain (h : Plain u) (scr : Screen) {cell : Cell} (hin : cell.Inside scr) :
    ∃ cell' : Cell, vtPut scr cell (shown u) = some cell' ∧ cell'.Inside scr ∧
      trackUnit scr.cols scr.rows ⟨cell.col, cell.row⟩ u = ⟨cell'.col, cell'.row⟩ := by
  obtain ⟨hc1, htab, hdel⟩ := h
  obtain ⟨hcol, hrow⟩ := hin
  have hcols := scr.colsFit
  have hrows := scr.rowsFit
  have hstay : ∀ col : Int, (if 0 < scr.rows ∧ scr.rows ≤ toU32 (cell.row : Int) then
      (⟨col, (scr.rows : Int) - 1⟩ : Cursor) else ⟨col, cell.row⟩) = ⟨col, cell.row⟩ := by
    intro col
    rw [pin_row hrows hrow.le scr.rowsPos, if_pos hrow]
  have hdown : ∀ col : Int, (if 0 < scr.rows ∧ scr.rows ≤ toU32 ((cell.row : Int) + 1) then
      (⟨col, (scr.rows : Int) - 1⟩ : Cursor) else ⟨col, (cell.row : Int) + 1⟩) =
        ⟨col, (lineFeed scr cell).row⟩ := by
    intro col
    have hle : cell.row + 1 ≤ scr.rows := by omega
    have hpin : (if 0 < scr.rows ∧ scr.rows ≤ toU32 ((cell.row + 1 : Nat) : Int) then
        (⟨col, (scr.rows : Int) - 1⟩ : Cursor) else ⟨col, (cell.row + 1 : Nat)⟩) =
          ⟨col, (if cell.row + 1 < scr.rows then cell.row + 1 else scr.rows - 1 : Nat)⟩ :=
      pin_row hrows hle scr.rowsPos
    rw [Nat.cast_add_one] at hpin
    rw [hpin, lineFeed]
    by_cases hlt : cell.row + 1 < scr.rows
    · rw [if_pos hlt, if_pos hlt]
    · rw [if_neg hlt, if_neg hlt]
      have heq : scr.rows - 1 = cell.row := by omega
      rw [heq]
  have hfeed : (lineFeed scr cell).row < scr.rows := by
    rw [lineFeed]
    dsimp only
    split <;> omega
  -- characters, the ones that stand for a control among them
  have hchar : ∀ c : UInt16, 0x20 ≤ c.toNat → ∀ cp, 0x20 ≤ cp → cp ≠ 0x7F → ¬ IsC1 cp →
      sanitizeChar u = c → shown u = cp → ∃ cell' : Cell, vtPut scr cell (shown u) = some cell' ∧
        cell'.Inside scr ∧
          trackUnit scr.cols scr.rows ⟨cell.col, cell.row⟩ u = ⟨cell'.col, cell'.row⟩ := by
    intro c hc cp hlow hdel' hc1' hsan hshown
    rw [hshown, vtPut_char hlow hdel' hc1', trackUnit, hsan, advance_char hc hcols hcol]
    by_cases hlt : cell.col + 1 < scr.cols
    · rw [if_pos hlt, if_pos hlt]
      exact ⟨_, rfl, ⟨hlt, hrow⟩, hstay _⟩
    · rw [if_neg hlt, if_neg hlt]
      exact ⟨_, rfl, ⟨scr.colsPos, hfeed⟩, hdown _⟩
  by_cases hc0 : IsC0 u.toNat
  · refine hchar 0x3F (by decide) 0x3F (by decide) (by decide) (by decide) ?_ ?_
    · rw [sanitizeChar_eq, if_pos hc0]
    · rw [shown, if_pos hc0]
  have hsan : sanitizeChar u = u := by rw [sanitizeChar_eq, if_neg hc0]
  by_cases hlow : u.toNat < 0x20
  · have hshown : shown u = u.toNat := by rw [shown, if_neg hc0, if_neg (by omega)]
    have htab' : u.toNat ≠ 0x09 := fun heq => htab (UInt16.toNat_inj.mp heq)
    unfold IsC0 at hc0
    rw [hshown, trackUnit, hsan]
    have hcases : u.toNat = 0x08 ∨ u.toNat = 0x0A ∨ u.toNat = 0x0D := by omega
    rcases hcases with hbs | hlf | hcr
    · obtain rfl : u = 0x08 := UInt16.toNat_inj.mp hbs
      refine ⟨{ cell with col := cell.col - 1 }, rfl, ⟨by dsimp only; omega, hrow⟩, ?_⟩
      have hback : advance scr.cols ⟨cell.col, cell.row⟩ 0x08 = ⟨(cell.col - 1 : Nat), cell.row⟩ := by
        rw [advance, if_pos rfl]
        congr 1
        dsimp only
        split <;> omega
      rw [hback]
      exact hstay _
    · obtain rfl : u = 0x0A := UInt16.toNat_inj.mp hlf
      exact ⟨lineFeed scr cell, rfl, ⟨hcol, hfeed⟩, hdown _⟩
    · obtain rfl : u = 0x0D := UInt16.toNat_inj.mp hcr
      exact ⟨{ cell with col := 0 }, rfl, ⟨scr.colsPos, hrow⟩, hstay _⟩
  · have hdel' : u.toNat ≠ 0x7F := fun heq => hdel (UInt16.toNat_inj.mp heq)
    by_cases hsur : 0xD800 ≤ u.toNat ∧ u.toNat < 0xE000
    · refine hchar u (by omega) 0xFFFD (by decide) (by decide) (by decide) hsan ?_
      rw [shown, if_neg hc0, if_pos hsur]
    · refine hchar u (by omega) u.toNat (by omega) hdel' hc1 hsan ?_
      rw [shown, if_neg hc0, if_neg hsur]

theorem tracks_of_plain (h : ∀ u ∈ s, Plain u) : Tracks s := by
  intro scr cell hin
  induction s generalizing cell with
  | nil => exact ⟨cell, rfl, hin, rfl⟩
  | cons u s ih =>
    obtain ⟨cell₁, hput, hin₁, htrack⟩ := trackUnit_plain (h u mem_cons_self) scr hin
    obtain ⟨cell₂, htext, hin₂, hrest⟩ := ih (fun x hx => h x (mem_cons_of_mem u hx)) cell₁ hin₁
    refine ⟨cell₂, ?_, hin₂, ?_⟩
    · rw [map_cons, vtText, hput]
      exact htext
    · rw [trackCursor, foldl_cons, htrack]
      exact hrest

/-- A screen of the usual size. -/
def usual : Screen := ⟨80, 25, by decide, by decide, by decide, by decide⟩

/-- A tab is not followed, and a delete is taken for a character. -/
theorem plain_of_tracks (hclean : ¬ IsC1 u.toNat) (h : Tracks [u]) : Plain u := by
  obtain ⟨cell', htext, -, htrack⟩ := h usual ⟨0, 0⟩ ⟨by decide, by decide⟩
  constructor
  · exact hclean
  constructor
  · rintro rfl
    have hscreen : vtText usual ⟨0, 0⟩ ([0x09].map shown) = some ⟨8, 0⟩ := by decide +kernel
    obtain rfl := Option.some.inj (hscreen.symm.trans htext)
    revert htrack
    decide +kernel
  · rintro rfl
    have hscreen : vtText usual ⟨0, 0⟩ ([0x7F].map shown) = some ⟨0, 0⟩ := by decide +kernel
    obtain rfl := Option.some.inj (hscreen.symm.trans htext)
    revert htrack
    decide +kernel

/-- What is emitted is clean just when no unit is a control of C1. It is so and the cursor
right for every piece of a text just when no unit is one, or a tab, or a delete. -/
theorem console_text_iff (s : List UInt16) :
    (Clean s ↔ ∀ u ∈ s, ¬ IsC1 u.toNat) ∧
      ((∀ t, t <:+: s → Clean t ∧ Tracks t) ↔ ∀ u ∈ s, Plain u) := by
  refine ⟨clean_iff s, fun h u hu => ?_, fun h t ht => ?_⟩
  · obtain ⟨hclean, htracks⟩ := h [u] ((singleton_infix_iff u s).mpr hu)
    exact plain_of_tracks ((clean_iff [u]).mp hclean u mem_cons_self) htracks
  · have hplain : ∀ u ∈ t, Plain u := fun u hu => h u (ht.mem hu)
    exact ⟨(clean_iff t).mpr fun u hu => (hplain u hu).1, tracks_of_plain hplain⟩

/-- The introducer of a control sequence goes through, as one character. -/
theorem csi_emitted : emitOutputText [0x9B] = [[0xC2, 0x9B]] ∧ ¬ Clean [0x9B] := by
  constructor
  · decide +kernel
  · rw [clean_iff]
    exact fun h => h 0x9B mem_cons_self (by decide)

end ConsoleEmit

end AxlSdk
