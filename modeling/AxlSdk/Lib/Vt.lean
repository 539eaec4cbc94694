import Mathlib

/-!
# A VT interpreter

The byte stream of a terminal, down to the operations of a screen.

- `Terminal`: a screen with its operations. The fields that are laws say what every
  terminal of the VT family does: a cursor position is absolute, and neither it nor
  the rendition nor the visibility of the cursor disturbs the others.
- `Parser`, `feed`: the state machine that finds the control sequences in the bytes
  and everything else. An escape byte restarts it in every state.
- `csi`: the bytes of a control sequence; `feed_csi` and `feed_csiPrivate` read it
  back.
- `grid`: a terminal of 25 rows and 80 columns.
-/

namespace AxlSdk

namespace Vt

/-- A screen and what the control functions do to it. -/
structure Terminal where
  State : Type
  rows : Nat
  cols : Nat
  /-- The row and the column of the cursor, from `0`. -/
  cursor : State → Nat × Nat
  /-- A byte of text. -/
  put : UInt8 → State → State
  /-- The cursor is put somewhere (CUP), rows and columns counting from `1`. -/
  cup : Nat → Nat → State → State
  /-- The whole screen is erased (ED 2); the cursor stays. -/
  eraseAll : State → State
  /-- The rendition of what is written from now on (SGR). -/
  sgr : List Nat → State → State
  /-- Whether the cursor is shown (DECTCEM). -/
  setVisible : Bool → State → State
  /-- The alternate screen (DECSET 1049). -/
  setAlt : Bool → State → State
  /-- Any other control sequence. -/
  other : Bool → List Nat → UInt8 → State → State
  rows_le : rows ≤ 65535
  cols_le : cols ≤ 65535
  cursor_cup : ∀ r c s, r < rows → c < cols → cursor (cup (r + 1) (c + 1) s) = (r, c)
  cup_cup : ∀ p q s, cup p q (cup p q s) = cup p q s
  cup_sgr : ∀ p q ps s, cup p q (sgr ps s) = sgr ps (cup p q s)
  cup_setVisible : ∀ p q on s, cup p q (setVisible on s) = setVisible on (cup p q s)

/-- Where the parser is: in text, behind an escape, or in a control sequence with
the parameters read so far and the one being read. -/
inductive Parser where
  | ground
  | escape
  | csi (priv : Bool) (done : List Nat) (cur : Nat)
deriving DecidableEq, Repr

section Feed

variable (T : Terminal)

/-- A complete control sequence. A parameter that is `0` or missing stands for `1`. -/
def dispatch (priv : Bool) (params : List Nat) (final : UInt8) (s : T.State) : T.State :=
  if priv then
    if params = [25] ∧ (final = 104 ∨ final = 108) then T.setVisible (final == 104) s
    else if params = [1049] ∧ (final = 104 ∨ final = 108) then T.setAlt (final == 104) s
    else T.other priv params final s
  else if final = 72 then T.cup (max 1 (params.getD 0 0)) (max 1 (params.getD 1 0)) s
  else if params = [2] ∧ final = 74 then T.eraseAll s
  else if final = 109 then T.sgr params s
  else T.other priv params final s

/-- One byte. -/
def feedByte (st : Parser × T.State) (b : UInt8) : Parser × T.State :=
  if b = 27 then (.escape, st.2)
  else
    match st.1 with
    | .ground => (.ground, T.put b st.2)
    | .escape => (if b = 91 then .csi false [] 0 else .ground, st.2)
    | .csi priv done cur =>
      if 48 ≤ b ∧ b ≤ 57 then (.csi priv done (10 * cur + (b.toNat - 48)), st.2)
      else if b = 59 then (.csi priv (done ++ [cur]) 0, st.2)
      else if b = 63 then (.csi true done cur, st.2)
      else if 64 ≤ b ∧ b ≤ 126 then (.ground, dispatch T priv (done ++ [cur]) b st.2)
      -- a control character or an intermediate byte
      else (.csi priv done cur, st.2)

def feed (st : Parser × T.State) (bytes : List UInt8) : Parser × T.State :=
  bytes.foldl (feedByte T) st

end Feed

/-! ## Control sequences -/

def decimal (n : Nat) : List UInt8 := (Nat.toDigits 10 n).map fun c => UInt8.ofNat c.toNat

/-- Parameters, separated by semicolons. -/
def paramBytes : List Nat → List UInt8
  | [] => []
  | [n] => decimal n
  | n :: ns => decimal n ++ 59 :: paramBytes ns

/-- The bytes of a control sequence. -/
def csi (params : List Nat) (final : UInt8) : List UInt8 :=
  27 :: 91 :: (paramBytes params ++ [final])

/-- The bytes of a private one. -/
def csiPrivate (params : List Nat) (final : UInt8) : List UInt8 :=
  27 :: 91 :: 63 :: (paramBytes params ++ [final])

section Read

variable {T : Terminal}

theorem feed_append (st : Parser × T.State) (a b : List UInt8) :
    feed T st (a ++ b) = feed T (feed T st a) b :=
  List.foldl_append

theorem feed_cons (st : Parser × T.State) (b : UInt8) (bs : List UInt8) :
    feed T st (b :: bs) = feed T (feedByte T st b) bs :=
  rfl

/-- An escape and a bracket start a control sequence wherever the parser is. -/
theorem feed_start (st : Parser × T.State) (bs : List UInt8) :
    feed T st (27 :: 91 :: bs) = feed T (.csi false [] 0, st.2) bs := by
  rw [feed_cons, feed_cons]
  rfl

theorem feed_digit {priv : Bool} {done : List Nat} {cur : Nat} {s : T.State} {c : Char}
    (hc : c.isDigit = true) :
    feedByte T (.csi priv done cur, s) (UInt8.ofNat c.toNat) =
      (.csi priv done (10 * cur + (c.toNat - '0'.toNat)), s) := by
  obtain ⟨hlo, hhi⟩ : 48 ≤ c.toNat ∧ c.toNat ≤ 57 := by
    simp only [Char.isDigit, Bool.and_eq_true, decide_eq_true_eq] at hc
    exact ⟨UInt32.le_iff_toNat_le.mp hc.1, UInt32.le_iff_toNat_le.mp hc.2⟩
  have hnat : (UInt8.ofNat c.toNat).toNat = c.toNat := by
    rw [UInt8.toNat_ofNat']
    omega
  have hne : UInt8.ofNat c.toNat ≠ 27 := by
    intro h
    have := congrArg UInt8.toNat h
    rw [hnat] at this
    simp at this
    omega
  have hrange : 48 ≤ UInt8.ofNat c.toNat ∧ UInt8.ofNat c.toNat ≤ 57 := by
    rw [UInt8.le_iff_toNat_le, UInt8.le_iff_toNat_le, hnat]
    exact ⟨hlo, hhi⟩
  rw [feedByte, if_neg hne]
  simp only [if_pos hrange, hnat]
  rfl

theorem feed_digits {priv : Bool} {done : List Nat} {s : T.State} {cs : List Char}
    (hcs : ∀ c ∈ cs, c.isDigit = true) (cur : Nat) :
    feed T (.csi priv done cur, s) (cs.map fun c => UInt8.ofNat c.toNat) =
      (.csi priv done (Nat.ofDigitChars 10 cs cur), s) := by
  induction cs generalizing cur with
  | nil => rfl
  | cons c cs ih =>
    show feed T (feedByte T (.csi priv done cur, s) (UInt8.ofNat c.toNat)) _ = _
    rw [feed_digit (hcs c List.mem_cons_self), ih fun d hd => hcs d (List.mem_cons_of_mem c hd)]
    rfl

theorem feed_decimal (priv : Bool) (done : List Nat) (s : T.State) (n : Nat) :
    feed T (.csi priv done 0, s) (decimal n) = (.csi priv done n, s) := by
  have hdigits : ∀ c ∈ Nat.toDigits 10 n, c.isDigit = true := fun c hc =>
    Nat.isDigit_of_mem_toDigits (by omega) (by omega) hc
  rw [decimal, feed_digits hdigits, Nat.ofDigitChars_ten_toDigits]

/-- The parameters up to the final byte. -/
theorem feed_params {final : UInt8} (hfinal : 64 ≤ final ∧ final ≤ 126) (priv : Bool)
    (done : List Nat) (s : T.State) {params : List Nat} (hparams : params ≠ []) :
    feed T (.csi priv done 0, s) (paramBytes params ++ [final]) =
      (.ground, dispatch T priv (done ++ params) final s) := by
  obtain ⟨hlo, hhi⟩ := hfinal
  rw [UInt8.le_iff_toNat_le] at hlo hhi
  have hne : ∀ b : UInt8, b.toNat < 64 → final ≠ b := by
    rintro b hb rfl
    exact absurd hlo (Nat.not_le.mpr hb)
  induction params generalizing done with
  | nil => exact absurd rfl hparams
  | cons n ns ih =>
    cases ns with
    | nil =>
      rw [paramBytes, feed_append, feed_decimal]
      show feedByte T (.csi priv done n, s) final = _
      rw [feedByte, if_neg (hne 27 (by decide))]
      simp only [if_neg (hne 59 (by decide)), if_neg (hne 63 (by decide)),
        UInt8.le_iff_toNat_le]
      rw [if_neg (fun h => absurd hlo (by
        have h57 := h.2
        have : (57 : UInt8).toNat = 57 := rfl
        have : (64 : UInt8).toNat = 64 := rfl
        omega)), if_pos ⟨hlo, hhi⟩]
    | cons m ms =>
      show feed T (.csi priv done 0, s) ((decimal n ++ 59 :: paramBytes (m :: ms)) ++ [final]) = _
      rw [List.append_assoc, feed_append, feed_decimal]
      show feed T (.csi priv (done ++ [n]) 0, s) (paramBytes (m :: ms) ++ [final]) = _
      rw [ih (done ++ [n]) (List.cons_ne_nil m ms), List.append_assoc]
      rfl

/-- A control sequence is read wherever the parser is. -/
theorem feed_csi {final : UInt8} (hfinal : 64 ≤ final ∧ final ≤ 126) (st : Parser × T.State)
    {params : List Nat} (hparams : params ≠ []) :
    feed T st (csi params final) = (.ground, dispatch T false params final st.2) := by
  rw [csi, feed_start, feed_params hfinal false [] st.2 hparams]
  rfl

theorem feed_csiPrivate {final : UInt8} (hfinal : 64 ≤ final ∧ final ≤ 126)
    (st : Parser × T.State) {params : List Nat} (hparams : params ≠ []) :
    feed T st (csiPrivate params final) = (.ground, dispatch T true params final st.2) := by
  rw [csiPrivate, feed_start]
  show feed T (.csi true [] 0, st.2) (paramBytes params ++ [final]) = _
  rw [feed_params hfinal true [] st.2 hparams]
  rfl

end Read

/-! ## A grid of cells -/

/-- A cell: its byte and the rendition it was written with. -/
abbrev Cells := Nat → Nat → UInt8 × List Nat

structure Grid where
  cells : Cells
  row : Nat
  col : Nat
  /-- The last column is written; the next character goes to the next line. -/
  wrap : Bool
  pen : List Nat
  visible : Bool
  /-- The normal screen while the alternate one is shown. -/
  saved : Option (Cells × Nat × Nat)

namespace Grid

def gridRows : Nat := 25

def gridCols : Nat := 80

def blank : Cells := fun _ _ => (32, [])

/-- The next line; the screen scrolls at its end. -/
def lineFeed (g : Grid) : Grid :=
  if g.row + 1 < gridRows then { g with row := g.row + 1, wrap := false }
  else
    { g with
      cells := fun r => if r + 1 < gridRows then g.cells (r + 1) else blank r
      wrap := false }

def write (b : UInt8) (g : Grid) : Grid :=
  let g := if g.wrap then { g.lineFeed with col := 0 } else g
  { g with
    cells := fun r c => if r = g.row ∧ c = g.col then (b, g.pen) else g.cells r c
    col := if g.col + 1 < gridCols then g.col + 1 else g.col
    wrap := gridCols ≤ g.col + 1 }

/-- A byte of text: the control characters, a character, or the rest of one. -/
def put (b : UInt8) (g : Grid) : Grid :=
  if b = 8 then { g with col := g.col - 1, wrap := false }
  else if b = 9 then { g with col := min (gridCols - 1) ((g.col / 8 + 1) * 8), wrap := false }
  else if b = 10 then g.lineFeed
  else if b = 13 then { g with col := 0, wrap := false }
  else if b < 32 ∨ (128 ≤ b ∧ b < 192) then g
  else g.write b

def cup (p q : Nat) (g : Grid) : Grid :=
  { g with row := min (gridRows - 1) (p - 1), col := min (gridCols - 1) (q - 1), wrap := false }

def setAlt (on : Bool) (g : Grid) : Grid :=
  if on then
    if g.saved.isSome then g
    else { g with cells := blank, saved := some (g.cells, g.row, g.col) }
  else
    match g.saved with
    | none => g
    | some (cells, row, col) =>
      { g with cells := cells, row := row, col := col, wrap := false, saved := none }

/-- A blank screen with the cursor in its corner. -/
def start : Grid :=
  { cells := blank, row := 0, col := 0, wrap := false, pen := [], visible := true, saved := none }

theorem gridRows_le : gridRows ≤ 65535 := by decide

theorem gridCols_le : gridCols ≤ 65535 := by decide

theorem cup_cup (p q : Nat) (g : Grid) : cup p q (cup p q g) = cup p q g := rfl

theorem cursor_cup (r c : Nat) (g : Grid) (hr : r < gridRows) (hc : c < gridCols) :
    ((cup (r + 1) (c + 1) g).row, (cup (r + 1) (c + 1) g).col) = (r, c) := by
  unfold gridRows at hr
  unfold gridCols at hc
  have hrow : min (25 - 1) (r + 1 - 1) = r := by omega
  have hcol : min (80 - 1) (c + 1 - 1) = c := by omega
  exact Prod.ext hrow hcol

end Grid

/-- The grid as a terminal. -/
def grid : Terminal where
  State := Grid
  rows := Grid.gridRows
  cols := Grid.gridCols
  cursor g := (g.row, g.col)
  put := Grid.put
  cup := Grid.cup
  eraseAll g := { g with cells := Grid.blank }
  sgr ps g := { g with pen := ps }
  setVisible on g := { g with visible := on }
  setAlt := Grid.setAlt
  other _ _ _ g := g
  rows_le := Grid.gridRows_le
  cols_le := Grid.gridCols_le
  cursor_cup := Grid.cursor_cup
  cup_cup := Grid.cup_cup
  cup_sgr _ _ _ _ := rfl
  cup_setVisible _ _ _ _ := rfl

end Vt

end AxlSdk
