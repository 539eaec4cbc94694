import AxlSdk.Lib.Vt

/-!
# The VT encoder of the console (`axl-console-vt-enc.c`)

The remote sink of the console operations: each becomes bytes for a terminal. A
`set_cursor` to the position that was last sent is not sent again.

- `ConsoleOp`: the operations; `Text` carries what its producers promise, that there
  is no escape byte in it.
- `vtOp`: the bytes of an operation and the encoder behind it; `vtOpAll`: the bytes
  of the encoder that sends every `set_cursor`.
- `Settled`: the condition on a sequence of operations under which the suppressed
  `set_cursor`s are redundant; `Faithful`: the terminal is where the producer thinks
  it is, and shows what it would show without the suppression.

The encoder does not notice that text moves the cursor, nor that a switch of the
screen does. The proof carries `InPlace`: as long as neither has happened, sending
the position again would not change the terminal.
-/

namespace AxlSdk

namespace VtEnc

open Vt

structure AxlConsoleColor where
  kind : UInt8
  idx : UInt8
  r : UInt8
  g : UInt8
  b : UInt8
deriving DecidableEq, Repr

structure AxlConsolePen where
  fg : AxlConsoleColor
  bg : AxlConsoleColor
  underline : UInt8
  bold : Bool
  italic : Bool
  blink : Bool
  reverse : Bool
  conceal : Bool
  strike : Bool
deriving DecidableEq, Repr

/-- The terminal properties; those without a representation on the wire are `other`. -/
inductive AxlConsoleProp where
  | cursorVisible
  | altScreen
  | other (code : Nat)
deriving DecidableEq, Repr

/-- A run of text. Its producers let no escape byte through. -/
structure Text where
  utf8 : List UInt8
  noEscape : 27 ∉ utf8

inductive ConsoleOp where
  | clearScreen
  | setCursor (row col : Int32)
  | outputText (text : Text)
  | setPen (pen : AxlConsolePen)
  | setMode (mode : UInt32)
  | resize (cols rows : UInt32)
  | setTermProp (prop : AxlConsoleProp) (val : Bool)

/-- The position last sent; `-1` is unknown. -/
structure AxlConsoleVtEnc where
  curRow : Int32
  curCol : Int32
deriving DecidableEq, Repr

def vtEncNew : AxlConsoleVtEnc := ⟨-1, -1⟩

/-! ## The encoder -/

/-- `axl_snprintf` into 24 bytes, and `emit` of as many bytes as it returns: the text
is cut at its last byte, and the terminator is sent in its place. -/
def snprintf24 (text : List UInt8) : List UInt8 :=
  if text.length < 24 then text else text.take 23 ++ [0]

/-- `"\x1b[%u;%uH"` -/
def cupText (row col : Int32) : List UInt8 :=
  csi [(row + 1).toUInt32.toNat, (col + 1).toUInt32.toNat] 72

def fgMap : List Nat := [30, 34, 32, 36, 31, 35, 33, 37, 90, 94, 92, 96, 91, 95, 33, 97]

def bgMap : List Nat := [40, 44, 42, 46, 41, 45, 43, 47]

/-- `sgr_color`: the parameters of one colour, `base` being 30 or 40. -/
def sgrColor (c : AxlConsoleColor) (base : Nat) : List Nat :=
  if c.kind = 0 then [base + 9]
  else if c.kind = 1 then [base + 8, 5, c.idx.toNat]
  else if c.kind = 2 then [base + 8, 2, c.r.toNat, c.g.toNat, c.b.toNat]
  else []

/-- `axl_console_pen_to_sgr`. At most 52 bytes, so the buffer of 64 does not cut it. -/
def penToSgr (pen : AxlConsolePen) : List UInt8 :=
  let styles := [(pen.bold, 1), (pen.italic, 3), (pen.underline != 0, 4), (pen.blink, 5),
    (pen.reverse, 7), (pen.conceal, 8), (pen.strike, 9)]
  csi (0 :: (sgrColor pen.fg 30 ++ sgrColor pen.bg 40 ++
    (styles.filter (·.1)).map (·.2))) 109

/-- `vt_set_pen` -/
def vtSetPen (pen : AxlConsolePen) : List UInt8 :=
  if pen.fg.kind = 1 ∧ pen.bg.kind = 1 then
    csi [0, fgMap.getD (pen.fg.idx &&& 0x0F).toNat 0, bgMap.getD (pen.bg.idx &&& 0x07).toNat 0] 109
  else penToSgr pen

/-- `vt_set_term_prop` -/
def vtSetTermProp (prop : AxlConsoleProp) (val : Bool) : List UInt8 :=
  match prop with
  | .cursorVisible => csiPrivate [25] (if val then 104 else 108)
  | .altScreen => csiPrivate [1049] (if val then 104 else 108)
  | .other _ => []

/-- `"\x1b[2J\x1b[H"` -/
def clearText : List UInt8 := csi [2] 74 ++ [27, 91, 72]

/-- What every `set_cursor` sends that is not suppressed, and the other operations. -/
def vtOpAll : ConsoleOp → List UInt8
  | .clearScreen => clearText
  | .setCursor row col => snprintf24 (cupText row col)
  | .outputText text => text.utf8
  | .setPen pen => vtSetPen pen
  -- the size of the remote terminal is its consumer's business
  | .setMode _ | .resize _ _ => []
  | .setTermProp prop val => vtSetTermProp prop val

/-- An operation on the encoder: the encoder behind it and the bytes it sends. -/
def vtOp (e : AxlConsoleVtEnc) (op : ConsoleOp) : AxlConsoleVtEnc × List UInt8 :=
  match op with
  | .clearScreen => (⟨0, 0⟩, clearText)
  | .setCursor row col =>
    if row = e.curRow ∧ col = e.curCol then (e, [])
    else (⟨row, col⟩, snprintf24 (cupText row col))
  | op => (e, vtOpAll op)

/-- The bytes of a sequence of operations. -/
def encode (e : AxlConsoleVtEnc) : List ConsoleOp → List UInt8
  | [] => []
  | op :: ops => (vtOp e op).2 ++ encode (vtOp e op).1 ops

/-- The bytes without the suppression. -/
def encodeAll (ops : List ConsoleOp) : List UInt8 := ops.flatMap vtOpAll

/-! ## The condition and the property -/

/-- Whether the terminal's cursor may have left the position last sent: it may after
text and after a switch of the screen, until a position is sent. -/
def movedAfter (e : AxlConsoleVtEnc) (moved : Bool) : ConsoleOp → Bool
  | .clearScreen => false
  | .setCursor row col => if row = e.curRow ∧ col = e.curCol then moved else false
  | .outputText text => moved || !text.utf8.isEmpty
  | .setTermProp .altScreen _ => true
  | _ => moved

/-- A `set_cursor` that is suppressed would not move the cursor, and is one whose
text fits the buffer. -/
def Redundant (e : AxlConsoleVtEnc) (moved : Bool) : ConsoleOp → Prop
  | .setCursor row col =>
    row = e.curRow ∧ col = e.curCol → moved = false ∧ (cupText row col).length < 24
  | _ => True

/-- Every suppressed `set_cursor` of the sequence is redundant. -/
def Settled (e : AxlConsoleVtEnc) (moved : Bool) : List ConsoleOp → Prop
  | [] => True
  | op :: ops => Redundant e moved op ∧ Settled (vtOp e op).1 (movedAfter e moved op) ops

/-- The position is a cell of the terminal. -/
def OnScreen (T : Terminal) (row col : Int32) : Prop :=
  (0 ≤ row.toInt ∧ row.toInt < T.rows) ∧ 0 ≤ col.toInt ∧ col.toInt < T.cols

/-- The terminal follows the producer: after every `set_cursor` its cursor is there,
and it shows what it would show if every `set_cursor` had been sent. -/
structure Faithful (T : Terminal) (st : Parser × T.State) (e : AxlConsoleVtEnc)
    (ops : List ConsoleOp) : Prop where
  cursor : ∀ pre row col, pre ++ [.setCursor row col] <+: ops → OnScreen T row col →
    T.cursor (feed T st (encode e (pre ++ [.setCursor row col]))).2 =
      (row.toInt.toNat, col.toInt.toNat)
  same : ∀ pre, pre <+: ops → feed T st (encode e pre) = feed T st (encodeAll pre)

section Proof

variable {T : Terminal}

/-- The terminal is at the position: to send it again would change nothing. -/
def At (T : Terminal) (row col : Int32) (st : Parser × T.State) : Prop :=
  st.1 = .ground ∧
    T.cup (max 1 (row + 1).toUInt32.toNat) (max 1 (col + 1).toUInt32.toNat) st.2 = st.2

theorem At.of_cup (row col : Int32) (s : T.State) :
    At T row col (.ground, T.cup (max 1 (row + 1).toUInt32.toNat)
      (max 1 (col + 1).toUInt32.toNat) s) :=
  ⟨rfl, T.cup_cup _ _ s⟩

variable {row col : Int32} {st : Parser × T.State}

theorem At.sgr (h : At T row col st) (ps : List Nat) :
    At T row col (.ground, T.sgr ps st.2) :=
  ⟨rfl, (T.cup_sgr _ _ ps st.2).trans (congrArg (T.sgr ps) h.2)⟩

theorem At.setVisible (h : At T row col st) (on : Bool) :
    At T row col (.ground, T.setVisible on st.2) :=
  ⟨rfl, (T.cup_setVisible _ _ on st.2).trans (congrArg (T.setVisible on) h.2)⟩

/-- As long as nothing has moved it, the terminal is at the position last sent. -/
def InPlace (T : Terminal) (e : AxlConsoleVtEnc) (moved : Bool) (st : Parser × T.State) : Prop :=
  moved = false → (cupText e.curRow e.curCol).length < 24 → At T e.curRow e.curCol st

theorem feed_cupText (st : Parser × T.State) (row col : Int32) :
    feed T st (cupText row col) = (.ground, T.cup (max 1 (row + 1).toUInt32.toNat)
      (max 1 (col + 1).toUInt32.toNat) st.2) := by
  rw [cupText, feed_csi (by decide) st (List.cons_ne_nil _ _)]
  rfl

theorem feed_vtSetPen (pen : AxlConsolePen) :
    ∃ ps, ∀ st : Parser × T.State, feed T st (vtSetPen pen) = (.ground, T.sgr ps st.2) := by
  have hsgr : ∀ n ns (st : Parser × T.State),
      feed T st (csi (n :: ns) 109) = (.ground, T.sgr (n :: ns) st.2) := by
    intro n ns st
    rw [feed_csi (by decide) st (List.cons_ne_nil n ns)]
    simp [dispatch]
  rw [vtSetPen]
  split
  · exact ⟨_, hsgr _ _⟩
  · exact ⟨_, hsgr _ _⟩

theorem feed_clearText (st : Parser × T.State) :
    feed T st clearText = (.ground, T.cup 1 1 (T.eraseAll st.2)) := by
  rw [clearText, feed_append, feed_csi (by decide) st (List.cons_ne_nil _ _)]
  rfl

theorem feed_cursorVisible (st : Parser × T.State) (val : Bool) :
    feed T st (vtSetTermProp .cursorVisible val) = (.ground, T.setVisible val st.2) := by
  cases val with
  | false =>
    show feed T st (csiPrivate [25] 108) = _
    rw [feed_csiPrivate (by decide) st (List.cons_ne_nil _ _)]
    rfl
  | true =>
    show feed T st (csiPrivate [25] 104) = _
    rw [feed_csiPrivate (by decide) st (List.cons_ne_nil _ _)]
    rfl

variable {e : AxlConsoleVtEnc} {moved : Bool}

/-- What is suppressed would not have changed the terminal. -/
theorem InPlace.suppressed (h : InPlace T e moved st) (hmoved : moved = false)
    (hfits : (cupText e.curRow e.curCol).length < 24) :
    feed T st (vtOpAll (.setCursor e.curRow e.curCol)) = st := by
  obtain ⟨hground, hcup⟩ := h hmoved hfits
  show feed T st (snprintf24 (cupText e.curRow e.curCol)) = st
  rw [snprintf24, if_pos hfits, feed_cupText, hcup, ← hground]

/-- One operation: with and without the suppression the terminal is the same, and it
is in place again. -/
theorem InPlace.step {op : ConsoleOp} (h : InPlace T e moved st) (hr : Redundant e moved op) :
    feed T st (vtOp e op).2 = feed T st (vtOpAll op) ∧
      InPlace T (vtOp e op).1 (movedAfter e moved op) (feed T st (vtOpAll op)) := by
  cases op with
  | clearScreen =>
    refine ⟨rfl, fun _ _ => ?_⟩
    have hst : feed T st (vtOpAll .clearScreen) = (.ground, T.cup 1 1 (T.eraseAll st.2)) :=
      feed_clearText st
    rw [hst]
    exact At.of_cup 0 0 _
  | setCursor row col =>
    by_cases hsame : row = e.curRow ∧ col = e.curCol
    · obtain ⟨hmoved, hfits⟩ := hr hsame
      obtain ⟨rfl, rfl⟩ := hsame
      have hst := h.suppressed hmoved hfits
      rw [hst]
      simp only [vtOp, movedAfter, and_self, if_true]
      exact ⟨rfl, h⟩
    · simp only [vtOp, movedAfter, if_neg hsame]
      refine ⟨rfl, fun _ hfits => ?_⟩
      have hst : feed T st (vtOpAll (.setCursor row col)) = (.ground,
          T.cup (max 1 (row + 1).toUInt32.toNat) (max 1 (col + 1).toUInt32.toNat) st.2) := by
        show feed T st (snprintf24 (cupText row col)) = _
        rw [snprintf24, if_pos hfits, feed_cupText]
      rw [hst]
      exact At.of_cup row col _
  | outputText text =>
    refine ⟨rfl, fun hmoved hfits => ?_⟩
    -- a run that leaves the flag clear is empty
    simp only [movedAfter, Bool.or_eq_false_iff, Bool.not_eq_false', List.isEmpty_iff] at hmoved
    have hst : feed T st (vtOpAll (.outputText text)) = st := by
      show feed T st text.utf8 = st
      rw [hmoved.2]
      rfl
    rw [hst]
    exact h hmoved.1 hfits
  | setPen pen =>
    refine ⟨rfl, fun hmoved hfits => ?_⟩
    obtain ⟨ps, hps⟩ := feed_vtSetPen (T := T) pen
    have hst : feed T st (vtOpAll (.setPen pen)) = (.ground, T.sgr ps st.2) := hps st
    rw [hst]
    exact (h hmoved hfits).sgr ps
  | setMode mode => exact ⟨rfl, h⟩
  | resize cols rows => exact ⟨rfl, h⟩
  | setTermProp prop val =>
    cases prop with
    | cursorVisible =>
      refine ⟨rfl, fun hmoved hfits => ?_⟩
      have hst : feed T st (vtOpAll (.setTermProp .cursorVisible val)) =
          (.ground, T.setVisible val st.2) := feed_cursorVisible st val
      rw [hst]
      exact (h hmoved hfits).setVisible val
    | altScreen => exact ⟨rfl, nofun⟩
    | other code => exact ⟨rfl, h⟩

theorem InPlace.same {ops : List ConsoleOp} (h : InPlace T e moved st) (hs : Settled e moved ops) :
    feed T st (encode e ops) = feed T st (encodeAll ops) := by
  induction ops generalizing e moved st with
  | nil => rfl
  | cons op ops ih =>
    obtain ⟨heq, hnext⟩ := h.step hs.1
    show feed T st ((vtOp e op).2 ++ encode _ ops) = feed T st (vtOpAll op ++ encodeAll ops)
    rw [feed_append, feed_append, heq]
    exact ih hnext hs.2

theorem Settled.of_append {pre ops : List ConsoleOp} (h : Settled e moved (pre ++ ops)) :
    Settled e moved pre := by
  induction pre generalizing e moved with
  | nil => trivial
  | cons op pre ih => exact ⟨h.1, ih h.2⟩

/-- A coordinate that is not negative is printed as itself, counting from `1`. -/
theorem toNat_succ {x : Int32} (h : 0 ≤ x.toInt) : (x + 1).toUInt32.toNat = x.toInt.toNat + 1 := by
  have hle : 0 ≤ x := Int32.le_iff_toInt_le.mpr h
  have hx : x.toUInt32.toNat = x.toInt.toNat := by
    rw [Int32.toNat_toUInt32_of_le hle, Int32.toInt_eq_toNatClampNeg hle]
    rfl
  have hlt := Int32.toInt_lt x
  rw [Int32.toUInt32_add, UInt32.toNat_add, hx]
  show (x.toInt.toNat + 1) % 2 ^ 32 = _
  omega

theorem decimal_length {n k : Nat} (hk : 0 < k) (h : n < 10 ^ k) : (decimal n).length ≤ k := by
  rw [decimal, List.length_map]
  exact (Nat.length_toDigits_le_iff (by omega) hk).mpr h

/-- A position on the screen is short enough for the buffer. -/
theorem cupText_fits (h : OnScreen T row col) :
    (cupText row col).length < 24 := by
  obtain ⟨⟨hr, hr'⟩, hc, hc'⟩ := h
  have hrows := T.rows_le
  have hcols := T.cols_le
  have hrow := decimal_length (n := (row + 1).toUInt32.toNat) (k := 5) (by omega)
    (by rw [toNat_succ hr]; omega)
  have hcol := decimal_length (n := (col + 1).toUInt32.toNat) (k := 5) (by omega)
    (by rw [toNat_succ hc]; omega)
  simp only [cupText, csi, paramBytes, List.length_cons, List.length_append, List.length_nil]
  omega

theorem At.cursor (h : At T row col st) (hon : OnScreen T row col) :
    T.cursor st.2 = (row.toInt.toNat, col.toInt.toNat) := by
  obtain ⟨⟨hr, hr'⟩, hc, hc'⟩ := hon
  have hcup := T.cursor_cup row.toInt.toNat col.toInt.toNat st.2 (by omega) (by omega)
  rw [← toNat_succ hr, ← toNat_succ hc] at hcup
  have hplace := h.2
  rw [toNat_succ hr, toNat_succ hc, Nat.max_eq_right (by omega), Nat.max_eq_right (by omega),
    ← toNat_succ hr, ← toNat_succ hc] at hplace
  rw [← hcup, hplace]

theorem InPlace.cursor {pre : List ConsoleOp} (h : InPlace T e moved st)
    (hs : Settled e moved (pre ++ [.setCursor row col])) (hon : OnScreen T row col) :
    T.cursor (feed T st (encode e (pre ++ [.setCursor row col]))).2 =
      (row.toInt.toNat, col.toInt.toNat) := by
  induction pre generalizing e moved st with
  | nil =>
    obtain ⟨heq, hnext⟩ := h.step hs.1
    have hat : At T row col (feed T st (vtOpAll (.setCursor row col))) := by
      by_cases hsame : row = e.curRow ∧ col = e.curCol
      · obtain ⟨hmoved, hfits⟩ := hs.1 hsame
        obtain ⟨rfl, rfl⟩ := hsame
        rw [h.suppressed hmoved hfits]
        exact h hmoved hfits
      · simp only [vtOp, movedAfter, if_neg hsame] at hnext
        exact hnext rfl (cupText_fits hon)
    show T.cursor (feed T st ((vtOp e (.setCursor row col)).2 ++ [])).2 = _
    rw [List.append_nil, heq]
    exact hat.cursor hon
  | cons op pre ih =>
    obtain ⟨heq, hnext⟩ := h.step hs.1
    show T.cursor (feed T st ((vtOp e op).2 ++ encode _ (pre ++ [.setCursor row col]))).2 = _
    rw [feed_append, heq]
    exact ih hnext hs.2

end Proof

/-- **The remote terminal follows the producer**, on every terminal, from every state of
it, along every sequence of operations in which no suppressed `set_cursor` comes after
text or a switch of the screen that may have moved the cursor. -/
theorem settled_faithful (T : Terminal) (st : Parser × T.State) (ops : List ConsoleOp)
    (h : Settled vtEncNew true ops) : Faithful T st vtEncNew ops := by
  have hstart : InPlace T vtEncNew true st := nofun
  constructor
  · rintro pre row col ⟨rest, rfl⟩ hon
    exact hstart.cursor h.of_append hon
  · rintro pre ⟨rest, rfl⟩
    exact hstart.same h.of_append

theorem settled_redraw :
    Settled vtEncNew true [.clearScreen, .setCursor 0 0, .setCursor 5 5, .setCursor 5 5] ∧
      Faithful grid (.ground, Grid.start) vtEncNew
        [.clearScreen, .setCursor 0 0, .setCursor 5 5, .setCursor 5 5] := by
  have h : Settled vtEncNew true
      [.clearScreen, .setCursor 0 0, .setCursor 5 5, .setCursor 5 5] := by
    simp [Settled, Redundant, movedAfter, vtOp]
    decide
  exact ⟨h, settled_faithful grid _ _ h⟩

/-- Text written at the position, and the position asked for again: the cursor stays
behind the text. -/
theorem reposition_suppressed :
    ∃ text : Text, text.utf8 = [97, 98, 99] ∧ ¬ Faithful grid (.ground, Grid.start) vtEncNew
      [.setCursor 5 5, .outputText text, .setCursor 5 5] := by
  refine ⟨⟨[97, 98, 99], by decide⟩, rfl, fun h => ?_⟩
  have hon : OnScreen grid 5 5 := by
    simp only [OnScreen, grid]
    decide
  have hcursor := h.cursor [.setCursor 5 5, .outputText ⟨[97, 98, 99], by decide⟩] 5 5
    List.prefix_rfl hon
  revert hcursor
  decide

end VtEnc

end AxlSdk
