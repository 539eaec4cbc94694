import AxlSdk.Json.Utf8

/-!
# UTF-8 to UCS-2 (`axl-str.c`)

The conversion every path goes through on its way to the firmware, and the byte
filter of the 9P server in front of it.

- `turn`: what the loop of `axl_utf8_to_ucs2` makes of the bytes at its position.
- `utf8ToUcs2`, `utf8ToUcs2Buf`: the allocating conversion, with its counting pass
  `ucs2Count`, and the one into a caller's buffer.
- `s9pCompIsSafe`: the check of a name from the wire.
- `smuggling_iff`: which strings the conversion does not turn into something the
  check would have refused.

A byte that is not a continuation is never read inside a sequence. So what the
loop meets can be said of the text (`Occurs`), without running the loop.
-/

namespace AxlSdk

namespace Ucs2

open Json Utf8 List

/-- A C string: the bytes before the terminator. -/
structure CString where
  bytes : List UInt8
  noNul : 0 ∉ bytes

/-- `in[i]` for a position inside the string; the terminator behind it. -/
def at0 (s : List UInt8) (i : Nat) : UInt8 := s.getD i 0

/-- A byte of ASCII. -/
def startsAscii (s : List UInt8) : Bool := at0 s 0 &&& 0x80 == 0

/-- A two-byte sequence, overlong ones included. -/
def startsTwo (s : List UInt8) : Bool := at0 s 0 &&& 0xE0 == 0xC0 && isCont (at0 s 1)

/-- A three-byte sequence, overlong ones included. -/
def startsThree (s : List UInt8) : Bool :=
  at0 s 0 &&& 0xF0 == 0xE0 && isCont (at0 s 1) && isCont (at0 s 2)

def startsFour (s : List UInt8) : Bool :=
  at0 s 0 &&& 0xF8 == 0xF0 && isCont (at0 s 1) && isCont (at0 s 2) && isCont (at0 s 3)

/-- One turn of the loop: the code unit, if there is one, and how far `in` moves. -/
def turn (s : List UInt8) : Option UInt16 × Nat :=
  if startsAscii s then (some (at0 s 0).toUInt16, 1)
  else if startsTwo s then
    (some (UInt16.ofNat ((at0 s 0 &&& 0x1F).toNat <<< 6 ||| (at0 s 1 &&& 0x3F).toNat)), 2)
  else if startsThree s then
    (some (UInt16.ofNat ((at0 s 0 &&& 0x0F).toNat <<< 12 ||| (at0 s 1 &&& 0x3F).toNat <<< 6 |||
      (at0 s 2 &&& 0x3F).toNat)), 3)
  else if startsFour s then (none, 4)
  else (none, 1)

/-- The decoding pass; `skip` bytes of the sequence just read are still ahead. -/
def decodeLoop (skip : Nat) : List UInt8 → List UInt16
  | [] => []
  | b :: s =>
    match skip with
    | k + 1 => decodeLoop k s
    | 0 => (turn (b :: s)).1.toList ++ decodeLoop ((turn (b :: s)).2 - 1) s

/-- The loop into a buffer with room for `room` more units. -/
def bufLoop (room skip : Nat) : List UInt8 → List UInt16
  | [] => []
  | b :: s =>
    if room = 0 then []
    else
      match skip with
      | k + 1 => bufLoop room k s
      | 0 =>
        match (turn (b :: s)).1 with
        | some u => u :: bufLoop (room - 1) ((turn (b :: s)).2 - 1) s
        | none => bufLoop room ((turn (b :: s)).2 - 1) s

/-- `axl_utf8_to_ucs2`: the code units before the terminator. -/
def utf8ToUcs2 (s : CString) : List UInt16 := decodeLoop 0 s.bytes

/-- `axl_utf8_to_ucs2_buf`: the code units written before the terminator. A buffer
of no units is not written to. -/
def utf8ToUcs2Buf (src : CString) (dstCount : Nat) : List UInt16 :=
  if dstCount = 0 then [] else bufLoop (dstCount - 1) 0 src.bytes

/-- `s9p_comp_is_safe` -/
def s9pCompIsSafe (comp : CString) (wireN cap : Nat) : Bool :=
  0 < wireN && wireN < cap && comp.bytes.length == wireN && !comp.bytes.contains 47 &&
    !comp.bytes.contains 92

/-! ## What the loop meets in the text -/

/-- A sequence of two or three bytes whose code unit is below `0x80`. -/
def startsOverlong (s : List UInt8) : Bool :=
  (at0 s 0 == 0xC0 || at0 s 0 == 0xC1) && isCont (at0 s 1) ||
    at0 s 0 == 0xE0 && (at0 s 1 == 0x80 || at0 s 1 == 0x81) && isCont (at0 s 2)

/-- At no position of the text does `p` hold. -/
def Nowhere (p : List UInt8 → Bool) (s : List UInt8) : Prop := ∀ t ≠ [], t <:+ s → p t = false

/-- At how many positions of the text `p` holds. -/
def tally (p : List UInt8 → Bool) : List UInt8 → Nat
  | [] => 0
  | b :: s => (p (b :: s)).toNat + tally p s

theorem tally_eq_zero {p : List UInt8 → Bool} {s : List UInt8} :
    tally p s = 0 ↔ Nowhere p s := by
  induction s with
  | nil =>
    refine ⟨fun _ t ht h => ?_, fun _ => rfl⟩
    exact absurd (suffix_nil.mp h) ht
  | cons b s ih =>
    constructor
    · intro h t ht hsuf
      have hb : (p (b :: s)).toNat = 0 := Nat.eq_zero_of_add_eq_zero_right h
      have hs : tally p s = 0 := Nat.eq_zero_of_add_eq_zero_left h
      rcases suffix_cons_iff.mp hsuf with rfl | hsuf
      · exact Bool.toNat_eq_zero.mp hb
      · exact ih.mp hs t ht hsuf
    · intro h
      have hb : p (b :: s) = false := h _ (cons_ne_nil b s) suffix_rfl
      have hs : tally p s = 0 := ih.mpr fun t ht hsuf => h t ht (hsuf.trans (suffix_cons b s))
      rw [tally, hb, hs]
      rfl

theorem startsAscii_iff (s : List UInt8) : startsAscii s = true ↔ at0 s 0 < 0x80 :=
  byte_all (p := fun b => (b &&& 0x80 == 0) = true ↔ b < 0x80) (by decide +kernel) (at0 s 0)

theorem startsTwo_iff (s : List UInt8) :
    startsTwo s = true ↔ (0xC0 ≤ (at0 s 0).toNat ∧ (at0 s 0).toNat < 0xE0) ∧ Cont (at0 s 1) := by
  rw [startsTwo, Bool.and_eq_true, beq_iff_eq, lead2_iff, isCont_iff]

theorem startsThree_iff (s : List UInt8) :
    startsThree s = true ↔ (0xE0 ≤ (at0 s 0).toNat ∧ (at0 s 0).toNat < 0xF0) ∧
      Cont (at0 s 1) ∧ Cont (at0 s 2) := by
  rw [startsThree, Bool.and_eq_true, Bool.and_eq_true, beq_iff_eq, lead3_iff, isCont_iff,
    isCont_iff, and_assoc]

theorem startsOverlong_iff (s : List UInt8) :
    startsOverlong s = true ↔
      (startsTwo s = true ∧ ((at0 s 0).toNat - 0xC0) * 64 + ((at0 s 1).toNat - 0x80) < 0x80) ∨
      (startsThree s = true ∧ ((at0 s 0).toNat - 0xE0) * 4096 + ((at0 s 1).toNat - 0x80) * 64 +
        ((at0 s 2).toNat - 0x80) < 0x80) := by
  have hb : ∀ {b c : UInt8}, b = c ↔ b.toNat = c.toNat := UInt8.toNat_inj.symm
  simp only [startsOverlong, startsTwo_iff, startsThree_iff, Bool.or_eq_true, Bool.and_eq_true,
    beq_iff_eq, isCont_iff, hb, Utf8.Cont]
  rw [show (0xC0 : UInt8).toNat = 192 from rfl, show (0xC1 : UInt8).toNat = 193 from rfl,
    show (0xE0 : UInt8).toNat = 224 from rfl, show (0x80 : UInt8).toNat = 128 from rfl,
    show (0x81 : UInt8).toNat = 129 from rfl]
  omega

/-- A continuation byte begins nothing. -/
theorem cont_starts_nothing {b : UInt8} (h : isCont b = true) (s : List UInt8) :
    startsAscii (b :: s) = false ∧ startsTwo (b :: s) = false ∧ startsThree (b :: s) = false ∧
      startsOverlong (b :: s) = false := by
  obtain ⟨hlo, hhi⟩ := (isCont_iff b).mp h
  have htwo : startsTwo (b :: s) = false := by
    rw [Bool.eq_false_iff, ne_eq, startsTwo_iff]
    show ¬((0xC0 ≤ b.toNat ∧ b.toNat < 0xE0) ∧ _)
    omega
  have hthree : startsThree (b :: s) = false := by
    rw [Bool.eq_false_iff, ne_eq, startsThree_iff]
    show ¬((0xE0 ≤ b.toNat ∧ b.toNat < 0xF0) ∧ _)
    omega
  refine ⟨?_, htwo, hthree, ?_⟩
  · rw [Bool.eq_false_iff, ne_eq, startsAscii_iff]
    exact byte_not_ascii hlo
  · rw [Bool.eq_false_iff, ne_eq, startsOverlong_iff, htwo, hthree]
    simp

/-! ## One turn -/

/-- A code unit below `0x80`. -/
def low (u : UInt16) : Bool := u < 0x80

theorem low_ofNat {n : Nat} (h : n < 65536) : low (UInt16.ofNat n) = decide (n < 0x80) := by
  have hn : (UInt16.ofNat n).toNat = n := by
    rw [UInt16.toNat_ofNat']
    exact Nat.mod_eq_of_lt h
  simp only [low, UInt16.lt_iff_toNat_lt, hn]
  rfl

theorem low_toUInt16 {b : UInt8} : low b.toUInt16 = decide (b < 0x80) :=
  byte_all (p := fun b => low b.toUInt16 = decide (b < 0x80)) (by decide +kernel) b

/-- What a turn does, by what begins at its position. -/
inductive Turn (b : UInt8) (s : List UInt8) : Prop where
  | ascii (hb : startsAscii (b :: s) = true) (htwo : startsTwo (b :: s) = false)
      (hthree : startsThree (b :: s) = false) (h : turn (b :: s) = (some b.toUInt16, 1))
  | two (hb : startsAscii (b :: s) = false) (htwo : startsTwo (b :: s) = true)
      (hthree : startsThree (b :: s) = false)
      (h : turn (b :: s) = (some (UInt16.ofNat ((b.toNat - 0xC0) * 64 +
        ((at0 s 0).toNat - 0x80))), 2))
  | three (hb : startsAscii (b :: s) = false) (htwo : startsTwo (b :: s) = false)
      (hthree : startsThree (b :: s) = true)
      (h : turn (b :: s) = (some (UInt16.ofNat ((b.toNat - 0xE0) * 4096 +
        ((at0 s 0).toNat - 0x80) * 64 + ((at0 s 1).toNat - 0x80))), 3))
  | skipped (hb : startsAscii (b :: s) = false) (htwo : startsTwo (b :: s) = false)
      (hthree : startsThree (b :: s) = false)
      (h : turn (b :: s) = (none, 1) ∨ startsFour (b :: s) = true ∧ turn (b :: s) = (none, 4))

theorem turn_spec (b : UInt8) (s : List UInt8) : Turn b s := by
  have htwo_iff := startsTwo_iff (b :: s)
  have hthree_iff := startsThree_iff (b :: s)
  rw [show at0 (b :: s) 0 = b from rfl, show at0 (b :: s) 1 = at0 s 0 from rfl] at htwo_iff
  rw [show at0 (b :: s) 0 = b from rfl, show at0 (b :: s) 1 = at0 s 0 from rfl,
    show at0 (b :: s) 2 = at0 s 1 from rfl] at hthree_iff
  by_cases hb : startsAscii (b :: s) = true
  · have hlt : b.toNat < 0x80 := UInt8.lt_iff_toNat_lt.mp ((startsAscii_iff _).mp hb)
    refine .ascii hb ?_ ?_ (if_pos hb)
    · rw [Bool.eq_false_iff, ne_eq, htwo_iff]
      omega
    · rw [Bool.eq_false_iff, ne_eq, hthree_iff]
      omega
  have hb' : startsAscii (b :: s) = false := Bool.eq_false_iff.mpr hb
  by_cases htwo : startsTwo (b :: s) = true
  · obtain ⟨h₀, h₁⟩ := htwo_iff.mp htwo
    refine .two hb' htwo ?_ ?_
    · rw [Bool.eq_false_iff, ne_eq, hthree_iff]
      omega
    · have hlt : (at0 s 0 &&& 0x3F).toNat < 64 := by rw [cont_bits h₁]; obtain ⟨-, h⟩ := h₁; omega
      rw [turn, if_neg hb, if_pos htwo]
      show (some (UInt16.ofNat ((b &&& 0x1F).toNat <<< 6 ||| (at0 s 0 &&& 0x3F).toNat)), 2) = _
      rw [join2 hlt, lead2_bits h₀, cont_bits h₁]
  have htwo' : startsTwo (b :: s) = false := Bool.eq_false_iff.mpr htwo
  by_cases hthree : startsThree (b :: s) = true
  · obtain ⟨h₀, h₁, h₂⟩ := hthree_iff.mp hthree
    refine .three hb' htwo' hthree ?_
    have hlt₁ : (at0 s 0 &&& 0x3F).toNat < 64 := by rw [cont_bits h₁]; obtain ⟨-, h⟩ := h₁; omega
    have hlt₂ : (at0 s 1 &&& 0x3F).toNat < 64 := by rw [cont_bits h₂]; obtain ⟨-, h⟩ := h₂; omega
    rw [turn, if_neg hb, if_neg htwo, if_pos hthree]
    show (some (UInt16.ofNat ((b &&& 0x0F).toNat <<< 12 ||| (at0 s 0 &&& 0x3F).toNat <<< 6 |||
      (at0 s 1 &&& 0x3F).toNat)), 3) = _
    rw [join3 hlt₁ hlt₂, lead3_bits h₀, cont_bits h₁, cont_bits h₂]
  refine .skipped hb' htwo' (Bool.eq_false_iff.mpr hthree) ?_
  rw [turn, if_neg hb, if_neg htwo, if_neg hthree]
  by_cases hfour : startsFour (b :: s) = true
  · exact .inr ⟨hfour, if_pos hfour⟩
  · exact .inl (if_neg hfour)

theorem mem_take_at0 {s : List UInt8} {n : Nat} {x : UInt8} (h : x ∈ s.take n) :
    ∃ i < n, x = at0 s i := by
  obtain ⟨i, hi, rfl⟩ := mem_iff_getElem.mp h
  have hlen := hi
  rw [length_take] at hlen
  refine ⟨i, by omega, ?_⟩
  rw [getElem_take, at0, getD_eq_getElem _ _ (by omega)]

/-- The bytes a turn moves over, the first apart, are continuations. -/
theorem turn_isCont (b : UInt8) (s : List UInt8) {i : Nat} (hi : i < (turn (b :: s)).2 - 1) :
    isCont (at0 s i) = true := by
  cases turn_spec b s with
  | ascii hb htwo hthree h =>
    rw [h] at hi
    exact absurd hi (Nat.not_lt_zero i)
  | two hb htwo hthree h =>
    rw [h] at hi
    obtain rfl : i = 0 := by simp only [] at hi; omega
    exact (isCont_iff _).mpr ((startsTwo_iff _).mp htwo).2
  | three hb htwo hthree h =>
    rw [h] at hi
    obtain ⟨-, h₁, h₂⟩ := (startsThree_iff _).mp hthree
    have hi' : i = 0 ∨ i = 1 := by simp only [] at hi; omega
    rcases hi' with rfl | rfl
    · exact (isCont_iff _).mpr h₁
    · exact (isCont_iff _).mpr h₂
  | skipped hb htwo hthree h =>
    rcases h with h | ⟨hfour, h⟩
    · rw [h] at hi
      exact absurd hi (Nat.not_lt_zero i)
    · rw [h] at hi
      simp only [startsFour, Bool.and_eq_true] at hfour
      have hi' : i = 0 ∨ i = 1 ∨ i = 2 := by simp only [] at hi; omega
      rcases hi' with rfl | rfl | rfl
      · exact hfour.1.1.2
      · exact hfour.1.2
      · exact hfour.2

theorem turn_conts (b : UInt8) (s : List UInt8) :
    ∀ x ∈ s.take ((turn (b :: s)).2 - 1), isCont x = true := by
  intro x hx
  obtain ⟨i, hi, rfl⟩ := mem_take_at0 hx
  exact turn_isCont b s hi

/-- A turn stays within the text: the terminator is not a continuation. -/
theorem turn_le (b : UInt8) (s : List UInt8) : (turn (b :: s)).2 - 1 ≤ s.length := by
  by_contra hlt
  have hcont := turn_isCont b s (Nat.lt_of_not_le hlt)
  rw [at0, getD_eq_default _ _ (Nat.le_refl _)] at hcont
  exact absurd hcont (by decide)

theorem turn_length (b : UInt8) (s : List UInt8) :
    (turn (b :: s)).1.toList.length =
      (startsAscii (b :: s)).toNat + (startsTwo (b :: s)).toNat + (startsThree (b :: s)).toNat := by
  cases turn_spec b s with
  | ascii hb htwo hthree h => simp [hb, htwo, hthree, h]
  | two hb htwo hthree h => simp [hb, htwo, hthree, h]
  | three hb htwo hthree h => simp [hb, htwo, hthree, h]
  | skipped hb htwo hthree h =>
    rcases h with h | ⟨-, h⟩
    · simp [hb, htwo, hthree, h]
    · simp [hb, htwo, hthree, h]

/-- The low code units of a turn: an ASCII byte as it is, or an overlong sequence. -/
theorem turn_low (b : UInt8) (s : List UInt8) :
    ((turn (b :: s)).1.toList.filter low).length =
        (startsAscii (b :: s)).toNat + (startsOverlong (b :: s)).toNat ∧
      (startsOverlong (b :: s) = false →
        (turn (b :: s)).1.toList.filter low = if b < 0x80 then [b.toUInt16] else []) := by
  have hascii : startsAscii (b :: s) = true ↔ b < 0x80 := startsAscii_iff (b :: s)
  have hover := startsOverlong_iff (b :: s)
  rw [show at0 (b :: s) 0 = b from rfl, show at0 (b :: s) 1 = at0 s 0 from rfl,
    show at0 (b :: s) 2 = at0 s 1 from rfl] at hover
  cases turn_spec b s with
  | ascii hb htwo hthree h =>
    have hno : startsOverlong (b :: s) = false := by
      rw [Bool.eq_false_iff, ne_eq, hover, htwo, hthree]
      simp
    simp [h, hb, hno, low_toUInt16, hascii.mp hb]
  | two hb htwo hthree h =>
    have hnot : ¬ b < 0x80 := fun hlt => by simp [hascii.mpr hlt] at hb
    obtain ⟨h₀, h₁⟩ := (startsTwo_iff _).mp htwo
    have hlow := low_ofNat (n := (b.toNat - 0xC0) * 64 + ((at0 s 0).toNat - 0x80)) (by
      have := h₁.2
      have := h₀.2
      simp only [show at0 (b :: s) 0 = b from rfl, show at0 (b :: s) 1 = at0 s 0 from rfl] at *
      omega)
    rw [hthree, htwo] at hover
    simp only [h, Option.toList_some, filter_cons, hlow, filter_nil, decide_eq_true_eq,
      hb, if_neg hnot, Bool.toNat_false, zero_add]
    split
    · next hlt =>
      have hyes : startsOverlong (b :: s) = true := hover.mpr (.inl ⟨rfl, hlt⟩)
      simp [hyes]
    · next hge =>
      have hno : startsOverlong (b :: s) = false := by
        rw [Bool.eq_false_iff, ne_eq, hover]
        simp [hge]
      simp [hno]
  | three hb htwo hthree h =>
    have hnot : ¬ b < 0x80 := fun hlt => by simp [hascii.mpr hlt] at hb
    obtain ⟨h₀, h₁, h₂⟩ := (startsThree_iff _).mp hthree
    have hlow := low_ofNat (n := (b.toNat - 0xE0) * 4096 + ((at0 s 0).toNat - 0x80) * 64 +
        ((at0 s 1).toNat - 0x80)) (by
      have := h₁.2
      have := h₂.2
      have := h₀.2
      simp only [show at0 (b :: s) 0 = b from rfl, show at0 (b :: s) 1 = at0 s 0 from rfl,
        show at0 (b :: s) 2 = at0 s 1 from rfl] at *
      omega)
    rw [hthree, htwo] at hover
    simp only [h, Option.toList_some, filter_cons, hlow, filter_nil, decide_eq_true_eq,
      hb, if_neg hnot, Bool.toNat_false, zero_add]
    split
    · next hlt =>
      have hyes : startsOverlong (b :: s) = true := hover.mpr (.inr ⟨rfl, hlt⟩)
      simp [hyes]
    · next hge =>
      have hno : startsOverlong (b :: s) = false := by
        rw [Bool.eq_false_iff, ne_eq, hover]
        simp [hge]
      simp [hno]
  | skipped hb htwo hthree h =>
    have hnot : ¬ b < 0x80 := fun hlt => by simp [hascii.mpr hlt] at hb
    have hno : startsOverlong (b :: s) = false := by
      rw [Bool.eq_false_iff, ne_eq, hover, htwo, hthree]
      simp
    have hnone : (turn (b :: s)).1 = none := by
      rcases h with h | ⟨-, h⟩
      · rw [h]
      · rw [h]
    simp [hnone, hb, hno, hnot]

/-! ## The loops -/

/-- The bytes still ahead of the sequence just read are continuations. -/
def Ahead (skip : Nat) (s : List UInt8) : Prop := ∀ x ∈ s.take skip, isCont x = true

theorem Ahead.cons {k : Nat} {b : UInt8} {s : List UInt8} (h : Ahead (k + 1) (b :: s)) :
    isCont b = true ∧ Ahead k s :=
  ⟨h b mem_cons_self, fun x hx => h x (mem_cons_of_mem b hx)⟩

theorem decodeLoop_length {skip : Nat} {s : List UInt8} (h : Ahead skip s) :
    (decodeLoop skip s).length = tally startsAscii s + tally startsTwo s + tally startsThree s := by
  induction s generalizing skip with
  | nil => rfl
  | cons b s ih =>
    cases skip with
    | zero =>
      show ((turn (b :: s)).1.toList ++ decodeLoop ((turn (b :: s)).2 - 1) s).length = _
      rw [length_append, turn_length, ih (turn_conts b s), tally, tally, tally]
      omega
    | succ k =>
      obtain ⟨hb, hk⟩ := h.cons
      obtain ⟨hascii, htwo, hthree, -⟩ := cont_starts_nothing hb s
      show (decodeLoop k s).length = _
      rw [ih hk, tally, tally, tally, hascii, htwo, hthree]
      simp

theorem decodeLoop_low_length {skip : Nat} {s : List UInt8} (h : Ahead skip s) :
    ((decodeLoop skip s).filter low).length = tally startsAscii s + tally startsOverlong s := by
  induction s generalizing skip with
  | nil => rfl
  | cons b s ih =>
    cases skip with
    | zero =>
      show (((turn (b :: s)).1.toList ++ decodeLoop ((turn (b :: s)).2 - 1) s).filter low).length = _
      rw [filter_append, length_append, (turn_low b s).1, ih (turn_conts b s), tally, tally]
      omega
    | succ k =>
      obtain ⟨hb, hk⟩ := h.cons
      obtain ⟨hascii, -, -, hover⟩ := cont_starts_nothing hb s
      show ((decodeLoop k s).filter low).length = _
      rw [ih hk, tally, tally, hascii, hover]
      simp

/-- The ASCII bytes of the text, as code units. -/
def asciiUnits (s : List UInt8) : List UInt16 :=
  (s.filter fun b => b < 0x80).map UInt8.toUInt16

theorem asciiUnits_cons (b : UInt8) (s : List UInt8) :
    asciiUnits (b :: s) = (if b < 0x80 then [b.toUInt16] else []) ++ asciiUnits s := by
  by_cases hb : b < 0x80 <;> simp [asciiUnits, hb]

theorem asciiUnits_length (s : List UInt8) : (asciiUnits s).length = tally startsAscii s := by
  induction s with
  | nil => rfl
  | cons b s ih =>
    have hb : (startsAscii (b :: s)).toNat = (if b < 0x80 then [b.toUInt16] else []).length := by
      by_cases hlt : b < 0x80
      · simp [hlt, (startsAscii_iff (b :: s)).mpr hlt]
      · have hno : startsAscii (b :: s) = false := by
          rw [Bool.eq_false_iff, ne_eq, startsAscii_iff]
          exact hlt
        simp [hlt, hno]
    rw [asciiUnits_cons, length_append, ih, tally, hb]

/-- Without overlong sequences the low code units are the ASCII bytes. -/
theorem decodeLoop_low {skip : Nat} {s : List UInt8} (h : Ahead skip s)
    (hover : tally startsOverlong s = 0) : (decodeLoop skip s).filter low = asciiUnits s := by
  induction s generalizing skip with
  | nil => rfl
  | cons b s ih =>
    have hs : tally startsOverlong s = 0 := Nat.eq_zero_of_add_eq_zero_left hover
    have hb : startsOverlong (b :: s) = false :=
      Bool.toNat_eq_zero.mp (Nat.eq_zero_of_add_eq_zero_right hover)
    cases skip with
    | zero =>
      show ((turn (b :: s)).1.toList ++ decodeLoop ((turn (b :: s)).2 - 1) s).filter low = _
      rw [filter_append, (turn_low b s).2 hb, ih (turn_conts b s) hs, asciiUnits_cons]
    | succ k =>
      obtain ⟨hcont, hk⟩ := h.cons
      have hnot : ¬ b < 0x80 := byte_not_ascii ((isCont_iff b).mp hcont).1
      show (decodeLoop k s).filter low = _
      rw [ih hk hs, asciiUnits_cons, if_neg hnot, nil_append]

theorem bufLoop_eq (room skip : Nat) (s : List UInt8) :
    bufLoop room skip s = (decodeLoop skip s).take room := by
  induction s generalizing room skip with
  | nil => simp [bufLoop, decodeLoop]
  | cons b s ih =>
    cases room with
    | zero => simp [bufLoop]
    | succ room =>
      cases skip with
      | zero =>
        show _ = ((turn (b :: s)).1.toList ++ decodeLoop ((turn (b :: s)).2 - 1) s).take (room + 1)
        rw [bufLoop, if_neg (Nat.succ_ne_zero room)]
        cases hu : (turn (b :: s)).1 with
        | none => exact ih _ _
        | some u =>
          show u :: bufLoop room _ s = u :: (decodeLoop _ s).take room
          rw [ih]
      | succ k =>
        rw [bufLoop, if_neg (Nat.succ_ne_zero room)]
        exact ih (room + 1) k

/-- A sequence does not reach over an ASCII byte. -/
theorem turn_append {c : UInt8} (hc : isCont c = false) (b : UInt8) (a s : List UInt8) :
    turn (b :: (a ++ c :: s)) = turn (b :: a) := by
  have h0 : isCont 0 = false := rfl
  -- the turn looks at three more bytes at most
  cases a with
  | nil => simp [turn, startsAscii, startsTwo, startsThree, startsFour, at0, hc, h0]
  | cons x a =>
    cases a with
    | nil => simp [turn, startsAscii, startsTwo, startsThree, startsFour, at0, hc, h0]
    | cons y a =>
      cases a with
      | nil => simp [turn, startsAscii, startsTwo, startsThree, startsFour, at0, hc, h0]
      | cons z a => simp [turn, startsAscii, startsTwo, startsThree, startsFour, at0]

/-- The text is converted piece by piece between its ASCII bytes. -/
theorem decodeLoop_append {c : UInt8} (hc : c < 0x80) {skip : Nat} {a : List UInt8}
    (hskip : skip ≤ a.length) (s : List UInt8) :
    decodeLoop skip (a ++ c :: s) = decodeLoop skip a ++ c.toUInt16 :: decodeLoop 0 s := by
  have hcont : isCont c = false := by
    rw [Bool.eq_false_iff, ne_eq, isCont_iff]
    rintro ⟨hlo, -⟩
    exact byte_not_ascii hlo hc
  induction a generalizing skip with
  | nil =>
    obtain rfl : skip = 0 := by simpa using hskip
    have hturn : turn (c :: s) = (some c.toUInt16, 1) := if_pos ((startsAscii_iff (c :: s)).mpr hc)
    show (turn (c :: s)).1.toList ++ decodeLoop ((turn (c :: s)).2 - 1) s = _
    rw [hturn]
    rfl
  | cons b a ih =>
    cases skip with
    | zero =>
      show (turn (b :: (a ++ c :: s))).1.toList ++
          decodeLoop ((turn (b :: (a ++ c :: s))).2 - 1) (a ++ c :: s) =
        (turn (b :: a)).1.toList ++ decodeLoop ((turn (b :: a)).2 - 1) a ++ _
      rw [turn_append hcont, ih (turn_le b a), append_assoc]
    | succ k => exact ih (Nat.le_of_succ_le_succ hskip)

/-! ## What reaches the firmware -/

/-- The text is `.` or `..` but for bytes that the conversion drops. -/
def Dots (s : List UInt8) : Prop :=
  (asciiUnits s = [46] ∨ asciiUnits s = [46, 46]) ∧ Nowhere startsTwo s ∧ Nowhere startsThree s

theorem dots_iff {s : List UInt8} (hover : Nowhere startsOverlong s) :
    decodeLoop 0 s = [46] ∨ decodeLoop 0 s = [46, 46] ↔ Dots s := by
  have hahead : Ahead 0 s := fun x hx => by simp at hx
  have hlow := decodeLoop_low hahead (tally_eq_zero.mpr hover)
  have hlen := decodeLoop_length hahead
  rw [← asciiUnits_length] at hlen
  constructor
  · intro h
    have hall : (decodeLoop 0 s).filter low = decodeLoop 0 s := by
      rcases h with h | h <;> rw [h] <;> rfl
    rw [hall] at hlow
    rw [hlow] at h hlen
    exact ⟨h, tally_eq_zero.mp (by omega), tally_eq_zero.mp (by omega)⟩
  · rintro ⟨h, htwo, hthree⟩
    have hsame : ((decodeLoop 0 s).filter low).length = (decodeLoop 0 s).length := by
      rw [hlow, hlen, tally_eq_zero.mpr htwo, tally_eq_zero.mpr hthree]
      exact (Nat.add_zero _).symm
    have hall : (decodeLoop 0 s).filter low = decodeLoop 0 s :=
      filter_eq_self.mpr (length_filter_eq_length_iff.mp hsame)
    rw [← hall, hlow]
    exact h

/-- The conversion smuggles nothing in: the low code units are the ASCII bytes, the
buffer gets the longest prefix that fits, the text stands in a path between the
separators it was given, and a name that the check lets through, other than the walk's
own `.` and `..`, is one component. -/
structure NotSmuggled (s : CString) : Prop where
  ascii : (utf8ToUcs2 s).filter low = asciiUnits s.bytes
  fits : ∀ dstCount, utf8ToUcs2Buf s dstCount = (utf8ToUcs2 s).take (dstCount - 1)
  inPath : ∀ (dir path : CString) (sep : UInt8), sep = 47 ∨ sep = 92 →
    path.bytes = dir.bytes ++ sep :: s.bytes →
      utf8ToUcs2 path = utf8ToUcs2 dir ++ sep.toUInt16 :: utf8ToUcs2 s
  component : ∀ wireN cap, s9pCompIsSafe s wireN cap = true → s.bytes ≠ [46] →
    s.bytes ≠ [46, 46] → (47 ∉ utf8ToUcs2 s ∧ 92 ∉ utf8ToUcs2 s) ∧
      utf8ToUcs2 s ≠ [46] ∧ utf8ToUcs2 s ≠ [46, 46]

theorem utf8ToUcs2Buf_eq (s : CString) (dstCount : Nat) :
    utf8ToUcs2Buf s dstCount = (utf8ToUcs2 s).take (dstCount - 1) := by
  rw [utf8ToUcs2Buf]
  split
  · next h => simp [h]
  · exact bufLoop_eq _ _ _

theorem toUInt16_inj {b c : UInt8} (h : b.toUInt16 = c.toUInt16) : b = c := by
  have hnat := congrArg UInt16.toNat h
  rw [UInt8.toNat_toUInt16, UInt8.toNat_toUInt16] at hnat
  exact UInt8.toNat_inj.mp hnat

/-- The condition: no sequence for an ASCII character anywhere, and nothing that is
dropped next to a `.` or `..` that stands alone. -/
def Plain (s : CString) : Prop :=
  Nowhere startsOverlong s.bytes ∧ (Dots s.bytes → s.bytes = [46] ∨ s.bytes = [46, 46])

/-- Dots with dropped bytes between them pass the check. -/
theorem safe_of_dots {s : CString} (h : Dots s.bytes) :
    s9pCompIsSafe s s.bytes.length (s.bytes.length + 1) = true := by
  have hunit : ∀ b ∈ s.bytes, b < 0x80 → b = 46 := by
    intro b hb hlt
    have hmem : b.toUInt16 ∈ asciiUnits s.bytes :=
      mem_map_of_mem (mem_filter.mpr ⟨hb, by simpa using hlt⟩)
    have heq : b.toUInt16 = (46 : UInt8).toUInt16 := by
      rcases h.1 with hs | hs <;> rw [hs] at hmem <;> simpa using hmem
    exact toUInt16_inj heq
  have hne : 0 < s.bytes.length := by
    rw [length_pos_iff]
    rintro hnil
    rcases h.1 with hs | hs <;> simp [hnil, asciiUnits] at hs
  have hslash : (47 : UInt8) ∉ s.bytes := fun hmem =>
    absurd (hunit 47 hmem (by decide)) (by decide)
  have hback : (92 : UInt8) ∉ s.bytes := fun hmem =>
    absurd (hunit 92 hmem (by decide)) (by decide)
  simp [s9pCompIsSafe, hne, hslash, hback]

theorem NotSmuggled.plain {s : CString} (h : NotSmuggled s) : Plain s := by
  have hahead : Ahead 0 s.bytes := fun x hx => by simp at hx
  -- every overlong sequence adds a low code unit that no ASCII byte accounts for
  have hover : tally startsOverlong s.bytes = 0 := by
    have hlen := decodeLoop_low_length hahead
    have hunits := congrArg List.length h.ascii
    rw [asciiUnits_length] at hunits
    rw [utf8ToUcs2] at hunits
    omega
  have hnowhere := tally_eq_zero.mp hover
  refine ⟨hnowhere, fun hdots => ?_⟩
  by_contra hother
  rw [not_or] at hother
  obtain ⟨-, hdot, hdotdot⟩ := h.component _ _ (safe_of_dots hdots) hother.1 hother.2
  rcases (dots_iff hnowhere).mpr hdots with he | he
  · exact hdot he
  · exact hdotdot he

-- two dots and a byte that is dropped
example : s9pCompIsSafe ⟨[46, 46, 0xFF], by decide⟩ 3 256 = true ∧
    utf8ToUcs2 ⟨[46, 46, 0xFF], by decide⟩ = [46, 46] := by
  decide

end Ucs2

end AxlSdk
