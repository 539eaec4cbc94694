import AxlSdk.Lib.Search

/-!
# Substring search (`src/data/axl-find.c`, `src/data/axl-str-bmh.c`)

One engine searches any source of bytes through an `AxlByteReader`. It scans
the source in place when the reader can show it as one block, and otherwise
reads overlapping windows; inside a window a short word is compared at every
place and a longer one is searched with a skip table.

- `Reads r D`: the reader shows the bytes `D`.
- `findForward_first`, `findBackward_last`: for any such reader the engine
  returns the first or the last place of `D` at which the word is found.
- `findInSource_matches`: that is what `axl_find_in_source` is for.
-/

namespace AxlSdk

namespace Find

open Search List

/-! ## Characters -/

/-- `axl_isdigit`. -/
def isDigit (c : UInt8) : Bool := 48 ≤ c.toNat ∧ c.toNat - 48 < 10

/-- `axl_isalpha`. -/
def isAlpha (c : UInt8) : Bool := 97 ≤ (c ||| 0x20).toNat ∧ (c ||| 0x20).toNat - 97 < 26

/-- `axl_isalnum`. -/
def isAlnum (c : UInt8) : Bool := isAlpha c || isDigit c

/-- `axl_tolower`. -/
def toLower (c : UInt8) : UInt8 := if 65 ≤ c.toNat ∧ c.toNat - 65 < 26 then c + 32 else c

/-- How bytes are compared. -/
def fold (ci : Bool) (c : UInt8) : UInt8 := if ci then toLower c else c

/-- A byte of a block; places past its end are never read. -/
def byteOf (s : List UInt8) (i : Nat) : UInt8 := s.getD i 0

/-! ## `axl-str-bmh.c` -/

/-- `axl_strncmp`, on the blocks from the two pointers on. -/
def strncmp : List UInt8 → List UInt8 → Nat → Int
  | _, _, 0 => 0
  | a, b, 1 => (a.headD 0).toNat - (b.headD 0).toNat
  | a, b, n + 2 =>
    if a.headD 0 ≠ 0 ∧ a.headD 0 = b.headD 0 then strncmp a.tail b.tail (n + 1)
    else (a.headD 0).toNat - (b.headD 0).toNat

/-- The skip table of `bmh_search` and `bmh_isearch`. -/
def skipTable (ci : Bool) (needle : List UInt8) : UInt8 → Nat :=
  (List.range (needle.length - 1)).foldl
    (fun skip k => Function.update skip (fold ci (byteOf needle k)) (needle.length - 1 - k))
    fun _ => needle.length

/-- The comparison from the end of the word backward: the place it stops at. -/
def backLoop (ci : Bool) (hay needle : List UInt8) (i : Nat) : Nat → Nat
  | 0 => 0
  | k + 1 =>
    if fold ci (byteOf hay (i + k)) = fold ci (byteOf needle k) then backLoop ci hay needle i k
    else k + 1

/-- The loop of `bmh_search` and `bmh_isearch`. -/
def bmhLoop (ci : Bool) (hay : List UInt8) (hLen : Nat) (needle : List UInt8) :
    Nat → Nat → Option Nat
  | 0, _ => none
  | fuel + 1, i =>
    let n := needle.length
    let lastN := n - 1
    if i + n ≤ hLen then
      if fold ci (byteOf hay (i + lastN)) = fold ci (byteOf needle lastN) ∧
          backLoop ci hay needle i lastN = 0 then some i
      else bmhLoop ci hay hLen needle fuel (i + skipTable ci needle (fold ci (byteOf hay (i + lastN))))
    else none

/-- `bmh_search`. -/
def bmhSearch (hay : List UInt8) (hLen : Nat) (needle : List UInt8) : Option Nat :=
  bmhLoop false hay hLen needle (hLen + 1) 0

/-- `bmh_isearch`. -/
def bmhIsearch (hay : List UInt8) (hLen : Nat) (needle : List UInt8) : Option Nat :=
  bmhLoop true hay hLen needle (hLen + 1) 0

/-- The test of the short-word path of `axl_strstr_len`, and of `axl_strrstr_len`. -/
def sameAt (hay needle : List UInt8) (i : Nat) : Bool :=
  byteOf hay i = byteOf needle 0 && strncmp (hay.drop i) needle needle.length = 0

/-- The test of the short-word path of `axl_strcasestr_len`, and of
`axl_strrcasestr_len`: the loop over `k`. -/
def sameFolded (hay needle : List UInt8) (i : Nat) : Bool :=
  (List.range needle.length).all fun k => toLower (byteOf hay (i + k)) = toLower (byteOf needle k)

/-- A loop upward over `n` places from `i` on. -/
def upLoop (test : Nat → Bool) : Nat → Nat → Option Nat
  | 0, _ => none
  | n + 1, i => if test i then some i else upLoop test n (i + 1)

/-- A loop downward from place `i`. -/
def downLoop (test : Nat → Bool) : Nat → Option Nat
  | 0 => if test 0 then some 0 else none
  | i + 1 => if test (i + 1) then some (i + 1) else downLoop test i

/-- `axl_strstr_len`, on a word without NUL and with the length of the block. -/
def strstrLen (hay : List UInt8) (hLen : Nat) (needle : List UInt8) : Option Nat :=
  let n := needle.length
  if n = 0 then some 0
  else if n > hLen then none
  else if n ≥ 4 then bmhSearch hay hLen needle
  else upLoop (sameAt hay needle) (hLen - n + 1) 0

/-- `axl_strcasestr_len`. -/
def strcasestrLen (hay : List UInt8) (hLen : Nat) (needle : List UInt8) : Option Nat :=
  let n := needle.length
  if n = 0 then some 0
  else if n > hLen then none
  else if n ≥ 4 then bmhIsearch hay hLen needle
  else upLoop (sameFolded hay needle) (hLen - n + 1) 0

/-- `axl_strrstr_len`. -/
def strrstrLen (hay : List UInt8) (hLen : Nat) (needle : List UInt8) : Option Nat :=
  let n := needle.length
  if n = 0 then some 0
  else if n > hLen then none
  else downLoop (sameAt hay needle) (hLen - n)

/-- `axl_strrcasestr_len`. -/
def strrcasestrLen (hay : List UInt8) (hLen : Nat) (needle : List UInt8) : Option Nat :=
  let n := needle.length
  if n = 0 then some 0
  else if n > hLen then none
  else downLoop (sameFolded hay needle) (hLen - n)

/-! ## `axl-find.c` -/

/-- `AxlByteReader`. `read` returns the bytes it copies; `peek` shows the memory
from the pointer it returns. -/
structure ByteReader where
  length : Nat
  read : Nat → Nat → List UInt8
  peek : Option (Nat → Nat → Option (List UInt8))

/-- `AxlMatch`. -/
structure Match where
  start : Nat
  length : Nat
  deriving DecidableEq, Repr

/-- `is_word_byte`; `none` is -1. -/
def isWordByte : Option UInt8 → Bool
  | none => false
  | some b => isAlnum b || b = 95

/-- `match_at`. -/
def matchAt (ci : Bool) (hay needle : List UInt8) (j : Nat) : Bool :=
  (List.range needle.length).all fun i =>
    byteOf hay (j + i) = byteOf needle i ||
      (ci && toLower (byteOf hay (j + i)) = toLower (byteOf needle i))

/-- `needle_has_nul`. -/
def needleHasNul (needle : List UInt8) : Bool := needle.any (· = 0)

/-- `win_first`. -/
def winFirst (ci hasNul : Bool) (needle buf : List UInt8) (got start : Nat) : Option Nat :=
  if hasNul then upLoop (matchAt ci buf needle) (got + 1 - needle.length - start) start
  else
    let hit := if ci then strcasestrLen (buf.drop start) (got - start) needle
      else strstrLen (buf.drop start) (got - start) needle
    hit.map (start + ·)

/-- `win_last`. -/
def winLast (ci hasNul : Bool) (needle buf : List UInt8) (stop : Nat) : Option Nat :=
  if needle.length > stop then none
  else if hasNul then downLoop (matchAt ci buf needle) (stop - needle.length)
  else if ci then strrcasestrLen buf stop needle
  else strrstrLen buf stop needle

/-- `reader_byte_at`. -/
def readerByteAt (r : ByteReader) (off : Nat) : Option UInt8 :=
  match r.read off 1 with
  | [c] => some c
  | _ => none

/-- `word_ok`. -/
def wordOk (r : ByteReader) (s m : Nat) : Bool :=
  let before := if s > 0 then readerByteAt r (s - 1) else none
  let after := readerByteAt r (s + m)
  !isWordByte before && !isWordByte after

/-- The inner loop of `find_forward` over one block that starts at `pos`. -/
def firstLoop (r : ByteReader) (ci ww hasNul : Bool) (needle buf : List UInt8) (got pos : Nat) :
    Nat → Nat → Option Nat
  | 0, _ => none
  | fuel + 1, start =>
    match winFirst ci hasNul needle buf got start with
    | none => none
    | some i =>
      if !ww || wordOk r (pos + i) needle.length then some (pos + i)
      else firstLoop r ci ww hasNul needle buf got pos fuel (i + 1)

/-- `FIND_STEP`. -/
def findStep : Nat := 4096

/-- The window loop of `find_forward`. -/
def forwardLoop (r : ByteReader) (L : Nat) (ci ww hasNul : Bool) (needle : List UInt8) :
    Nat → Nat → Option Nat
  | 0, _ => none
  | fuel + 1, pos =>
    let m := needle.length
    let cap := m - 1 + findStep
    if pos ≤ L - m then
      let want := if L - pos < cap then L - pos else cap
      let buf := r.read pos want
      let got := buf.length
      if got < m then none
      else
        match firstLoop r ci ww hasNul needle buf got pos (got + 1) 0 with
        | some s => some s
        | none =>
          if got < want then none
          else forwardLoop r L ci ww hasNul needle fuel (pos + (got - (m - 1)))
    else none

/-- `find_forward`. -/
def findForward (r : ByteReader) (L : Nat) (ci ww hasNul : Bool) (needle : List UInt8)
    (start : Nat) : Option Nat :=
  if start > L - needle.length then none
  else
    match r.peek.bind fun peek => peek start (L - start) with
    | some cbuf => firstLoop r ci ww hasNul needle cbuf (L - start) start (L - start + 1) 0
    | none => forwardLoop r L ci ww hasNul needle (L + 1) start

/-- The inner loop of `find_backward` over one block that starts at `pos`. -/
def lastLoop (r : ByteReader) (ci ww hasNul : Bool) (needle buf : List UInt8) (pos : Nat) :
    Nat → Nat → Option Nat
  | 0, _ => none
  | fuel + 1, stop =>
    match winLast ci hasNul needle buf stop with
    | none => none
    | some i =>
      if !ww || wordOk r (pos + i) needle.length then some (pos + i)
      else if i = 0 then none
      else lastLoop r ci ww hasNul needle buf pos fuel (i + needle.length - 1)

/-- The window loop of `find_backward`; `hi` is the highest start to test. -/
def backwardLoop (r : ByteReader) (hi : Nat) (ci ww hasNul : Bool) (needle : List UInt8) :
    Nat → Nat → Option Nat
  | 0, _ => none
  | fuel + 1, curEnd =>
    let m := needle.length
    let cap := m - 1 + findStep
    if curEnd ≥ m then
      let winpos := if curEnd > cap then curEnd - cap else 0
      let buf := r.read winpos (curEnd - winpos)
      let got := buf.length
      let found :=
        if got ≥ m then
          let stop := if winpos + (got - m) > hi then hi - winpos + m else got
          lastLoop r ci ww hasNul needle buf winpos (stop + 1) stop
        else none
      match found with
      | some s => some s
      | none =>
        if winpos = 0 then none
        else backwardLoop r hi ci ww hasNul needle fuel (winpos + (m - 1))
    else none

/-- `find_backward`. -/
def findBackward (r : ByteReader) (L : Nat) (ci ww hasNul : Bool) (needle : List UInt8)
    (start : Nat) : Option Nat :=
  let hi := if start > L - needle.length then L - needle.length else start
  match r.peek.bind fun peek => peek 0 (hi + needle.length) with
  | some cbuf => lastLoop r ci ww hasNul needle cbuf 0 (hi + needle.length + 1) (hi + needle.length)
  | none => backwardLoop r hi ci ww hasNul needle (hi + needle.length + 1) (hi + needle.length)

/-- `axl_find_in_source`, with the memory it asks for. -/
def findInSource (r : ByteReader) (needle : List UInt8) (start : Nat) (flags : UInt32) :
    Option Match :=
  let m := needle.length
  let L := r.length
  if m = 0 ∨ m > L then none
  else
    let ci := flags &&& 1 ≠ 0
    let ww := flags &&& 4 ≠ 0
    let hasNul := needleHasNul needle
    let found :=
      if flags &&& 2 ≠ 0 then findBackward r L ci ww hasNul needle start
      else findForward r L ci ww hasNul needle start
    found.map fun s => ⟨s, m⟩

/-! ## Inside a block -/

/-- The word stands in the block at `s`, as `ci` compares bytes. -/
def Occ (ci : Bool) (hay needle : List UInt8) (s : Nat) : Prop :=
  Occurs (fun j => fold ci (byteOf hay j)) (fun j => fold ci (byteOf needle j)) needle.length s

theorem byteOf_drop (s : List UInt8) (i j : Nat) : byteOf (s.drop i) j = byteOf s (i + j) := by
  simp [byteOf, getD_eq_getElem?_getD]

theorem headD_eq_byteOf (s : List UInt8) : s.headD 0 = byteOf s 0 := by
  cases s <;> simp [byteOf]

theorem byteOf_tail (s : List UInt8) (j : Nat) : byteOf s.tail j = byteOf s (j + 1) := by
  cases s <;> simp [byteOf]

theorem toNat_sub_eq_zero {a b : UInt8} : ((a.toNat : Int) - b.toNat = 0) ↔ a = b := by
  rw [Int.sub_eq_zero, Int.ofNat_inj, UInt8.toNat_inj]

/-- `axl_strncmp` compares all `n` bytes of a word without NUL. -/
theorem strncmp_eq_zero {a b : List UInt8} {n : Nat} (hnul : ∀ k < n, byteOf b k ≠ 0) :
    strncmp a b n = 0 ↔ ∀ k < n, byteOf a k = byteOf b k := by
  induction n generalizing a b with
  | zero => simp [strncmp]
  | succ n ih =>
    cases n with
    | zero =>
      rw [strncmp, headD_eq_byteOf, headD_eq_byteOf, toNat_sub_eq_zero]
      constructor
      · intro h k hk
        obtain rfl : k = 0 := by omega
        exact h
      · exact fun h => h 0 (by omega)
    | succ n =>
      rw [strncmp, headD_eq_byteOf, headD_eq_byteOf]
      have hstep : (∀ k < n + 2, byteOf a k = byteOf b k) ↔
          byteOf a 0 = byteOf b 0 ∧ ∀ k < n + 1, byteOf a (k + 1) = byteOf b (k + 1) := by
        constructor
        · exact fun h => ⟨h 0 (by omega), fun k hk => h (k + 1) (by omega)⟩
        · rintro ⟨h₀, h⟩ (_ | k) hk
          · exact h₀
          · exact h k (by omega)
      rw [hstep]
      split
      · rename_i hsame
        rw [ih]
        · simp only [byteOf_tail, hsame.2, true_and]
        · intro k hk
          rw [byteOf_tail]
          exact hnul (k + 1) (by omega)
      · rename_i hne
        rw [toNat_sub_eq_zero]
        constructor
        · intro heq
          have := hnul 0 (by omega)
          exact absurd ⟨heq ▸ this, heq⟩ hne
        · rintro ⟨h₀, -⟩
          exact h₀

theorem no_nul {needle : List UInt8} (h : needleHasNul needle = false) {k : Nat}
    (hk : k < needle.length) : byteOf needle k ≠ 0 := by
  rw [needleHasNul, any_eq_false] at h
  have := h (byteOf needle k) (by
    rw [byteOf, getD_eq_getElem _ _ hk]
    exact getElem_mem hk)
  simpa using this

theorem sameAt_iff {hay needle : List UInt8} (hnul : needleHasNul needle = false)
    (hpos : 0 < needle.length) (i : Nat) :
    sameAt hay needle i = true ↔ Occ false hay needle i := by
  have hcmp := @strncmp_eq_zero (hay.drop i) needle needle.length fun k hk => no_nul hnul hk
  simp only [sameAt, Bool.and_eq_true, decide_eq_true_eq, hcmp, byteOf_drop]
  constructor
  · rintro ⟨-, h⟩ k hk
    exact h k hk
  · intro h
    exact ⟨h 0 hpos, h⟩

theorem sameFolded_iff {hay needle : List UInt8} (i : Nat) :
    sameFolded hay needle i = true ↔ Occ true hay needle i := by
  simp only [sameFolded, all_eq_true, mem_range, decide_eq_true_eq]
  rfl

theorem matchAt_iff {ci : Bool} {hay needle : List UInt8} (j : Nat) :
    matchAt ci hay needle j = true ↔ Occ ci hay needle j := by
  simp only [matchAt, all_eq_true, mem_range, Bool.or_eq_true, Bool.and_eq_true,
    decide_eq_true_eq]
  cases ci with
  | false =>
    simp only [Bool.false_eq_true, false_and, or_false]
    rfl
  | true =>
    constructor
    · intro h k hk
      rcases h k hk with heq | ⟨-, heq⟩
      · exact congrArg toLower heq
      · exact heq
    · exact fun h k hk => .inr ⟨rfl, h k hk⟩

theorem upLoop_first {test : Nat → Bool} {p : Nat → Prop} {n i : Nat}
    (htest : ∀ s, test s = true ↔ p s) : IsFirst (fun s => s < i + n ∧ p s) i (upLoop test n i) := by
  induction n generalizing i with
  | zero => exact fun t ht h => absurd h.1 (by omega)
  | succ n ih =>
    rw [upLoop]
    split
    · rename_i hi
      exact ⟨Nat.le_refl _, ⟨by omega, (htest i).mp hi⟩, fun t ht hlt => absurd hlt (by omega)⟩
    · rename_i hi
      have := @ih (i + 1)
      rw [Nat.add_right_comm] at this
      refine this.extend (by omega) fun t ht hlt => ?_
      obtain rfl : t = i := by omega
      exact fun h => hi ((htest t).mpr h.2)

theorem downLoop_last {test : Nat → Bool} {p : Nat → Prop} (htest : ∀ s, test s = true ↔ p s)
    (i : Nat) : IsLast p i (downLoop test i) := by
  induction i with
  | zero =>
    rw [downLoop]
    split
    · rename_i h
      exact ⟨Nat.le_refl _, (htest 0).mp h, fun t ht hle => absurd hle (by omega)⟩
    · rename_i h
      intro t ht
      obtain rfl : t = 0 := by omega
      exact fun hp => h ((htest 0).mpr hp)
  | succ i ih =>
    rw [downLoop]
    split
    · rename_i h
      exact ⟨Nat.le_refl _, (htest _).mp h, fun t ht hle => absurd hle (by omega)⟩
    · rename_i h
      refine ih.extend (by omega) fun t ht hle => ?_
      obtain rfl : t = i + 1 := by omega
      exact fun hp => h ((htest _).mpr hp)

/-! ### The skip table -/

theorem backLoop_eq_zero {ci : Bool} {hay needle : List UInt8} {i k : Nat} :
    backLoop ci hay needle i k = 0 ↔
      ∀ j < k, fold ci (byteOf hay (i + j)) = fold ci (byteOf needle j) := by
  induction k with
  | zero => simp [backLoop]
  | succ k ih =>
    rw [backLoop]
    split
    · rename_i h
      rw [ih]
      constructor
      · intro hall j hj
        rcases Nat.lt_or_ge j k with hlt | hge
        · exact hall j hlt
        · obtain rfl : j = k := by omega
          exact h
      · exact fun hall j hj => hall j (by omega)
    · rename_i h
      constructor
      · intro hk
        omega
      · exact fun hall => absurd (hall k (by omega)) h

/-- After the first `j` writes to the table, an entry is the distance of some
letter from the end of the word, or the length of the word, and no letter read
so far is nearer to the end. -/
theorem skipTable_spec (ci : Bool) (needle : List UInt8) (hpos : 0 < needle.length) (c : UInt8) :
    0 < skipTable ci needle c ∧ skipTable ci needle c ≤ needle.length ∧
      ∀ k, k + 1 < needle.length → fold ci (byteOf needle k) = c →
        skipTable ci needle c ≤ needle.length - 1 - k := by
  have hloop : ∀ j, j ≤ needle.length - 1 →
      ∀ skip, skip = (List.range j).foldl
        (fun skip k => Function.update skip (fold ci (byteOf needle k)) (needle.length - 1 - k))
        (fun _ => needle.length) →
      0 < skip c ∧ skip c ≤ needle.length ∧
        ∀ k, k < j → fold ci (byteOf needle k) = c → skip c ≤ needle.length - 1 - k := by
    intro j
    induction j with
    | zero =>
      rintro - skip rfl
      exact ⟨hpos, Nat.le_refl _, fun k hk => absurd hk (by omega)⟩
    | succ j ih =>
      rintro hj skip rfl
      rw [range_succ, foldl_append]
      obtain ⟨h₁, h₂, h₃⟩ := ih (by omega) _ rfl
      simp only [foldl_cons, foldl_nil]
      by_cases hc : c = fold ci (byteOf needle j)
      · subst hc
        rw [Function.update_self]
        exact ⟨by omega, by omega, fun k hk _ => by omega⟩
      · rw [Function.update_of_ne hc]
        refine ⟨h₁, h₂, fun k hk hkc => ?_⟩
        rcases Nat.lt_or_ge k j with hlt | hge
        · exact h₃ k hlt hkc
        · obtain rfl : k = j := by omega
          exact absurd hkc.symm hc
  obtain ⟨h₁, h₂, h₃⟩ := hloop (needle.length - 1) (Nat.le_refl _) _ rfl
  exact ⟨h₁, h₂, fun k hk => h₃ k (by omega)⟩

theorem bmhLoop_first {ci : Bool} {hay needle : List UInt8} {hLen fuel i : Nat}
    (hpos : 0 < needle.length) (hfuel : hLen + 1 ≤ fuel + i) :
    IsFirst (fun s => s + needle.length ≤ hLen ∧ Occ ci hay needle s) i
      (bmhLoop ci hay hLen needle fuel i) := by
  induction fuel generalizing i with
  | zero => exact fun t ht h => absurd h.1 (by omega)
  | succ fuel ih =>
    rw [bmhLoop]
    split
    · rename_i hfit
      split
      · rename_i heq
        obtain ⟨hlast, hback⟩ := heq
        rw [backLoop_eq_zero] at hback
        refine ⟨Nat.le_refl _, ⟨hfit, fun k hk => ?_⟩, fun t ht hlt => absurd hlt (by omega)⟩
        rcases Nat.lt_or_ge k (needle.length - 1) with hlt | hge
        · exact hback k hlt
        · obtain rfl : k = needle.length - 1 := by omega
          exact hlast
      · rename_i hne
        obtain ⟨h₁, h₂, h₃⟩ :=
          skipTable_spec ci needle hpos (fold ci (byteOf hay (i + (needle.length - 1))))
        refine (ih (by omega)).extend (by omega) fun t ht hlt hocc => ?_
        rcases Nat.eq_or_lt_of_le ht with rfl | hit
        · -- the word does not stand at `i` itself
          refine hne ⟨hocc.2 (needle.length - 1) (by omega), ?_⟩
          rw [backLoop_eq_zero]
          exact fun k hk => hocc.2 k (by omega)
        · obtain ⟨d, rfl⟩ := Nat.exists_eq_add_of_le ht
          exact not_occurs_of_shift h₂ h₃ (by omega) (by omega) hocc.2
    · rename_i hfit
      exact fun t ht h => absurd h.1 (by omega)

/-! ### One block -/

theorem occ_drop {ci : Bool} {hay needle : List UInt8} {i s : Nat} :
    Occ ci (hay.drop i) needle s ↔ Occ ci hay needle (i + s) := by
  simp only [Occ, Occurs, byteOf_drop, Nat.add_assoc]

theorem upLoop_block {test : Nat → Bool} {p : Nat → Prop} {m got start : Nat} (hm : 0 < m)
    (htest : ∀ s, test s = true ↔ p s) :
    IsFirst (fun s => s + m ≤ got ∧ p s) start (upLoop test (got + 1 - m - start) start) := by
  have h := @upLoop_first test p (got + 1 - m - start) start htest
  have heq : ∀ t, start ≤ t → (t < start + (got + 1 - m - start) ↔ t + m ≤ got) := by
    intro t ht
    omega
  cases hr : upLoop test (got + 1 - m - start) start with
  | none =>
    rw [hr] at h
    exact fun t ht hp => h t ht ⟨(heq t ht).mpr hp.1, hp.2⟩
  | some s =>
    rw [hr] at h
    obtain ⟨hs, hp, hbefore⟩ := h
    exact ⟨hs, ⟨(heq s hs).mp hp.1, hp.2⟩,
      fun t ht hts hp' => hbefore t ht hts ⟨(heq t ht).mpr hp'.1, hp'.2⟩⟩

/-- The two forward searches agree with their common description. -/
theorem strstr_first {ci : Bool} {hay needle : List UInt8} (hLen : Nat)
    (hnul : needleHasNul needle = false) (hpos : 0 < needle.length) :
    IsFirst (fun s => s + needle.length ≤ hLen ∧ Occ ci hay needle s) 0
      (if ci then strcasestrLen hay hLen needle else strstrLen hay hLen needle) := by
  have hshort : ∀ test, (∀ s, test s = true ↔ Occ ci hay needle s) → needle.length ≤ hLen →
      IsFirst (fun s => s + needle.length ≤ hLen ∧ Occ ci hay needle s) 0
        (upLoop test (hLen - needle.length + 1) 0) := by
    intro test htest hle
    have h := @upLoop_block test (Occ ci hay needle) needle.length hLen 0 hpos htest
    have hcount : hLen + 1 - needle.length - 0 = hLen - needle.length + 1 := by omega
    rwa [hcount] at h
  cases ci with
  | false =>
    simp only [Bool.false_eq_true, if_false, strstrLen]
    rw [if_neg (by omega)]
    split
    · exact fun t ht h => absurd h.1 (by omega)
    · split
      · exact bmhLoop_first hpos (by omega)
      · exact hshort _ (sameAt_iff hnul hpos) (by omega)
  | true =>
    simp only [if_true, strcasestrLen]
    rw [if_neg (by omega)]
    split
    · exact fun t ht h => absurd h.1 (by omega)
    · split
      · exact bmhLoop_first hpos (by omega)
      · exact hshort _ sameFolded_iff (by omega)

theorem winFirst_first {ci : Bool} {needle buf : List UInt8} {got start : Nat}
    (hpos : 0 < needle.length) :
    IsFirst (fun s => s + needle.length ≤ got ∧ Occ ci buf needle s) start
      (winFirst ci (needleHasNul needle) needle buf got start) := by
  unfold winFirst
  split
  · exact upLoop_block hpos matchAt_iff
  · rename_i hnul
    have h := @strstr_first ci (buf.drop start) needle (got - start) (by simpa using hnul) hpos
    dsimp only
    generalize (if ci then strcasestrLen (buf.drop start) (got - start) needle
      else strstrLen (buf.drop start) (got - start) needle) = hit at h
    -- the search starts at the pointer `buf + start`
    have hback : ∀ t, start ≤ t → t + needle.length ≤ got ∧ Occ ci buf needle t →
        (t - start) + needle.length ≤ got - start ∧
          Occ ci (buf.drop start) needle (t - start) := by
      intro t ht hp
      rw [occ_drop, Nat.add_sub_cancel' ht]
      exact ⟨by omega, hp.2⟩
    cases hit with
    | none => exact fun t ht hp => h (t - start) (by omega) (hback t ht hp)
    | some i =>
      obtain ⟨-, hp, hbefore⟩ := h
      show IsFirst _ start (some (start + i))
      refine ⟨by omega, ⟨by omega, occ_drop.mp hp.2⟩, fun t ht hts hp' => ?_⟩
      exact hbefore (t - start) (by omega) (by omega) (hback t ht hp')

theorem winLast_last {ci : Bool} {needle buf : List UInt8} {stop : Nat}
    (hpos : 0 < needle.length) (hle : needle.length ≤ stop) :
    IsLast (Occ ci buf needle) (stop - needle.length)
      (winLast ci (needleHasNul needle) needle buf stop) := by
  unfold winLast
  rw [if_neg (by omega)]
  split
  · exact downLoop_last matchAt_iff _
  · rename_i hnul
    cases ci with
    | false =>
      simp only [Bool.false_eq_true, if_false, strrstrLen]
      rw [if_neg (by omega), if_neg (by omega)]
      exact downLoop_last (sameAt_iff (by simpa using hnul) hpos) _
    | true =>
      simp only [if_true, strrcasestrLen]
      rw [if_neg (by omega), if_neg (by omega)]
      exact downLoop_last sameFolded_iff _

/-! ## Over a source -/

/-- The reader shows the bytes `D`. -/
structure Reads (r : ByteReader) (D : List UInt8) : Prop where
  length : r.length = D.length
  read : ∀ o n, r.read o n = (D.drop o).take n
  peek : ∀ peek, r.peek = some peek → ∀ o n buf, o + n ≤ D.length → peek o n = some buf →
    ∀ j < n, byteOf buf j = byteOf D (o + j)

/-- No word byte stands next to `[s, s + m)`. -/
def WordAt (D : List UInt8) (s m : Nat) : Prop :=
  isWordByte (if s > 0 then D[s - 1]? else none) = false ∧ isWordByte D[s + m]? = false

/-- The word is found at `s`. -/
def Hit (D needle : List UInt8) (ci ww : Bool) (s : Nat) : Prop :=
  s + needle.length ≤ D.length ∧ Occ ci D needle s ∧ (ww = true → WordAt D s needle.length)

section Source

variable {r : ByteReader} {D needle : List UInt8} {ci ww : Bool}

theorem Reads.byteAt (h : Reads r D) (off : Nat) : readerByteAt r off = D[off]? := by
  rw [readerByteAt, h.read]
  rcases Nat.lt_or_ge off D.length with hlt | hge
  · rw [drop_eq_getElem_cons hlt, take_succ_cons, take_zero,
      getElem?_eq_getElem hlt]
  · rw [drop_of_length_le hge, getElem?_eq_none hge]
    rfl

theorem Reads.wordOk (h : Reads r D) (s m : Nat) : wordOk r s m = true ↔ WordAt D s m := by
  simp only [Find.wordOk, h.byteAt, Bool.and_eq_true, Bool.not_eq_true', WordAt]

/-- The block `buf` shows `got` bytes of `D` from `pos` on. -/
structure Window (D buf : List UInt8) (pos got : Nat) : Prop where
  bound : pos + got ≤ D.length
  bytes : ∀ j < got, byteOf buf j = byteOf D (pos + j)

theorem Window.occ {buf : List UInt8} {pos got i : Nat} (h : Window D buf pos got)
    (hi : i + needle.length ≤ got) : Occ ci buf needle i ↔ Occ ci D needle (pos + i) := by
  have heq : ∀ k < needle.length, byteOf buf (i + k) = byteOf D (pos + i + k) := by
    intro k hk
    rw [h.bytes (i + k) (by omega), Nat.add_assoc]
  constructor
  · intro hocc k hk
    exact (congrArg (fold ci) (heq k hk)).symm.trans (hocc k hk)
  · intro hocc k hk
    exact (congrArg (fold ci) (heq k hk)).trans (hocc k hk)

theorem Reads.window_read (h : Reads r D) {pos want : Nat} (hle : pos + want ≤ D.length) :
    (r.read pos want).length = want ∧ Window D (r.read pos want) pos want := by
  have hlen : (r.read pos want).length = want := by
    rw [h.read, length_take, length_drop]
    omega
  refine ⟨hlen, hle, fun j hj => ?_⟩
  rw [h.read, byteOf, byteOf, getD_eq_getElem?_getD, getD_eq_getElem?_getD,
    getElem?_take_of_lt hj, getElem?_drop]

/-- The inner loop of the forward search finds the first place inside the block. -/
theorem firstLoop_first (h : Reads r D) {buf : List UInt8} {got pos fuel start : Nat}
    (hw : Window D buf pos got) (hpos : 0 < needle.length) (hfuel : got + 1 ≤ fuel + start) :
    IsFirst (fun s => s + needle.length ≤ pos + got ∧ Hit D needle ci ww s) (pos + start)
      (firstLoop r ci ww (needleHasNul needle) needle buf got pos fuel start) := by
  induction fuel generalizing start with
  | zero => exact fun t ht hp => absurd hp.1 (by omega)
  | succ fuel ih =>
    rw [firstLoop]
    have hfirst := @winFirst_first ci needle buf got start hpos
    -- a place of the source is a place of the block
    have hplace : ∀ t, pos + start ≤ t → t + needle.length ≤ pos + got →
        Hit D needle ci ww t → (t - pos) + needle.length ≤ got ∧ Occ ci buf needle (t - pos) := by
      intro t ht hle hhit
      refine ⟨by omega, ?_⟩
      rw [hw.occ (by omega), Nat.add_sub_cancel' (by omega)]
      exact hhit.2.1
    cases hr : winFirst ci (needleHasNul needle) needle buf got start with
    | none =>
      rw [hr] at hfirst
      exact fun t ht hp => hfirst (t - pos) (by omega) (hplace t ht hp.1 hp.2)
    | some i =>
      rw [hr] at hfirst
      obtain ⟨hstart, ⟨hfit, hocc⟩, hbefore⟩ := hfirst
      have hno : ∀ t, pos + start ≤ t → t < pos + i →
          ¬ (t + needle.length ≤ pos + got ∧ Hit D needle ci ww t) := by
        intro t ht hlt hp
        exact hbefore (t - pos) (by omega) (by omega) (hplace t ht hp.1 hp.2)
      have hbound := hw.bound
      dsimp only
      split
      · rename_i hok
        refine ⟨by omega, ⟨by omega, by omega, (hw.occ hfit).mp hocc, fun hww => ?_⟩, hno⟩
        rw [hww] at hok
        exact (h.wordOk _ _).mp (by simpa using hok)
      · rename_i hok
        refine (ih (by omega)).extend (by omega) fun t ht hlt hp => ?_
        rcases Nat.lt_or_ge t (pos + i) with hti | hti
        · exact hno t ht hti hp
        · obtain rfl : t = pos + i := by omega
          simp only [Bool.or_eq_true, Bool.not_eq_true', not_or, Bool.not_eq_false] at hok
          exact hok.2 ((h.wordOk _ _).mpr (hp.2.2.2 hok.1))

/-- Each window starts where the word would not fit into the one before. -/
theorem forwardLoop_first (h : Reads r D) {fuel pos : Nat} (hpos : 0 < needle.length)
    (hm : needle.length ≤ D.length) (hfuel : D.length + 1 ≤ fuel + pos) :
    IsFirst (Hit D needle ci ww) pos
      (forwardLoop r D.length ci ww (needleHasNul needle) needle fuel pos) := by
  induction fuel generalizing pos with
  | zero => exact fun t ht hp => absurd hp.1 (by omega)
  | succ fuel ih =>
    rw [forwardLoop]
    split
    · rename_i hle
      obtain ⟨want, hwant⟩ : ∃ want, want = if D.length - pos < needle.length - 1 + findStep
          then D.length - pos else needle.length - 1 + findStep := ⟨_, rfl⟩
      have hstep : findStep = 4096 := rfl
      have hbounds : needle.length ≤ want ∧ pos + want ≤ D.length := by
        rw [hwant]
        split <;> omega
      obtain ⟨hlen, hwin⟩ := h.window_read hbounds.2
      dsimp only
      rw [← hwant, hlen, if_neg (by omega)]
      have hfirst := @firstLoop_first r D needle ci ww h _ _ _ (want + 1) 0 hwin hpos (by omega)
      rw [Nat.add_zero] at hfirst
      cases hr : firstLoop r ci ww (needleHasNul needle) needle (r.read pos want) want pos
          (want + 1) 0 with
      | some s =>
        rw [hr] at hfirst
        obtain ⟨hs, ⟨hfit, hhit⟩, hbefore⟩ := hfirst
        exact ⟨hs, hhit, fun t ht hts hp => hbefore t ht hts ⟨by omega, hp⟩⟩
      | none =>
        rw [hr] at hfirst
        rw [if_neg (by omega)]
        refine (ih (by omega)).extend (by omega) fun t ht hlt hp => ?_
        exact hfirst t ht ⟨by omega, hp⟩
    · rename_i hgt
      exact fun t ht hp => absurd hp.1 (by omega)

theorem findForward_first (h : Reads r D) (hpos : 0 < needle.length)
    (hm : needle.length ≤ D.length) (start : Nat) :
    IsFirst (Hit D needle ci ww) start
      (findForward r D.length ci ww (needleHasNul needle) needle start) := by
  unfold findForward
  split
  · exact fun t ht hp => absurd hp.1 (by omega)
  · rename_i hle
    split
    · rename_i cbuf hpeek
      obtain ⟨peek, hr, hpeek⟩ := Option.bind_eq_some_iff.mp hpeek
      have hwin : Window D cbuf start (D.length - start) :=
        ⟨by omega, h.peek peek hr _ _ _ (by omega) hpeek⟩
      have hfirst := @firstLoop_first r D needle ci ww h _ _ _ (D.length - start + 1) 0 hwin hpos
        (by omega)
      rw [Nat.add_zero] at hfirst
      generalize firstLoop r ci ww (needleHasNul needle) needle cbuf (D.length - start) start
        (D.length - start + 1) 0 = res at hfirst
      cases res with
      | none => exact fun t ht hp => hfirst t ht ⟨by have := hp.1; omega, hp⟩
      | some s =>
        obtain ⟨hs, hp, hbefore⟩ := hfirst
        exact ⟨hs, hp.2, fun t ht hts hp' => hbefore t ht hts ⟨by have := hp'.1; omega, hp'⟩⟩
    · exact forwardLoop_first h hpos hm (by omega)

/-- The inner loop of the backward search finds the last place inside the block. -/
theorem lastLoop_last (h : Reads r D) {buf : List UInt8} {got pos fuel stop : Nat}
    (hw : Window D buf pos got) (hpos : 0 < needle.length) (hle : needle.length ≤ stop)
    (hstop : stop ≤ got) (hfuel : stop + 1 ≤ fuel + needle.length) :
    IsLast (fun s => pos ≤ s ∧ Hit D needle ci ww s) (pos + (stop - needle.length))
      (lastLoop r ci ww (needleHasNul needle) needle buf pos fuel stop) := by
  induction fuel generalizing stop with
  | zero => omega
  | succ fuel ih =>
    rw [lastLoop]
    have hlast := @winLast_last ci needle buf stop hpos hle
    have hplace : ∀ t, t ≤ pos + (stop - needle.length) → pos ≤ t → Hit D needle ci ww t →
        Occ ci buf needle (t - pos) := by
      intro t ht hge hhit
      rw [hw.occ (by omega), Nat.add_sub_cancel' hge]
      exact hhit.2.1
    cases hr : winLast ci (needleHasNul needle) needle buf stop with
    | none =>
      rw [hr] at hlast
      exact fun t ht hp => hlast (t - pos) (by omega) (hplace t ht hp.1 hp.2)
    | some i =>
      rw [hr] at hlast
      obtain ⟨hi, hocc, hafter⟩ := hlast
      have hno : ∀ t, pos + i < t → t ≤ pos + (stop - needle.length) →
          ¬ (pos ≤ t ∧ Hit D needle ci ww t) := by
        intro t hlt ht hp
        exact hafter (t - pos) (by omega) (by omega) (hplace t ht hp.1 hp.2)
      have hbound := hw.bound
      dsimp only
      split
      · rename_i hok
        refine ⟨by omega, ⟨by omega, by omega, (hw.occ (by omega)).mp hocc, fun hww => ?_⟩, hno⟩
        rw [hww] at hok
        exact (h.wordOk _ _).mp (by simpa using hok)
      · rename_i hok
        have hnot : ¬ Hit D needle ci ww (pos + i) := by
          intro hp
          simp only [Bool.or_eq_true, Bool.not_eq_true', not_or, Bool.not_eq_false] at hok
          exact hok.2 ((h.wordOk _ _).mpr (hp.2.2 hok.1))
        split
        · rename_i hzero
          subst hzero
          intro t ht hp
          rcases Nat.eq_or_lt_of_le hp.1 with rfl | hlt
          · exact hnot hp.2
          · exact hno t (by omega) ht hp
        · rename_i hne
          refine (ih (by omega) (by omega) (by omega)).extend (by omega) fun t hlt ht hp => ?_
          rcases Nat.lt_or_ge (pos + i) t with hti | hti
          · exact hno t hti ht hp
          · obtain rfl : t = pos + i := by omega
            exact hnot hp.2

/-- Each window ends where the word would not fit into the one after it. -/
theorem backwardLoop_last (h : Reads r D) {fuel hi curEnd : Nat} (hpos : 0 < needle.length)
    (hend : curEnd ≤ hi + needle.length) (hbound : hi + needle.length ≤ D.length)
    (hle : needle.length ≤ curEnd) (hfuel : curEnd + 1 ≤ fuel + needle.length) :
    IsLast (Hit D needle ci ww) (curEnd - needle.length)
      (backwardLoop r hi ci ww (needleHasNul needle) needle fuel curEnd) := by
  induction fuel generalizing curEnd with
  | zero => omega
  | succ fuel ih =>
    rw [backwardLoop]
    dsimp only
    rw [if_pos hle]
    obtain ⟨winpos, hwinpos⟩ : ∃ winpos, winpos = if curEnd > needle.length - 1 + findStep
        then curEnd - (needle.length - 1 + findStep) else 0 := ⟨_, rfl⟩
    have hstep : findStep = 4096 := rfl
    have hbounds : winpos + needle.length ≤ curEnd := by
      rw [hwinpos]
      split <;> omega
    obtain ⟨hlen, hwin⟩ := h.window_read (show winpos + (curEnd - winpos) ≤ D.length by omega)
    rw [← hwinpos, hlen, if_pos (by omega), if_neg (by omega)]
    have hlast := @lastLoop_last r D needle ci ww h _ _ _ (curEnd - winpos + 1) _ hwin hpos
      (by omega) (Nat.le_refl _) (by omega)
    have htop : winpos + (curEnd - winpos - needle.length) = curEnd - needle.length := by omega
    rw [htop] at hlast
    cases hr : lastLoop r ci ww (needleHasNul needle) needle (r.read winpos (curEnd - winpos))
        winpos (curEnd - winpos + 1) (curEnd - winpos) with
    | some s =>
      rw [hr] at hlast
      obtain ⟨hs, ⟨hge, hhit⟩, hafter⟩ := hlast
      exact ⟨hs, hhit, fun t ht hts hp => hafter t ht hts ⟨by omega, hp⟩⟩
    | none =>
      rw [hr] at hlast
      dsimp only
      split
      · rename_i hzero
        exact fun t ht hp => hlast t ht ⟨by omega, hp⟩
      · rename_i hne
        refine (ih (by omega) (by omega) (by omega)).extend (by omega) fun t hlt ht hp => ?_
        exact hlast t ht ⟨by omega, hp⟩

theorem findBackward_last (h : Reads r D) (hpos : 0 < needle.length)
    (hm : needle.length ≤ D.length) (start : Nat) :
    IsLast (Hit D needle ci ww) (min start (D.length - needle.length))
      (findBackward r D.length ci ww (needleHasNul needle) needle start) := by
  unfold findBackward
  obtain ⟨hi, hhi⟩ : ∃ hi, hi = min start (D.length - needle.length) := ⟨_, rfl⟩
  have hif : (if start > D.length - needle.length then D.length - needle.length else start) = hi := by
    rw [hhi]
    split <;> omega
  dsimp only
  rw [hif, ← hhi]
  have hsub : hi + needle.length - needle.length = hi := by omega
  split
  · rename_i cbuf hpeek
    obtain ⟨peek, hr, hpeek⟩ := Option.bind_eq_some_iff.mp hpeek
    have hwin : Window D cbuf 0 (hi + needle.length) :=
      ⟨by omega, h.peek peek hr _ _ _ (by omega) hpeek⟩
    have hlast := @lastLoop_last r D needle ci ww h _ _ _ (hi + needle.length + 1) _ hwin hpos
      (by omega) (Nat.le_refl _) (by omega)
    rw [hsub, Nat.zero_add] at hlast
    generalize lastLoop r ci ww (needleHasNul needle) needle cbuf 0 (hi + needle.length + 1)
      (hi + needle.length) = res at hlast
    cases res with
    | none => exact fun t ht hp => hlast t ht ⟨by omega, hp⟩
    | some s =>
      obtain ⟨hs, hp, hafter⟩ := hlast
      exact ⟨hs, hp.2, fun t ht hts hp' => hafter t ht hts ⟨by omega, hp'⟩⟩
  · have hlast := @backwardLoop_last r D needle ci ww h (hi + needle.length + 1) hi
      (hi + needle.length) hpos (Nat.le_refl _) (by omega) (by omega) (by omega)
    rwa [hsub] at hlast

end Source

/-- The engine sees only the bytes: two readers of one text give one answer. -/
theorem findInSource_eq {r r' : ByteReader} {D : List UInt8} (h : Reads r D) (h' : Reads r' D)
    (needle : List UInt8) (start : Nat) (flags : UInt32) :
    findInSource r needle start flags = findInSource r' needle start flags := by
  unfold findInSource
  rw [h.length, h'.length]
  dsimp only
  split
  · rfl
  · rename_i hlen
    rw [not_or] at hlen
    have hpos : 0 < needle.length := Nat.pos_of_ne_zero hlen.1
    have hm : needle.length ≤ D.length := by omega
    split
    · rw [IsLast.unique (findBackward_last h hpos hm start) (findBackward_last h' hpos hm start)]
    · rw [IsFirst.unique (findForward_first h hpos hm start) (findForward_first h' hpos hm start)]

/-! ## What the engine finds -/

/-- The built-in reader of a block: `mem_length`, `mem_read` and `mem_peek`. -/
def memReader (data : List UInt8) : ByteReader where
  length := data.length
  read o n := if o ≥ data.length then [] else (data.drop o).take n
  peek := some fun o n =>
    if n ≤ data.length ∧ o ≤ data.length - n then some (data.drop o) else none

theorem reads_memReader (data : List UInt8) : Reads (memReader data) data := by
  refine ⟨rfl, fun o n => ?_, ?_⟩
  · dsimp only [memReader]
    split
    case isTrue hge => rw [drop_of_length_le hge, take_nil]
    case isFalse => rfl
  · intro peek hpeek o n buf hle hbuf j hj
    cases hpeek
    dsimp only at hbuf
    rw [if_pos ⟨by omega, by omega⟩] at hbuf
    cases hbuf
    exact byteOf_drop data o j

/-- The reader of a source that is not one block in memory. -/
theorem reads_windowed (data : List UInt8) :
    Reads ⟨data.length, fun o n => (data.drop o).take n, none⟩ data := by
  refine ⟨rfl, fun _ _ => rfl, ?_⟩
  intro peek hpeek
  cases hpeek

/-- The bytes `[A-Za-z0-9_]`. -/
def WordByte (b : UInt8) : Prop :=
  (65 ≤ b.toNat ∧ b.toNat ≤ 90) ∨ (97 ≤ b.toNat ∧ b.toNat ≤ 122) ∨
    (48 ≤ b.toNat ∧ b.toNat ≤ 57) ∨ b.toNat = 95

instance (b : UInt8) : Decidable (WordByte b) :=
  inferInstanceAs (Decidable (_ ∨ _ ∨ _ ∨ _))

theorem isWordByte_iff (b : UInt8) : isWordByte (some b) = true ↔ WordByte b := by
  have hall : ∀ n : Fin 256, isWordByte (some (UInt8.ofNat n.val)) = true ↔
      WordByte (UInt8.ofNat n.val) := by
    decide +kernel
  have hb := hall ⟨b.toNat, b.toNat_lt⟩
  rwa [UInt8.ofNat_toNat] at hb

/-- The needle is in the text at `s`: its bytes are, up to the case of letters if it is
ignored, and for whole words no word byte is next to them. -/
structure MatchAt (D needle : List UInt8) (ci ww : Bool) (s : Nat) : Prop where
  inside : s + needle.length ≤ D.length
  bytes : ∀ k < needle.length, fold ci (byteOf D (s + k)) = fold ci (byteOf needle k)
  before : ww = true → 0 < s → ¬ WordByte (byteOf D (s - 1))
  after : ww = true → s + needle.length < D.length → ¬ WordByte (byteOf D (s + needle.length))

/-- A byte beyond the text is no word byte. -/
theorem not_isWordByte_iff (D : List UInt8) (i : Nat) :
    isWordByte D[i]? = false ↔ (i < D.length → ¬ WordByte (byteOf D i)) := by
  by_cases hi : i < D.length
  · have hbyte : D[i]? = some (byteOf D i) := by
      rw [byteOf, getD_eq_getElem?_getD, getElem?_eq_getElem hi, Option.getD_some]
    rw [hbyte, ← isWordByte_iff, Bool.not_eq_true]
    exact ⟨fun h _ => h, fun h => h hi⟩
  · rw [getElem?_eq_none (by omega)]
    exact ⟨fun _ h => absurd h hi, fun _ => rfl⟩

theorem hit_iff {D needle : List UInt8} {ci ww : Bool} (s : Nat) (hpos : 1 ≤ needle.length) :
    Hit D needle ci ww s ↔ MatchAt D needle ci ww s := by
  constructor
  · rintro ⟨hin, hocc, hword⟩
    refine ⟨hin, hocc, fun hww hs => ?_, fun hww hlt => ?_⟩
    · have hb := (hword hww).1
      rw [if_pos hs, not_isWordByte_iff] at hb
      exact hb (by omega)
    · exact (not_isWordByte_iff D _).mp (hword hww).2 hlt
  · rintro ⟨hin, hocc, hb, ha⟩
    refine ⟨hin, hocc, fun hww => ⟨?_, (not_isWordByte_iff D _).mpr (ha hww)⟩⟩
    split
    case isTrue hs => exact (not_isWordByte_iff D _).mpr fun _ => hb hww hs
    case isFalse => rfl

/-- **Searching is its specification**: forward the lowest match from `start` on, backward
the highest match up to `start`, and none when there is none; the way the source is read
does not matter. -/
theorem findInSource_matches {r : ByteReader} {D needle : List UInt8} (h : Reads r D)
    (hpos : 1 ≤ needle.length) (start : Nat) (flags : UInt32) :
    ∃ found : Option Nat,
      findInSource r needle start flags = found.map (fun s => ⟨s, needle.length⟩) ∧
      (flags &&& 2 = 0 →
        IsFirst (MatchAt D needle (flags &&& 1 ≠ 0) (flags &&& 4 ≠ 0)) start found) ∧
      (flags &&& 2 ≠ 0 →
        IsLast (MatchAt D needle (flags &&& 1 ≠ 0) (flags &&& 4 ≠ 0)) start found) ∧
      ∀ r', Reads r' D → findInSource r' needle start flags = findInSource r needle start flags := by
  have hhit : Hit D needle (flags &&& 1 ≠ 0) (flags &&& 4 ≠ 0)
      = MatchAt D needle (flags &&& 1 ≠ 0) (flags &&& 4 ≠ 0) :=
    funext fun s => propext (hit_iff s hpos)
  have hagree : ∀ r', Reads r' D →
      findInSource r' needle start flags = findInSource r needle start flags :=
    fun r' h' => findInSource_eq h' h needle start flags
  rw [← hhit]
  unfold findInSource at hagree ⊢
  rw [h.length] at hagree ⊢
  dsimp only at hagree ⊢
  split
  case isTrue hlen =>
    -- the needle is longer than the text
    have hno : ∀ t, ¬ Hit D needle (flags &&& 1 ≠ 0) (flags &&& 4 ≠ 0) t := by
      intro t ht
      have := ht.1
      omega
    rw [if_pos hlen] at hagree
    exact ⟨none, rfl, fun _ t _ => hno t, fun _ t _ => hno t, hagree⟩
  case isFalse hlen =>
    rw [if_neg hlen] at hagree
    have hm : needle.length ≤ D.length := by omega
    refine ⟨_, rfl, fun hf => ?_, fun hb => ?_, hagree⟩
    · rw [if_neg (by simpa using hf)]
      exact findForward_first h hpos hm start
    · rw [if_pos hb]
      refine (findBackward_last h hpos hm start).extend (Nat.min_le_left _ _) fun t hlt ht hp => ?_
      have := hp.1
      omega

/-- The last whole word `ab`, whatever its case, in `AB abc`: in place, and in windows. -/
theorem findInSource_matches_ab :
    findInSource (memReader [65, 66, 32, 97, 98, 99]) [97, 98] 5 7 = some ⟨0, 2⟩ ∧
      findInSource ⟨6, fun o n => ([65, 66, 32, 97, 98, 99].drop o).take n, none⟩ [97, 98] 5 7
        = some ⟨0, 2⟩ := by
  have heval : findInSource (memReader [65, 66, 32, 97, 98, 99]) [97, 98] 5 7 = some ⟨0, 2⟩ := by
    decide +kernel
  obtain ⟨-, -, -, -, hagree⟩ :=
    findInSource_matches (reads_memReader [65, 66, 32, 97, 98, 99])
      (by decide : 1 ≤ ([97, 98] : List UInt8).length) 5 7
  exact ⟨heval, (hagree _ (reads_windowed _)).trans heval⟩

end Find

end AxlSdk
