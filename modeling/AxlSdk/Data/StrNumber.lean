import AxlSdk.Data.Ucs2

/-!
# Integers as text (`axl-str.c`)

- `axlStrToU64`, `axlStrToS64`: the parsers.
- `axlU64ToStr`, `axlS64ToStr`: the renderers, for any radix from 2 to 36.
- `UnsignedText`, `SignedText`: the texts of integers, in a grammar of its own.
- `str_to_s64_iff`: where the signed parser accepts that grammar and nothing else.

The signed parser takes blanks and a sign and hands the rest to the unsigned parser,
which takes blanks and a `+` of its own.
-/

namespace AxlSdk

namespace StrNumber

open Ucs2 List

inductive Rc
  | ok
  | err
  deriving DecidableEq

def UINT64_MAX : Nat := 2 ^ 64 - 1
def INT64_MAX : Nat := 2 ^ 63 - 1
def INT64_MIN : Int := -2 ^ 63

def SPACE : UInt8 := 0x20
def TAB : UInt8 := 0x09
def PLUS : UInt8 := 0x2B
def MINUS : UInt8 := 0x2D

/-! ## Parsing -/

/-- What a character counts as a digit, whatever the base. -/
def digitNumber (c : UInt8) : Option Nat :=
  if 0x30 ≤ c ∧ c ≤ 0x39 then some (c.toNat - 0x30)
  else if 0x61 ≤ c ∧ c ≤ 0x7A then some (c.toNat - 0x61 + 10)
  else if 0x41 ≤ c ∧ c ≤ 0x5A then some (c.toNat - 0x41 + 10)
  else none

/-- `digit_value` -/
def digitValue (c : UInt8) (base : Nat) : Option Nat := (digitNumber c).filter (· < base)

/-- What a parser leaves: `*out`, and what is at `*endptr` where the caller asks for it. -/
structure Outcome (α : Type) where
  rc : Rc
  out : α
  endptr : Option (List UInt8)

/-- Nothing parsed: `*out` stays and `*endptr` is `nptr`. -/
def failed {α : Type} (nptr : List UInt8) (out : α) (hasEndptr : Bool) : Outcome α :=
  ⟨.err, out, if hasEndptr then some nptr else none⟩

def isBlank (c : UInt8) : Bool := c == SPACE || c == TAB

/-- The loop over leading blanks. -/
def skipBlanks (p : List UInt8) : List UInt8 := p.dropWhile isBlank

/-- The sign in front of an unsigned number: `-` is turned away. -/
def skipPlus : List UInt8 → Option (List UInt8)
  | [] => some []
  | c :: p => if c = PLUS then some p else if c = MINUS then none else some (c :: p)

/-- The base that is parsed in, and the position behind a `0x`. -/
def radixOf (base : Nat) (p : List UInt8) : Nat × List UInt8 :=
  if (base = 0 ∨ base = 16) ∧ at0 p 0 = 0x30 ∧ (at0 p 1 = 0x78 ∨ at0 p 1 = 0x58) ∧
      (digitValue (at0 p 2) 16).isSome then
    (16, p.drop 2)
  else if base = 0 then (10, p)
  else (base, p)

/-- The digit loop, `none` on overflow. -/
def accumulate (base val : Nat) : List UInt8 → Option (Nat × List UInt8)
  | [] => some (val, [])
  | c :: p =>
    match digitValue c base with
    | none => some (val, c :: p)
    | some d =>
      if val > UINT64_MAX / base ∨ val = UINT64_MAX / base ∧ d > UINT64_MAX % base then none
      else accumulate base ((val * base + d) % 2 ^ 64) p

def isBase (base : Int) : Bool := !(base != 0 && (base < 2 || base > 36))

/-- `axl_str_to_u64` -/
def axlStrToU64 (nptr : List UInt8) (base : Int) (out : Nat) (hasEndptr : Bool) : Outcome Nat :=
  if !isBase base then failed nptr out hasEndptr
  else
    match skipPlus (skipBlanks nptr) with
    | none => failed nptr out hasEndptr
    | some p =>
      let r := radixOf base.toNat p
      if (digitValue (at0 r.2 0) r.1).isNone then failed nptr out hasEndptr
      else
        match accumulate r.1 0 r.2 with
        | none => failed nptr out hasEndptr
        | some (val, p) =>
          if hasEndptr then ⟨.ok, val, some p⟩
          else if p ≠ [] then failed nptr out hasEndptr
          else ⟨.ok, val, none⟩

/-- The sign in front of a signed number. -/
def takeSign : List UInt8 → Bool × List UInt8
  | [] => (false, [])
  | c :: p => if c = PLUS then (false, p) else if c = MINUS then (true, p) else (false, c :: p)

/-- `axl_str_to_s64` -/
def axlStrToS64 (nptr : List UInt8) (base : Int) (out : Int) (hasEndptr : Bool) : Outcome Int :=
  let s := takeSign (skipBlanks nptr)
  let u := axlStrToU64 s.2 base 0 hasEndptr
  if u.rc ≠ .ok then failed nptr out hasEndptr
  else if s.1 then
    if u.out > INT64_MAX + 1 then failed nptr out hasEndptr
    else ⟨.ok, if u.out = INT64_MAX + 1 then INT64_MIN else -u.out, u.endptr⟩
  else if u.out > INT64_MAX then failed nptr out hasEndptr
  else ⟨.ok, u.out, u.endptr⟩

/-! ## Rendering -/

/-- A base that numbers are written in. -/
structure Radix where
  n : Nat
  two_le : 2 ≤ n
  le_36 : n ≤ 36

def digits : List UInt8 :=
  "0123456789abcdefghijklmnopqrstuvwxyz".toList.map fun c => UInt8.ofNat c.toNat

/-- `u64_digits_rev`: the digits go in front of what is written already. -/
def u64DigitsRev (r : Radix) (value : Nat) (out : List UInt8) : List UInt8 :=
  if value / r.n ≠ 0 then u64DigitsRev r (value / r.n) (digits.getD (value % r.n) 0 :: out)
  else digits.getD (value % r.n) 0 :: out
termination_by value
decreasing_by
  rename_i h
  exact Nat.div_lt_self (Nat.pos_of_ne_zero fun h0 => h (by simp [h0])) r.two_le

def AXL_U64_STR_MAX : Nat := 65
def AXL_S64_STR_MAX : Nat := 66

/-- `emit_result`: the length of the text, and what of it is in the buffer. -/
def emitResult (bufsz : Nat) (src : List UInt8) : Nat × List UInt8 :=
  (src.length, src.take (if src.length < bufsz - 1 then src.length else bufsz - 1))

/-- The radix a caller names, if there is one. -/
def radix? (base : Int) : Option Radix :=
  if h : base < 2 ∨ base > 36 then none
  else some ⟨base.toNat, by omega, by omega⟩

/-- `axl_u64_to_str`: the length, and the string left in a buffer that has room for one. -/
def axlU64ToStr (value : Nat) (base : Int) (bufsz : Nat) : Nat × Option (List UInt8) :=
  if bufsz = 0 then (0, none)
  else
    match radix? base with
    | none => (0, some [])
    | some r =>
      let e := emitResult bufsz (u64DigitsRev r value [])
      (e.1, some e.2)

/-- The magnitude, taken in two steps. -/
def magnitude (value : Int) : Nat :=
  if value < 0 then ((-(value + 1)).toNat + 1) % 2 ^ 64 else value.toNat

/-- `axl_s64_to_str` -/
def axlS64ToStr (value : Int) (base : Int) (bufsz : Nat) : Nat × Option (List UInt8) :=
  if bufsz = 0 then (0, none)
  else
    match radix? base with
    | none => (0, some [])
    | some r =>
      let text := u64DigitsRev r (magnitude value) []
      let e := emitResult bufsz (if value < 0 then MINUS :: text else text)
      (e.1, some e.2)

/-! ## The grammar -/

/-- One or more digits of base `b`, with their value. -/
def Digits (b : Nat) (cs : List UInt8) (v : Nat) : Prop :=
  cs ≠ [] ∧ ∃ ds, List.Forall₂ (fun c d => digitValue c b = some d) cs ds ∧
    v = ds.foldl (fun a d => a * b + d) 0

/-- Digits, behind a `0x` where the base allows it. -/
inductive Unprefixed (base : Nat) : List UInt8 → Nat → Prop
  | inBase {t : List UInt8} {v : Nat} (h0 : base ≠ 0) (h : Digits base t v) : Unprefixed base t v
  | decimal {t : List UInt8} {v : Nat} (h0 : base = 0) (h : Digits 10 t v) : Unprefixed base t v
  | hex {t : List UInt8} {v : Nat} {x : UInt8} (h0 : base = 0 ∨ base = 16)
      (hx : x = 0x78 ∨ x = 0x58) (h : Digits 16 t v) : Unprefixed base (0x30 :: x :: t) v

/-- The text of a natural number: blanks, at most a `+`, and digits. -/
def UnsignedText (base : Nat) (s : List UInt8) (v : Nat) : Prop :=
  ∃ ws sign t, s = ws ++ sign ++ t ∧ (∀ c ∈ ws, isBlank c = true) ∧
    (sign = [] ∨ sign = [PLUS]) ∧ Unprefixed base t v

/-- The text of an integer: blanks, at most one sign, and digits. -/
def SignedText (base : Nat) (s : List UInt8) (v : Int) : Prop :=
  ∃ ws sign t m, s = ws ++ sign ++ t ∧ (∀ c ∈ ws, isBlank c = true) ∧ Unprefixed base t m ∧
    ((sign = [] ∨ sign = [PLUS]) ∧ v = m ∨ sign = [MINUS] ∧ v = -m)

/-! ## Digits -/

variable {b base v m : Nat} {c : UInt8} {p s t ws cs rest : List UInt8}

theorem digitValue_lt {d : Nat} (h : digitValue c b = some d) : d < b := by
  simp only [digitValue, Option.filter_eq_some_iff, decide_eq_true_eq] at h
  exact h.2

/-- No digit is a blank or a sign, and only in the larger bases is it an `x`. -/
theorem digitValue_isSome (h : (digitValue c b).isSome) :
    isBlank c = false ∧ c ≠ PLUS ∧ c ≠ MINUS ∧ c ≠ 0 := by
  refine ⟨?_, ?_, ?_, ?_⟩
  · by_contra hc
    simp only [isBlank, SPACE, TAB, Bool.not_eq_false, Bool.or_eq_true, beq_iff_eq] at hc
    rcases hc with rfl | rfl <;> simp [digitValue, digitNumber] at h
  all_goals
    rintro rfl
    simp [digitValue, digitNumber, PLUS, MINUS] at h

theorem digitValue_x {x : UInt8} (hx : x = 0x78 ∨ x = 0x58) (hb : b ≤ 33) :
    digitValue x b = none := by
  rcases hx with rfl | rfl <;> simp [digitValue, digitNumber] <;> omega

/-- The first character of a text of digits is one. -/
theorem Digits.head (h : Digits b t v) : ∃ c u, t = c :: u ∧ (digitValue c b).isSome := by
  obtain ⟨hne, ds, hds, -⟩ := h
  cases hds with
  | nil => exact absurd rfl hne
  | cons hc _ => exact ⟨_, _, rfl, by simp [hc]⟩

theorem foldl_ge (hb : 2 ≤ b) (ds : List Nat) (a : Nat) :
    a ≤ ds.foldl (fun a d => a * b + d) a := by
  induction ds generalizing a with
  | nil => simp
  | cons d ds ih =>
    calc a ≤ a * b + d := by nlinarith
      _ ≤ _ := ih _

/-- The cutoffs catch exactly the overflows. -/
theorem cutoff_iff {val d : Nat} (hb : 2 ≤ b) (hd : d < b) :
    (val > UINT64_MAX / b ∨ val = UINT64_MAX / b ∧ d > UINT64_MAX % b) ↔
      UINT64_MAX < val * b + d := by
  have h := Nat.div_add_mod UINT64_MAX b
  have hm := Nat.mod_lt UINT64_MAX (show 0 < b by omega)
  generalize UINT64_MAX / b = q at h ⊢
  generalize UINT64_MAX % b = r at h hm ⊢
  rw [← h, Nat.mul_comm b q]
  rcases Nat.lt_trichotomy val q with hv | rfl | hv
  · have : (val + 1) * b ≤ q * b := Nat.mul_le_mul_right b hv
    rw [Nat.add_mul] at this
    omega
  · omega
  · have : (q + 1) * b ≤ val * b := Nat.mul_le_mul_right b hv
    rw [Nat.add_mul] at this
    omega

/-- The loop reads all the digits there are, and gives up exactly on overflow. -/
theorem accumulate_append {ds : List Nat} (hb : 2 ≤ b)
    (h : List.Forall₂ (fun c d => digitValue c b = some d) cs ds)
    (hrest : ∀ c ∈ rest.head?, digitValue c b = none) (val : Nat) :
    accumulate b val (cs ++ rest) =
      if ds.foldl (fun a d => a * b + d) val ≤ UINT64_MAX ∨ cs = [] then
        some (ds.foldl (fun a d => a * b + d) val, rest)
      else none := by
  induction h generalizing val with
  | nil =>
    cases rest with
    | nil => simp [accumulate]
    | cons c rest => simp [accumulate, hrest c rfl]
  | @cons c d cs ds hc hcs ih =>
    have hd := digitValue_lt hc
    have hge := foldl_ge hb ds (val * b + d)
    simp only [cons_append, accumulate, hc, cutoff_iff hb hd, foldl_cons]
    by_cases ho : UINT64_MAX < val * b + d
    · rw [if_pos ho, eq_comm]
      refine if_neg fun hle => ?_
      simp only [reduceCtorEq, or_false] at hle
      omega
    · have hmod : (val * b + d) % 2 ^ 64 = val * b + d :=
        Nat.mod_eq_of_lt (by unfold UINT64_MAX at ho; omega)
      rw [if_neg ho, hmod, ih]
      by_cases hcs0 : cs = []
      · subst hcs0
        cases hcs
        simp only [foldl_nil, or_true, if_true, reduceCtorEq, or_false]
        rw [if_pos (by omega)]
      · simp [hcs0]

/-- Every text is digits and what is left behind them. -/
theorem exists_digits (b : Nat) (p : List UInt8) :
    ∃ cs ds rest, p = cs ++ rest ∧ List.Forall₂ (fun c d => digitValue c b = some d) cs ds ∧
      ∀ c ∈ rest.head?, digitValue c b = none := by
  induction p with
  | nil => exact ⟨[], [], [], rfl, .nil, by simp⟩
  | cons c p ih =>
    cases hc : digitValue c b with
    | none => exact ⟨[], [], c :: p, rfl, .nil, by simpa using hc⟩
    | some d =>
      obtain ⟨cs, ds, rest, rfl, h, hrest⟩ := ih
      exact ⟨c :: cs, d :: ds, rest, rfl, .cons hc h, hrest⟩

/-- With nothing behind the digits, the loop decides `Digits`. -/
theorem accumulate_iff (hb : 2 ≤ b) :
    (digitValue (at0 p 0) b).isSome ∧ accumulate b 0 p = some (v, []) ↔
      Digits b p v ∧ v ≤ UINT64_MAX := by
  constructor
  · rintro ⟨h0, ha⟩
    obtain ⟨cs, ds, rest, rfl, h, hrest⟩ := exists_digits b p
    have hcs : cs ≠ [] := by
      rintro rfl
      cases rest with
      | nil => exact absurd rfl (digitValue_isSome h0).2.2.2
      | cons c rest => simp [at0, hrest c rfl] at h0
    simp only [accumulate_append hb h hrest, hcs, or_false] at ha
    split at ha
    · obtain ⟨rfl, rfl⟩ : _ = v ∧ rest = [] := by simpa using ha
      exact ⟨⟨by simpa using hcs, ds, by simpa using h, rfl⟩, by assumption⟩
    · simp at ha
  · rintro ⟨hd, hv⟩
    obtain ⟨c, u, rfl, hc⟩ := hd.head
    obtain ⟨-, ds, h, rfl⟩ := hd
    have hnil : ∀ c ∈ ([] : List UInt8).head?, digitValue c b = none := by simp
    have ha := accumulate_append hb h hnil 0
    rw [append_nil, if_pos (.inl hv)] at ha
    exact ⟨hc, ha⟩

/-! ## The parsers accept their grammar -/

/-- A text of digits starts neither with a blank nor with a sign. -/
theorem Unprefixed.head (h : Unprefixed base t m) :
    ∃ c u, t = c :: u ∧ isBlank c = false ∧ c ≠ PLUS ∧ c ≠ MINUS := by
  cases h with
  | inBase _ h =>
    obtain ⟨c, u, rfl, hc⟩ := h.head
    have := digitValue_isSome hc
    exact ⟨c, u, rfl, this.1, this.2.1, this.2.2.1⟩
  | decimal _ h =>
    obtain ⟨c, u, rfl, hc⟩ := h.head
    have := digitValue_isSome hc
    exact ⟨c, u, rfl, this.1, this.2.1, this.2.2.1⟩
  | hex _ _ _ => exact ⟨_, _, rfl, by decide⟩

/-- The prefix is told from the digits by what comes next. -/
theorem radixOf_iff :
    Unprefixed base t v ↔ Digits (radixOf base t).1 (radixOf base t).2 v := by
  unfold radixOf
  split_ifs with hp h0
  · obtain ⟨h0, hz, hx, h2⟩ := hp
    match t with
    | [] => simp [at0] at hz
    | [c] => simp [at0] at hx
    | z :: x :: u =>
      obtain rfl : z = 0x30 := by simpa [at0] using hz
      replace hx : x = 0x78 ∨ x = 0x58 := by simpa [at0] using hx
      have plain : ∀ {b : Nat}, b ≤ 33 → ¬ Digits b (0x30 :: x :: u) v := by
        rintro b hb ⟨-, ds, hds, -⟩
        cases hds with
        | cons _ hds =>
          cases hds with
          | cons hd _ => simp [digitValue_x hx hb] at hd
      constructor
      · intro h
        cases h with
        | inBase hne h =>
          exact absurd h (plain (by omega))
        | decimal _ h => exact absurd h (plain (by omega))
        | hex _ _ h => exact h
      · exact fun h => .hex h0 hx h
  · constructor
    · intro h
      cases h with
      | inBase hne h => exact absurd h0 hne
      | decimal _ h => exact h
      | hex hb hx h =>
        obtain ⟨c, u, rfl, hc⟩ := h.head
        exact absurd ⟨hb, rfl, hx, hc⟩ hp
    · exact fun h => .decimal h0 h
  · constructor
    · intro h
      cases h with
      | inBase hne h => exact h
      | decimal hb h => exact absurd hb h0
      | hex hb hx h =>
        obtain ⟨c, u, rfl, hc⟩ := h.head
        exact absurd ⟨hb, rfl, hx, hc⟩ hp
    · exact fun h => .inBase h0 h

theorem skipBlanks_append {c : UInt8} (hws : ∀ c ∈ ws, isBlank c = true)
    (hc : isBlank c = false) (t : List UInt8) : skipBlanks (ws ++ c :: t) = c :: t := by
  unfold skipBlanks
  rw [dropWhile_append_of_pos hws, dropWhile_cons_of_neg (by simp [hc])]

/-- Every text is blanks and what is left behind them. -/
theorem exists_blanks (s : List UInt8) :
    ∃ ws, s = ws ++ skipBlanks s ∧ (∀ c ∈ ws, isBlank c = true) ∧
      ∀ c ∈ (skipBlanks s).head?, isBlank c = false := by
  refine ⟨s.takeWhile isBlank, takeWhile_append_dropWhile.symm, ?_, ?_⟩
  · exact fun c hc => mem_takeWhile_imp hc
  · intro c hc
    have := head?_dropWhile_not isBlank s
    rw [skipBlanks] at hc
    simpa [Option.mem_def.mp hc] using this

theorem unsignedText_iff :
    UnsignedText base s v ↔ ∃ t, skipPlus (skipBlanks s) = some t ∧ Unprefixed base t v := by
  constructor
  · rintro ⟨ws, sign, t, rfl, hws, hsign, h⟩
    refine ⟨t, ?_, h⟩
    rcases hsign with rfl | rfl
    · obtain ⟨c, u, rfl, hb, hp, hm⟩ := h.head
      rw [append_nil, skipBlanks_append hws hb]
      simp [skipPlus, hp, hm]
    · rw [append_assoc, singleton_append, skipBlanks_append hws (by decide)]
      simp [skipPlus]
  · rintro ⟨t, ht, h⟩
    obtain ⟨ws, hs, hws, -⟩ := exists_blanks s
    cases hp : skipBlanks s with
    | nil =>
      rw [hp] at ht hs
      exact ⟨ws, [], t, by simpa [skipPlus, ← Option.some.inj ht] using hs, hws, .inl rfl, h⟩
    | cons c u =>
      rw [hp] at ht hs
      simp only [skipPlus] at ht
      split_ifs at ht with hc hm
      · obtain rfl := Option.some.inj ht
        exact ⟨ws, [PLUS], u, by simpa [hc] using hs, hws, .inr rfl, h⟩
      · obtain rfl := Option.some.inj ht
        exact ⟨ws, [], c :: u, by simpa using hs, hws, .inl rfl, h⟩

/-- A base a caller may ask for. -/
structure Base where
  n : Nat
  ok : n = 0 ∨ 2 ≤ n ∧ n ≤ 36

theorem Base.isBase (base : Base) : isBase base.n = true := by
  have := base.ok
  simp only [StrNumber.isBase, Bool.not_eq_true', Bool.and_eq_false_iff, Bool.or_eq_false_iff,
    bne_eq_false_iff_eq, decide_eq_false_iff_not]
  omega

theorem two_le_radixOf (base : Base) (p : List UInt8) : 2 ≤ (radixOf base.n p).1 := by
  have := base.ok
  unfold radixOf
  split_ifs <;> dsimp only <;> omega

/-- A parser that comes back with `v`. -/
def Outcome.Gives {α : Type} (o : Outcome α) (v : α) : Prop := o.rc = .ok ∧ o.out = v

@[simp] theorem not_failed_gives {α : Type} {out v : α} {e : Bool} :
    ¬ (failed s out e).Gives v := by
  simp [Outcome.Gives, failed]

/-- `axl_str_to_u64` accepts its grammar. -/
theorem u64_gives_iff (base : Base) (out : Nat) :
    (axlStrToU64 s base.n out false).Gives v ↔
      UnsignedText base.n s v ∧ v ≤ UINT64_MAX := by
  rw [unsignedText_iff, axlStrToU64, base.isBase]
  cases hp : skipPlus (skipBlanks s) with
  | none => simp
  | some t =>
    have hr := accumulate_iff (p := (radixOf base.n t).2) (v := v) (two_le_radixOf base t)
    rw [← radixOf_iff] at hr
    simp only [Bool.not_true, Bool.false_eq_true, if_false, Int.toNat_natCast,
      Option.some.injEq, exists_eq_left']
    rw [← hr]
    cases hd : digitValue (at0 (radixOf base.n t).2 0) (radixOf base.n t).1 with
    | none => simp
    | some d =>
      cases ha : accumulate (radixOf base.n t).1 0 (radixOf base.n t).2 with
      | none => simp
      | some q =>
        obtain ⟨val, rest⟩ := q
        by_cases hrest : rest = []
        · simp [hrest, Outcome.Gives]
        · simp [hrest]

/-- A parser that fails leaves `*out` alone and points `*endptr` at the start. -/
theorem u64_failure (s : List UInt8) (base : Int) (out : Nat) (e : Bool) :
    (axlStrToU64 s base out e).rc = .ok ∨ axlStrToU64 s base out e = failed s out e := by
  unfold axlStrToU64
  split
  · exact .inr rfl
  · split
    · exact .inr rfl
    · dsimp only
      split
      · exact .inr rfl
      · split
        · exact .inr rfl
        · split_ifs
          · exact .inl rfl
          · exact .inr rfl
          · exact .inl rfl

theorem s64_failure (s : List UInt8) (base out : Int) (e : Bool) :
    (axlStrToS64 s base out e).rc = .ok ∨ axlStrToS64 s base out e = failed s out e := by
  unfold axlStrToS64
  dsimp only
  split_ifs <;> first | exact .inl rfl | exact .inr rfl

/-- The integer a sign and a magnitude stand for. -/
def signed (neg : Bool) (m : Nat) : Int := if neg then -m else m

/-- The magnitudes that fit behind a sign. -/
def Fits (neg : Bool) (m : Nat) : Prop := m ≤ if neg then INT64_MAX + 1 else INT64_MAX

theorem fits_iff (neg : Bool) (m : Nat) :
    Fits neg m ↔ INT64_MIN ≤ signed neg m ∧ signed neg m ≤ INT64_MAX := by
  cases neg <;> simp only [Fits, signed, INT64_MIN, INT64_MAX, if_true, Bool.false_eq_true, if_false] <;>
    omega

/-- What `axl_str_to_s64` accepts: after the sign, whatever the unsigned parser does. -/
theorem s64_gives_iff (base : Base) (out v : Int) :
    (axlStrToS64 s base.n out false).Gives v ↔
      ∃ m, UnsignedText base.n (takeSign (skipBlanks s)).2 m ∧
        Fits (takeSign (skipBlanks s)).1 m ∧ v = signed (takeSign (skipBlanks s)).1 m := by
  have hu := fun m => u64_gives_iff (s := (takeSign (skipBlanks s)).2) (v := m) base 0
  rw [axlStrToS64]
  generalize takeSign (skipBlanks s) = sg at hu ⊢
  obtain ⟨neg, t⟩ := sg
  dsimp only at hu ⊢
  generalize axlStrToU64 t base.n 0 false = u at hu ⊢
  by_cases hok : u.rc = .ok
  · -- the unsigned parser has come back with a magnitude
    have hm := (hu u.out).mp ⟨hok, rfl⟩
    have hall : ∀ m, UnsignedText base.n t m → Fits neg m → m = u.out := by
      intro m h hf
      refine ((hu m).mpr ⟨h, ?_⟩).2.symm
      unfold Fits INT64_MAX at hf
      unfold UINT64_MAX
      split_ifs at hf <;> omega
    have hex : (∃ m, UnsignedText base.n t m ∧ Fits neg m ∧ v = signed neg m) ↔
        Fits neg u.out ∧ v = signed neg u.out := by
      constructor
      · rintro ⟨m, h, hf, rfl⟩
        rw [← hall m h hf]
        exact ⟨hf, rfl⟩
      · exact fun h => ⟨u.out, hm.1, h⟩
    rw [hex, if_neg (by simp [hok])]
    cases neg with
    | true =>
      simp only [if_true, Fits, signed]
      split_ifs with h1 h2
      · simp only [not_failed_gives, false_iff]
        omega
      · simp only [Outcome.Gives, true_and, h2, INT64_MIN, INT64_MAX]
        omega
      · simp only [Outcome.Gives, true_and]
        omega
    | false =>
      simp only [Bool.false_eq_true, if_false, Fits, signed]
      split_ifs with h1
      · simp only [not_failed_gives, false_iff]
        omega
      · simp only [Outcome.Gives, true_and]
        omega
  · rw [if_pos hok]
    simp only [not_failed_gives, false_iff]
    rintro ⟨m, h, hf, -⟩
    refine hok ((hu m).mpr ⟨h, ?_⟩).1
    unfold Fits INT64_MAX at hf
    unfold UINT64_MAX
    split_ifs at hf <;> omega

/-- What the grammar accepts: after the sign, digits. -/
theorem signedText_iff {v : Int} :
    SignedText base s v ↔
      ∃ m, Unprefixed base (takeSign (skipBlanks s)).2 m ∧
        v = signed (takeSign (skipBlanks s)).1 m := by
  constructor
  · rintro ⟨ws, sign, t, m, rfl, hws, h, hv⟩
    have hskip : ∀ {c : UInt8}, isBlank c = false → ∀ u : List UInt8,
        skipBlanks (ws ++ c :: u) = c :: u := fun hc u => skipBlanks_append hws hc u
    rcases hv with ⟨rfl | rfl, rfl⟩ | ⟨rfl, rfl⟩
    · obtain ⟨c, u, rfl, hb, hp, hm⟩ := id h.head
      rw [append_nil, hskip hb]
      exact ⟨m, by simpa [takeSign, hp, hm] using h, by simp [takeSign, hp, hm, signed]⟩
    · rw [append_assoc, singleton_append, hskip (by decide)]
      exact ⟨m, by simpa [takeSign] using h, by simp [takeSign, signed]⟩
    · rw [append_assoc, singleton_append, hskip (by decide)]
      have hne : MINUS ≠ PLUS := by decide
      exact ⟨m, by simpa [takeSign, hne] using h, by simp [takeSign, hne, signed]⟩
  · rintro ⟨m, h, rfl⟩
    obtain ⟨ws, hs, hws, -⟩ := exists_blanks s
    generalize skipBlanks s = p at h hs ⊢
    cases p with
    | nil => exact ⟨ws, [], [], m, by simpa using hs, hws, h, .inl ⟨.inl rfl, rfl⟩⟩
    | cons c u =>
      simp only [takeSign] at h ⊢
      split_ifs at h ⊢ with hc hm
      · exact ⟨ws, [PLUS], u, m, by simpa [hc] using hs, hws, h, .inl ⟨.inr rfl, rfl⟩⟩
      · exact ⟨ws, [MINUS], u, m, by simpa [hm] using hs, hws, h, .inr ⟨rfl, rfl⟩⟩
      · exact ⟨ws, [], c :: u, m, by simpa using hs, hws, h, .inl ⟨.inl rfl, rfl⟩⟩

theorem Unprefixed.unsignedText (h : Unprefixed base t m) : UnsignedText base t m :=
  ⟨[], [], t, rfl, by simp, .inl rfl, h⟩

/-- Behind a sign that stands alone, the unsigned parser sees digits or nothing. -/
theorem unsignedText_alone (ht : ∀ c ∈ t.head?, isBlank c = false ∧ c ≠ PLUS) :
    UnsignedText base t m ↔ Unprefixed base t m := by
  refine ⟨fun h => ?_, Unprefixed.unsignedText⟩
  obtain ⟨u, hu, hd⟩ := unsignedText_iff.mp h
  match t with
  | [] =>
    rw [show u = [] from (Option.some.inj hu).symm] at hd
    exact hd
  | c :: t =>
    obtain ⟨hb, hp⟩ := ht c rfl
    rw [skipBlanks, dropWhile_cons_of_neg (by simp [hb])] at hu
    simp only [skipPlus, if_neg hp] at hu
    split_ifs at hu
    rw [Option.some.inj hu]
    exact hd

/-- Every text of an integer in range is accepted. -/
theorem s64_accepts (base : Base) (out : Int) {v : Int} (h : SignedText base.n s v)
    (hv : INT64_MIN ≤ v ∧ v ≤ INT64_MAX) : (axlStrToS64 s base.n out false).Gives v := by
  obtain ⟨m, hm, rfl⟩ := signedText_iff.mp h
  exact (s64_gives_iff base out _).mpr ⟨m, hm.unsignedText, (fits_iff _ m).mpr hv, rfl⟩

/-- A sign, and behind it the text of an unsigned number with blanks or a sign of its
own. -/
def DoublySigned (base : Nat) (s : List UInt8) : Prop :=
  ∃ ws sign t m, s = ws ++ sign :: t ∧ (∀ c ∈ ws, isBlank c = true) ∧
    (sign = PLUS ∨ sign = MINUS) ∧ (∃ c ∈ t.head?, isBlank c = true ∨ c = PLUS) ∧
    UnsignedText base t m ∧ Fits (sign == MINUS) m

/-- Where no second sign and no blanks follow the sign, the grammar is met. -/
theorem alone_of_not_doublySigned (h : ¬ DoublySigned base s)
    (hm : UnsignedText base (takeSign (skipBlanks s)).2 m)
    (hf : Fits (takeSign (skipBlanks s)).1 m) :
    Unprefixed base (takeSign (skipBlanks s)).2 m := by
  refine (unsignedText_alone ?_).mp hm
  obtain ⟨ws, hs, hws, hhead⟩ := exists_blanks s
  generalize skipBlanks s = p at hs hhead hm hf ⊢
  intro c hc
  by_contra hcon
  have hbp : isBlank c = true ∨ c = PLUS := by
    by_contra hn
    exact hcon ⟨by simpa using fun hb => hn (.inl hb), fun hp => hn (.inr hp)⟩
  match p with
  | [] => simp [takeSign] at hc
  | sign :: u =>
    simp only [takeSign] at hm hf hc
    split_ifs at hm hf hc with hp hmi
    · have hs' : (sign == MINUS) = false := by rw [hp]; decide
      exact h ⟨ws, sign, u, m, hs, hws, .inl hp, ⟨c, hc, hbp⟩, hm, by rwa [hs']⟩
    · have hs' : (sign == MINUS) = true := by rw [hmi]; decide
      exact h ⟨ws, sign, u, m, hs, hws, .inr hmi, ⟨c, hc, hbp⟩, hm, by rwa [hs']⟩
    · obtain rfl : sign = c := by simpa using hc
      rcases hbp with hb | hb
      · simp [hhead sign rfl] at hb
      · exact hp hb

/-- The signed parser accepts its grammar and nothing else exactly on the texts that do
not have a second sign or blanks behind the sign. -/
theorem s64_exact_iff (base : Base) (s : List UInt8) :
    (∀ out v : Int, (axlStrToS64 s base.n out false).Gives v ↔
        SignedText base.n s v ∧ INT64_MIN ≤ v ∧ v ≤ INT64_MAX) ↔
      ¬ DoublySigned base.n s := by
  constructor
  · rintro h ⟨ws, sign, t, m, rfl, hws, hsign, ⟨c, hc, hbp⟩, hm, hf⟩
    have hne : MINUS ≠ PLUS := by decide
    have htake : takeSign (skipBlanks (ws ++ sign :: t)) = (sign == MINUS, t) := by
      rcases hsign with rfl | rfl
      · rw [skipBlanks_append hws (by decide)]
        simp [takeSign, hne.symm]
      · rw [skipBlanks_append hws (by decide)]
        simp [takeSign, hne]
    have hg := (s64_gives_iff (s := ws ++ sign :: t) base 0 (signed (sign == MINUS) m)).mpr
      (by rw [htake]; exact ⟨m, hm, hf, rfl⟩)
    obtain ⟨m', hm', -⟩ := signedText_iff.mp ((h 0 _).mp hg).1
    rw [htake] at hm'
    obtain ⟨c', u, rfl, hb, hp, -⟩ := hm'.head
    obtain rfl : c' = c := by simpa using hc
    rcases hbp with hbp | hbp
    · simp [hb] at hbp
    · exact hp hbp
  · intro h out v
    constructor
    · intro hg
      obtain ⟨m, hm, hf, rfl⟩ := (s64_gives_iff base out v).mp hg
      exact ⟨signedText_iff.mpr ⟨m, alone_of_not_doublySigned h hm hf, rfl⟩, (fits_iff _ m).mp hf⟩
    · exact fun hv => s64_accepts base out hv.1 hv.2

/-! ## What is rendered is parsed back -/

/-- The table has a digit for every value. -/
theorem digitValue_digits {d : Nat} (h : d < b) (hb : b ≤ 36) :
    digitValue (digits.getD d 0) b = some d := by
  have table : ∀ d < 36, digitNumber (digits.getD d 0) = some d := by decide
  rw [digitValue, table d (by omega)]
  simp [h]

theorem u64DigitsRev_spec (r : Radix) (value : Nat) (out : List UInt8) :
    ∃ cs ds, u64DigitsRev r value out = cs ++ out ∧
      List.Forall₂ (fun c d => digitValue c r.n = some d) cs ds ∧
      ds.foldl (fun a d => a * r.n + d) 0 = value ∧ 1 ≤ cs.length ∧
      (1 < cs.length → r.n ^ (cs.length - 1) ≤ value) := by
  have hpos : 0 < r.n := by have := r.two_le; omega
  fun_induction u64DigitsRev r value out with
  | case1 value out h ih =>
    obtain ⟨cs, ds, he, hd, hv, hlen, hle⟩ := ih
    have hdig := digitValue_digits (Nat.mod_lt value hpos) r.le_36
    refine ⟨cs ++ [digits.getD (value % r.n) 0], ds ++ [value % r.n], by simpa using he,
      rel_append hd (.cons hdig .nil), ?_, by simp, fun _ => ?_⟩
    · rw [foldl_append, hv]
      simpa [Nat.mul_comm] using Nat.div_add_mod value r.n
    · have hpow : r.n ^ (cs.length - 1) ≤ value / r.n := by
        rcases Nat.lt_or_ge 1 cs.length with h1 | h1
        · exact hle h1
        · rw [show cs.length - 1 = 0 by omega, pow_zero]
          omega
      calc r.n ^ ((cs ++ [digits.getD (value % r.n) 0]).length - 1)
          = r.n ^ (cs.length - 1) * r.n := by
            rw [← pow_succ]
            congr 1
            simp
            omega
        _ ≤ value / r.n * r.n := Nat.mul_le_mul_right _ hpow
        _ ≤ value := Nat.div_mul_le_self value r.n
  | case2 value out h =>
    have hlt : value < r.n := by
      rcases (Nat.div_eq_zero_iff).mp (not_not.mp h) with h0 | h0
      · omega
      · exact h0
    refine ⟨[digits.getD (value % r.n) 0], [value % r.n], rfl, .cons ?_ .nil, ?_, by simp, by simp⟩
    · exact digitValue_digits (Nat.mod_lt value hpos) r.le_36
    · simpa using Nat.mod_eq_of_lt hlt

/-- The digits of a value, at most 64 of them. -/
theorem u64DigitsRev_digits (r : Radix) {value : Nat} (hv : value < 2 ^ 64) :
    Digits r.n (u64DigitsRev r value []) value ∧ (u64DigitsRev r value []).length ≤ 64 := by
  obtain ⟨cs, ds, he, hd, hval, hlen, hle⟩ := u64DigitsRev_spec r value []
  rw [append_nil] at he
  rw [he]
  refine ⟨⟨fun h0 => by simp [h0] at hlen, ds, hd, hval.symm⟩, ?_⟩
  by_contra hlong
  have h2 : 2 ^ 64 ≤ 2 ^ (cs.length - 1) := Nat.pow_le_pow_right (by omega) (by omega)
  have hr : 2 ^ (cs.length - 1) ≤ r.n ^ (cs.length - 1) := Nat.pow_le_pow_left r.two_le _
  have := hle (by omega)
  omega

def Radix.toBase (r : Radix) : Base := ⟨r.n, .inr ⟨r.two_le, r.le_36⟩⟩

theorem radix?_n (r : Radix) : radix? r.n = some r := by
  have h1 := r.two_le
  have h2 := r.le_36
  rw [radix?, dif_neg (by omega)]
  simp

/-- A text that fits is left in the buffer whole. -/
theorem emitResult_eq {bufsz : Nat} {src : List UInt8} (h : src.length < bufsz) :
    emitResult bufsz src = (src.length, src) := by
  unfold emitResult
  split
  · rw [take_length]
  · rw [take_of_length_le (by omega)]

theorem Radix.unprefixed (r : Radix) {ds : List UInt8} (h : Digits r.n ds v) : Unprefixed r.n ds v :=
  .inBase (by have := r.two_le; omega) h

/-- What `axl_u64_to_str` writes, `axl_str_to_u64` reads. -/
theorem u64_round_trip (r : Radix) (value : UInt64) (k : Nat) :
    ∃ text, axlU64ToStr value.toNat r.n (AXL_U64_STR_MAX + k) = (text.length, some text) ∧
      ∀ out, (axlStrToU64 text r.n out false).Gives value.toNat := by
  have hv := value.toNat_lt
  obtain ⟨hd, hlen⟩ := u64DigitsRev_digits r hv
  refine ⟨u64DigitsRev r value.toNat [], ?_, fun out => ?_⟩
  · rw [axlU64ToStr, if_neg (by unfold AXL_U64_STR_MAX; omega), radix?_n]
    dsimp only
    rw [emitResult_eq (by unfold AXL_U64_STR_MAX; omega)]
  · have hmax : value.toNat ≤ UINT64_MAX := by
      unfold UINT64_MAX
      omega
    exact (u64_gives_iff r.toBase out).mpr ⟨(r.unprefixed hd).unsignedText, hmax⟩

theorem magnitude_eq (value : Int64) : magnitude value.toInt = value.toInt.natAbs := by
  have h1 := value.le_toInt
  have h2 := value.toInt_lt
  unfold magnitude
  split <;> omega

/-- What `axl_s64_to_str` writes, `axl_str_to_s64` reads. -/
theorem s64_round_trip (r : Radix) (value : Int64) (k : Nat) :
    ∃ text, axlS64ToStr value.toInt r.n (AXL_S64_STR_MAX + k) = (text.length, some text) ∧
      ∀ out, (axlStrToS64 text r.n out false).Gives value.toInt := by
  have h1 := value.le_toInt
  have h2 := value.toInt_lt
  have hm := magnitude_eq value
  have hfits : magnitude value.toInt < 2 ^ 64 := by omega
  obtain ⟨hd, hlen⟩ := u64DigitsRev_digits r hfits
  have hin : INT64_MIN ≤ value.toInt ∧ value.toInt ≤ INT64_MAX := by
    unfold INT64_MIN INT64_MAX
    omega
  rw [axlS64ToStr, if_neg (by unfold AXL_S64_STR_MAX; omega), radix?_n]
  dsimp only
  split
  · have hneg : value.toInt = -(magnitude value.toInt : Int) := by omega
    refine ⟨MINUS :: u64DigitsRev r (magnitude value.toInt) [], ?_, fun out => ?_⟩
    · rw [emitResult_eq (by simp [AXL_S64_STR_MAX]; omega)]
    · have htext : SignedText r.n (MINUS :: u64DigitsRev r (magnitude value.toInt) [])
          value.toInt :=
        ⟨[], [MINUS], _, _, rfl, by simp, r.unprefixed hd, .inr ⟨rfl, hneg⟩⟩
      exact s64_accepts r.toBase out htext hin
  · have hpos : value.toInt = (magnitude value.toInt : Int) := by omega
    refine ⟨u64DigitsRev r (magnitude value.toInt) [], ?_, fun out => ?_⟩
    · rw [emitResult_eq (by simp [AXL_S64_STR_MAX]; omega)]
    · have htext : SignedText r.n (u64DigitsRev r (magnitude value.toInt) []) value.toInt :=
        ⟨[], [], _, _, rfl, by simp, r.unprefixed hd, .inl ⟨.inl rfl, hpos⟩⟩
      exact s64_accepts r.toBase out htext hin

/-! ## The pair -/

/-- The parsers do on this string what they promise, in strict mode and, when they fail,
in either mode. -/
structure ParsesExactly (base : Base) (s : List UInt8) : Prop where
  signed : ∀ out v : Int, (axlStrToS64 s base.n out false).Gives v ↔
    SignedText base.n s v ∧ INT64_MIN ≤ v ∧ v ≤ INT64_MAX
  unsigned : ∀ out v : Nat, (axlStrToU64 s base.n out false).Gives v ↔
    UnsignedText base.n s v ∧ v ≤ UINT64_MAX
  signedFailure : ∀ (out : Int) (e : Bool), (axlStrToS64 s base.n out e).rc = .ok ∨
    axlStrToS64 s base.n out e = failed s out e
  unsignedFailure : ∀ (out : Nat) (e : Bool), (axlStrToU64 s base.n out e).rc = .ok ∨
    axlStrToU64 s base.n out e = failed s out e

/-- What is rendered into a buffer of the documented size, or a larger one, is parsed
back. -/
structure RoundTrips (r : Radix) (u : UInt64) (v : Int64) : Prop where
  unsigned : ∀ k, ∃ text,
    axlU64ToStr u.toNat r.n (AXL_U64_STR_MAX + k) = (text.length, some text) ∧
      ∀ out, (axlStrToU64 text r.n out false).Gives u.toNat
  signed : ∀ k, ∃ text,
    axlS64ToStr v.toInt r.n (AXL_S64_STR_MAX + k) = (text.length, some text) ∧
      ∀ out, (axlStrToS64 text r.n out false).Gives v.toInt

/-- The parsers and the renderers meet their promises exactly on the strings that have
no second sign and no blanks behind the sign. -/
theorem str_to_s64_iff (base : Base) (s : CString) (r : Radix) (u : UInt64) (v : Int64) :
    ParsesExactly base s.bytes ∧ RoundTrips r u v ↔ ¬ DoublySigned base.n s.bytes := by
  constructor
  · exact fun h => (s64_exact_iff base s.bytes).mp h.1.signed
  · intro h
    refine ⟨⟨(s64_exact_iff base s.bytes).mpr h, fun out _ => u64_gives_iff base out,
      s64_failure s.bytes base.n, u64_failure s.bytes base.n⟩, ?_⟩
    exact ⟨u64_round_trip r u, s64_round_trip r v⟩

/-- `-+5` in base 10. -/
theorem minus_plus_five_accepted :
    ¬ ∀ (base : Base) (s : CString), ParsesExactly base s.bytes := by
  intro h
  have hd : Digits 10 [0x35] 5 := ⟨by simp, [5], .cons (by decide) .nil, rfl⟩
  have hu : UnsignedText 10 [PLUS, 0x35] 5 :=
    ⟨[], [PLUS], [0x35], rfl, by simp, .inr rfl, .inBase (by decide) hd⟩
  refine (s64_exact_iff ⟨10, by decide⟩ [MINUS, PLUS, 0x35]).mp
    (h ⟨10, by decide⟩ ⟨[MINUS, PLUS, 0x35], by decide⟩).signed ?_
  exact ⟨[], MINUS, [PLUS, 0x35], 5, rfl, by simp, .inr rfl, ⟨PLUS, rfl, .inr rfl⟩, hu,
    by unfold Fits INT64_MAX; decide⟩

end StrNumber

end AxlSdk
