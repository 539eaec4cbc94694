import AxlSdk.Json.Decode

/-!
# What a string token means

The loop of `decode_json_string` reads its source one unit at a time, a byte or
an escape. `decodeAll` is what the units of a source give when nothing bounds
them; `decodeLoop_spec` says where the loop stops when the buffer does.

- `Reads s s' bs`: units at the front of `s` give `bs` and leave `s'`.
- `Fills src s out`: the units of `src` up to `s`, and no fewer, give `out`.
-/

namespace AxlSdk

namespace Json

open Utf8 List

/-! ## Units of the source -/

/-- What an escape that names a character gives: the encoding of a scalar value
other than NUL, and a width. -/
def NamesScalar (u : List UInt8 × Nat) : Prop :=
  2 ≤ u.2 ∧ ∃ cp, Scalar cp ∧ 0 < cp ∧ u.1 = encode cp

variable {n : Nat}

theorem namesScalar_encode {cp : Nat} (hs : Scalar cp) (hpos : 0 < cp) (hn : 2 ≤ n) :
    NamesScalar (utf8Encode cp, n) := by
  refine ⟨hn, cp, hs, hpos, utf8Encode_eq ?_⟩
  unfold Scalar at hs
  omega

theorem replacement_eq : replacement = encode 0xFFFD := by decide

theorem namesScalar_replacement (hn : 2 ≤ n) : NamesScalar (replacement, n) :=
  ⟨hn, 0xFFFD, by decide, by decide, replacement_eq⟩

theorem hexNibble_lt {c : UInt8} (h : hexNibble c = some n) : n < 16 := by
  have hall := byte_all (p := fun c => ∀ n ∈ hexNibble c, n < 16) (by decide +kernel) c
  exact hall n h

variable {s : List UInt8}

theorem hexDigits_lt {k v : Nat} (h : hexDigits k s v = some n) :
    n < (v + 1) * 16 ^ k := by
  induction k generalizing s v with
  | zero =>
    cases h
    simp
  | succ k ih =>
    cases s with
    | nil => cases h
    | cons d ds =>
      rw [hexDigits] at h
      cases hd : hexNibble d with
      | none => simp [hd] at h
      | some m =>
        rw [hd] at h
        have hm := hexNibble_lt hd
        calc n < (v * 16 + m + 1) * 16 ^ k := ih h
          _ ≤ ((v + 1) * 16) * 16 ^ k := Nat.mul_le_mul_right _ (by omega)
          _ = (v + 1) * 16 ^ (k + 1) := by rw [Nat.pow_succ, Nat.mul_assoc, Nat.mul_comm 16]

theorem hex4_lt (h : hex4 s = some n) : n < 0x10000 := by
  have := hexDigits_lt h
  omega

theorem decodeUnicode_scalar (es : List UInt8) : NamesScalar (decodeUnicode es) := by
  unfold decodeUnicode
  cases hcp : hex4 es with
  | none => exact ⟨Nat.le_refl 2, 0x75, by decide, by decide, rfl⟩
  | some cp =>
    have hlt := hex4_lt hcp
    dsimp only
    split
    case isTrue hhigh =>
      split
      case h_1 lo hlo =>
        split
        case isTrue hlow =>
          exact namesScalar_encode (by unfold Scalar; omega) (by omega) (by decide)
        case isFalse => exact namesScalar_replacement (by decide)
      case h_2 => exact namesScalar_replacement (by decide)
    case isFalse hhigh =>
      split
      case isTrue => exact namesScalar_replacement (by decide)
      case isFalse hlow =>
        exact namesScalar_encode (by unfold Scalar; omega) (by omega) (by decide)

theorem decodeHexEscape_scalar (es : List UInt8) : NamesScalar (decodeHexEscape es) := by
  unfold decodeHexEscape
  split
  case h_1 hi lo hhi hlo =>
    obtain ⟨c, -, hc⟩ := Option.bind_eq_some_iff.mp hhi
    obtain ⟨d, -, hd⟩ := Option.bind_eq_some_iff.mp hlo
    have hc := hexNibble_lt hc
    have hd := hexNibble_lt hd
    split
    case isTrue => exact namesScalar_replacement (by decide)
    case isFalse => exact namesScalar_encode (by unfold Scalar; omega) (by omega) (by decide)
  case h_2 => exact ⟨by decide, 0x78, by decide, by decide, by decide⟩

/-- A unit is a line continuation, an escape that names a character, a byte behind a
backslash, or a byte of the source. -/
inductive IsUnit : List UInt8 → List UInt8 × Nat → Prop where
  | continuation {e : UInt8} {es : List UInt8} {n : Nat} (he : e = 0x0A ∨ e = 0x0D) (hn : 2 ≤ n) :
      IsUnit (0x5C :: e :: es) ([], n)
  | named {e : UInt8} {es : List UInt8} {u : List UInt8 × Nat} (he : e.toNat < 0x80)
      (hu : NamesScalar u) : IsUnit (0x5C :: e :: es) u
  | escaped {e : UInt8} {es : List UInt8} : IsUnit (0x5C :: e :: es) ([e], 2)
  | byte {c : UInt8} {cs : List UInt8} (hc : c ≠ 0x5C ∨ cs = []) : IsUnit (c :: cs) ([c], 1)

variable {bs : List UInt8}

/-- A letter that stands for a control character. -/
theorem IsUnit.control {e : UInt8} {es : List UInt8} (he : e.toNat < 0x80) (cp : Nat)
    (hs : Scalar cp) (hpos : 0 < cp) (hbs : bs = encode cp) :
    IsUnit (0x5C :: e :: es) (bs, 2) :=
  .named he ⟨Nat.le_refl 2, cp, hs, hpos, hbs⟩

theorem IsUnit.ite {c : Prop} [Decidable c] {u v : List UInt8 × Nat} (hu : c → IsUnit s u)
    (hv : IsUnit s v) : IsUnit s (if c then u else v) := by
  split
  case isTrue h => exact hu h
  case isFalse => exact hv

theorem decodeEscape_isUnit (e : UInt8) (es : List UInt8) :
    IsUnit (0x5C :: e :: es) (decodeEscape e es) := by
  unfold decodeEscape
  refine .ite (fun h => h ▸ .control (by decide) 0x08 (by decide) (by decide) (by decide)) ?_
  refine .ite (fun h => h ▸ .control (by decide) 0x0C (by decide) (by decide) (by decide)) ?_
  refine .ite (fun h => h ▸ .control (by decide) 0x0A (by decide) (by decide) (by decide)) ?_
  refine .ite (fun h => h ▸ .control (by decide) 0x0D (by decide) (by decide) (by decide)) ?_
  refine .ite (fun h => h ▸ .control (by decide) 0x09 (by decide) (by decide) (by decide)) ?_
  refine .ite (fun h => h ▸ .control (by decide) 0x0B (by decide) (by decide) (by decide)) ?_
  refine .ite (fun h => h ▸ .control (by decide) 0xFFFD (by decide) (by decide) replacement_eq) ?_
  refine .ite (fun h => h ▸ .named (by decide) (decodeHexEscape_scalar es)) ?_
  refine .ite (fun h => h ▸ .named (by decide) (decodeUnicode_scalar es)) ?_
  refine .ite (fun h => .continuation (.inl h) (Nat.le_refl 2)) ?_
  refine .ite (fun h => .continuation (.inr h) ?_) .escaped
  split <;> decide

theorem decodeUnit_isUnit (h : s ≠ []) : IsUnit s (decodeUnit s) := by
  obtain ⟨c, cs, rfl⟩ := exists_cons_of_ne_nil h
  cases cs with
  | nil => exact .byte (.inr rfl)
  | cons e es =>
    rw [decodeUnit]
    split
    case isTrue hc =>
      subst hc
      exact decodeEscape_isUnit e es
    case isFalse hc => exact .byte (.inl hc)

theorem decodeUnit_pos (s : List UInt8) : 1 ≤ (decodeUnit s).2 := by
  by_cases h : s = []
  · subst h
    decide
  · have hu := decodeUnit_isUnit h
    generalize decodeUnit s = u at hu ⊢
    cases hu with
    | continuation _ hn => exact Nat.le_of_succ_le hn
    | named _ hu => exact Nat.le_of_succ_le hu.1
    | escaped => exact Nat.le_succ 1
    | byte => exact Nat.le_refl 1

/-- The source behind the first unit is shorter. -/
theorem drop_unit_lt (h : s ≠ []) :
    (s.drop (decodeUnit s).2).length < s.length := by
  have := decodeUnit_pos s
  have := length_pos_of_ne_nil h
  rw [length_drop]
  omega

/-- Whole units at the front of `s` give `bs` and leave `s'`. -/
inductive Reads : List UInt8 → List UInt8 → List UInt8 → Prop where
  | nil {s : List UInt8} : Reads s s []
  | unit {s s' bs : List UInt8} (hs : s ≠ []) (h : Reads (s.drop (decodeUnit s).2) s' bs) :
      Reads s s' ((decodeUnit s).1 ++ bs)

variable {s' : List UInt8}

theorem Reads.trans {s'' bs' : List UInt8} (h : Reads s s' bs) (h' : Reads s' s'' bs') :
    Reads s s'' (bs ++ bs') := by
  induction h with
  | nil => exact h'
  | unit hs _ ih =>
    rw [append_assoc]
    exact .unit hs (ih h')

/-- The units of a source, for a given number of turns. -/
def decodeUnits : Nat → List UInt8 → List UInt8
  | 0, _ => []
  | fuel + 1, s =>
    if s = [] then [] else (decodeUnit s).1 ++ decodeUnits fuel (s.drop (decodeUnit s).2)

/-- What all the units of a source give. -/
def decodeAll (s : List UInt8) : List UInt8 := decodeUnits s.length s

theorem decodeUnits_reads {fuel : Nat} (h : s.length ≤ fuel) :
    Reads s [] (decodeUnits fuel s) := by
  induction fuel generalizing s with
  | zero =>
    obtain rfl : s = [] := eq_nil_of_length_eq_zero (by omega)
    exact .nil
  | succ fuel ih =>
    rw [decodeUnits]
    split
    case isTrue hs =>
      subst hs
      exact .nil
    case isFalse hs =>
      have := drop_unit_lt hs
      exact .unit hs (ih (by omega))

theorem reads_decodeAll (s : List UInt8) : Reads s [] (decodeAll s) :=
  decodeUnits_reads (Nat.le_refl _)

/-- Two points that units lead to lie one behind the other. -/
theorem Reads.linear {a b x y : List UInt8} (ha : Reads s a x) (hb : Reads s b y) :
    (∃ z, Reads a b z ∧ y = x ++ z) ∨ ∃ z, Reads b a z ∧ x = y ++ z := by
  induction ha generalizing b y with
  | nil => exact .inl ⟨y, hb, rfl⟩
  | @unit s s' bs hs h ih =>
    cases hb with
    | nil => exact .inr ⟨_, .unit hs h, rfl⟩
    | unit _ hb =>
      rcases ih hb with ⟨z, hz, he⟩ | ⟨z, hz, he⟩
      · exact .inl ⟨z, hz, by rw [he, append_assoc]⟩
      · exact .inr ⟨z, hz, by rw [he, append_assoc]⟩

theorem reads_nil (h : Reads [] s bs) : s = [] ∧ bs = [] := by
  cases h with
  | nil => exact ⟨rfl, rfl⟩
  | unit hs => exact absurd rfl hs

theorem Reads.decodeAll (h : Reads s s' bs) :
    Json.decodeAll s = bs ++ Json.decodeAll s' := by
  have hto := h.trans (reads_decodeAll s')
  rcases (reads_decodeAll s).linear hto with ⟨z, hz, he⟩ | ⟨z, hz, he⟩
  · rw [he, (reads_nil hz).2, append_nil]
  · rw [he, (reads_nil hz).2, append_nil]

@[simp] theorem decodeAll_nil : decodeAll [] = [] := rfl

theorem decodeAll_unit (hs : s ≠ []) :
    decodeAll s = (decodeUnit s).1 ++ decodeAll (s.drop (decodeUnit s).2) := by
  have h := (Reads.unit hs .nil).decodeAll
  rwa [append_nil] at h

/-! ## The bounded loop -/

/-- `s` is the first point at which the units of `src` have given `out`. -/
structure Fills (src s out : List UInt8) : Prop where
  reads : Reads src s out
  first : ∀ s', Reads src s' out → Reads s s' []

theorem Fills.nil : Fills s s [] := ⟨.nil, fun _ h => h⟩

theorem Fills.unit {s s' out : List UInt8} (hs : s ≠ []) (hne : (decodeUnit s).1 ++ out ≠ [])
    (h : Fills (s.drop (decodeUnit s).2) s' out) : Fills s s' ((decodeUnit s).1 ++ out) := by
  refine ⟨.unit hs h.reads, fun t ht => ?_⟩
  generalize ho : (decodeUnit s).1 ++ out = o at ht hne
  cases ht with
  | nil => exact absurd rfl hne
  | unit _ ht =>
    rw [append_cancel_left ho] at h
    exact h.first t ht

theorem Reads.length_le (h : Reads s s' bs) : s'.length ≤ s.length := by
  induction h with
  | nil => exact Nat.le_refl _
  | unit hs _ ih =>
    have := drop_unit_lt hs
    omega

theorem Reads.antisymm {bs' : List UInt8} (h : Reads s s' bs) (h' : Reads s' s bs') :
    s = s' := by
  have hle := h'.length_le
  cases h with
  | nil => rfl
  | unit hs h =>
    have := drop_unit_lt hs
    have := h.length_le
    omega

/-- A number of bytes is first given at one point only. -/
theorem Fills.unique {src out out' : List UInt8} (h : Fills src s out) (h' : Fills src s' out')
    (hlen : out.length = out'.length) : s = s' ∧ out = out' := by
  obtain rfl : out = out' := by
    rcases h.reads.linear h'.reads with ⟨z, -, rfl⟩ | ⟨z, -, rfl⟩
    · rw [length_append] at hlen
      rw [eq_nil_of_length_eq_zero (by omega : z.length = 0), append_nil]
    · rw [length_append] at hlen
      rw [eq_nil_of_length_eq_zero (by omega : z.length = 0), append_nil]
  exact ⟨(h.first s' h'.reads).antisymm (h'.first s h.reads), rfl⟩

/-- Where the loop stops: at the end of the source, at a full buffer, or at a unit
that does not fit. -/
inductive Halts (m : Nat) (src : List UInt8) : List UInt8 × List UInt8 × Bool → Prop where
  | done {out : List UInt8} (h : Reads src [] out) (hout : out.length ≤ m)
      (hfirst : out.length = m → Fills src [] out) : Halts m src ([], out, false)
  | filled {s out : List UInt8} (hs : s ≠ []) (h : Fills src s out) (hout : out.length = m) :
      Halts m src (s, out, false)
  | refused {s out : List UInt8} (hs : s ≠ []) (h : Reads src s out) (hout : out.length < m)
      (hfull : m < out.length + (decodeUnit s).1.length) :
      Halts m src (s.drop (decodeUnit s).2, out, true)

theorem Halts.unit {m k : Nat} {s : List UInt8} {r : List UInt8 × List UInt8 × Bool}
    (hs : s ≠ []) (hm : m = (decodeUnit s).1.length + k) (hpos : 0 < m)
    (h : Halts k (s.drop (decodeUnit s).2) r) :
    Halts m s (r.1, (decodeUnit s).1 ++ r.2.1, r.2.2) := by
  have hlen : ∀ o : List UInt8,
      ((decodeUnit s).1 ++ o).length = (decodeUnit s).1.length + o.length :=
    fun o => length_append
  have hne : ∀ o : List UInt8, ((decodeUnit s).1 ++ o).length = m → (decodeUnit s).1 ++ o ≠ [] :=
    fun o ho he => by
      rw [he, length_nil] at ho
      omega
  cases h with
  | @done out h hout hfirst =>
    have := hlen out
    exact .done (.unit hs h) (by dsimp only; omega) fun hm' =>
      (hfirst (by dsimp only at hm'; omega)).unit hs (hne out hm')
  | @filled s' out hs' h hout =>
    have hlen := hlen out
    rw [hout, ← hm] at hlen
    exact .filled hs' (h.unit hs (hne out hlen)) hlen
  | @refused s' out hs' h hout hfull =>
    have := hlen out
    exact .refused hs' (.unit hs h) (by dsimp only; omega) (by dsimp only; omega)

theorem decodeLoop_append {dstSize fuel : Nat} {s out : List UInt8} (hfuel : s.length ≤ fuel)
    (hout : out.length ≤ dstSize - 1) :
    ∃ r, decodeLoop dstSize fuel s out = (r.1, out ++ r.2.1, r.2.2) ∧
      Halts (dstSize - 1 - out.length) s r := by
  induction fuel generalizing s out with
  | zero =>
    obtain rfl : s = [] := eq_nil_of_length_eq_zero (by omega)
    exact ⟨([], [], false), by simp [decodeLoop], .done .nil (Nat.zero_le _) fun _ => .nil⟩
  | succ fuel ih =>
    rw [decodeLoop]
    by_cases hs : s = []
    · subst hs
      exact ⟨([], [], false), by simp, .done .nil (Nat.zero_le _) fun _ => .nil⟩
    by_cases hfilled : out.length ≥ dstSize - 1
    · rw [if_pos (.inr hfilled)]
      refine ⟨(s, [], false), by simp, .filled hs .nil ?_⟩
      rw [length_nil]
      omega
    rw [if_neg (by simp [hs, hfilled])]
    dsimp only
    split
    case isTrue h =>
      refine ⟨(s.drop (decodeUnit s).2, [], true), by simp, .refused hs .nil ?_ ?_⟩
      · rw [length_nil]
        omega
      · rw [length_nil]
        omega
    case isFalse h =>
      have hlt := drop_unit_lt hs
      obtain ⟨r, hr, hhalts⟩ := @ih (s.drop (decodeUnit s).2) (out ++ (decodeUnit s).1) (by omega)
        (by rw [length_append]; omega)
      refine ⟨(r.1, (decodeUnit s).1 ++ r.2.1, r.2.2), ?_, .unit hs ?_ (by omega) hhalts⟩
      · rw [hr, append_assoc]
      · rw [length_append]
        omega

theorem decodeLoop_spec (dstSize : Nat) (src : List UInt8) :
    Halts (dstSize - 1) src (decodeLoop dstSize src.length src []) := by
  obtain ⟨r, hr, hhalts⟩ := @decodeLoop_append dstSize src.length src [] (Nat.le_refl _)
    (Nat.zero_le _)
  rw [hr]
  exact hhalts

/-- More room changes nothing once the whole source was read. -/
theorem decodeLoop_mono {m fuel : Nat} {out o : List UInt8} (hnm : n ≤ m)
    (h : decodeLoop n fuel s out = ([], o, false)) :
    decodeLoop m fuel s out = ([], o, false) := by
  induction fuel generalizing s out with
  | zero => exact h
  | succ fuel ih =>
    rw [decodeLoop] at h ⊢
    by_cases hs : s = []
    · rw [if_pos (.inl hs)] at h ⊢
      exact h
    have hroom : ¬ out.length ≥ n - 1 := fun hge => by
      rw [if_pos (.inr hge)] at h
      exact hs (congrArg Prod.fst h)
    rw [if_neg (by simp [hs, hroom])] at h
    rw [if_neg (by simp [hs]; omega)]
    dsimp only at h ⊢
    split at h
    case isTrue => simp at h
    case isFalse hfit =>
      rw [if_neg (by omega)]
      exact ih h

/-! ## The trim -/

theorem isCont_false {b : UInt8} (h : ¬ Cont b) : isCont b = false := by
  rwa [Bool.eq_false_iff, ne_eq, isCont_iff]

theorem leadNeed_le (b : UInt8) : leadNeed b ≤ 4 := by
  unfold leadNeed
  repeat' split
  all_goals decide

theorem leadNeed_ascii {b : UInt8} (h : b < 0x80) : leadNeed b = 1 := by
  have hb := UInt8.lt_iff_toNat_lt.mp h
  have hb : b.toNat < 0x80 := hb
  simp only [leadNeed, lead2_iff, lead3_iff, lead4_iff]
  rw [if_neg (by omega), if_neg (by omega), if_neg (by omega)]

/-- The lead `c` and what follows it are `back` bytes, fewer than it announces, and the
source `s` goes on with the others. -/
def Coming (c : UInt8) (back : Nat) (s : List UInt8) : Prop :=
  back < leadNeed c ∧ peekContinuations (leadNeed c - back) s = leadNeed c - back

instance (c : UInt8) (back : Nat) (s : List UInt8) : Decidable (Coming c back s) :=
  inferInstanceAs (Decidable (_ ∧ _))

theorem trimBack_lead {t x : List UInt8} {c : UInt8} {fuel back : Nat} (ht : ∀ b ∈ t, Cont b)
    (hc : ¬ Cont c) (hfuel : t.length < fuel) (hback : 1 ≤ back) :
    trimBack s fuel (t ++ c :: x) back =
      if Coming c (back + t.length) s then back + t.length else 0 := by
  induction t generalizing fuel back with
  | nil =>
    obtain ⟨fuel, rfl⟩ : ∃ k, fuel = k + 1 := Nat.exists_eq_succ_of_ne_zero (by
      rintro rfl
      simp at hfuel)
    rw [nil_append, trimBack, isCont_false hc, if_neg Bool.false_ne_true]
    simp only [length_nil, Nat.add_zero]
    by_cases hlead : leadNeed c = 1
    · have hno : ¬ Coming c back s := fun h => by
        have := h.1
        omega
      by_cases hasc : c < 0x80
      · simp [hasc, hno, hback]
      · simp [hasc, hno, hlead]
    · have hasc : ¬ c < 0x80 := fun h => hlead (leadNeed_ascii h)
      simp only [hasc, if_false, hlead]
      split
      case isTrue h =>
        rw [if_neg fun hc : Coming c back s => absurd hc.1 (by omega)]
      case isFalse h =>
        have hlt : back < leadNeed c := by omega
        by_cases hpeek : peekContinuations (leadNeed c - back) s = leadNeed c - back
        · rw [if_pos hpeek, if_pos (show Coming c back s from ⟨hlt, hpeek⟩)]
        · rw [if_neg hpeek, if_neg fun hc : Coming c back s => hpeek hc.2]
  | cons b t ih =>
    obtain ⟨fuel, rfl⟩ : ∃ k, fuel = k + 1 := Nat.exists_eq_succ_of_ne_zero (by
      rintro rfl
      simp at hfuel)
    rw [cons_append, trimBack, if_pos ((isCont_iff _).mpr (ht b (by simp))),
      ih (fun b hb => ht b (mem_cons_of_mem _ hb)) (by simpa using hfuel) (by omega),
      length_cons]
    rw [show back + 1 + t.length = back + (t.length + 1) by omega]

/-- The bytes that are walked back over are orphans: there is no lead in range. -/
theorem trimBack_orphans {s t x : List UInt8} {fuel back : Nat} (ht : ∀ b ∈ t, Cont b)
    (h : fuel ≤ t.length ∨ x = []) : trimBack s fuel (t ++ x) back = 0 := by
  induction t generalizing fuel back with
  | nil =>
    cases fuel with
    | zero => rfl
    | succ fuel =>
      obtain rfl : x = [] := by
        rcases h with h | h
        · simp at h
        · exact h
      rfl
  | cons b t ih =>
    cases fuel with
    | zero => rfl
    | succ fuel =>
      rw [cons_append, trimBack, if_pos ((isCont_iff _).mpr (ht b (by simp)))]
      refine ih (fun b hb => ht b (mem_cons_of_mem _ hb)) ?_
      rw [length_cons] at h
      exact h.imp_left Nat.le_of_succ_le_succ

theorem trimSplitTail_lead {t x : List UInt8} {c : UInt8} (ht : ∀ b ∈ t, Cont b) (hc : ¬ Cont c) :
    trimSplitTail s (x ++ c :: t) = if Coming c (t.length + 1) s then x else x ++ c :: t := by
  have hrev : (x ++ c :: t).reverse = t.reverse ++ c :: x.reverse := by simp
  have ht' : ∀ b ∈ t.reverse, Cont b := fun b hb => ht b (mem_reverse.mp hb)
  rw [trimSplitTail, hrev]
  by_cases hlen : t.length < 4
  · rw [trimBack_lead ht' hc (by simpa using hlen) (Nat.le_refl 1), length_reverse,
      Nat.add_comm 1]
    split
    case isTrue => rw [length_append, length_cons, Nat.add_sub_cancel, take_left]
    case isFalse => simp
  · have hno : ¬ Coming c (t.length + 1) s := fun h => by
      have := h.1
      have := leadNeed_le c
      omega
    rw [trimBack_orphans ht' (.inl (by simpa using hlen)), if_neg hno]
    simp

theorem trimSplitTail_orphans {t : List UInt8} (ht : ∀ b ∈ t, Cont b) :
    trimSplitTail s t = t := by
  have ht' : ∀ b ∈ t.reverse, Cont b := fun b hb => ht b (mem_reverse.mp hb)
  have hback := @trimBack_orphans s t.reverse [] 4 1 ht' (.inr rfl)
  rw [append_nil] at hback
  rw [trimSplitTail, hback]
  simp

/-- A byte string ends in continuation bytes behind another byte, or has no other. -/
theorem conts_suffix (out : List UInt8) :
    (∀ b ∈ out, Cont b) ∨ ∃ x c t, out = x ++ c :: t ∧ ¬ Cont c ∧ ∀ b ∈ t, Cont b := by
  induction out with
  | nil => exact .inl (by simp)
  | cons b out ih =>
    rcases ih with hall | ⟨x, c, t, rfl, hc, ht⟩
    · by_cases hb : Cont b
      · exact .inl (by simpa using ⟨hb, hall⟩)
      · exact .inr ⟨[], b, out, rfl, hb, hall⟩
    · exact .inr ⟨b :: x, c, t, rfl, hc, ht⟩

/-- With the whole source read there is nothing to come, and nothing is trimmed. -/
theorem trimSplitTail_nil (out : List UInt8) : trimSplitTail [] out = out := by
  rcases conts_suffix out with hall | ⟨x, c, t, rfl, hc, ht⟩
  · exact trimSplitTail_orphans hall
  · rw [trimSplitTail_lead ht hc, if_neg]
    rintro ⟨hlt, hpeek⟩
    obtain ⟨k, hk⟩ : ∃ k, leadNeed c - (t.length + 1) = k + 1 :=
      Nat.exists_eq_succ_of_ne_zero (by omega)
    rw [hk] at hpeek
    cases hpeek

theorem decodeUnit_byte {c : UInt8} {cs : List UInt8} (h : c ≠ 0x5C ∨ cs = []) :
    decodeUnit (c :: cs) = ([c], 1) := by
  cases cs with
  | nil => rfl
  | cons e es =>
    rw [decodeUnit, if_neg (h.resolve_right (by simp))]

theorem decodeUnit_escaped {e : UInt8} (he : Cont e) (es : List UInt8) :
    decodeUnit (0x5C :: e :: es) = ([e], 2) := by
  have hu := decodeUnit_isUnit (cons_ne_nil 0x5C (e :: es))
  generalize decodeUnit (0x5C :: e :: es) = u at hu ⊢
  have hge := he.1
  cases hu with
  | continuation hlf =>
    rcases hlf with rfl | rfl
    · exact absurd hge (by decide)
    · exact absurd hge (by decide)
  | named hlt => omega
  | escaped => rfl
  | byte hc => simp at hc

/-- The bytes that `peek_continuations` counts are the next ones of the decode. -/
theorem peekContinuations_reads {k : Nat} (h : peekContinuations k s = k) :
    ∃ cs s', cs.length = k ∧ (∀ b ∈ cs, Cont b) ∧ Reads s s' cs := by
  induction k generalizing s with
  | zero => exact ⟨[], s, rfl, by simp, .nil⟩
  | succ k ih =>
    -- the byte `c` of the unit at the front, and then the others
    have hnext : ∀ {s r : List UInt8} {c : UInt8}, Cont c → s ≠ [] → (decodeUnit s).1 = [c] →
        s.drop (decodeUnit s).2 = r → peekContinuations k r = k →
        ∃ cs s', cs.length = k + 1 ∧ (∀ b ∈ cs, Cont b) ∧ Reads s s' cs := by
      intro s r c hc hs hout hdrop hrest
      obtain ⟨cs, s', hlen, hcs, hreads⟩ := ih hrest
      refine ⟨[c] ++ cs, s', by simp [hlen], by simpa using ⟨hc, hcs⟩, ?_⟩
      rw [← hout]
      exact .unit hs (hdrop ▸ hreads)
    cases s with
    | nil => cases h
    | cons c cs =>
      cases cs with
      | nil =>
        rw [peekContinuations] at h
        split at h
        case isTrue hc =>
          obtain rfl : k = 0 := by omega
          exact hnext ((isCont_iff c).mp hc) (by simp) rfl rfl rfl
        case isFalse => omega
      | cons e es =>
        rw [peekContinuations] at h
        split at h
        case isTrue hbs =>
          subst hbs
          split at h
          case isTrue he =>
            have he := (isCont_iff e).mp he
            have hunit := decodeUnit_escaped he es
            exact hnext he (by simp) (by rw [hunit]) (by rw [hunit]; rfl) (Nat.succ.inj h)
          case isFalse => omega
        case isFalse hbs =>
          split at h
          case isTrue hc =>
            have hunit := @decodeUnit_byte c (e :: es) (.inl hbs)
            exact hnext ((isCont_iff c).mp hc) (by simp) (by rw [hunit]) (by rw [hunit]; rfl)
              (Nat.succ.inj h)
          case isFalse => omega

theorem trimSplitTail_isPrefix (s out : List UInt8) : trimSplitTail s out <+: out :=
  take_prefix _ _

end Json

end AxlSdk
