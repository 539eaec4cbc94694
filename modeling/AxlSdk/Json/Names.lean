import AxlSdk.Json.Truncate

/-!
# The names that keys decode to

A caller reads a decoded string as a C string. `no_nul_iff` says when this is the
whole decode: a NUL gets through the decoder only where the text of the token has
one, which the lexer lets through behind a backslash.

- `Named bytes mode name`: some buffer takes the decode of `bytes` whole, and
  holds the C string `name`.
- `named_unique`: the buffer makes no difference.
-/

namespace AxlSdk

namespace Json

open Utf8 List

/-! ## NUL bytes -/

theorem hexNibble_zero : hexNibble 0 = none := by decide

theorem hexDigits_no_nul {k v n : Nat} {s : List UInt8} (h : hexDigits k s v = some n) :
    (0 : UInt8) ∉ s.take k := by
  induction k generalizing s v with
  | zero => simp
  | succ k ih =>
    cases s with
    | nil => simp
    | cons d ds =>
      rw [hexDigits] at h
      cases hd : hexNibble d with
      | none => simp [hd] at h
      | some m =>
        rw [hd] at h
        rw [take_succ_cons, mem_cons, not_or]
        refine ⟨?_, ih h⟩
        rintro rfl
        rw [hexNibble_zero] at hd
        cases hd

/-- The bytes that a `\u` escape takes behind its letter hold no NUL. -/
theorem decodeUnicode_no_nul (es : List UInt8) :
    (0 : UInt8) ∉ es.take ((decodeUnicode es).2 - 2) := by
  unfold decodeUnicode
  cases hcp : hex4 es with
  | none => simp
  | some cp =>
    have hfour : (0 : UInt8) ∉ es.take 4 := hexDigits_no_nul hcp
    dsimp only
    split
    case isTrue =>
      split
      case h_1 lo hlo =>
        split
        case isTrue =>
          -- both halves of the pair, and the `\u` between them
          rw [show es.take (12 - 2) = es.take 4 ++ (es.drop 4).take 6 by
            rw [← take_add]]
          rw [mem_append, not_or]
          refine ⟨hfour, ?_⟩
          split at hlo
          case isTrue hlead =>
            rw [show (es.drop 4).take 6 = (es.drop 4).take 2 ++ ((es.drop 4).drop 2).take 4 by
              rw [← take_add], hlead, mem_append, not_or]
            exact ⟨by decide, hexDigits_no_nul hlo⟩
          case isFalse => cases hlo
        case isFalse => exact hfour
      case h_2 => exact hfour
    case isFalse =>
      split
      case isTrue => exact hfour
      case isFalse => exact hfour

theorem decodeHexEscape_no_nul (es : List UInt8) :
    (0 : UInt8) ∉ es.take ((decodeHexEscape es).2 - 2) := by
  unfold decodeHexEscape
  split
  case h_1 hi lo hhi hlo =>
    have htwo : (0 : UInt8) ∉ es.take 2 := by
      obtain ⟨c, hc, hcn⟩ := Option.bind_eq_some_iff.mp hhi
      obtain ⟨d, hd, hdn⟩ := Option.bind_eq_some_iff.mp hlo
      cases es with
      | nil => simp
      | cons a es =>
        cases es with
        | nil => cases hd
        | cons b es =>
          cases hc
          cases hd
          simp only [take_succ_cons, take_zero, mem_cons, not_mem_nil,
            or_false, not_or]
          constructor
          · rintro rfl
            rw [hexNibble_zero] at hcn
            cases hcn
          · rintro rfl
            rw [hexNibble_zero] at hdn
            cases hdn
    split
    case isTrue => exact htwo
    case isFalse => exact htwo
  case h_2 => simp

theorem decodeEscape_no_nul (e : UInt8) (es : List UInt8) :
    (0 : UInt8) ∉ es.take ((decodeEscape e es).2 - 2) := by
  have htwo : ∀ {b : List UInt8}, (0 : UInt8) ∉ es.take ((b, 2).2 - 2) := by simp
  have hite : ∀ {c : Prop} [Decidable c] {u v : List UInt8 × Nat},
      (0 : UInt8) ∉ es.take (u.2 - 2) → (0 : UInt8) ∉ es.take (v.2 - 2) →
      (0 : UInt8) ∉ es.take ((if c then u else v).2 - 2) := by
    intro c _ u v hu hv
    split
    · exact hu
    · exact hv
  unfold decodeEscape
  refine hite htwo (hite htwo (hite htwo (hite htwo (hite htwo (hite htwo (hite htwo ?_))))))
  refine hite (decodeHexEscape_no_nul es) (hite (decodeUnicode_no_nul es) (hite htwo ?_))
  refine hite ?_ htwo
  dsimp only
  split
  case isTrue hlf =>
    cases es with
    | nil => simp
    | cons b es =>
      cases hlf
      simp
  case isFalse => simp

/-- A unit gives a NUL exactly where it takes one. -/
theorem mem_unit_zero {s : List UInt8} (hs : s ≠ []) :
    0 ∈ s ↔ 0 ∈ (decodeUnit s).1 ∨ 0 ∈ s.drop (decodeUnit s).2 := by
  have hbyte : ∀ {c : UInt8} {cs : List UInt8}, 0 ∈ c :: cs ↔ 0 ∈ [c] ∨ 0 ∈ cs := by simp
  obtain ⟨c, cs, rfl⟩ := exists_cons_of_ne_nil hs
  by_cases hc : c ≠ 0x5C ∨ cs = []
  · rw [decodeUnit_byte hc]
    exact hbyte
  obtain ⟨hc, hcs⟩ := not_or.mp hc
  obtain rfl := not_not.mp hc
  obtain ⟨e, es, rfl⟩ := exists_cons_of_ne_nil hcs
  rw [show decodeUnit (0x5C :: e :: es) = decodeEscape e es by rw [decodeUnit, if_pos rfl]]
  have hunit := decodeEscape_isUnit e es
  have htake := decodeEscape_no_nul e es
  have hzero : 0 ∈ (decodeEscape e es).1 ↔ e = 0 := by
    by_cases he : e = 0
    · subst he
      exact iff_of_true (by simp [decodeEscape]) rfl
    · refine iff_of_false (fun hmem => ?_) he
      generalize decodeEscape e es = u at hunit hmem
      cases hunit with
      | continuation => simp at hmem
      | named _ hu =>
        obtain ⟨-, cp, hcp, hpos, hu⟩ := hu
        rw [hu] at hmem
        by_cases hlow : cp < 0x80
        · rw [encode, if_pos hlow, mem_singleton] at hmem
          have := congrArg UInt8.toNat hmem
          rw [toNat_ofNat_of_lt (by omega)] at this
          exact absurd this hpos.ne
        · obtain ⟨b, t, he, hb, -, ht⟩ := (encode_multi hcp (Nat.not_lt.mp hlow)).shape
          rw [he, mem_cons] at hmem
          rcases hmem with rfl | hmem
          · simp at hb
          · have := (ht 0 hmem).1
            simp at this
      | escaped =>
        rw [mem_singleton] at hmem
        exact he hmem.symm
      | byte hc => simp at hc
  have hwidth : 2 ≤ (decodeEscape e es).2 := by
    generalize decodeEscape e es = u at hunit
    cases hunit with
    | continuation _ hn => exact hn
    | named _ hu => exact hu.1
    | escaped => exact Nat.le_refl 2
    | byte hc => simp at hc
  have hdrop : (0x5C :: e :: es).drop (decodeEscape e es).2 =
      es.drop ((decodeEscape e es).2 - 2) := by
    obtain ⟨k, hk⟩ : ∃ k, (decodeEscape e es).2 = k + 2 := ⟨_, (Nat.sub_add_cancel hwidth).symm⟩
    rw [hk]
    rfl
  have hes : 0 ∈ es ↔ 0 ∈ es.drop ((decodeEscape e es).2 - 2) := by
    conv_lhs => rw [← take_append_drop ((decodeEscape e es).2 - 2) es]
    rw [mem_append, or_iff_right htake]
  rw [hzero, hdrop, ← hes]
  simp [eq_comm]

theorem mem_decodeAll_zero (s : List UInt8) : 0 ∈ decodeAll s ↔ 0 ∈ s := by
  induction h : s.length using Nat.strong_induction_on generalizing s with
  | _ n ih =>
    by_cases hs : s = []
    · subst hs
      rfl
    · have hlt := drop_unit_lt hs
      rw [decodeAll_unit hs, mem_append, ih _ (h ▸ hlt) _ rfl, ← mem_unit_zero hs]

theorem mem_repairs_zero {s t : List UInt8} (h : Repairs s t) : 0 ∈ t ↔ 0 ∈ s := by
  induction h with
  | nil => rfl
  | ascii _ _ ih => rw [mem_cons, mem_cons, ih]
  | multi _ _ ih => rw [mem_append, mem_append, ih]
  | @bad b _ _ hb _ _ ih =>
    have hb' : ¬ 0 = b := by
      rintro rfl
      simp at hb
    rw [mem_append, mem_cons, ih, or_iff_right (by decide), or_iff_right hb']

variable {src : List UInt8} {utf8Mode : AxlJsonFlags}

theorem IsWhole.mem_zero {whole : List UInt8} (h : IsWhole src utf8Mode whole) :
    0 ∈ whole ↔ 0 ∈ src := by
  by_cases hmode : utf8Of utf8Mode = utf8Repair
  · rw [mem_repairs_zero (h.repaired hmode), mem_decodeAll_zero]
  · rw [h.plain hmode, mem_decodeAll_zero]

/-! ## Decoded strings -/

theorem Halts.out_isPrefix {m : Nat} {r : List UInt8 × List UInt8 × Bool} (h : Halts m src r) :
    r.2.1 <+: decodeAll src := by
  cases h with
  | done h => exact ⟨_, h.decodeAll.symm⟩
  | filled _ h => exact ⟨_, h.reads.decodeAll.symm⟩
  | refused _ h => exact ⟨_, h.decodeAll.symm⟩

/-- Whatever the size, what is written comes from the first bytes of the decode. -/
theorem decodeJsonString_front {w : List UInt8} {n : Nat} {truncated : Bool}
    (h : decodeJsonString src n utf8Mode = some (w, truncated)) :
    w.length ≤ n - 1 ∧ ∃ k, k <+: decodeAll src ∧ (w = k ∨ Repairs k w) := by
  have hhalts := decodeLoop_spec n src
  rw [decodeJsonString] at h
  split at h
  case isTrue => cases h
  case isFalse hn =>
    generalize decodeLoop n src.length src [] = r at hhalts h
    dsimp only at h
    generalize hkept : (if r.2.2 then r.2.1 else trimSplitTail r.1 r.2.1) = kept at h
    have hpre : kept <+: r.2.1 := by
      rw [← hkept]
      split
      · exact prefix_refl _
      · exact trimSplitTail_isPrefix _ _
    have hfront := hpre.trans hhalts.out_isPrefix
    have hroom := hpre.length_le.trans hhalts.out_le
    obtain ⟨rfl, -⟩ := Prod.mk.inj (Option.some.inj h)
    split
    case isTrue =>
      obtain ⟨m, rfl⟩ : ∃ m, n = m + 1 := ⟨n - 1, by omega⟩
      obtain ⟨k, rest, t, full, hk, hloop, hkeeps⟩ := keeps_exists m kept
      rw [hloop]
      exact ⟨hkeeps.fits, k, List.IsPrefix.trans ⟨rest, hk.symm⟩ hfront, .inr hkeeps.repairs⟩
    case isFalse => exact ⟨hroom, kept, hfront, .inl rfl⟩

theorem decodeJsonString_no_nul {w : List UInt8} {n : Nat} {truncated : Bool}
    (h : decodeJsonString src n utf8Mode = some (w, truncated)) (hsrc : 0 ∉ src) : 0 ∉ w := by
  obtain ⟨-, k, ⟨r, hk⟩, hw⟩ := decodeJsonString_front h
  have hk0 : 0 ∉ k := fun hmem =>
    hsrc ((mem_decodeAll_zero src).mp (hk ▸ mem_append_left r hmem))
  rcases hw with rfl | hrep
  · exact hk0
  · exact fun hmem => hk0 ((mem_repairs_zero hrep).mp hmem)

/-- A decode without report of a truncation is the whole of it. -/
theorem isWhole_of_decode {w : List UInt8} {n : Nat}
    (h : decodeJsonString src n utf8Mode = some (w, false)) : IsWhole src utf8Mode w := by
  have hn : n ≠ 0 := by
    rintro rfl
    cases h
  constructor
  · intro hmode
    obtain ⟨t, truncated, hdec, -, hwhole⟩ := decodeJsonString_repair hn src hmode
    obtain ⟨rfl, rfl⟩ := Prod.mk.inj (Option.some.inj (h.symm.trans hdec))
    exact (hwhole rfl).2
  · intro hmode
    have hhalts := decodeLoop_spec n src
    rw [decodeJsonString, if_neg hn] at h
    simp only [if_neg hmode, Bool.or_false] at h
    generalize decodeLoop n src.length src [] = r at hhalts h
    obtain ⟨hw, htrunc⟩ := Prod.mk.inj (Option.some.inj h)
    simp only [Bool.or_eq_false_iff, Bool.not_eq_false', List.isEmpty_iff] at htrunc
    obtain rfl := hhalts.of_done htrunc.1 htrunc.2
    rw [← hw]
    exact trimSplitTail_nil _

theorem IsWhole.unique {whole whole' : List UInt8} (h : IsWhole src utf8Mode whole)
    (h' : IsWhole src utf8Mode whole') : whole = whole' := by
  by_cases hmode : utf8Of utf8Mode = utf8Repair
  · exact (h.repaired hmode).unique (h'.repaired hmode)
  · rw [h.plain hmode, h'.plain hmode]

variable {bytes : List UInt8}

theorem cString_eq_self (h : 0 ∉ bytes) : cString bytes = bytes := by
  refine takeWhile_eq_self_iff.mpr fun b hb => ?_
  simp only [bne_iff_ne, ne_eq]
  rintro rfl
  exact h hb

theorem cString_no_nul (bytes : List UInt8) : 0 ∉ cString bytes := fun hmem => by
  have := mem_takeWhile_imp hmem
  simp at this

/-- No string of a reader decodes to bytes with a NUL among them, and strings that a C
comparison cannot tell apart decode alike, if and only if no text of a string token
holds a NUL. -/
theorem no_nul_iff (rd : Reader) :
    ((∀ t ∈ rd.tokens, t.type = .string → ∀ n utf8Mode w truncated,
        decodeJsonString (t.text rd.json) n utf8Mode = some (w, truncated) → 0 ∉ w) ∧
      ∀ t ∈ rd.tokens, t.type = .string → ∀ t' ∈ rd.tokens, t'.type = .string →
        ∀ n n' utf8Mode w w', decodeJsonString (t.text rd.json) n utf8Mode = some (w, false) →
          decodeJsonString (t'.text rd.json) n' utf8Mode = some (w', false) →
          cString w = cString w' → w = w') ↔
      ∀ t ∈ rd.tokens, t.type = .string → 0 ∉ t.text rd.json := by
  constructor
  · rintro ⟨hfree, -⟩ t ht hstr hmem
    obtain ⟨whole, hwhole⟩ := isWhole_exists (t.text rd.json) utf8Raw
    exact hfree t ht hstr _ _ _ _ (hwhole.decode (Nat.le_refl _)) (hwhole.mem_zero.mpr hmem)
  · intro htext
    have hfree : ∀ t ∈ rd.tokens, t.type = .string → ∀ n utf8Mode w truncated,
        decodeJsonString (t.text rd.json) n utf8Mode = some (w, truncated) → 0 ∉ w :=
      fun t ht hstr n utf8Mode w truncated hdec =>
        decodeJsonString_no_nul hdec (htext t ht hstr)
    refine ⟨hfree, ?_⟩
    intro t ht hstr t' ht' hstr' n n' utf8Mode w w' hdec hdec' hsame
    have hw := hfree t ht hstr n utf8Mode w false hdec
    have hw' := hfree t' ht' hstr' n' utf8Mode w' false hdec'
    rwa [cString_eq_self hw, cString_eq_self hw'] at hsame

/-- The text `["a\` and a NUL and `","a"]`: its strings are `a` to a C comparison, and
the first has a second byte. -/
theorem no_nul_escaped :
    parse [0x5B, 0x22, 0x61, 0x5C, 0x00, 0x22, 0x2C, 0x22, 0x61, 0x22, 0x5D] allowExtraEscapes =
      .ok ⟨[0x5B, 0x22, 0x61, 0x5C, 0x00, 0x22, 0x2C, 0x22, 0x61, 0x22, 0x5D],
        [⟨.array, 0, 11, 2⟩, ⟨.string, 2, 5, 0⟩, ⟨.string, 8, 9, 0⟩], utf8Repair⟩ ∧
    decodeJsonString [0x61, 0x5C, 0x00] 10 utf8Repair = some ([0x61, 0x00], false) ∧
    decodeJsonString [0x61] 10 utf8Repair = some ([0x61], false) ∧
    cString [0x61, 0x00] = cString [0x61] := by
  refine ⟨by decide +kernel, by decide +kernel, by decide +kernel, by decide⟩

/-! ## Names -/

/-- Some buffer takes the decode of `bytes` whole, and holds the C string `name`. -/
def Named (bytes : List UInt8) (utf8Mode : AxlJsonFlags) (name : List UInt8) : Prop :=
  ∃ n w, decodeJsonString bytes n utf8Mode = some (w, false) ∧ cString w = name

theorem named_iff {name : List UInt8} :
    Named bytes utf8Mode name ↔ ∃ whole, IsWhole bytes utf8Mode whole ∧ cString whole = name := by
  constructor
  · rintro ⟨n, w, hdec, hname⟩
    exact ⟨w, isWhole_of_decode hdec, hname⟩
  · rintro ⟨whole, hwhole, hname⟩
    exact ⟨_, whole, hwhole.decode (Nat.le_refl _), hname⟩

/-- The buffer makes no difference to a name. -/
theorem named_unique {name name' : List UInt8} (h : Named bytes utf8Mode name)
    (h' : Named bytes utf8Mode name') : name = name' := by
  obtain ⟨whole, hwhole, rfl⟩ := named_iff.mp h
  obtain ⟨whole', hwhole', rfl⟩ := named_iff.mp h'
  rw [hwhole.unique hwhole']

end Json

end AxlSdk
