import AxlSdk.Json.Language
import AxlSdk.Lib.Rfc8259

/-!
# Strict parsing is RFC 8259

With `AXL_JSON_STRICT` and a depth limit the lexicon of the parser is the one of
RFC 8259, so that `axl_json_parse` accepts exactly the JSON texts that nest no
deeper than the limit, and lists their syntax tree.

- `lexicon_strict`: the two lexicons are one.
- `parse_strict_exact`: the language and the tokens.
-/

namespace AxlSdk

namespace Json

open JsonSyntax Scanner

/-! ## Strict flags -/

/-- `AXL_JSON_STRICT | AXL_JSON_DEPTH(d)`. -/
def strictDepth (d : Nat) : AxlJsonFlags := strict ||| depthFlag d

/-- No flag but the depth is set. -/
theorem strictDepth_and {f : AxlJsonFlags} (hf : f = f &&& 0x3FFFFFFFFF#64) (d : Nat) :
    strictDepth d &&& f = 0#64 := by
  have hlow : ∀ k < 257, (BitVec.ofNat 64 k <<< 38) &&& 0x3FFFFFFFFF#64 = 0#64 := by
    decide +kernel
  have hd : depthFlag d &&& 0x3FFFFFFFFF#64 = 0#64 :=
    hlow (min d depthMax) (by unfold depthMax; omega)
  rw [strictDepth, strict, BitVec.zero_or, hf, BitVec.and_comm f, ← BitVec.and_assoc, hd,
    BitVec.zero_and]

theorem allows_strictDepth {f : AxlJsonFlags} (hf : f = f &&& 0x3FFFFFFFFF#64) (d : Nat) :
    allows (strictDepth d) f = false := by
  simp [allows, strictDepth_and hf d]

theorem utf8Of_strictDepth (d : Nat) : utf8Of (strictDepth d) = 0#64 :=
  strictDepth_and (by decide) d

/-- The depth limit that is asked for, up to `AXL_JSON_DEPTH_MAX`; none is the
default. -/
theorem depthLimit_strictDepth (d : Nat) :
    depthLimit (strictDepth d) = if d = 0 then depthDefault else min d depthMax := by
  have hall : ∀ k < 257, ((BitVec.ofNat 64 k <<< 38 >>> 38) &&& 0x3FF#64).toNat = k := by
    decide +kernel
  have hd : depthOf (strictDepth d) = min d depthMax := by
    rw [depthOf, strictDepth, strict, BitVec.zero_or]
    exact hall (min d depthMax) (by unfold depthMax; omega)
  unfold depthLimit
  rw [hd]
  unfold depthMax
  by_cases h : d = 0
  · simp [h]
  · simp [h]

/-! ## Its lexicon -/

variable {flags : AxlJsonFlags}

/-- No extension of the syntax is allowed. -/
structure NoExtension (flags : AxlJsonFlags) : Prop where
  comments : allows flags allowComments = false
  trailingComma : allows flags allowTrailingComma = false
  unquotedKeys : allows flags allowUnquotedKeys = false
  singleQuotes : allows flags allowSingleQuotes = false
  hex : allows flags allowHex = false
  extraEscapes : allows flags allowExtraEscapes = false
  plusSign : allows flags allowPlusSign = false
  leadingPoint : allows flags allowLeadingPoint = false
  nanInf : allows flags allowNanInf = false
  extraWhitespace : allows flags allowExtraWhitespace = false

theorem noExtension_strictDepth (d : Nat) : NoExtension (strictDepth d) := by
  constructor <;> exact allows_strictDepth (by decide) d

namespace NoExtension

variable (h : NoExtension flags)

include h

theorem spaceOk_iff (c : UInt8) :
    SpaceOk flags c ↔ c = 0x20 ∨ c = 0x09 ∨ c = 0x0A ∨ c = 0x0D := by
  rw [SpaceOk, h.extraWhitespace]
  exact byte_all (p := fun c => (isSpace c = true ∧ (c = 0x0B ∨ c = 0x0C → false = true)) ↔
    (c = 0x20 ∨ c = 0x09 ∨ c = 0x0A ∨ c = 0x0D)) (by decide +kernel) c

theorem gap_iff (g : List UInt8) : Gap flags g ↔ Rfc8259.Ws g := by
  constructor
  · intro hg
    induction hg with
    | nil => simp [Rfc8259.Ws]
    | space hc _ ih =>
      intro c' hc'
      rcases List.mem_cons.mp hc' with rfl | hc'
      · exact (h.spaceOk_iff _).mp hc
      · exact ih c' hc'
    | line hf => simp [h.comments] at hf
    | block hf => simp [h.comments] at hf
  · intro hg
    induction g with
    | nil => exact .nil
    | cons c g ih =>
      exact .space ((h.spaceOk_iff c).mpr (hg c (by simp)))
        (ih fun c' hc' => hg c' (by simp [hc']))

theorem tailGap_iff (g : List UInt8) : TailGap flags g ↔ Rfc8259.Ws g := by
  rw [← h.gap_iff]
  constructor
  · intro hg
    cases hg with
    | gap hg => exact hg
    | line _ hf => simp [h.comments] at hf
  · exact .gap

theorem strUnit_iff (u : List UInt8) :
    (StrUnit flags u ∧ u.head? ≠ some 0x22) ↔ Rfc8259.Char u := by
  have hx : ∀ c, isXdigit c = true ↔ Rfc8259.HexDigit c := fun c =>
    byte_all (p := fun c => isXdigit c = true ↔ Rfc8259.HexDigit c) (by decide +kernel) c
  have he : ∀ e, isRfcEscape e = true ↔
      e ∈ [(0x22 : UInt8), 0x5C, 0x2F, 0x62, 0x66, 0x6E, 0x72, 0x74] := fun e =>
    byte_all (p := fun e => isRfcEscape e = true ↔
      e ∈ [(0x22 : UInt8), 0x5C, 0x2F, 0x62, 0x66, 0x6E, 0x72, 0x74]) (by decide +kernel) e
  constructor
  · rintro ⟨hu, hq⟩
    cases hu with
    | raw hb hc =>
      refine .unescaped (hc.resolve_right ?_) (by simpa using hq) hb
      simp [h.extraWhitespace]
    | escape hu =>
      cases hu with
      | hex hf => simp [h.extraEscapes] at hf
      | unicode h₁ h₂ h₃ h₄ =>
        exact .unicode ((hx _).mp h₁) ((hx _).mp h₂) ((hx _).mp h₃) ((hx _).mp h₄)
      | crlf hf => simp [h.extraEscapes] at hf
      | char _ _ hf =>
        rw [h.extraEscapes] at hf
        exact .escape ((he _).mp (hf.resolve_left (by simp)))
  · intro hu
    cases hu with
    | unescaped hc hq hb => exact ⟨.raw hb (.inl hc), by simpa using hq⟩
    | escape hm =>
      refine ⟨.escape (.char (by simp [h.extraEscapes]) ?_ (.inr ((he _).mpr hm))), by simp⟩
      rintro rfl
      simp at hm
    | unicode h₁ h₂ h₃ h₄ =>
      exact ⟨.escape (.unicode ((hx _).mpr h₁) ((hx _).mpr h₂) ((hx _).mpr h₃) ((hx _).mpr h₄)),
        by simp⟩

theorem strBody_iff (b : List UInt8) : StrBody flags 0x22 b ↔ Rfc8259.Chars b := by
  constructor
  · intro hb
    induction hb with
    | nil => exact .nil
    | cons hu hq _ ih => exact .cons ((h.strUnit_iff _).mp ⟨hu, hq⟩) ih
  · intro hb
    induction hb with
    | nil => exact .nil
    | cons hu _ ih =>
      obtain ⟨hu, hq⟩ := (h.strUnit_iff _).mpr hu
      exact .cons hu hq ih

omit h in
theorem isDigit_iff (c : UInt8) : isDigit c = true ↔ Rfc8259.Digit c := by
  simp [isDigit, Rfc8259.Digit]

omit h in
theorem digits_iff (ds : List UInt8) : Digits ds ↔ ∀ c ∈ ds, Rfc8259.Digit c :=
  forall₂_congr fun c _ => isDigit_iff c

omit h in
/-- Digits without a leading zero. -/
theorem intPart_iff (b : List UInt8) : (IntPart b ∧ b ≠ []) ↔ Rfc8259.Int b := by
  have hd : ∀ c : UInt8, Rfc8259.Digit c → c = 0x30 ∨ (0x31 ≤ c ∧ c ≤ 0x39) := fun c =>
    byte_all (p := fun c => Rfc8259.Digit c → c = 0x30 ∨ (0x31 ≤ c ∧ c ≤ 0x39))
      (by decide +kernel) c
  have hd' : ∀ c : UInt8, 0x31 ≤ c ∧ c ≤ 0x39 → isDigit c = true ∧ c ≠ 0x30 := fun c =>
    byte_all (p := fun c => 0x31 ≤ c ∧ c ≤ 0x39 → isDigit c = true ∧ c ≠ 0x30)
      (by decide +kernel) c
  constructor
  · rintro ⟨⟨hds, hz⟩, hne⟩
    cases b with
    | nil => exact absurd rfl hne
    | cons c cs =>
      have hcs : ∀ c' ∈ cs, Rfc8259.Digit c' := fun c' hc' =>
        (isDigit_iff c').mp (hds c' (by simp [hc']))
      rcases hd c ((isDigit_iff c).mp (hds c (by simp))) with rfl | hc
      · have : cs = [] := by
          by_contra hcs
          exact hz ⟨by have := List.length_pos_of_ne_nil hcs; simp; omega, rfl⟩
        subst this
        exact .zero
      · exact .digits hc hcs
  · intro hb
    cases hb with
    | zero => exact ⟨⟨by simp [Digits, isDigit], by simp⟩, by simp⟩
    | @digits d ds hd hds =>
      refine ⟨⟨?_, ?_⟩, by simp⟩
      · intro c hc
        rcases List.mem_cons.mp hc with rfl | hc
        · exact (hd' c hd).1
        · exact (isDigit_iff c).mpr (hds c hc)
      · rintro ⟨-, hz⟩
        exact (hd' d hd).2 (Option.some.inj hz)

omit h in
theorem expPart_iff (b : List UInt8) : ExpPart b ↔ Rfc8259.Exp b := by
  constructor
  · intro hb
    cases hb with
    | none => exact .none
    | exp he hs hds hne => exact .exp he hs ((digits_iff _).mp hds) hne
  · intro hb
    cases hb with
    | none => exact .none
    | exp he hs hds hne => exact .exp he hs ((digits_iff _).mpr hds) hne

/-- An unsigned number has an integer part. -/
theorem unsigned_iff (b : List UInt8) : Unsigned flags b ↔
    ∃ int frac exp, b = int ++ frac ++ exp ∧ Rfc8259.Int int ∧ Rfc8259.Frac frac ∧
      Rfc8259.Exp exp := by
  constructor
  · intro hb
    cases hb with
    | hex hf => simp [h.hex] at hf
    | decimal hb =>
      cases hb with
      | @mk int frac exp sawFrac hi hf hs he =>
        have hne : int ≠ [] := by
          rintro rfl
          cases hf with
          | none => simp at hs
          | point _ hsaw => simp [h.leadingPoint] at hsaw
        refine ⟨int, frac, exp, rfl, (intPart_iff _).mp ⟨hi, hne⟩, ?_, (expPart_iff _).mp he⟩
        cases hf with
        | none => exact .none
        | point hds _ hf =>
          exact .point ((digits_iff _).mp hds) (hf.resolve_right (by simp [h.leadingPoint]))
  · rintro ⟨int, frac, exp, rfl, hi, hf, he⟩
    obtain ⟨hi, hne⟩ := (intPart_iff _).mpr hi
    refine .decimal ?_
    cases hf with
    | none => exact .mk hi .none (by simp [hne]) ((expPart_iff _).mpr he)
    | point hds hne' =>
      exact .mk hi (.point ((digits_iff _).mpr hds) (.inl (by simp [hne])) (.inl hne'))
        (by simp [hne]) ((expPart_iff _).mpr he)

theorem numberText_iff (t : List UInt8) : NumberText flags t ↔ Rfc8259.Number t := by
  constructor
  · intro ht
    cases ht with
    | unsigned hb =>
      obtain ⟨int, frac, exp, rfl, hi, hf, he⟩ := (h.unsigned_iff _).mp hb
      exact @Rfc8259.Number.mk [] _ _ _ (.inl rfl) hi hf he
    | signed hs hb =>
      rw [h.plusSign] at hs
      obtain rfl := hs.resolve_right (by simp)
      obtain ⟨int, frac, exp, rfl, hi, hf, he⟩ := (h.unsigned_iff _).mp hb
      exact @Rfc8259.Number.mk [0x2D] _ _ _ (.inr rfl) hi hf he
    | word _ hf => simp [h.nanInf] at hf
  · intro ht
    cases ht with
    | mk hm hi hf he =>
      have hb := (h.unsigned_iff _).mpr ⟨_, _, _, rfl, hi, hf, he⟩
      rcases hm with rfl | rfl
      · exact .unsigned hb
      · exact .signed (.inl rfl) hb

theorem wordText_iff (t : List UInt8) : WordText flags t ↔ Rfc8259.Literal t := by
  simp [WordText, Rfc8259.Literal, h.nanInf, trueWord, falseWord, nullWord]

theorem key_iff (k : Leaf) : KeyLeaf flags k ↔ Rfc8259.Str k := by
  constructor
  · intro hk
    cases hk with
    | str hq hb =>
      rw [QuoteOk, h.singleQuotes] at hq
      obtain rfl := hq.resolve_right (by simp)
      exact ⟨rfl, (h.strBody_iff _).mp hb⟩
    | ident hf => simp [h.unquotedKeys] at hf
  · intro hk
    cases k with
    | prim t => exact hk.elim
    | str q b =>
      obtain ⟨rfl, hb⟩ := hk
      exact .str (.inl rfl) ((h.strBody_iff _).mpr hb)

theorem value_iff (l : Leaf) : ValueLeaf flags l ↔ Rfc8259.Value l := by
  cases l with
  | str q b =>
    have hk := h.key_iff (.str q b)
    refine Iff.trans ?_ hk
    constructor
    · rintro ⟨hq, hb⟩
      exact .str hq hb
    · rintro ⟨hq, hb⟩
      exact .str hq hb
  | prim t =>
    rw [Rfc8259.Value, ← h.numberText_iff, ← h.wordText_iff]
    constructor
    · intro ht
      cases ht with
      | number ht => exact .inl ht
      | word ht => exact .inr ht
    · rintro (ht | ht)
      · exact .number ht
      · exact .word ht

/-- **Without extensions the lexicon is the one of RFC 8259.** -/
theorem lexicon_eq : lexicon flags = Rfc8259.lexicon := by
  unfold lexicon Rfc8259.lexicon
  congr 1
  · exact funext fun g => propext (h.gap_iff g)
  · exact funext fun l => propext (h.value_iff l)
  · exact funext fun k => propext (h.key_iff k)
  · simp [h.trailingComma]

end NoExtension

/-! ## The language -/

/-- Texts of the strict dialect are JSON texts. -/
theorem isText_strictDepth (d : Nat) (json lead : List UInt8) (t : Syn .value)
    (tail : List UInt8) : IsText (strictDepth d) json lead t tail ↔
      Rfc8259.IsText (if d = 0 then depthDefault else min d depthMax) json lead t tail := by
  have hn := noExtension_strictDepth d
  constructor
  · rintro ⟨h₁, h₂, h₃, h₄, h₅⟩
    rw [hn.lexicon_eq] at h₂
    rw [depthLimit_strictDepth] at h₃
    exact ⟨(hn.gap_iff _).mp h₁, h₂, h₃, (hn.tailGap_iff _).mp h₄, h₅⟩
  · rintro ⟨h₁, h₂, h₃, h₄, h₅⟩
    rw [← hn.lexicon_eq] at h₂
    rw [← depthLimit_strictDepth] at h₃
    exact ⟨(hn.gap_iff _).mpr h₁, h₂, h₃, (hn.tailGap_iff _).mpr h₄, h₅⟩

/-- **Strict parsing is exact.** A text of fewer than 2^31 bytes is accepted
exactly when it is a JSON text that nests no deeper than the limit, and whatever
syntax tree it has, the tokens are its preorder listing. -/
theorem parse_strict_exact (d : Nat) (json : List UInt8) (hlen : json.length < 2 ^ 31) :
    ((∃ rd, parse json (strictDepth d) = .ok rd) ↔
      ∃ lead t tail,
        Rfc8259.IsText (if d = 0 then depthDefault else min d depthMax) json lead t tail) ∧
    ∀ rd lead t tail, parse json (strictDepth d) = .ok rd →
      Rfc8259.IsText (if d = 0 then depthDefault else min d depthMax) json lead t tail →
      rd.tokens = tokens lead.length t := by
  have hmode : utf8Of (strictDepth d) ≠ utf8Mask := by
    rw [utf8Of_strictDepth]
    decide
  have hpol := @policyCode_of_none (strictDepth d)
    (by rw [utf8Of_strictDepth]; decide) (allows_strictDepth (by decide) d) json
  have haccept : ∀ {lead t tail},
      Rfc8259.IsText (if d = 0 then depthDefault else min d depthMax) json lead t tail →
      parse json (strictDepth d) = .ok ⟨json, tokens lead.length t, utf8Of (strictDepth d)⟩ := by
    intro lead t tail ht
    exact (parse_ok_iff hmode hlen _).mpr
      ⟨lead, t, tail, (isText_strictDepth d _ _ _ _).mpr ht, rfl, hpol _⟩
  refine ⟨⟨?_, ?_⟩, ?_⟩
  · rintro ⟨rd, hrd⟩
    obtain ⟨lead, t, tail, ht, -⟩ := (parse_ok_iff hmode hlen rd).mp hrd
    exact ⟨lead, t, tail, (isText_strictDepth d _ _ _ _).mp ht⟩
  · rintro ⟨lead, t, tail, ht⟩
    exact ⟨_, haccept ht⟩
  · intro rd lead t tail hrd ht
    rw [haccept ht] at hrd
    cases hrd
    rfl

/-- The array `[1]` has one container, so that a limit of one is enough. -/
theorem parse_strict_exact_array :
    ∃ rd, parse [0x5B, 0x31, 0x5D] (strictDepth 1) = .ok rd ∧
      rd.tokens = [⟨.array, 0, 3, 1⟩, ⟨.primitive, 1, 2, 0⟩] := by
  have htext : Rfc8259.IsText (if 1 = 0 then depthDefault else min 1 depthMax) [0x5B, 0x31, 0x5D]
      [] (.node true (.item []) (.leaf (.prim [0x31])) (.stop [])) [] := by
    refine ⟨by simp [Rfc8259.Ws], ⟨by simp [Head.Valid, Rfc8259.lexicon, Rfc8259.Ws], ?_, ?_⟩,
      by decide, by simp [Rfc8259.Ws], rfl⟩
    · exact .inl (@Rfc8259.Number.mk [] [0x31] [] [] (.inl rfl) (.digits (by decide) (by simp))
        .none .none)
    · simp [Syn.Valid, Rfc8259.lexicon, Rfc8259.Ws]
  obtain ⟨hiff, htoks⟩ := parse_strict_exact 1 [0x5B, 0x31, 0x5D] (by decide)
  obtain ⟨rd, hrd⟩ := hiff.mpr ⟨_, _, _, htext⟩
  exact ⟨rd, hrd, (htoks rd _ _ _ hrd htext).trans (by decide)⟩

end Json

end AxlSdk
