import AxlSdk.Json.Language

/-!
# Flags of a dialect

A flag of the dialect gates branches of every tokenizer and of the scanner. A run
under fewer flags is followed, step for step, by the run under more of them, and
where the first misses a flag the second gets at least as far.

- `leaf_tracks`, `turn_alongside`: more flags read what fewer do, in the same way.
- `leaf_fault`: a flag that is missed is a flag that is not set.
- `dialect_flags`: both for the parser.
-/

namespace AxlSdk

namespace Json

/-! ## More flags -/

/-- The flags of the dialect, `AXL_JSON_ALLOW_*`. -/
def dialectFlags : List AxlJsonFlags :=
  [allowComments, allowTrailingComma, allowUnquotedKeys, allowSingleQuotes, allowHex,
    allowExtraEscapes, allowPlusSign, allowLeadingPoint, allowNanInf, allowExtraWhitespace]

/-- `F'` allows what `F` does, and nests as deep. -/
structure Wider (F F' : AxlJsonFlags) : Prop where
  allows : ∀ {feature}, feature ∈ dialectFlags → allows F feature = true →
    allows F' feature = true
  depth : Scanner.depthLimit F' = Scanner.depthLimit F

variable {F F' : AxlJsonFlags}

theorem Wider.missing (h : Wider F F') {feature : AxlJsonFlags} (hmem : feature ∈ dialectFlags)
    (hf : Json.allows F' feature = false) : Json.allows F feature = false :=
  Bool.eq_false_iff.mpr fun ht => by
    rw [h.allows hmem ht] at hf
    cases hf

/-! ## Leaves -/

/-- The least offset that a failure from here on may have. -/
def LeafResult.reach : LeafResult → Nat
  | .ok _ pos => pos
  | .fail e _ => e.offset

/-- `r'` is `r`, or gets as far where `r` misses a flag. -/
def Tracks (r r' : LeafResult) : Prop :=
  match r with
  | .ok _ _ => r' = r
  | .fail e _ => e.code = .dialect → e.offset ≤ r'.reach

theorem skipWsLoop_reach (mode : WsMode) (s : List UInt8) (pos res : Nat) :
    pos ≤ (skipWsLoop F true mode s pos res).reach := by
  fun_induction skipWsLoop F true mode s pos res
  all_goals first
    | exact Nat.le_refl _
    | (rename_i ih; exact Nat.le_trans (by omega) ih)

theorem skipWsLoop_tracks (h : Wider F F') (mode : WsMode) (s : List UInt8) (pos res : Nat) :
    Tracks (skipWsLoop F true mode s pos res) (skipWsLoop F' true mode s pos res) := by
  fun_induction skipWsLoop F true mode s pos res
  case case3 | case7 => exact fun _ => skipWsLoop_reach _ _ _ _
  -- the tests of a flag go the same way
  case case4 hs hc ih =>
    have hc' : ¬ (_ ∧ allows F' allowExtraWhitespace = false) :=
      fun hc' => hc ⟨hc'.1, h.missing (by decide) hc'.2⟩
    rw [skipWsLoop.eq_def F' true]
    simpa only [hs, if_true, if_neg hc'] using ih
  case case8 hc hs hn ih =>
    have hc' : ¬ allows F' allowComments = false := fun hc' => hc (h.missing (by decide) hc')
    rw [skipWsLoop.eq_def F' true]
    simpa only [if_neg hs, true_or, if_true, if_neg hc'] using ih
  case case9 hn hc hne hs ih =>
    have hc' : ¬ allows F' allowComments = false := fun hc' => hc (h.missing (by decide) hc')
    rw [skipWsLoop.eq_def F' true]
    simpa only [if_neg hs, if_pos hn, if_neg hne, if_true, if_neg hc'] using ih
  case case19 hc ih =>
    rw [skipWsLoop.eq_def F' true]
    simpa only [if_neg hc] using ih
  all_goals
    rw [skipWsLoop.eq_def F' true]
    first
      | exact fun hd => by cases hd
      | simp_all [Tracks]

theorem parseStringLoop_reach (quote : UInt8) (fuel : Nat) (s : List UInt8) (pos : Nat) :
    pos ≤ (parseStringLoop F true quote fuel s pos).reach := by
  fun_induction parseStringLoop F true quote fuel s pos
  case case1 => exact Nat.le_refl _
  case case2 => exact Nat.le_succ _
  case case3 => exact Nat.le_refl _
  case case4 ih => exact Nat.le_trans (Nat.le_add_right _ _) ih

theorem escapeUnit_wider (h : Wider F F') {s : List UInt8} {n : Nat}
    (hs : escapeUnit F s = .ok n) : escapeUnit F' s = .ok n := by
  cases s with
  | nil => cases hs
  | cons e es =>
    simp only [escapeUnit] at hs ⊢
    cases hf : allows F allowExtraEscapes with
    | true =>
      rw [h.allows (by decide) hf]
      rwa [hf] at hs
    | false =>
      by_cases hx : e = 0x78
      · -- `\x` is no escape without the flag
        have hnot : isRfcEscape 0x78 = false := by decide
        simp [hx, hf, hnot] at hs
      · rw [if_neg fun hc => hx hc.1] at hs ⊢
        by_cases hu : e = 0x75
        · rwa [if_pos hu] at hs ⊢
        · rw [if_neg hu] at hs ⊢
          split at hs
          case isTrue => cases hs
          case isFalse hok =>
            rw [if_neg fun hc => hok ⟨hf, hc.2⟩]
            exact hs

theorem stringUnit_wider (h : Wider F F') {s : List UInt8} {n : Nat}
    (hs : stringUnit F s = .ok n) : stringUnit F' s = .ok n := by
  cases s with
  | nil => cases hs
  | cons c cs =>
    simp only [stringUnit] at hs ⊢
    by_cases hb : c = 0x5C
    · rw [if_pos hb] at hs ⊢
      exact escapeUnit_wider h hs
    · rw [if_neg hb] at hs ⊢
      cases hf : allows F allowExtraWhitespace with
      | true =>
        rw [h.allows (by decide) hf]
        rwa [hf] at hs
      | false =>
        rw [hf] at hs
        by_cases hc : c < 0x20
        · by_cases ht : c = 0x09
          · simp [ht] at hs
          · simp [hc, ht] at hs
        · rwa [if_neg hc] at hs ⊢

theorem parseStringLoop_tracks (h : Wider F F') (quote : UInt8) (fuel : Nat) (s : List UInt8)
    (pos : Nat) : Tracks (parseStringLoop F true quote fuel s pos)
      (parseStringLoop F' true quote fuel s pos) := by
  fun_induction parseStringLoop F true quote fuel s pos
  case case1 => exact fun hd => by cases hd
  case case2 hq =>
    rw [parseStringLoop, if_pos hq]
    rfl
  case case3 => exact fun _ => parseStringLoop_reach _ _ _ _
  case case4 hq n hn ih =>
    rw [parseStringLoop, if_neg hq, stringUnit_wider h hn]
    exact ih

/-! ### Numbers and literals -/

/-- A part of a number under more flags: the same, or a failure, and one about a flag
names no offset in it. -/
def KeptPart {α : Type} (r r' : Except LexError α) : Prop :=
  match r with
  | .ok _ => r' = r
  | .error e => e.code = .dialect → e.offset = 0

theorem fracPart_kept (h : Wider F F') (sawInt : Bool) (s : List UInt8) (pos : Nat) :
    KeptPart (fracPart F true sawInt s pos) (fracPart F' true sawInt s pos) := by
  cases s with
  | nil => rfl
  | cons c cs =>
    simp only [fracPart]
    by_cases hc : c = 0x2E
    · simp only [if_pos hc]
      split
      case isTrue => exact fun _ => rfl
      case isFalse hsaw =>
        split
        case isTrue => exact fun _ => rfl
        case isFalse hfrac =>
          rw [if_neg fun hc => hsaw ⟨hc.1, h.missing (by decide) hc.2⟩,
            if_neg fun hc => hfrac ⟨hc.1, h.missing (by decide) hc.2⟩]
          rfl
    · simp only [if_neg hc]
      rfl

variable {pos : Nat} {e : LexError}

theorem expPart_code {s : List UInt8} (h : expPart true s pos = .error e) :
    e.code = .badNumber := by
  unfold expPart at h
  split at h
  · cases h
  · split at h
    · dsimp only at h
      split at h
      · cases h
        rfl
      · cases h
    · cases h

theorem parseDecimal_kept (h : Wider F F') (s : List UInt8) (pos : Nat) :
    KeptPart (parseDecimal F true s pos) (parseDecimal F' true s pos) := by
  simp only [parseDecimal]
  split
  case isTrue => exact fun _ => rfl
  case isFalse =>
    have hfrac := fracPart_kept h (s.takeWhile isDigit != []) (s.dropWhile isDigit)
      (pos + (s.takeWhile isDigit).length)
    generalize fracPart F true _ _ _ = r at hfrac
    cases r with
    | error e => exact hfrac
    | ok a =>
      rw [show fracPart F' true _ _ _ = .ok a from hfrac]
      dsimp only
      split
      · exact fun _ => rfl
      · generalize hexp : expPart true a.1 a.2.1 = r
        cases r with
        | ok => rfl
        | error e => exact fun hd => absurd (hd.symm.trans (expPart_code hexp)) (by decide)

theorem parseUnsigned_tracks (h : Wider F F') (sign : Nat) (s : List UInt8) :
    Tracks (parseUnsigned F true sign s) (parseUnsigned F' true sign s) := by
  have hfinish : ∀ {r r' : Except LexError (List UInt8 × Nat)}, KeptPart r r' →
      Tracks (finishNumber true r) (finishNumber true r') := by
    intro r r' hr
    cases r with
    | error e => exact fun hd => (hr hd).le.trans (Nat.zero_le _)
    | ok a =>
      rw [show r' = .ok a from hr]
      simp [finishNumber, Tracks]
  unfold parseUnsigned
  split
  case isTrue =>
    split
    case isTrue => exact fun _ => Nat.zero_le _
    case isFalse hf =>
      rw [if_neg fun hf' => hf (h.missing (by decide) hf')]
      apply hfinish
      unfold parseHex
      dsimp only
      split
      · exact fun _ => rfl
      · rfl
  case isFalse => exact hfinish (parseDecimal_kept h s sign)

theorem parseSignedWord_tracks (h : Wider F F') (s : List UInt8) (ws : List (List UInt8)) :
    (parseSignedWord F true s ws = none ∧ parseSignedWord F' true s ws = none) ∨
      ∃ r r', parseSignedWord F true s ws = some r ∧ parseSignedWord F' true s ws = some r' ∧
        Tracks r r' := by
  induction ws with
  | nil => exact .inl ⟨rfl, rfl⟩
  | cons w ws ih =>
    simp only [parseSignedWord]
    by_cases hw : w.isPrefixOf s = true
    · refine .inr ?_
      simp only [hw, if_true]
      cases hf : allows F allowNanInf with
      | false =>
        simp only [if_true]
        split_ifs
        all_goals exact ⟨_, _, rfl, rfl, fun _ => Nat.zero_le _⟩
      | true =>
        rw [h.allows (by decide) hf]
        simp only [Bool.true_eq_false, if_false, Bool.not_true, Bool.and_false, Bool.false_eq_true]
        split
        case isTrue => exact ⟨_, _, rfl, rfl, fun hd => by cases hd⟩
        case isFalse => exact ⟨_, _, rfl, rfl, rfl⟩
    · simp only [hw]
      exact ih

theorem parseNumber_tracks (h : Wider F F') (s : List UInt8) :
    Tracks (parseNumber F true s) (parseNumber F' true s) := by
  cases s with
  | nil => exact parseUnsigned_tracks h 0 []
  | cons c cs =>
    simp only [parseNumber, Bool.not_true, Bool.false_and, Bool.false_eq_true, if_false]
    by_cases hsign : c = 0x2D ∨ c = 0x2B
    · simp only [if_pos hsign]
      by_cases hplus : c = 0x2B ∧ allows F allowPlusSign = false
      · rw [if_pos hplus]
        exact fun _ => Nat.zero_le _
      · rw [if_neg hplus, if_neg fun hc => hplus ⟨hc.1, h.missing (by decide) hc.2⟩]
        rcases parseSignedWord_tracks h cs [nanWord, infinityWord] with
          ⟨hr, hr'⟩ | ⟨r, r', hr, hr', htracks⟩
        · rw [hr, hr']
          exact parseUnsigned_tracks h 1 cs
        · rw [hr, hr']
          exact htracks
    · simp only [if_neg hsign]
      exact parseUnsigned_tracks h 0 (c :: cs)

/-- Only the gated words make a difference, and the others come first. -/
theorem keyword_wider (h : Wider F F') {s : List UInt8} {k : List UInt8 × AxlJsonFlags}
    (hk : keywords.find? (keywordMatches F s) = some k) :
    keywords.find? (keywordMatches F' s) = some k := by
  have hfree : ∀ w, keywordMatches F' s (w, 0) = keywordMatches F s (w, 0) := fun _ => rfl
  simp only [keywords, List.find?_cons, List.find?_nil, hfree] at hk ⊢
  cases hf : allows F allowNanInf with
  | true =>
    have hgated : ∀ w, keywordMatches F' s (w, allowNanInf) = keywordMatches F s (w, allowNanInf) := by
      intro w
      simp only [keywordMatches, hf, h.allows (by decide) hf]
    simpa only [hgated] using hk
  | false =>
    have hne : (allowNanInf == 0#64) = false := by decide
    have hgated : ∀ w, keywordMatches F s (w, allowNanInf) = false := by
      intro w
      simp [keywordMatches, hf, hne]
    simp only [hgated] at hk
    revert hk
    cases keywordMatches F s (trueWord, 0)
    · cases keywordMatches F s (falseWord, 0)
      · cases keywordMatches F s (nullWord, 0)
        · exact fun hk => by cases hk
        · exact id
      · exact id
    · exact id

theorem parseLiteral_tracks (h : Wider F F') (s : List UInt8) :
    Tracks (parseLiteral F true s) (parseLiteral F' true s) := by
  simp only [parseLiteral, Bool.not_true, Bool.false_and, Bool.false_eq_true, if_false]
  cases hk : keywords.find? (keywordMatches F s) with
  | some k =>
    rw [keyword_wider h hk]
    rfl
  | none =>
    dsimp only
    split
    · exact fun _ => Nat.zero_le _
    · exact fun hd => by cases hd

theorem leaf_tracks (h : Wider F F') (kind : LeafKind) (s : List UInt8) :
    Tracks (leaf F kind true s) (leaf F' kind true s) := by
  cases kind with
  | ws => exact skipWsLoop_tracks h .between s 0 0
  | string quote => exact parseStringLoop_tracks h quote _ _ _
  | ident => simp [leaf, parseIdentifier, Tracks]
  | number => exact parseNumber_tracks h s
  | literal => exact parseLiteral_tracks h s

/-! ## Missing flags -/

/-- The flag is one of the dialect, and not set. -/
def Missing (F flag : AxlJsonFlags) : Prop := flag ∈ dialectFlags ∧ allows F flag = false

/-- `NaN` or `Infinity`, and an identifier goes on behind it. -/
def LongWord (s : List UInt8) : Prop :=
  ∃ w, (w = nanWord ∨ w = infinityWord) ∧ w <+: s ∧ (s.drop w.length).head?.any isIdentCont = true

/-- What a failure of a leaf may say: one over a flag names a flag that is missing. -/
def Fault (F : AxlJsonFlags) (code : ErrorCode) (flag : AxlJsonFlags) : Prop :=
  code ≠ .ok ∧ (code = .dialect → Missing F flag)

variable {code : ErrorCode}

theorem fault_other (flag : AxlJsonFlags) (h : code ≠ .ok ∧ code ≠ .dialect) :
    Fault F code flag := ⟨h.1, fun hd => absurd hd h.2⟩

variable {flag : AxlJsonFlags}

theorem Missing.fault (h : Missing F flag) : Fault F .dialect flag :=
  ⟨by simp, fun _ => h⟩

theorem lexFail_fault {here : List UInt8} (h : Fault F code flag) :
    Fault F (lexFail true here code pos flag).code
      (lexFail true here code pos flag).missingFlag := h

variable {r : Nat}

theorem skipWsLoop_fault {mode : WsMode} {s : List UInt8} {res : Nat}
    (h : skipWsLoop F true mode s pos res = .fail e r) : Fault F e.code e.missingFlag := by
  fun_induction skipWsLoop F true mode s pos res
  case case3 hc =>
    cases h
    exact lexFail_fault (Missing.fault ⟨by decide, hc.2⟩)
  case case7 hc _ =>
    cases h
    exact lexFail_fault (Missing.fault ⟨by decide, hc⟩)
  all_goals first
    | (rename_i ih; exact ih h)
    | (cases h; done)
    | (cases h; exact lexFail_fault (fault_other _ (by decide)))

theorem uEscapeError_fault {k : Nat} {s : List UInt8} (h : uEscapeError k s = some code) :
    code ≠ .ok ∧ code ≠ .dialect := by
  fun_induction uEscapeError k s
  case case1 => cases h
  case case2 =>
    cases h
    decide
  case case3 ih => exact ih h
  case case4 =>
    cases h
    decide

theorem escapeUnit_fault {s : List UInt8} (h : escapeUnit F s = .error (code, flag)) :
    Fault F code flag := by
  unfold escapeUnit at h
  split at h
  · cases h
    exact fault_other _ (by decide)
  · split at h
    · split at h
      · split at h
        · cases h
        · cases h
          exact fault_other _ (by decide)
      · cases h
        exact fault_other _ (by decide)
    · split at h
      · split at h
        · cases h
        · rename_i code' hcode
          obtain ⟨rfl, -⟩ := Prod.mk.inj (Except.error.inj h)
          exact fault_other _ (uEscapeError_fault hcode)
      · split at h
        · rename_i hf
          cases h
          exact Missing.fault ⟨by decide, hf.1⟩
        · cases h

theorem stringUnit_fault {s : List UInt8} (h : stringUnit F s = .error (code, flag)) :
    Fault F code flag := by
  unfold stringUnit at h
  split at h
  · cases h
    exact fault_other _ (by decide)
  · split at h
    · exact escapeUnit_fault h
    · split at h
      · split at h
        · split at h
          · cases h
          · rename_i hf
            cases h
            exact Missing.fault ⟨by decide, Bool.eq_false_iff.mpr hf⟩
        · cases h
          exact fault_other _ (by decide)
      · cases h

theorem parseStringLoop_fault {quote : UInt8} {fuel : Nat} {s : List UInt8}
    (h : parseStringLoop F true quote fuel s pos = .fail e r) :
    Fault F e.code e.missingFlag := by
  fun_induction parseStringLoop F true quote fuel s pos
  case case1 =>
    cases h
    exact lexFail_fault (fault_other _ (by decide))
  case case2 => cases h
  case case3 code flag hunit =>
    cases h
    exact stringUnit_fault hunit
  case case4 ih => exact ih h

theorem fracPart_fault {sawInt : Bool} {s : List UInt8}
    (h : fracPart F true sawInt s pos = .error e) : Fault F e.code e.missingFlag := by
  unfold fracPart at h
  split at h
  · cases h
  · split at h
    · split at h
      · rename_i hf
        cases h
        exact lexFail_fault (Missing.fault ⟨by decide, hf.2⟩)
      · dsimp only at h
        split at h
        · rename_i hf
          cases h
          exact lexFail_fault (Missing.fault ⟨by decide, hf.2⟩)
        · cases h
    · cases h

theorem parseDecimal_fault {s : List UInt8} (h : parseDecimal F true s pos = .error e) :
    Fault F e.code e.missingFlag := by
  simp only [parseDecimal] at h
  split at h
  case isTrue =>
    cases h
    exact lexFail_fault (fault_other _ (by decide))
  case isFalse =>
    generalize hfrac : fracPart F true _ _ _ = r at h
    cases r with
    | error e' =>
      cases h
      exact fracPart_fault hfrac
    | ok a =>
      dsimp only at h
      split at h
      · cases h
        exact lexFail_fault (fault_other _ (by decide))
      · rw [expPart_code h]
        exact fault_other _ (by decide)

theorem parseUnsigned_fault {sign : Nat} {s : List UInt8}
    (h : parseUnsigned F true sign s = .fail e r) : Fault F e.code e.missingFlag := by
  have hfinish : ∀ {x : Except LexError (List UInt8 × Nat)}, finishNumber true x = .fail e r →
      x = .error e := by
    intro x hx
    cases x with
    | error e' =>
      cases hx
      rfl
    | ok a => simp [finishNumber] at hx
  unfold parseUnsigned at h
  split at h
  · split at h
    · rename_i hf
      cases h
      exact lexFail_fault (Missing.fault ⟨by decide, hf⟩)
    · have hhex := hfinish h
      unfold parseHex at hhex
      dsimp only at hhex
      split at hhex
      · cases hhex
        exact lexFail_fault (fault_other _ (by decide))
      · cases hhex
  · exact parseDecimal_fault (hfinish h)

theorem parseSignedWord_fault {s : List UInt8} {ws : List (List UInt8)}
    (h : parseSignedWord F true s ws = some (.fail e r)) : Fault F e.code e.missingFlag := by
  induction ws with
  | nil => cases h
  | cons w ws ih =>
    simp only [parseSignedWord, Bool.not_true, Bool.and_false, Bool.false_eq_true, if_false] at h
    split at h
    · split at h
      · rename_i hf
        cases h
        exact lexFail_fault (Missing.fault ⟨by decide, hf⟩)
      · split at h
        · cases h
          exact lexFail_fault (fault_other _ (by decide))
        · cases h
    · exact ih h

theorem parseNumber_fault {s : List UInt8} (h : parseNumber F true s = .fail e r) :
    Fault F e.code e.missingFlag := by
  cases s with
  | nil => exact parseUnsigned_fault h
  | cons c cs =>
    simp only [parseNumber, Bool.not_true, Bool.false_and, Bool.false_eq_true, if_false] at h
    split at h
    · split at h
      · rename_i hf
        cases h
        exact lexFail_fault (Missing.fault ⟨by decide, hf.2⟩)
      · split at h
        · rename_i hword
          subst h
          exact parseSignedWord_fault hword
        · exact parseUnsigned_fault h
    · exact parseUnsigned_fault h

/-- `parse_literal` names the flag of a gated word also when the flag is set and the word
goes on. -/
theorem parseLiteral_fault {s : List UInt8} (h : parseLiteral F true s = .fail e r) :
    e.code ≠ .ok ∧ (e.code = .dialect →
      e.offset = 0 ∧ e.missingFlag = allowNanInf ∧
        (allows F allowNanInf = false ∨ LongWord s)) := by
  simp only [parseLiteral, Bool.not_true, Bool.false_and, Bool.false_eq_true, if_false] at h
  split at h
  · cases h
  · rename_i hnone
    split at h
    · rename_i k hk
      cases h
      have hmem := List.mem_of_find?_eq_some hk
      have hgate := List.find?_some hk
      simp only [Bool.and_eq_true, bne_iff_ne, ne_eq] at hgate
      have hword : k.2 = allowNanInf ∧ (k.1 = nanWord ∨ k.1 = infinityWord) := by
        simp only [keywords, List.mem_cons, List.not_mem_nil, or_false] at hmem
        rcases hmem with rfl | rfl | rfl | rfl | rfl
        · exact absurd rfl hgate.1
        · exact absurd rfl hgate.1
        · exact absurd rfl hgate.1
        · exact ⟨rfl, .inl rfl⟩
        · exact ⟨rfl, .inr rfl⟩
      refine ⟨by simp [lexFail], fun _ => ⟨rfl, hword.1, ?_⟩⟩
      cases hf : allows F allowNanInf with
      | false => exact .inl rfl
      | true =>
        -- the word is there, so that what follows kept it from a match
        have hfail := List.find?_eq_none.mp hnone k hmem
        rw [keywordMatches, hword.1, hf, hgate.2] at hfail
        exact .inr ⟨k.1, hword.2, List.isPrefixOf_iff_prefix.mp hgate.2, by simpa using hfail⟩
    · cases h
      exact ⟨by simp [lexFail], fun hd => by cases hd⟩

/-- A failure over a flag names one of the dialect that is not set, or falls on a word
that goes on. -/
theorem leaf_fault {kind : LeafKind} {s : List UInt8} (h : leaf F kind true s = .fail e r) :
    e.code ≠ .ok ∧ (e.code = .dialect →
      e.missingFlag ∈ dialectFlags ∧
        (allows F e.missingFlag = false ∨
          (e.missingFlag = allowNanInf ∧ LongWord (s.drop e.offset)))) := by
  have hfault : Fault F e.code e.missingFlag → e.code ≠ .ok ∧ (e.code = .dialect →
      e.missingFlag ∈ dialectFlags ∧
        (allows F e.missingFlag = false ∨
          (e.missingFlag = allowNanInf ∧ LongWord (s.drop e.offset)))) :=
    fun hf => ⟨hf.1, fun hd => ⟨(hf.2 hd).1, .inl (hf.2 hd).2⟩⟩
  cases kind with
  | ws => exact hfault (skipWsLoop_fault h)
  | string quote => exact hfault (parseStringLoop_fault h)
  | ident => simp [leaf, parseIdentifier] at h
  | number => exact hfault (parseNumber_fault h)
  | literal =>
    obtain ⟨hne, hor⟩ := parseLiteral_fault h
    refine ⟨hne, fun hd => ?_⟩
    obtain ⟨hoff, hflag, hor⟩ := hor hd
    rw [hoff, hflag]
    exact ⟨by decide, hor.imp_right fun hword => ⟨rfl, hword⟩⟩

/-! ## The scanner -/

theorem Wider.refl (F : AxlJsonFlags) : Wider F F := ⟨fun _ => id, rfl⟩

namespace Scanner

/-- The scanner under other flags. -/
def under (s : Scanner) (F : AxlJsonFlags) : Scanner := { s with flags := F }

/-- A scanner without failure over the view `json`. -/
structure View (json : List UInt8) (F : AxlJsonFlags) (s : Scanner) : Prop where
  src : s.src = none
  base : s.base = 0
  json : s.json = json
  flags : s.flags = F
  err : s.err = .none
  done : s.done = false

/-- The least offset that a failure from here on may have. -/
def reach (s : Scanner) : Nat := if s.err.code = .ok then s.base + s.pos else s.err.offset

/-- The scanner behind a step. -/
def Step.after : Step → Scanner
  | .event _ s => s
  | .again s => s
  | .stop s => s

/-- A failure over a flag, and the flag it names. -/
def Blamed (json : List UInt8) (F : AxlJsonFlags) (err : JsonError) : Prop :=
  err.missingFlag ∈ dialectFlags ∧
    (allows F err.missingFlag = false ∨
      (err.missingFlag = allowNanInf ∧ LongWord (json.drop err.offset)))

variable {json : List UInt8} {s : Scanner}

theorem View.at_pos (h : View json F s) (pos : Nat) : View json F { s with pos := pos } :=
  ⟨h.src, h.base, h.json, h.flags, h.err, h.done⟩

theorem View.under (h : View json F s) (F' : AxlJsonFlags) : View json F' (s.under F') :=
  ⟨h.src, h.base, h.json, rfl, h.err, h.done⟩

theorem View.reach (h : View json F s) : s.reach = s.pos := by
  rw [Scanner.reach, h.err, h.base, Nat.zero_add]
  rfl

/-- The scanner under more flags does the same, or gets as far where a flag is missed. -/
def Alongside (json : List UInt8) (F F' : AxlJsonFlags) (s : Scanner) (t t' : Step) : Prop :=
  s.pos ≤ t'.after.reach ∧
    match t with
    | .event ev s₁ => View json F s₁ ∧ t' = .event ev (s₁.under F')
    | .again s₁ => View json F s₁ ∧ t' = .again (s₁.under F')
    | .stop s₁ => s₁.err.code = .dialect →
      Blamed json F s₁.err ∧ s₁.err.offset ≤ t'.after.reach

/-- A failure at the cursor. -/
theorem view_fail (h : View json F s) (code : ErrorCode) (flag : AxlJsonFlags) :
    (s.fail code (s.base + s.pos) flag).err.code = code ∧
      (s.fail code (s.base + s.pos) flag).err.offset = s.pos ∧
      (s.fail code (s.base + s.pos) flag).err.missingFlag = flag := by
  simp only [fail, h.err, h.base, Nat.zero_add]
  exact ⟨rfl, rfl, rfl⟩

theorem fail_reach (h : View json F s) (code : ErrorCode) (flag : AxlJsonFlags) :
    (s.fail code (s.base + s.pos) flag).reach = s.pos := by
  obtain ⟨-, hoff, -⟩ := view_fail h code flag
  unfold reach
  split
  · rw [show (s.fail code (s.base + s.pos) flag).base = s.base from rfl, h.base, Nat.zero_add]
    rfl
  · exact hoff

theorem alongside_fail (h : View json F s) {code : ErrorCode} {flag : AxlJsonFlags} {t' : Step}
    (ht : s.pos ≤ t'.after.reach) (hflag : code = .dialect → Missing F flag) :
    Alongside json F F' s (.stop (s.fail code (s.base + s.pos) flag)) t' := by
  obtain ⟨hcode, hoff, hmissing⟩ := view_fail h code flag
  refine ⟨ht, fun hd => ⟨?_, by rwa [hoff]⟩⟩
  rw [hcode] at hd
  rw [Blamed, hmissing]
  exact ⟨(hflag hd).1, .inl (hflag hd).2⟩

/-! ### Leaves -/

theorem view_adopt (h : View json F s) (pos : Nat) (e : LexError) :
    (({ s with pos := pos } : Scanner).adopt s.pos e).err.offset = s.pos + e.offset ∧
      (({ s with pos := pos } : Scanner).adopt s.pos e).err.missingFlag = e.missingFlag ∧
      ((({ s with pos := pos } : Scanner).adopt s.pos e).err.code = .dialect →
        e.code = .dialect) := by
  simp only [adopt, h.err, h.base, Nat.zero_add]
  refine ⟨rfl, rfl, fun hd => ?_⟩
  by_cases hu : e.code = .unknown
  · simp [JsonError.none, hu] at hd
  · simpa [JsonError.none, hu] using hd

theorem adopt_reach (h : View json F s) (pos : Nat) {e : LexError} (he : e.code ≠ .ok) :
    (({ s with pos := pos } : Scanner).adopt s.pos e).reach = s.pos + e.offset := by
  rw [reach, if_neg (adopt_code_ne _ he _), (view_adopt h pos e).1]

/-- What a leaf does on a view. -/
theorem runLeaf_at (h : View json F s) (kind : LeafKind) :
    match leaf F kind true (json.drop s.pos) with
    | .ok span p => s.runLeaf kind = (some (s.pos + span.1, s.pos + span.2), { s with pos := s.pos + p })
    | .fail e _ => ∃ pos, s.runLeaf kind = (none, ({ s with pos := pos } : Scanner).adopt s.pos e) := by
  have he : s.atEof = true := by simp [atEof, h.src]
  have hturns : s.turns = 3 := by simp [turns, h.src]
  obtain rfl := h.json
  obtain rfl := h.flags
  rw [runLeaf, hturns, leafRun, he]
  cases leaf s.flags kind true (s.json.drop s.pos) with
  | ok span p => rfl
  | fail e r =>
    dsimp only
    split
    · refine ⟨s.pos + r, ?_⟩
      rw [refill, if_pos (show ({ s with pos := s.pos + r } : Scanner).atEof = true from he)]
    · exact ⟨s.pos, rfl⟩

/-- A leaf under more flags. -/
theorem runLeaf_alongside (hw : Wider F F') (h : View json F s) (kind : LeafKind) :
    (∃ span pos, s.pos ≤ pos ∧ s.runLeaf kind = (some span, { s with pos := pos }) ∧
      (s.under F').runLeaf kind = (some span, ({ s with pos := pos } : Scanner).under F')) ∨
    ∃ s₁, s.runLeaf kind = (none, s₁) ∧ s₁.err.code ≠ .ok ∧
      ∃ o s₂, (s.under F').runLeaf kind = (o, s₂) ∧ s.pos ≤ s₂.reach ∧
        (∀ span, o = some span → View json F' s₂) ∧
        (s₁.err.code = .dialect → Blamed json F s₁.err ∧ s₁.err.offset ≤ s₂.reach) := by
  have htracks := leaf_tracks hw kind (json.drop s.pos)
  have hrun := runLeaf_at h kind
  have hrun' := runLeaf_at (h.under F') kind
  cases hleaf : leaf F kind true (json.drop s.pos) with
  | ok span p =>
    rw [hleaf] at htracks hrun
    rw [show leaf F' kind true (json.drop (s.under F').pos) = _ from htracks] at hrun'
    exact .inl ⟨_, _, Nat.le_add_right _ _, hrun, hrun'⟩
  | fail e r =>
    rw [hleaf] at htracks hrun
    obtain ⟨pos, hrun⟩ := hrun
    obtain ⟨hoff, hflag, hcode⟩ := view_adopt h pos e
    refine .inr ⟨_, hrun, adopt_code_ne _ (leaf_fault hleaf).1 _, ?_⟩
    have hblamed : ((({ s with pos := pos } : Scanner).adopt s.pos e).err.code = .dialect →
        Blamed json F (({ s with pos := pos } : Scanner).adopt s.pos e).err) := by
      intro hd
      obtain ⟨hmem, hor⟩ := (leaf_fault hleaf).2 (hcode hd)
      rw [Blamed, hflag, hoff, ← List.drop_drop]
      exact ⟨hmem, hor⟩
    cases hleaf' : leaf F' kind true (json.drop s.pos) with
    | ok span' p' =>
      rw [show leaf F' kind true (json.drop (s.under F').pos) = _ from hleaf'] at hrun'
      have hview := (h.under F').at_pos (s.pos + p')
      have hreach : ({ s.under F' with pos := s.pos + p' } : Scanner).reach = s.pos + p' := hview.reach
      refine ⟨_, _, hrun', ?_, fun _ _ => hview, fun hd => ⟨hblamed hd, ?_⟩⟩
      · exact Nat.le_trans (Nat.le_add_right _ _) hreach.ge
      · have hle : e.offset ≤ (LeafResult.ok span' p').reach := hleaf' ▸ htracks (hcode hd)
        rw [hoff]
        exact Nat.le_trans (Nat.add_le_add_left hle _) hreach.ge
    | fail e' r' =>
      rw [show leaf F' kind true (json.drop (s.under F').pos) = _ from hleaf'] at hrun'
      obtain ⟨pos', hrun'⟩ := hrun'
      obtain ⟨hoff', -, -⟩ := view_adopt (h.under F') pos' e'
      have hreach := adopt_reach (h.under F') pos' (leaf_fault hleaf').1
      refine ⟨none, _, hrun', ?_, by simp, fun hd => ⟨hblamed hd, ?_⟩⟩
      · exact Nat.le_trans (Nat.le_add_right _ _) hreach.ge
      · have hle : e.offset ≤ (LeafResult.fail e' r').reach := hleaf' ▸ htracks (hcode hd)
        rw [hoff]
        exact Nat.le_trans (Nat.add_le_add_left hle _) hreach.ge

/-! ### Steps -/

theorem View.afterValue (h : View json F s) : View json F s.afterValue :=
  ⟨h.src, h.base, h.json, h.flags, h.err, h.done⟩

/-- The same failure under both. -/
theorem alongside_fails (h : View json F s) {code : ErrorCode} (hcode : code ≠ .dialect) :
    Alongside json F F' s (.stop (s.fail code (s.base + s.pos) 0))
      (.stop ((s.under F').fail code ((s.under F').base + (s.under F').pos) 0)) :=
  alongside_fail h (fail_reach (h.under F') code 0).ge fun hd => absurd hd hcode

theorem openContainer_alongside (h : View json F s) (a : Bool) :
    Alongside json F F' s (s.openContainer a) ((s.under F').openContainer a) := by
  unfold openContainer
  by_cases hd : s.depth ≥ s.maxDepth
  · rw [if_pos hd, if_pos (show (s.under F').depth ≥ (s.under F').maxDepth from hd)]
    exact alongside_fails h (by decide)
  · rw [if_neg hd, if_neg (show ¬ (s.under F').depth ≥ (s.under F').maxDepth from hd)]
    have hview : View json F { s with
        depth := s.depth + 1, inArray := Function.update s.inArray (s.depth + 1) a,
        pos := s.pos + 1, state := if a then .arrFirst else .objFirst } :=
      ⟨h.src, h.base, h.json, h.flags, h.err, h.done⟩
    refine ⟨?_, hview, rfl⟩
    have hreach := (hview.under F').reach
    exact Nat.le_trans (Nat.le_succ s.pos) hreach.ge

theorem closeContainer_alongside (h : View json F s) (a : Bool) :
    Alongside json F F' s (s.closeContainer a) ((s.under F').closeContainer a) := by
  have hview : View json F ({ s with pos := s.pos + 1, depth := s.depth - 1 } : Scanner).afterValue :=
    ⟨h.src, h.base, h.json, h.flags, h.err, h.done⟩
  refine ⟨?_, hview, rfl⟩
  have hreach := (hview.under F').reach
  exact Nat.le_trans (Nat.le_succ s.pos) hreach.ge

theorem leafValue_alongside (hw : Wider F F') (h : View json F s) (kind : LeafKind)
    {k : Scanner → Nat × Nat → EventKind} (hk : ∀ s span, k (Scanner.under s F') span = k s span) :
    Alongside json F F' s (s.leafValue kind k) ((s.under F').leafValue kind k) := by
  unfold leafValue
  rcases runLeaf_alongside hw h kind with
    ⟨span, pos, hpos, hrun, hrun'⟩ | ⟨s₁, hrun, -, o, s₂, hrun', hreach, hview, herr⟩
  · rw [hrun, hrun']
    have hv := (h.at_pos pos).afterValue
    refine ⟨Nat.le_trans hpos (hv.under F').reach.ge, hv, ?_⟩
    dsimp only
    rw [hk]
    rfl
  · rw [hrun, hrun']
    cases o with
    | none => exact ⟨hreach, herr⟩
    | some span => exact ⟨hreach, herr⟩

theorem leafKey_alongside (hw : Wider F F') (h : View json F s) (kind : LeafKind) :
    Alongside json F F' s (s.leafKey kind) ((s.under F').leafKey kind) := by
  unfold leafKey
  rcases runLeaf_alongside hw h kind with
    ⟨span, pos, hpos, hrun, hrun'⟩ | ⟨s₁, hrun, -, o, s₂, hrun', hreach, hview, herr⟩
  · rw [hrun, hrun']
    have hv : View json F { s with pos := pos, state := .colon } :=
      ⟨h.src, h.base, h.json, h.flags, h.err, h.done⟩
    exact ⟨Nat.le_trans hpos (hv.under F').reach.ge, hv, rfl⟩
  · rw [hrun, hrun']
    cases o with
    | none => exact ⟨hreach, herr⟩
    | some span => exact ⟨hreach, herr⟩

/-- A test of a flag at the cursor. -/
theorem alongside_gate (hw : Wider F F') (h : View json F s) {flag : AxlJsonFlags} {p : Prop}
    [Decidable p] {t t' : Step} (hflag : flag ∈ dialectFlags) (ht : Alongside json F F' s t t') :
    Alongside json F F' s
      (if p ∧ allows s.flags flag = false then .stop (s.fail .dialect (s.base + s.pos) flag) else t)
      (if p ∧ allows (s.under F').flags flag = false then
        .stop ((s.under F').fail .dialect ((s.under F').base + (s.under F').pos) flag) else t') := by
  have hfail := (fail_reach (h.under F') .dialect flag).ge
  by_cases hp : p ∧ allows s.flags flag = false
  · rw [if_pos hp]
    refine alongside_fail h ?_ fun _ => ⟨hflag, h.flags ▸ hp.2⟩
    split
    · exact hfail
    · exact ht.1
  · rw [if_neg hp, if_neg fun hp' => hp ⟨hp'.1, h.flags ▸ hw.missing hflag hp'.2⟩]
    exact ht

theorem scanValue_alongside (hw : Wider F F') (h : View json F s) (c : UInt8) :
    Alongside json F F' s (s.scanValue c) ((s.under F').scanValue c) := by
  unfold scanValue
  by_cases h₁ : c = 0x7B
  · simp only [if_pos h₁]
    exact openContainer_alongside h false
  by_cases h₂ : c = 0x5B
  · simp only [if_neg h₁, if_pos h₂]
    exact openContainer_alongside h true
  by_cases h₃ : c = 0x22 ∨ c = 0x27
  · simp only [if_neg h₁, if_neg h₂, if_pos h₃]
    exact alongside_gate hw h (by decide) (leafValue_alongside hw h _ fun _ _ => rfl)
  by_cases h₄ : c = 0x2B ∨ c = 0x2D ∨ isDigit c ∨ c = 0x2E
  · simp only [if_neg h₁, if_neg h₂, if_neg h₃, if_pos h₄]
    exact leafValue_alongside hw h _ fun _ _ => rfl
  by_cases h₅ : isIdentStart c = true
  · simp only [if_neg h₁, if_neg h₂, if_neg h₃, if_neg h₄, if_pos h₅]
    exact leafValue_alongside hw h _ fun _ _ => rfl
  · simp only [if_neg h₁, if_neg h₂, if_neg h₃, if_neg h₄, if_neg h₅]
    exact alongside_fails h (by decide)

theorem scanKey_alongside (hw : Wider F F') (h : View json F s) (c : UInt8) :
    Alongside json F F' s (s.scanKey c) ((s.under F').scanKey c) := by
  unfold scanKey
  by_cases h₁ : c = 0x22 ∨ c = 0x27
  · simp only [if_pos h₁]
    exact alongside_gate hw h (by decide) (leafKey_alongside hw h _)
  by_cases h₂ : isIdentStart c = true
  · simp only [if_neg h₁, if_pos h₂]
    have hgate := @alongside_gate F F' json s hw h allowUnquotedKeys True _ _ _ (by decide)
      (leafKey_alongside hw h .ident)
    simpa only [true_and] using hgate
  · simp only [if_neg h₁, if_neg h₂]
    exact alongside_fails h (by decide)

/-- A bracket is no value. -/
theorem scanValue_closer (s : Scanner) :
    s.scanValue 0x5D = .stop (s.fail .unexpectedByte (s.base + s.pos) 0) := rfl

theorem dispatch_alongside (hw : Wider F F') (h : View json F s) (c : UInt8) :
    Alongside json F F' s (s.dispatch c) ((s.under F').dispatch c) := by
  have hstate : (s.under F').state = s.state := rfl
  unfold dispatch
  rw [hstate]
  cases s.state with
  | valueRoot => exact scanValue_alongside hw h c
  | value =>
    dsimp only
    by_cases hclose : s.depth > 0 ∧ c = 0x5D ∧ allows s.flags allowTrailingComma = true ∧
        s.inArray s.depth = true
    · obtain ⟨hd, hc, hf, ha⟩ := hclose
      rw [if_pos ⟨hd, hc, hf, ha⟩, if_pos ⟨hd, hc, hw.allows (by decide) (h.flags ▸ hf), ha⟩]
      exact closeContainer_alongside h true
    · rw [if_neg hclose]
      split
      case isTrue hclose' =>
        -- the flag lets a bracket close the array
        rw [hclose'.2.1, scanValue_closer]
        exact alongside_fail h (closeContainer_alongside h true).1 fun hd => by cases hd
      case isFalse => exact scanValue_alongside hw h c
  | arrFirst =>
    dsimp only
    split
    · exact closeContainer_alongside h true
    · exact scanValue_alongside hw h c
  | objFirst =>
    dsimp only
    split
    · exact closeContainer_alongside h false
    · exact scanKey_alongside hw h c
  | objKey =>
    dsimp only
    split
    · have hgate := @alongside_gate F F' json s hw h allowTrailingComma True _ _ _ (by decide)
        (closeContainer_alongside h false)
      simp only [true_and] at hgate
      convert hgate using 1 <;> split <;> simp_all
    · exact scanKey_alongside hw h c
  | colon =>
    dsimp only
    split
    · have hview : View json F { s with pos := s.pos + 1, state := .value } :=
        ⟨h.src, h.base, h.json, h.flags, h.err, h.done⟩
      exact ⟨Nat.le_trans (Nat.le_succ s.pos) (hview.under F').reach.ge, hview, rfl⟩
    · exact alongside_fails h (by decide)
  | after =>
    dsimp only
    split
    · have hview : View json F { s with
          pos := s.pos + 1, state := if s.inArray s.depth then .value else .objKey } :=
        ⟨h.src, h.base, h.json, h.flags, h.err, h.done⟩
      exact ⟨Nat.le_trans (Nat.le_succ s.pos) (hview.under F').reach.ge, hview, rfl⟩
    · have hopen : (s.under F').inArray (s.under F').depth = s.inArray s.depth := rfl
      rw [hopen]
      split
      · exact closeContainer_alongside h _
      · exact alongside_fails h (by decide)
  | rootDone | done =>
    refine ⟨(h.under F').reach.ge, fun hd => ?_⟩
    rw [h.err] at hd
    cases hd

/-- A turn behind the gap. -/
def look (s : Scanner) : Step :=
  match s.json.drop s.pos with
  | [] =>
    if s.state = .valueRoot ∧ s.depth = 0 then .stop { s with done := true }
    else .stop (s.fail .incomplete (s.base + s.pos) 0)
  | c :: _ => s.dispatch c

theorem turn_eq (s : Scanner) : s.turn =
    if s.state = .rootDone then
      .event (bareEvent .eof (s.base + s.pos) 0) { s with state := .valueRoot }
    else
      match s.runLeaf .ws with
      | (none, s) => .stop s
      | (some _, s) => s.look := rfl

theorem look_alongside (hw : Wider F F') (h : View json F s) :
    Alongside json F F' s s.look (s.under F').look := by
  have hrest : (s.under F').json.drop (s.under F').pos = s.json.drop s.pos := rfl
  unfold look
  rw [hrest]
  cases s.json.drop s.pos with
  | nil =>
    dsimp only
    by_cases hend : s.state = .valueRoot ∧ s.depth = 0
    · rw [if_pos hend, if_pos (show (s.under F').state = .valueRoot ∧ (s.under F').depth = 0 from hend)]
      refine ⟨(h.under F').reach.ge, fun hd => ?_⟩
      rw [show ({ s with done := true } : Scanner).err = s.err from rfl, h.err] at hd
      cases hd
    · rw [if_neg hend,
        if_neg (show ¬ ((s.under F').state = .valueRoot ∧ (s.under F').depth = 0) from hend)]
      exact alongside_fails h (by decide)
  | cons c cs => exact dispatch_alongside hw h c

theorem look_reach (h : View json F s) : s.pos ≤ s.look.after.reach := by
  have hrefl := (look_alongside (Wider.refl F) h).1
  rwa [show s.under F = s by rw [under, ← h.flags]] at hrefl

theorem turn_alongside (hw : Wider F F') (h : View json F s) :
    Alongside json F F' s s.turn (s.under F').turn := by
  have hstate : (s.under F').state = s.state := rfl
  rw [turn_eq, turn_eq, hstate]
  by_cases hroot : s.state = .rootDone
  · simp only [if_pos hroot]
    have hview : View json F { s with state := .valueRoot } :=
      ⟨h.src, h.base, h.json, h.flags, h.err, h.done⟩
    exact ⟨(hview.under F').reach.ge, hview, rfl⟩
  · simp only [if_neg hroot]
    rcases runLeaf_alongside hw h .ws with
      ⟨span, pos, hpos, hrun, hrun'⟩ | ⟨s₁, hrun, -, o, s₂, hrun', hle, hview, herr⟩
    · rw [hrun, hrun']
      obtain ⟨hreach, hlook⟩ := look_alongside hw (h.at_pos pos)
      exact ⟨Nat.le_trans hpos hreach, hlook⟩
    · rw [hrun, hrun']
      cases o with
      | none => exact ⟨hle, herr⟩
      | some span =>
        -- what follows the longer gap starts behind the missed flag
        have h₂ := hview span rfl
        have hlook := look_reach h₂
        rw [h₂.reach] at hle herr
        exact ⟨Nat.le_trans hle hlook,
          fun hd => ⟨(herr hd).1, Nat.le_trans (herr hd).2 hlook⟩⟩

/-! ### Runs -/

theorem under_self (h : View json F s) : s.under F = s := by
  rw [under, ← h.flags]

/-- A run alone: nothing fails in front of where it starts. -/
theorem nextLoop_reach (n : Nat) {s : Scanner} (h : View json F s) :
    s.pos ≤ (nextLoop n s).2.reach ∧
      ∀ {ev s₁}, nextLoop n s = (some ev, s₁) → View json F s₁ := by
  induction n generalizing s with
  | zero => exact ⟨h.reach.ge, by simp [nextLoop]⟩
  | succ n ih =>
    obtain ⟨hreach, hstep⟩ := turn_alongside (Wider.refl F) h
    rw [under_self h] at hreach
    rw [nextLoop]
    cases hturn : s.turn with
    | event ev s₁ =>
      rw [hturn] at hreach hstep
      refine ⟨hreach, fun {ev' s₂} hn => ?_⟩
      cases hn
      exact hstep.1
    | again s₁ =>
      rw [hturn] at hreach hstep
      obtain ⟨hle, hsome⟩ := ih hstep.1
      exact ⟨Nat.le_trans hreach (Nat.le_trans hstep.1.reach.le hle), hsome⟩
    | stop s₁ =>
      rw [hturn] at hreach
      exact ⟨hreach, by simp⟩

/-- The calls of both scanners. -/
theorem nextLoop_alongside (hw : Wider F F') (n : Nat) {s : Scanner} (h : View json F s) :
    (∀ {ev s₁}, nextLoop n s = (some ev, s₁) → nextLoop n (s.under F') = (some ev, s₁.under F')) ∧
      ∀ {s₁}, nextLoop n s = (none, s₁) → s₁.err.code = .dialect →
        Blamed json F s₁.err ∧ s₁.err.offset ≤ (nextLoop n (s.under F')).2.reach := by
  induction n generalizing s with
  | zero =>
    refine ⟨by simp [nextLoop], fun {s₁} hn hd => ?_⟩
    cases hn
    rw [h.err] at hd
    cases hd
  | succ n ih =>
    obtain ⟨-, hstep⟩ := turn_alongside hw h
    obtain ⟨-, hview⟩ := turn_alongside (Wider.refl F') (h.under F')
    rw [nextLoop, nextLoop]
    cases hturn : s.turn with
    | event ev s₁ =>
      rw [hturn] at hstep
      rw [hstep.2]
      refine ⟨fun {ev' s₂} hn => ?_, by simp⟩
      cases hn
      rfl
    | again s₁ =>
      rw [hturn] at hstep
      rw [hstep.2]
      exact ih hstep.1
    | stop s₁ =>
      rw [hturn] at hstep
      refine ⟨by simp, fun {s₂} hn hd => ?_⟩
      cases hn
      obtain ⟨hblamed, hle⟩ := hstep hd
      refine ⟨hblamed, ?_⟩
      -- the other scanner may go on
      cases hturn' : (s.under F').turn with
      | event ev s₂ =>
        rw [hturn'] at hle
        exact hle
      | stop s₂ =>
        rw [hturn'] at hle
        exact hle
      | again s₂ =>
        rw [hturn'] at hle hview
        exact Nat.le_trans hle (Nat.le_trans hview.1.reach.le (nextLoop_reach n hview.1).1)

theorem next_eq (h : View json F s) : s.next = nextLoop 2 s := by
  rw [next, h.done]
  rfl

/-- What the parser makes of a view, the policies apart: the scanner at the end, and the
tokens. -/
def scanFrom (fuel : Nat) (s : Scanner) (b : Builder) : Scanner × List Tok :=
  let r := parseLoop fuel s b
  (finishScan r.1 r.2.2, r.2.1.tokens)

theorem finishScan_stop (s : Scanner) : (finishScan s false).err.code ≠ .ok ∧
    (finishScan s false).err.offset = s.reach := by
  unfold finishScan
  rw [if_pos (by simp)]
  split
  case isTrue h =>
    refine ⟨fail_code_ne _ (by simp) _ _, ?_⟩
    simp [fail, h, reach]
  case isFalse h => exact ⟨h, by simp [reach, h]⟩

/-- `finishScan` behind the gap at the end of a document. -/
def closing (o : Option (Nat × Nat)) (s : Scanner) : Scanner :=
  match o with
  | none => s
  | some _ => if s.pos ≠ s.json.length then s.fail .trailing (s.base + s.pos) 0 else s

theorem finishScan_closing {o : Option (Nat × Nat)} {s₁ : Scanner} (h : s.runLeaf .ws = (o, s₁)) :
    finishScan s true = closing o s₁ := by
  rw [finishScan, h]
  cases o <;> rfl

theorem closing_view (h : View json F s) (span : Nat × Nat) :
    (closing (some span) s).err.code = .ok ∨ ((closing (some span) s).err.code = .trailing ∧
      (closing (some span) s).err.offset = s.pos) := by
  rw [closing]
  split
  · obtain ⟨hcode, hoff, -⟩ := view_fail h .trailing 0
    exact .inr ⟨hcode, hoff⟩
  · exact .inl (by rw [h.err]; rfl)

theorem closing_under (s : Scanner) (span : Nat × Nat) :
    closing (some span) (s.under F') = (closing (some span) s).under F' := by
  have hmore : ((s.under F').pos ≠ (s.under F').json.length) = (s.pos ≠ s.json.length) := rfl
  simp only [closing, hmore]
  split <;> rfl

/-- The end of a document under more flags. -/
theorem finishScan_alongside (hw : Wider F F') (h : View json F s) :
    ((finishScan (s.under F') true).err.code ≠ .ok →
        s.pos ≤ (finishScan (s.under F') true).err.offset) ∧
      ((finishScan s true).err.code = .ok → (finishScan (s.under F') true).err.code = .ok) ∧
      ((finishScan s true).err.code = .dialect → Blamed json F (finishScan s true).err ∧
        ((finishScan (s.under F') true).err.code ≠ .ok →
          (finishScan s true).err.offset ≤ (finishScan (s.under F') true).err.offset)) := by
  rcases runLeaf_alongside hw h .ws with
    ⟨span, pos, hpos, hrun, hrun'⟩ | ⟨s₁, hrun, hne, o, s₂, hrun', hle, hview, herr⟩
  · rw [finishScan_closing hrun, finishScan_closing hrun', closing_under]
    rcases closing_view (h.at_pos pos) span with hok | ⟨hcode, hoff⟩
    · refine ⟨fun hc => absurd hok hc, fun _ => hok, fun hd => ?_⟩
      exact absurd (hok.symm.trans hd) (by decide)
    · refine ⟨fun _ => Nat.le_trans hpos hoff.ge, fun hc => hc, fun hd => ?_⟩
      exact absurd (hcode.symm.trans hd) (by decide)
  · rw [finishScan_closing hrun, finishScan_closing hrun']
    have hoff : ∀ {k : Nat}, k ≤ s₂.reach → (closing o s₂).err.code ≠ .ok →
        k ≤ (closing o s₂).err.offset := by
      intro k hk hc
      cases o with
      | none =>
        rw [closing] at hc ⊢
        rwa [reach, if_neg hc] at hk
      | some span =>
        have hv := hview span rfl
        rw [hv.reach] at hk
        rcases closing_view hv span with hok | ⟨-, hoff⟩
        · exact absurd hok hc
        · exact Nat.le_trans hk hoff.ge
    exact ⟨hoff hle, fun hc => absurd hc hne, fun hd => ⟨(herr hd).1, hoff (herr hd).2⟩⟩

theorem finishScan_end (h : View json F s) (hc : (finishScan s true).err.code ≠ .ok) :
    s.pos ≤ (finishScan s true).err.offset := by
  have hrefl := (finishScan_alongside (Wider.refl F) h).1
  rw [under_self h] at hrefl
  exact hrefl hc

theorem scanFrom_reach (fuel : Nat) {s : Scanner} (h : View json F s) (b : Builder)
    (hc : (scanFrom fuel s b).1.err.code ≠ .ok) : s.pos ≤ (scanFrom fuel s b).1.err.offset := by
  induction fuel generalizing s b with
  | zero =>
    rw [scanFrom, parseLoop] at hc ⊢
    exact Nat.le_trans h.reach.ge (finishScan_stop s).2.ge
  | succ fuel ih =>
    obtain ⟨hreach, hsome⟩ := nextLoop_reach 2 h
    rw [scanFrom, parseLoop, next_eq h] at hc ⊢
    cases hn : nextLoop 2 s with
    | mk o s₁ =>
      rw [hn] at hc hreach
      cases o with
      | none => exact Nat.le_trans hreach (finishScan_stop s₁).2.ge
      | some ev =>
        have hview := hsome hn
        rw [hview.reach] at hreach
        dsimp only at hc ⊢
        split at hc
        case isTrue hkind =>
          rw [if_pos hkind]
          exact Nat.le_trans hreach (finishScan_end hview hc)
        case isFalse hkind =>
          rw [if_neg hkind]
          exact Nat.le_trans hreach (ih hview _ hc)

/-- The parser under more flags. -/
theorem scanFrom_alongside (hw : Wider F F') (fuel : Nat) {s : Scanner} (h : View json F s)
    (b : Builder) :
    ((scanFrom fuel s b).1.err.code = .ok → (scanFrom fuel (s.under F') b).1.err.code = .ok ∧
        (scanFrom fuel (s.under F') b).2 = (scanFrom fuel s b).2) ∧
      ((scanFrom fuel s b).1.err.code = .dialect → Blamed json F (scanFrom fuel s b).1.err ∧
        ((scanFrom fuel (s.under F') b).1.err.code ≠ .ok →
          (scanFrom fuel s b).1.err.offset ≤ (scanFrom fuel (s.under F') b).1.err.offset)) := by
  induction fuel generalizing s b with
  | zero =>
    have hcode : (scanFrom 0 s b).1.err.code = .incomplete := by
      simp only [scanFrom, parseLoop, finishScan, h.err]
      simp [fail, h.err, JsonError.none]
    rw [hcode]
    exact ⟨by simp, by simp⟩
  | succ fuel ih =>
    obtain ⟨hsome, hnone⟩ := nextLoop_alongside hw 2 h
    rw [scanFrom, scanFrom, parseLoop, parseLoop, next_eq h, next_eq (h.under F')]
    cases hn : nextLoop 2 s with
    | mk o s₁ =>
      cases o with
      | some ev =>
        have hview := (nextLoop_reach 2 h).2 hn
        rw [hsome hn]
        dsimp only
        split
        case isTrue =>
          obtain ⟨-, hok, hd⟩ := finishScan_alongside hw hview
          exact ⟨fun hc => ⟨hok hc, rfl⟩, hd⟩
        case isFalse => exact ih hview (b.event ev)
      | none =>
        dsimp only
        refine ⟨fun hc => absurd hc (finishScan_stop s₁).1, fun hd => ?_⟩
        -- a failure over a flag is that of the scanner
        have hstop : finishScan s₁ false = s₁ := by
          rw [finishScan, if_pos (by simp)] at hd ⊢
          split
          case isTrue hok => simp [fail, hok] at hd
          case isFalse => rfl
        rw [hstop] at hd ⊢
        obtain ⟨hblamed, hle⟩ := hnone hn hd
        refine ⟨hblamed, fun hc => ?_⟩
        cases hn' : nextLoop 2 (s.under F') with
        | mk o s₂ =>
          rw [hn'] at hle hc
          cases o with
          | none => exact Nat.le_trans hle (finishScan_stop s₂).2.ge
          | some ev =>
            -- the other scanner goes on from behind the missed flag
            have hv := (nextLoop_reach 2 (h.under F')).2 hn'
            rw [hv.reach] at hle
            dsimp only at hc ⊢
            split at hc
            case isTrue hkind =>
              rw [if_pos hkind]
              exact Nat.le_trans hle (finishScan_end hv hc)
            case isFalse hkind =>
              rw [if_neg hkind]
              exact Nat.le_trans hle (scanFrom_reach fuel hv _ hc)

end Scanner

/-! ## The parser -/

open Scanner

/-- The scan of a whole document. -/
def scan (json : List UInt8) (F : AxlJsonFlags) : Scanner × List Tok :=
  scanFrom (json.length + 2) (startScanner json F) .empty

theorem parse_scan {json : List UInt8} (hne : json ≠ []) (hmode : utf8Of F ≠ utf8Mask) :
    parse json F =
      let err := if (scan json F).1.err.code = .ok then
        applyPolicies (scan json F).1 json F (scan json F).2 else (scan json F).1.err
      if err.code = .ok then .ok ⟨json, (scan json F).2, utf8Of F⟩ else .error err := by
  rw [parse, if_neg hne, parseInternal, init_view hmode]
  rfl

theorem scan_alongside (hw : Wider F F') (json : List UInt8) :
    ((scan json F).1.err.code = .ok →
        (scan json F').1.err.code = .ok ∧ (scan json F').2 = (scan json F).2) ∧
      ((scan json F).1.err.code = .dialect → Blamed json F (scan json F).1.err ∧
        ((scan json F').1.err.code ≠ .ok →
          (scan json F).1.err.offset ≤ (scan json F').1.err.offset)) := by
  have hunder : startScanner json F' = (startScanner json F).under F' := by
    simp only [startScanner, under, hw.depth]
  rw [scan, scan, hunder]
  exact scanFrom_alongside hw _ ⟨rfl, rfl, rfl, rfl, rfl, rfl⟩ .empty

/-- The bits that say how deep a document may nest. -/
def depthBits : AxlJsonFlags := 0x3FF#64 <<< 38

/-- The bits of the policies over a finished document. -/
def policies : AxlJsonFlags := utf8Mask ||| rejectDuplicates

/-- The dialect and the depth alone. -/
def withoutPolicies (F : AxlJsonFlags) : AxlJsonFlags := F &&& ~~~policies

theorem allows_or (F m f : AxlJsonFlags) : allows (F ||| m) f = (allows F f || allows m f) := by
  rw [Bool.eq_iff_iff]
  simp only [allows, bne_iff_ne, ne_eq, Bool.or_eq_true, BitVec.and_or_distrib_right,
    BitVec.or_eq_zero_iff, not_and_or]

theorem depthOf_eq (F : AxlJsonFlags) : depthOf F = ((F &&& depthBits) >>> 38).toNat := by
  rw [depthOf, BitVec.ushiftRight_and_distrib]
  rfl

theorem depthLimit_of_bits (h : F &&& depthBits = F' &&& depthBits) :
    Scanner.depthLimit F = Scanner.depthLimit F' := by
  simp only [Scanner.depthLimit, depthOf_eq, h]

variable {m x : AxlJsonFlags}

theorem and_or_of_disjoint (h : m &&& x = 0) :
    (F ||| m) &&& x = F &&& x := by
  rw [BitVec.and_or_distrib_right, h]
  exact BitVec.or_zero

/-- The flags of the dialect meet no other bits. -/
theorem dialect_disjoint (hm : m &&& json5 = m) (hx : json5 &&& x = 0) :
    m &&& x = 0 := by
  rw [← hm, BitVec.and_assoc, hx]
  exact BitVec.and_zero

theorem dialectFlags_bits : ∀ m ∈ dialectFlags,
    m &&& depthBits = 0#64 ∧ m &&& utf8Mask = 0#64 ∧ allows m m = true := by
  simp only [dialectFlags, List.forall_mem_cons, List.not_mem_nil, false_imp_iff, implies_true,
    and_true]
  refine ⟨?_, ?_, ?_, ?_, ?_, ?_, ?_, ?_, ?_, ?_⟩ <;> decide

theorem withoutPolicies_and (h : policies &&& x = 0) :
    withoutPolicies F &&& x = F &&& x := by
  have hx : ~~~policies &&& x = x := by
    have hsplit : (policies ||| ~~~policies) &&& x = x := by
      rw [show policies ||| ~~~policies = BitVec.allOnes 64 by decide]
      exact BitVec.allOnes_and
    rwa [BitVec.and_or_distrib_right, h, show (0 : AxlJsonFlags) = 0#64 from rfl,
      BitVec.zero_or] at hsplit
  rw [withoutPolicies, BitVec.and_assoc, hx]

theorem wider_or (hm : m &&& depthBits = 0) : Wider F (F ||| m) := by
  constructor
  · intro f _ hf
    rw [allows_or, hf, Bool.true_or]
  · exact depthLimit_of_bits (and_or_of_disjoint hm)

theorem wider_withoutPolicies (F : AxlJsonFlags) : Wider F (withoutPolicies F) := by
  have hpolicy : ∀ f ∈ dialectFlags, policies &&& f = 0#64 := by
    simp only [dialectFlags, List.forall_mem_cons, List.not_mem_nil, false_imp_iff, implies_true,
      and_true]
    refine ⟨?_, ?_, ?_, ?_, ?_, ?_, ?_, ?_, ?_, ?_⟩ <;> decide
  constructor
  · intro f hmem hf
    rw [allows, withoutPolicies_and (hpolicy f hmem)]
    exact hf
  · exact depthLimit_of_bits (withoutPolicies_and (by decide))

theorem parse_of_scan {json : List UInt8} (hne : json ≠ []) (hmode : utf8Of F ≠ utf8Mask)
    (rd : Reader) : parse json F = .ok rd ↔ (scan json F).1.err.code = .ok ∧
      policyCode F json (scan json F).2 = .ok ∧ rd = ⟨json, (scan json F).2, utf8Of F⟩ := by
  rw [parse_scan hne hmode]
  dsimp only
  by_cases hok : (scan json F).1.err.code = .ok
  · rw [if_pos hok, applyPolicies_code]
    by_cases hpol : policyCode F json (scan json F).2 = .ok
    · rw [if_pos hpol]
      simp only [Except.ok.injEq, hok, hpol, true_and]
      exact eq_comm
    · simp [hpol]
  · simp [hok]

theorem dupCheck_code (json : List UInt8) (toks : List Tok) (utf8Mode : AxlJsonFlags) (fuel : Nat) :
    (∀ {idx e}, dupCheckSubtree json toks utf8Mode fuel idx = .error e → e.1 ≠ .dialect) ∧
      (∀ {linear pairs idx seen e},
        dupCheckMembers json toks utf8Mode linear fuel pairs idx seen = .error e →
          e.1 ≠ .dialect) ∧
      ∀ {items idx e}, dupCheckItems json toks utf8Mode fuel items idx = .error e →
        e.1 ≠ .dialect := by
  induction fuel with
  | zero =>
    refine ⟨fun h => ?_, fun {_ pairs _ _ _} h => ?_, fun {items _ _} h => ?_⟩
    · rw [dupCheckSubtree] at h
      cases h
      simp
    · cases pairs <;> rw [dupCheckMembers] at h <;> cases h
      simp
    · cases items <;> rw [dupCheckItems] at h <;> cases h
      simp
  | succ fuel ih =>
    obtain ⟨hsub, hmembers, hitems⟩ := ih
    refine ⟨fun h => ?_, fun {_ pairs _ _ _} h => ?_, fun {items _ _} h => ?_⟩
    · rw [dupCheckSubtree] at h
      split at h
      · cases h
        simp
      · split at h
        · exact hmembers h
        · exact hitems h
        · cases h
        · cases h
    · cases pairs with
      | zero =>
        rw [dupCheckMembers] at h
        cases h
      | succ pairs =>
        rw [dupCheckMembers] at h
        split at h
        · cases h
          simp
        · split at h
          · cases h
            simp
          · split at h
            · cases h
              simp
            · split at h
              · cases h
                simp
              · split at h
                · rename_i hval
                  cases h
                  exact hsub hval
                · exact hmembers h
    · cases items with
      | zero =>
        rw [dupCheckItems] at h
        cases h
      | succ items =>
        rw [dupCheckItems] at h
        split at h
        · rename_i hval
          cases h
          exact hsub hval
        · exact hitems h

/-- No policy misses a flag. -/
theorem policyCode_ne_dialect (json : List UInt8) (toks : List Tok) :
    policyCode F json toks ≠ .dialect := by
  have hdup : ∀ {e}, checkDuplicateKeys json toks (utf8Of F) = some e → e.1 ≠ .dialect := by
    intro e h
    rw [checkDuplicateKeys] at h
    split at h
    · cases h
    · split at h
      · rename_i herr
        cases h
        exact (dupCheck_code _ _ _ _).1 herr
      · cases h
  unfold policyCode
  split
  · simp
  · split
    · rename_i e he
      split at he
      · exact hdup he
      · cases he
    · simp

theorem scan_of_dialect {json : List UInt8} {e : JsonError} (h : parse json F = .error e)
    (hd : e.code = .dialect) :
    json ≠ [] ∧ utf8Of F ≠ utf8Mask ∧ e = (scan json F).1.err := by
  have hne : json ≠ [] := by
    rintro rfl
    cases h
    cases hd
  have hmode : utf8Of F ≠ utf8Mask := by
    intro hmask
    rw [parse, if_neg hne, parseInternal, Scanner.init, if_pos hmask] at h
    cases h
    cases hd
  rw [parse_scan hne hmode] at h
  dsimp only at h
  refine ⟨hne, hmode, ?_⟩
  by_cases hok : (scan json F).1.err.code = .ok
  · rw [if_pos hok] at h
    split at h
    · cases h
    · cases h
      rw [applyPolicies_code] at hd
      exact absurd hd (policyCode_ne_dialect _ _)
  · rw [if_neg hok, if_neg hok] at h
    cases h
    rfl

/-- A document whose scan meets no failure is accepted without policies. -/
theorem accepted_of_scan {json : List UInt8} (hne : json ≠ [])
    (h : (scan json F).1.err.code = .ok) : ∃ rd, parse json (withoutPolicies F) = .ok rd := by
  obtain ⟨hok, -⟩ := (scan_alongside (wider_withoutPolicies F) json).1 h
  have hutf8 : utf8Of (withoutPolicies F) = 0 := by
    rw [utf8Of, withoutPolicies, BitVec.and_assoc, show ~~~policies &&& utf8Mask = 0#64 by decide]
    exact BitVec.and_zero
  have hdup : allows (withoutPolicies F) rejectDuplicates = false := by
    rw [allows, withoutPolicies, BitVec.and_assoc,
      show ~~~policies &&& rejectDuplicates = 0#64 by decide, BitVec.and_zero]
    rfl
  refine ⟨⟨json, (scan json (withoutPolicies F)).2, utf8Of (withoutPolicies F)⟩, ?_⟩
  rw [parse_scan hne (by rw [hutf8]; decide)]
  dsimp only
  rw [if_pos hok, applyPolicies_code, policyCode_of_none (by rw [hutf8]; decide) hdup, if_pos rfl]

/-- More flags of the dialect change nothing for a document that is accepted; and a
document that misses a flag is accepted with it, or refused by a policy alone, or fails
at that place or behind it, for another reason unless a word goes on there. -/
theorem dialect_flags (json : List UInt8) (F : AxlJsonFlags) :
    (∀ m, m &&& json5 = m → ∀ rd, parse json F = .ok rd → parse json (F ||| m) = .ok rd) ∧
    ∀ e, parse json F = .error e → e.code = .dialect →
      (∃ rd, parse json (F ||| e.missingFlag) = .ok rd) ∨
      ∃ e', parse json (F ||| e.missingFlag) = .error e' ∧
        ((∃ rd, parse json (withoutPolicies (F ||| e.missingFlag)) = .ok rd) ∨
          (e.offset ≤ e'.offset ∧ (e'.offset = e.offset →
            ¬ (e.missingFlag = allowNanInf ∧ LongWord (json.drop e.offset)) →
            (e'.code, e'.missingFlag) ≠ (.dialect, e.missingFlag)))) := by
  constructor
  · intro m hm rd hrd
    have hutf8 : utf8Of (F ||| m) = utf8Of F := and_or_of_disjoint (dialect_disjoint hm (by decide))
    have hdup : allows (F ||| m) rejectDuplicates = allows F rejectDuplicates := by
      rw [allows, allows, and_or_of_disjoint (dialect_disjoint hm (by decide))]
    obtain ⟨hne, hmode⟩ := parse_ready hrd
    obtain ⟨hok, hpol, rfl⟩ := (parse_of_scan hne hmode rd).mp hrd
    have hdepth : m &&& depthBits = 0 := dialect_disjoint hm (by decide)
    obtain ⟨hok', htoks⟩ := (scan_alongside (wider_or hdepth) json).1 hok
    refine (parse_of_scan hne (hutf8 ▸ hmode) _).mpr ⟨hok', ?_, ?_⟩
    · rw [htoks, policyCode, hutf8, hdup]
      exact hpol
    · rw [htoks, hutf8]
  · intro e he hdialect
    obtain ⟨hne, hmode, rfl⟩ := scan_of_dialect he hdialect
    have hmem := ((scan_alongside (Wider.refl F) json).2 hdialect).1.1
    generalize hm : (scan json F).1.err.missingFlag = m at hmem ⊢
    obtain ⟨hdepth, hutf8, hset⟩ := dialectFlags_bits m hmem
    obtain ⟨-, hle⟩ := (scan_alongside (wider_or (F := F) hdepth) json).2 hdialect
    have hmode' : utf8Of (F ||| m) ≠ utf8Mask := by
      rwa [utf8Of, and_or_of_disjoint hutf8]
    have hparse := parse_scan hne hmode'
    by_cases hok : (scan json (F ||| m)).1.err.code = .ok
    · dsimp only at hparse
      rw [if_pos hok] at hparse
      split at hparse
      · exact .inl ⟨_, hparse⟩
      · exact .inr ⟨_, hparse, .inl (accepted_of_scan hne hok)⟩
    · dsimp only at hparse
      rw [if_neg hok, if_neg hok] at hparse
      refine .inr ⟨_, hparse, .inr ⟨hle hok, fun hoff hword heq => ?_⟩⟩
      -- a flag that is set is missed at a word that goes on
      obtain ⟨hcode, hflag⟩ := Prod.mk.inj heq
      obtain ⟨-, hor⟩ := ((scan_alongside (Wider.refl (F ||| m)) json).2 hcode).1
      rw [hflag, hoff, allows_or, hset, Bool.or_true] at hor
      exact hword (hor.resolve_left (by simp))

/-- A list of a string that is no UTF-8 and a number with a plus sign. -/
theorem dialect_flags_policy :
    parse [0x5B, 0x22, 0xFF, 0x22, 0x2C, 0x2B, 0x31, 0x5D] utf8Strict =
      .error ⟨.dialect, 5, 1, 6, allowPlusSign⟩ ∧
    parse [0x5B, 0x22, 0xFF, 0x22, 0x2C, 0x2B, 0x31, 0x5D] (utf8Strict ||| allowPlusSign) =
      .error ⟨.badUtf8, 2, 1, 3, 0⟩ := by
  constructor <;> decide +kernel

end Json

end AxlSdk
