import AxlSdk.Json.Lex

/-!
# What the leaves recognise

Each leaf of the lexer is compared with a description of the texts it takes, at
the end of the input (`eof = true`). For every leaf there are two statements:

- *sound*: what the leaf took off the front of the input is such a text;
- *complete*: in front of a byte that cannot continue it, such a text is taken
  as a whole.

`Gap` is insignificant text, `StrBody` the inner content of a string,
`NumberText` a number and `WordText` a keyword, all relative to the flags.
-/

namespace AxlSdk

namespace Json

open List

/-! ## Failures and runs of characters -/

@[simp] theorem lexFail_cons (eof : Bool) (c : UInt8) (cs : List UInt8) (code : ErrorCode)
    (pos : Nat) (flag : AxlJsonFlags) :
    lexFail eof (c :: cs) code pos flag = ⟨code, pos, flag⟩ := by
  simp [lexFail]

@[simp] theorem lexFail_eof (here : List UInt8) (code : ErrorCode) (pos : Nat)
    (flag : AxlJsonFlags) : lexFail true here code pos flag = ⟨code, pos, flag⟩ := by
  simp [lexFail]

@[simp] theorem lexFail_nil (code : ErrorCode) (pos : Nat) (flag : AxlJsonFlags) :
    lexFail false [] code pos flag = ⟨.incomplete, pos, 0⟩ := by
  simp [lexFail]

@[simp] theorem lexFail_incomplete (eof : Bool) (here : List UInt8) (pos : Nat) :
    lexFail eof here .incomplete pos 0#64 = ⟨.incomplete, pos, 0⟩ := by
  simp [lexFail]

/-- No byte of the class `p` follows. -/
def Ends (p : UInt8 → Bool) (r : List UInt8) : Prop := ∀ c, r.head? = some c → p c = false

variable {r : List UInt8}

theorem span_append {p : UInt8 → Bool} {d : List UInt8} (hd : ∀ c ∈ d, p c = true) (hr : Ends p r) :
    (d ++ r).takeWhile p = d ∧ (d ++ r).dropWhile p = r := by
  have hr' : r.takeWhile p = [] ∧ r.dropWhile p = r := by
    cases r with
    | nil => exact ⟨rfl, rfl⟩
    | cons c cs =>
      have hc : p c = false := hr c rfl
      simp [hc]
  induction d with
  | nil => exact hr'
  | cons c d ih =>
    have hc := hd c (by simp)
    obtain ⟨h₁, h₂⟩ := ih fun c' h' => hd c' (by simp [h'])
    rw [cons_append, takeWhile_cons_of_pos hc, dropWhile_cons_of_pos hc]
    exact ⟨by rw [h₁], h₂⟩

variable {s : List UInt8} {c : UInt8}

theorem mem_takeWhile {p : UInt8 → Bool} (h : c ∈ s.takeWhile p) : p c = true := by
  induction s with
  | nil => simp at h
  | cons a s ih =>
    rw [takeWhile_cons] at h
    split at h
    · rcases mem_cons.mp h with rfl | h
      · assumption
      · exact ih h
    · simp at h

/-! ## Insignificant text -/

/-- A character that the flags accept as whitespace. -/
def SpaceOk (flags : AxlJsonFlags) (c : UInt8) : Prop :=
  isSpace c = true ∧ (c = 0x0B ∨ c = 0x0C → allows flags allowExtraWhitespace = true)

/-- The text of a line comment behind its slashes. -/
def LineBody (b : List UInt8) : Prop := ∀ c ∈ b, c ≠ 0x0A ∧ c ≠ 0x0D

/-- No `*/` occurs in the text. -/
def closesNowhere : List UInt8 → Bool
  | c :: d :: ds => !(c == 0x2A && d == 0x2F) && closesNowhere (d :: ds)
  | _ => true

/-- The text of a block comment: the first `*/` is the one behind it. -/
def BlockBody (b : List UInt8) : Prop := closesNowhere (b ++ [0x2A]) = true

/-- Whitespace and finished comments. -/
inductive Gap (flags : AxlJsonFlags) : List UInt8 → Prop where
  | nil : Gap flags []
  | space {c : UInt8} {g : List UInt8} (hc : SpaceOk flags c) (hg : Gap flags g) :
      Gap flags (c :: g)
  | line {b g : List UInt8} {nl : UInt8} (hf : allows flags allowComments = true)
      (hb : LineBody b) (hn : nl = 0x0A ∨ nl = 0x0D) (hg : Gap flags g) :
      Gap flags (0x2F :: 0x2F :: (b ++ nl :: g))
  | block {b g : List UInt8} (hf : allows flags allowComments = true) (hb : BlockBody b)
      (hg : Gap flags g) : Gap flags (0x2F :: 0x2A :: (b ++ 0x2A :: 0x2F :: g))

/-- Insignificant text at the end of the input, where a line comment needs no
line break. -/
inductive TailGap (flags : AxlJsonFlags) : List UInt8 → Prop where
  | gap {g : List UInt8} (hg : Gap flags g) : TailGap flags g
  | line {g b : List UInt8} (hg : Gap flags g) (hf : allows flags allowComments = true)
      (hb : LineBody b) : TailGap flags (g ++ 0x2F :: 0x2F :: b)

/-- What stands behind a gap: the end, or a byte that is neither space nor slash. -/
def Stops (r : List UInt8) : Prop := Ends (fun c => isSpace c || c == 0x2F) r

variable {flags : AxlJsonFlags} {g : List UInt8}

theorem Gap.append {h : List UInt8} (hg : Gap flags g) (hh : Gap flags h) : Gap flags (g ++ h) := by
  induction hg with
  | nil => exact hh
  | space hc _ ih => exact .space hc ih
  | line hf hb hn _ ih =>
    have := Gap.line hf hb hn ih
    simpa using this
  | block hf hb _ ih =>
    have := Gap.block hf hb ih
    simpa using this

variable {eof : Bool} {cs : List UInt8} {pos res : Nat}

theorem skipWsLoop_space (hc : SpaceOk flags c) :
    skipWsLoop flags eof .between (c :: cs) pos res
      = skipWsLoop flags eof .between cs (pos + 1) (pos + 1) := by
  rw [skipWsLoop.eq_def]
  simp only [hc.1, if_true]
  rw [if_neg]
  rintro ⟨h, hf⟩
  rw [hc.2 h] at hf
  cases hf

theorem skipWsLoop_badSpace (hc : isSpace c = true) (hd : ¬ SpaceOk flags c) :
    skipWsLoop flags eof .between (c :: cs) pos res
      = .fail ⟨.dialect, pos, allowExtraWhitespace⟩ pos := by
  have hd' : (c = 0x0B ∨ c = 0x0C) ∧ allows flags allowExtraWhitespace = false := by
    simpa [SpaceOk, hc] using hd
  rw [skipWsLoop.eq_def]
  simp only [hc, if_true]
  rw [if_pos hd', lexFail_cons]

theorem skipWsLoop_stop (hc : isSpace c = false) (hs : c ≠ 0x2F) :
    skipWsLoop flags eof .between (c :: cs) pos res = .ok (0, 0) pos := by
  rw [skipWsLoop.eq_def]
  simp [hc, hs]

variable {b : List UInt8}

theorem skipWsLoop_line (hb : LineBody b) :
    skipWsLoop flags eof .line (b ++ r) pos res
      = skipWsLoop flags eof .line r (pos + b.length) res := by
  induction b generalizing pos with
  | nil => rfl
  | cons c b ih =>
    obtain ⟨h₁, h₂⟩ := hb c (by simp)
    rw [cons_append, skipWsLoop, if_neg (by simp [h₁, h₂]),
      ih fun c' h' => hb c' (by simp [h'])]
    congr 1
    simp only [length_cons]
    omega

theorem skipWsLoop_block (hb : BlockBody b) :
    skipWsLoop flags eof .block (b ++ 0x2A :: 0x2F :: r) pos res
      = skipWsLoop flags eof .between r (pos + b.length + 2) res := by
  induction b generalizing pos with
  | nil => simp [skipWsLoop]
  | cons c b ih =>
    have hlen : pos + 1 + b.length + 2 = pos + (c :: b).length + 2 := by
      simp only [length_cons]
      omega
    cases b with
    | nil => simp [skipWsLoop]
    | cons d b =>
      have hcd : ¬ (c = 0x2A ∧ d = 0x2F) ∧ BlockBody (d :: b) := by
        simpa [BlockBody, closesNowhere, ← not_and_or] using hb
      rw [← hlen, ← ih hcd.2]
      simp only [cons_append, skipWsLoop, hcd.1, if_false]

/-- **Gaps are skipped** up to the next token. -/
theorem skipWsLoop_gap (hg : Gap flags g) (eof : Bool) (pos res : Nat) :
    ∃ res', skipWsLoop flags eof .between (g ++ r) pos res
      = skipWsLoop flags eof .between r (pos + g.length) res' := by
  induction hg generalizing pos res with
  | nil => exact ⟨res, rfl⟩
  | space hc _ ih =>
    obtain ⟨res', h⟩ := ih (pos + 1) (pos + 1)
    refine ⟨res', ?_⟩
    rw [cons_append, skipWsLoop_space hc, h, length_cons]
    congr 1
    omega
  | @line b g nl hf hb hn _ ih =>
    obtain ⟨res', h⟩ := ih (pos + 2 + b.length + 1) (pos + 2 + b.length + 1)
    refine ⟨res', ?_⟩
    have hopen : skipWsLoop flags eof .between (0x2F :: 0x2F :: (b ++ nl :: (g ++ r))) pos res
        = skipWsLoop flags eof .line (b ++ nl :: (g ++ r)) (pos + 2) pos := by
      simp [skipWsLoop, isSpace, hf]
    rw [show 0x2F :: 0x2F :: (b ++ nl :: g) ++ r = 0x2F :: 0x2F :: (b ++ nl :: (g ++ r)) by simp,
      hopen, skipWsLoop_line hb, skipWsLoop, if_pos hn, h]
    congr 1
    simp only [length_cons, length_append]
    omega
  | @block b g hf hb _ ih =>
    obtain ⟨res', h⟩ := ih (pos + 2 + b.length + 2) pos
    refine ⟨res', ?_⟩
    have hopen : skipWsLoop flags eof .between (0x2F :: 0x2A :: (b ++ 0x2A :: 0x2F :: (g ++ r)))
        pos res = skipWsLoop flags eof .block (b ++ 0x2A :: 0x2F :: (g ++ r)) (pos + 2) pos := by
      simp [skipWsLoop, isSpace, hf]
    rw [show 0x2F :: 0x2A :: (b ++ 0x2A :: 0x2F :: g) ++ r
        = 0x2F :: 0x2A :: (b ++ 0x2A :: 0x2F :: (g ++ r)) by simp,
      hopen, skipWsLoop_block hb, h]
    congr 1
    simp only [length_cons, length_append]
    omega

theorem skipWs_gap (hg : Gap flags g) (hr : Stops r) :
    skipWs flags true (g ++ r) = .ok (0, 0) g.length := by
  obtain ⟨res, h⟩ := skipWsLoop_gap (r := r) hg true 0 0
  rw [skipWs, h, Nat.zero_add]
  cases r with
  | nil => simp [skipWsLoop]
  | cons c cs =>
    have hc : isSpace c = false ∧ c ≠ 0x2F := by simpa using hr c rfl
    exact skipWsLoop_stop hc.1 hc.2

theorem skipWs_tail (hg : TailGap flags g) :
    skipWs flags true g = .ok (0, 0) g.length := by
  cases hg with
  | gap hg =>
    have := skipWs_gap (r := []) hg fun c hc => by simp at hc
    simpa using this
  | @line g b hg hf hb =>
    obtain ⟨res, h⟩ := skipWsLoop_gap (r := 0x2F :: 0x2F :: b) hg true 0 0
    have hopen : ∀ pos res, skipWsLoop flags true .between (0x2F :: 0x2F :: b) pos res
        = skipWsLoop flags true .line (b ++ []) (pos + 2) pos := by
      intro pos res
      simp [skipWsLoop, isSpace, hf]
    rw [skipWs, h, hopen, skipWsLoop_line hb, skipWsLoop, if_pos rfl, length_append]
    congr 1
    simp only [length_cons]
    omega

/-- What `skip_ws` has skipped in front of `r`. -/
def Skipped (flags : AxlJsonFlags) (r g : List UInt8) : Prop :=
  Gap flags g ∨ (r = [] ∧ TailGap flags g)

theorem Skipped.prepend {p : List UInt8} (hp : ∀ g, Gap flags g → Gap flags (p ++ g))
    (h : Skipped flags r g) :
    Skipped flags r (p ++ g) := by
  rcases h with h | ⟨hr, h⟩
  · exact .inl (hp g h)
  · refine .inr ⟨hr, ?_⟩
    cases h with
    | gap h => exact .gap (hp _ h)
    | line h hf hb =>
      rw [← append_assoc]
      exact .line (hp _ h) hf hb

theorem blockBody_cons {d : UInt8} {r' : List UInt8} (hcd : ¬ (c = 0x2A ∧ d = 0x2F))
    (hb : BlockBody b) (hd : d :: r = b ++ 0x2A :: 0x2F :: r') : BlockBody (c :: b) := by
  cases b with
  | nil =>
    obtain ⟨rfl, -⟩ : d = 0x2A ∧ _ := by simpa using hd
    simp [BlockBody, closesNowhere]
  | cons d' b =>
    obtain ⟨rfl, -⟩ : d = d' ∧ _ := by simpa using hd
    simp only [BlockBody, cons_append, closesNowhere, Bool.and_eq_true] at hb ⊢
    refine ⟨?_, hb⟩
    simpa [← not_and_or] using hcd

/-- What the loops of `skip_ws` have skipped in front of `r`, by mode. -/
def SkippedIn (flags : AxlJsonFlags) (r g : List UInt8) : WsMode → Prop
  | .between => Skipped flags r g
  | .line => LineBody g ∧ r = [] ∨
      ∃ b nl g', g = b ++ nl :: g' ∧ LineBody b ∧ (nl = 0x0A ∨ nl = 0x0D) ∧ Skipped flags r g'
  | .block => ∃ b g', g = b ++ 0x2A :: 0x2F :: g' ∧ BlockBody b ∧ Skipped flags r g'

variable {p : Nat} {sp : Nat × Nat}

/-- **Soundness of `skip_ws`**, by modes. -/
theorem skipWsLoop_sound {m : WsMode} (h : skipWsLoop flags true m s pos res = .ok sp p) :
    ∃ g r, s = g ++ r ∧ p = pos + g.length ∧ SkippedIn flags r g m := by
  fun_induction skipWsLoop flags true m s pos res with
  | case1 pos res =>
    cases h
    exact ⟨[], [], rfl, rfl, .inl .nil⟩
  | case4 c cs pos res hc hd ih =>
    obtain ⟨g, r, rfl, hp, hg⟩ := ih h
    have hc' : SpaceOk flags c := ⟨hc, by simpa using hd⟩
    refine ⟨c :: g, r, rfl, ?_, Skipped.prepend (p := [c]) (fun g hg => .space hc' hg) hg⟩
    simp only [length_cons]
    omega
  | case5 pos res =>
    cases h
    exact ⟨[], [0x2F], rfl, rfl, .inl .nil⟩
  | case8 pos res cs hd hc _ ih =>
    obtain ⟨g, r, rfl, hp, hg⟩ := ih h
    have hf : allows flags allowComments = true := by simpa using hd
    refine ⟨0x2F :: 0x2F :: g, r, rfl, ?_, ?_⟩
    · simp only [length_cons]
      omega
    · rcases hg with ⟨hb, rfl⟩ | ⟨b, nl, g', rfl, hb, hn, hg'⟩
      · exact .inr ⟨rfl, .line .nil hf hb⟩
      · have := hg'.prepend (p := 0x2F :: 0x2F :: (b ++ [nl])) fun g hg => by
          simpa using Gap.line hf hb hn hg
        simpa [SkippedIn] using this
  | case9 pos res n cs hn hd hne hc ih =>
    obtain rfl : n = 0x2A := hn.resolve_left hne
    obtain ⟨g, r, rfl, hp, b, g', rfl, hb, hg'⟩ := ih h
    have hf : allows flags allowComments = true := by simpa using hd
    refine ⟨0x2F :: 0x2A :: (b ++ 0x2A :: 0x2F :: g'), r, rfl, ?_, ?_⟩
    · simp only [length_cons] at hp ⊢
      omega
    · have := hg'.prepend (p := 0x2F :: 0x2A :: (b ++ [0x2A, 0x2F])) fun g hg => by
        simpa using Gap.block hf hb hg
      simpa [SkippedIn] using this
  | case10 pos res n cs =>
    cases h
    exact ⟨[], _, rfl, rfl, .inl .nil⟩
  | case11 c cs pos res =>
    cases h
    exact ⟨[], _, rfl, rfl, .inl .nil⟩
  | case12 pos res =>
    cases h
    exact ⟨[], [], rfl, rfl, .inl ⟨by simp [LineBody], rfl⟩⟩
  | case14 c cs pos res hc ih =>
    obtain ⟨g, r, rfl, hp, hg⟩ := ih h
    refine ⟨c :: g, r, rfl, ?_, .inr ⟨[], c, g, rfl, by simp [LineBody], hc, hg⟩⟩
    simp only [length_cons]
    omega
  | case15 c cs pos res hc ih =>
    obtain ⟨g, r, rfl, hp, hg⟩ := ih h
    have hc' : c ≠ 0x0A ∧ c ≠ 0x0D := by simpa using hc
    have hcons : ∀ b, LineBody b → LineBody (c :: b) := by
      intro b hb c' h'
      rcases mem_cons.mp h' with rfl | h'
      · exact hc'
      · exact hb c' h'
    refine ⟨c :: g, r, rfl, ?_, ?_⟩
    · simp only [length_cons]
      omega
    · rcases hg with ⟨hb, rfl⟩ | ⟨b, nl, g', rfl, hb, hn, hg'⟩
      · exact .inl ⟨hcons g hb, rfl⟩
      · exact .inr ⟨c :: b, nl, g', rfl, hcons b hb, hn, hg'⟩
  | case18 c pos res d ds hcd ih =>
    obtain ⟨g, r, rfl, hp, hg⟩ := ih h
    obtain ⟨rfl, rfl⟩ := hcd
    refine ⟨0x2A :: 0x2F :: g, r, rfl, ?_, [], g, rfl, rfl, hg⟩
    simp only [length_cons]
    omega
  | case19 c pos res d ds hcd ih =>
    obtain ⟨g, r, hsplit, hp, b, g', rfl, hb, hg'⟩ := ih h
    refine ⟨c :: (b ++ 0x2A :: 0x2F :: g'), r, by simp_all, ?_, c :: b, g', rfl, ?_, hg'⟩
    · simp only [length_cons]
      omega
    · have hd : d :: ds = b ++ 0x2A :: 0x2F :: (g' ++ r) := by simpa using hsplit
      exact blockBody_cons hcd hb hd
  | _ => simp at h

theorem skipWs_sound (h : skipWs flags true s = .ok sp p) :
    ∃ g r, s = g ++ r ∧ p = g.length ∧ Skipped flags r g := by
  obtain ⟨g, r, hs, hp, hg⟩ := skipWsLoop_sound h
  exact ⟨g, r, hs, by omega, hg⟩

/-! ## Strings -/

/-- An escape, without its backslash. -/
inductive Escape (flags : AxlJsonFlags) : List UInt8 → Prop where
  | hex {h₁ h₂ : UInt8} (hf : allows flags allowExtraEscapes = true) (hd₁ : isXdigit h₁ = true)
      (hd₂ : isXdigit h₂ = true) : Escape flags [0x78, h₁, h₂]
  | unicode {d₁ d₂ d₃ d₄ : UInt8} (hd₁ : isXdigit d₁ = true) (hd₂ : isXdigit d₂ = true)
      (hd₃ : isXdigit d₃ = true) (hd₄ : isXdigit d₄ = true) :
      Escape flags [0x75, d₁, d₂, d₃, d₄]
  | crlf (hf : allows flags allowExtraEscapes = true) : Escape flags [0x0D, 0x0A]
  | char {e : UInt8} (hx : ¬ (e = 0x78 ∧ allows flags allowExtraEscapes = true)) (hu : e ≠ 0x75)
      (hf : allows flags allowExtraEscapes = true ∨ isRfcEscape e = true) : Escape flags [e]

/-- A byte or an escape of a string. -/
inductive StrUnit (flags : AxlJsonFlags) : List UInt8 → Prop where
  | raw {c : UInt8} (hb : c ≠ 0x5C)
      (hc : 0x20 ≤ c ∨ (c = 0x09 ∧ allows flags allowExtraWhitespace = true)) : StrUnit flags [c]
  | escape {u : List UInt8} (hu : Escape flags u) : StrUnit flags (0x5C :: u)

/-- `<CR><LF>` is taken as one line continuation, so a lone escaped `<CR>` stands
in front of something else. -/
def Apart (u r : List UInt8) : Prop := u = [0x5C, 0x0D] → r.head? ≠ some 0x0A

theorem uEscapeError_succ {k : Nat} {es : List UInt8} (h : uEscapeError (k + 1) es = none) :
    ∃ d r, es = d :: r ∧ isXdigit d = true ∧ uEscapeError k r = none := by
  cases es with
  | nil => cases h
  | cons d r =>
    rw [uEscapeError] at h
    split at h
    · exact ⟨d, r, rfl, ‹_›, h⟩
    · cases h

theorem escapeUnit_sound {n : Nat} (h : escapeUnit flags s = .ok n) :
    ∃ u r, s = u ++ r ∧ n = u.length + 1 ∧ Escape flags u ∧ Apart (0x5C :: u) r := by
  cases s with
  | nil => cases h
  | cons e es =>
    rw [escapeUnit.eq_def] at h
    dsimp only at h
    split at h
    case isTrue hx =>
      obtain ⟨rfl, hf⟩ := hx
      split at h
      · split at h
        case isTrue hd =>
          cases h
          rw [Bool.and_eq_true] at hd
          exact ⟨_, _, rfl, rfl, .hex hf hd.1 hd.2, by simp [Apart]⟩
        case isFalse => cases h
      · cases h
    case isFalse hx =>
      split at h
      case isTrue hu =>
        subst hu
        split at h
        case h_2 => cases h
        case h_1 hnone =>
          cases h
          obtain ⟨d₁, r₁, rfl, h₁, hnone⟩ := uEscapeError_succ hnone
          obtain ⟨d₂, r₂, rfl, h₂, hnone⟩ := uEscapeError_succ hnone
          obtain ⟨d₃, r₃, rfl, h₃, hnone⟩ := uEscapeError_succ hnone
          obtain ⟨d₄, r₄, rfl, h₄, hnone⟩ := uEscapeError_succ hnone
          exact ⟨_, r₄, rfl, rfl, .unicode h₁ h₂ h₃ h₄, by simp [Apart]⟩
      case isFalse hu =>
        split at h
        case isTrue => cases h
        case isFalse hok =>
          cases h
          have hf : allows flags allowExtraEscapes = true ∨ isRfcEscape e = true := by
            simpa [or_iff_not_imp_left] using hok
          split
          case isTrue hcr =>
            obtain ⟨rfl, hl⟩ := hcr
            obtain ⟨r, rfl⟩ : ∃ r, es = 0x0A :: r := by
              cases es with
              | nil => cases hl
              | cons l r => exact ⟨r, by rw [Option.some.inj hl]⟩
            have hf' : allows flags allowExtraEscapes = true := by simpa [isRfcEscape] using hf
            exact ⟨_, r, rfl, rfl, .crlf hf', by simp [Apart]⟩
          case isFalse hcr =>
            refine ⟨[e], es, rfl, rfl, .char hx hu hf, ?_⟩
            intro he hl
            obtain rfl : e = 0x0D := by simpa using he
            exact hcr ⟨rfl, hl⟩

theorem stringUnit_sound {n : Nat} (h : stringUnit flags s = .ok n) :
    ∃ u r, s = u ++ r ∧ n = u.length ∧ StrUnit flags u ∧ Apart u r := by
  cases s with
  | nil => cases h
  | cons c cs =>
    rw [stringUnit] at h
    have hone : ∀ c : UInt8, c ≠ 0x5C → Apart [c] cs := by simp [Apart]
    split at h
    case isTrue hb =>
      subst hb
      obtain ⟨u, r, rfl, hn, hu, ha⟩ := escapeUnit_sound h
      exact ⟨0x5C :: u, r, rfl, hn, .escape hu, ha⟩
    case isFalse hb =>
      split at h
      case isTrue hlt =>
        split at h
        case isTrue htab =>
          subst htab
          split at h
          · cases h
            exact ⟨_, cs, rfl, rfl, .raw hb (.inr ⟨rfl, ‹_›⟩), hone _ hb⟩
          · cases h
        case isFalse => cases h
      case isFalse hge =>
        cases h
        exact ⟨[c], cs, rfl, rfl, .raw hb (.inl (UInt8.not_lt.mp hge)), hone _ hb⟩

theorem stringUnit_complete {u : List UInt8} (hu : StrUnit flags u) (ha : Apart u r) :
    stringUnit flags (u ++ r) = .ok u.length := by
  cases hu with
  | raw hb hc =>
    rcases hc with hc | ⟨rfl, hf⟩
    · have : ¬ _ < (0x20 : UInt8) := UInt8.not_lt.mpr hc
      simp [stringUnit, hb, this]
    · simp [stringUnit, hf]
  | escape hu =>
    cases hu with
    | hex hf hd₁ hd₂ => simp [stringUnit, escapeUnit, hf, hd₁, hd₂]
    | unicode hd₁ hd₂ hd₃ hd₄ =>
      simp [stringUnit, escapeUnit, uEscapeError, hd₁, hd₂, hd₃, hd₄]
    | crlf hf => simp [stringUnit, escapeUnit, hf]
    | @char e hx hu hf =>
      have hcr : ¬ (e = 0x0D ∧ r.head? = some 0x0A) := by
        rintro ⟨rfl, hr⟩
        exact ha rfl hr
      have hok : ¬ (allows flags allowExtraEscapes = false ∧ isRfcEscape e = false) := by
        rintro ⟨h₁, h₂⟩
        simp [h₁, h₂] at hf
      simp only [cons_append, nil_append, stringUnit, if_true, escapeUnit, hx, hu, hok,
        hcr, if_false, length_cons, length_nil]

/-- The inner content of a string between quotes `quote`. -/
inductive StrBody (flags : AxlJsonFlags) (quote : UInt8) : List UInt8 → Prop where
  | nil : StrBody flags quote []
  | cons {u b : List UInt8} (hu : StrUnit flags u) (hq : u.head? ≠ some quote)
      (hb : StrBody flags quote b) : StrBody flags quote (u ++ b)

theorem StrUnit.ne_nil {u : List UInt8} (hu : StrUnit flags u) :
    0 < u.length := by
  cases hu <;> simp

/-- No unit of a string starts with a line feed. -/
theorem StrUnit.head_ne {u : List UInt8} (hu : StrUnit flags u) (r : List UInt8) :
    (u ++ r).head? ≠ some 0x0A := by
  cases hu with
  | raw hb hc =>
    intro h
    obtain rfl := Option.some.inj h
    simp at hc
  | escape hu => simp

variable {quote : UInt8}

/-- What follows a unit does not start with a line feed. -/
theorem StrBody.head_ne (hb : StrBody flags quote b) (hq : quote ≠ 0x0A) (r : List UInt8) :
    (b ++ quote :: r).head? ≠ some 0x0A := by
  cases hb with
  | nil => simpa using hq
  | cons hu _ _ =>
    rw [append_assoc]
    exact hu.head_ne _

/-- **Soundness of `parse_string`.** -/
theorem parseStringLoop_sound {fuel : Nat}
    (h : parseStringLoop flags eof quote fuel s pos = .ok sp p) :
    ∃ b r, s = b ++ quote :: r ∧ sp = (1, pos + b.length) ∧ p = pos + b.length + 1 ∧
      StrBody flags quote b := by
  induction fuel generalizing s pos with
  | zero => simp [parseStringLoop] at h
  | succ fuel ih =>
    rw [parseStringLoop] at h
    split at h
    case isTrue hq =>
      cases h
      obtain ⟨r, rfl⟩ : ∃ r, s = quote :: r := by
        cases s with
        | nil => cases hq
        | cons c cs => exact ⟨cs, by rw [Option.some.inj hq]⟩
      exact ⟨[], r, rfl, rfl, rfl, .nil⟩
    case isFalse hq =>
      split at h
      case h_1 => cases h
      case h_2 n hn =>
        obtain ⟨u, r, rfl, rfl, hu, -⟩ := stringUnit_sound hn
        rw [drop_left] at h
        obtain ⟨b, r', rfl, rfl, rfl, hb⟩ := ih h
        have hq' : u.head? ≠ some quote := by
          cases u with
          | nil => simp
          | cons c u => exact hq
        refine ⟨u ++ b, r', by simp, ?_, ?_, .cons hu hq' hb⟩
        · rw [length_append, Nat.add_assoc]
        · rw [length_append, Nat.add_assoc, Nat.add_assoc, Nat.add_assoc, Nat.add_assoc]

/-- **Completeness of `parse_string`.** -/
theorem parseStringLoop_complete (hb : StrBody flags quote b) (hq : quote ≠ 0x0A) {fuel : Nat}
    (hf : b.length < fuel) (pos : Nat) :
    parseStringLoop flags eof quote fuel (b ++ quote :: r) pos
      = .ok (1, pos + b.length) (pos + b.length + 1) := by
  induction hb generalizing fuel pos with
  | nil =>
    obtain ⟨fuel, rfl⟩ : ∃ k, fuel = k + 1 := ⟨fuel - 1, by simp at hf; omega⟩
    rw [nil_append, parseStringLoop, head?_cons, if_pos rfl]
    rfl
  | @cons u b hu hqu hb ih =>
    have hpos := hu.ne_nil
    obtain ⟨fuel, rfl⟩ : ∃ k, fuel = k + 1 := ⟨fuel - 1, by simp at hf; omega⟩
    have ha : Apart u (b ++ quote :: r) := fun _ => hb.head_ne hq r
    have hhead : (u ++ (b ++ quote :: r)).head? ≠ some quote := by
      cases u with
      | nil => simp at hpos
      | cons c u => exact hqu
    rw [append_assoc, parseStringLoop, if_neg hhead, stringUnit_complete hu ha]
    dsimp only
    rw [drop_left, ih (by simp only [length_append] at hf; omega)]
    rw [length_append, Nat.add_assoc, Nat.add_assoc]

theorem parseString_sound (h : parseString flags eof quote (quote :: s) = .ok sp p) :
    ∃ b r, s = b ++ quote :: r ∧ sp = (1, 1 + b.length) ∧ p = b.length + 2 ∧
      StrBody flags quote b := by
  obtain ⟨b, r, hs, hsp, hp, hb⟩ := parseStringLoop_sound h
  exact ⟨b, r, hs, hsp, by omega, hb⟩

theorem parseString_complete {flags : AxlJsonFlags} {eof : Bool} {quote : UInt8}
    {b r : List UInt8} (hb : StrBody flags quote b) (hq : quote ≠ 0x0A) :
    parseString flags eof quote (quote :: (b ++ quote :: r)) = .ok (1, 1 + b.length) (b.length + 2) := by
  rw [parseString, tail_cons, parseStringLoop_complete hb hq]
  · congr 1
    omega
  · simp only [length_cons, length_append]
    omega

/-! ## Identifiers -/

/-- An unquoted key. -/
def IdentText (b : List UInt8) : Prop :=
  (∃ c, b.head? = some c ∧ isIdentStart c = true) ∧ ∀ c ∈ b, isIdentCont c = true

theorem parseIdentifier_sound (hc : isIdentStart c = true)
    (h : parseIdentifier true (c :: s) = .ok sp p) :
    ∃ b r, c :: s = b ++ r ∧ sp = (0, b.length) ∧ p = b.length ∧ IdentText b := by
  have hc' : isIdentCont c = true := by simp [isIdentCont, hc]
  simp only [parseIdentifier, Bool.not_true, Bool.and_false, Bool.false_eq_true, if_false] at h
  cases h
  refine ⟨(c :: s).takeWhile isIdentCont, (c :: s).dropWhile isIdentCont,
    takeWhile_append_dropWhile.symm, rfl, rfl, ⟨c, ?_, hc⟩, fun c' => mem_takeWhile⟩
  rw [takeWhile_cons_of_pos hc', head?_cons]

theorem parseIdentifier_complete (hb : IdentText b) (hr : Ends isIdentCont r) :
    parseIdentifier true (b ++ r) = .ok (0, b.length) b.length := by
  simp [parseIdentifier, (span_append hb.2 hr).1]

/-! ## Numbers -/

/-- A run of digits. -/
def Digits (b : List UInt8) : Prop := ∀ c ∈ b, isDigit c = true

/-- The part of a decimal in front of the point: no leading zeros. -/
def IntPart (b : List UInt8) : Prop := Digits b ∧ ¬ (b.length > 1 ∧ b.head? = some 0x30)

/-- The point and what follows it; `some ds` when there is a point. -/
inductive FracPart (flags : AxlJsonFlags) (sawInt : Bool) : List UInt8 → Bool → Prop where
  | none : FracPart flags sawInt [] false
  | point {ds : List UInt8} (hds : Digits ds)
      (hi : sawInt = true ∨ allows flags allowLeadingPoint = true)
      (hf : ds ≠ [] ∨ allows flags allowLeadingPoint = true) :
      FracPart flags sawInt (0x2E :: ds) (ds != [])

/-- The exponent. -/
inductive ExpPart : List UInt8 → Prop where
  | none : ExpPart []
  | exp {e : UInt8} {sg ds : List UInt8} (he : e = 0x65 ∨ e = 0x45)
      (hs : sg = [] ∨ sg = [0x2B] ∨ sg = [0x2D]) (hds : Digits ds) (hne : ds ≠ []) :
      ExpPart (e :: (sg ++ ds))

/-- A decimal number without its sign. -/
inductive Decimal (flags : AxlJsonFlags) : List UInt8 → Prop where
  | mk {int frac exp : List UInt8} {sawFrac : Bool} (hi : IntPart int)
      (hf : FracPart flags (int != []) frac sawFrac) (hs : ¬ (int = [] ∧ sawFrac = false))
      (he : ExpPart exp) : Decimal flags (int ++ frac ++ exp)

/-- What may stand behind a number or a keyword: no letter, digit, `_`, `$` or
point. -/
def Delim (r : List UInt8) : Prop := Ends (fun c => isIdentCont c || c == 0x2E) r

theorem Ends.mono {p q : UInt8 → Bool} (h : Ends p r) (hpq : ∀ c, q c = true → p c = true) :
    Ends q r := by
  intro c hc
  have := h c hc
  cases hq : q c with
  | false => rfl
  | true => rw [hpq c hq] at this; cases this

theorem Delim.ident (h : Delim r) : Ends isIdentCont r :=
  h.mono fun c hc => by simp [hc]

theorem Delim.digit (h : Delim r) : Ends isDigit r :=
  h.mono fun c hc => by simp [isIdentCont, hc]

theorem digits_span (s : List UInt8) :
    s = s.takeWhile isDigit ++ s.dropWhile isDigit ∧ Digits (s.takeWhile isDigit) :=
  ⟨takeWhile_append_dropWhile.symm, fun _ => mem_takeWhile⟩

variable {rest : List UInt8}

theorem expPart_sound (h : expPart true s pos = .ok (rest, p)) :
    ∃ x, s = x ++ rest ∧ p = pos + x.length ∧ ExpPart x := by
  cases s with
  | nil =>
    cases h
    exact ⟨[], rfl, rfl, .none⟩
  | cons e es =>
    rw [expPart] at h
    split at h
    case isFalse =>
      cases h
      exact ⟨[], rfl, rfl, .none⟩
    case isTrue he =>
      dsimp only at h
      split at h
      case isTrue => cases h
      case isFalse hne =>
        cases h
        obtain ⟨hspan, hds⟩ := digits_span (es.drop (expSign es))
        have hsign : es = es.take (expSign es) ++ es.drop (expSign es) := by simp
        have hsg : es.take (expSign es) = [] ∨ es.take (expSign es) = [0x2B] ∨
            es.take (expSign es) = [0x2D] := by
          cases es with
          | nil => exact .inl rfl
          | cons c cs =>
            rw [expSign]
            split
            case isTrue hc => exact .inr (by simpa using hc)
            case isFalse => exact .inl rfl
        have hlen : (es.take (expSign es)).length = expSign es := by
          cases es with
          | nil => rfl
          | cons c cs =>
            rw [expSign]
            split <;> rfl
        refine ⟨_, ?_, ?_, .exp he hsg hds hne⟩
        · rw [cons_append, append_assoc, ← hspan, ← hsign]
        · rw [length_cons, length_append, hlen]
          omega

theorem fracPart_sound {sawInt sawFrac : Bool}
    (h : fracPart flags true sawInt s pos = .ok (rest, p, sawFrac)) :
    ∃ x, s = x ++ rest ∧ p = pos + x.length ∧ FracPart flags sawInt x sawFrac := by
  cases s with
  | nil =>
    cases h
    exact ⟨[], rfl, rfl, .none⟩
  | cons c cs =>
    rw [fracPart] at h
    split at h
    case isFalse =>
      cases h
      exact ⟨[], rfl, rfl, .none⟩
    case isTrue hc =>
      subst hc
      split at h
      case isTrue => cases h
      case isFalse hi =>
        dsimp only at h
        split at h
        case isTrue => cases h
        case isFalse hf =>
          cases h
          obtain ⟨hspan, hds⟩ := digits_span cs
          refine ⟨0x2E :: cs.takeWhile isDigit, ?_, ?_, .point hds ?_ ?_⟩
          · rw [cons_append, ← hspan]
          · rw [length_cons]
            omega
          · simpa [or_iff_not_imp_left] using hi
          · simpa [or_iff_not_imp_left] using hf

theorem parseDecimal_sound (h : parseDecimal flags true s pos = .ok (rest, p)) :
    ∃ b, s = b ++ rest ∧ p = pos + b.length ∧ Decimal flags b := by
  rw [parseDecimal] at h
  split at h
  case isTrue => cases h
  case isFalse hz =>
    split at h
    case h_1 => cases h
    case h_2 rest₁ p₁ sawFrac hfrac =>
      split at h
      case isTrue => cases h
      case isFalse hs =>
        obtain ⟨hspan, hds⟩ := digits_span s
        obtain ⟨frac, hr, hp₁, hf⟩ := fracPart_sound hfrac
        obtain ⟨exp, hr₁, hp, he⟩ := expPart_sound h
        refine ⟨_, ?_, ?_, .mk ⟨hds, hz⟩ hf hs he⟩
        · rw [append_assoc, append_assoc, ← hr₁, ← hr, ← hspan]
        · rw [length_append, length_append]
          omega

variable {x : List UInt8}

theorem expPart_complete (hx : ExpPart x) (hr : Delim r) (eof : Bool) (pos : Nat) :
    expPart eof (x ++ r) pos = .ok (r, pos + x.length) := by
  cases hx with
  | none =>
    cases r with
    | nil => rfl
    | cons c cs =>
      have hc := hr c rfl
      have hne : ¬ (c = 0x65 ∨ c = 0x45) := by
        rintro (rfl | rfl) <;> simp [isIdentCont, isIdentStart, isAlpha] at hc
      simp [expPart, hne]
  | @exp e sg ds he hs hds hne =>
    have hsign : expSign (sg ++ (ds ++ r)) = sg.length := by
      rcases hs with rfl | rfl | rfl
      · cases ds with
        | nil => exact absurd rfl hne
        | cons d ds =>
          have hd := hds d (by simp)
          have : ¬ (d = 0x2B ∨ d = 0x2D) := by
            rintro (rfl | rfl) <;> simp [isDigit] at hd
          simp [expSign, this]
      · rfl
      · rfl
    obtain ⟨ht, hd⟩ := span_append hds hr.digit
    have heq : e :: (sg ++ ds) ++ r = e :: (sg ++ (ds ++ r)) := by simp
    rw [heq, expPart, if_pos he, hsign, drop_left]
    simp only [ht, hd, hne, if_false]
    congr 2
    simp only [length_cons, length_append]
    omega

theorem fracPart_complete {sawInt sawFrac : Bool} (hx : FracPart flags sawInt x sawFrac)
    (hd : Ends isDigit r) (hp : r.head? ≠ some 0x2E) (eof : Bool) (pos : Nat) :
    fracPart flags eof sawInt (x ++ r) pos = .ok (r, pos + x.length, sawFrac) := by
  cases hx with
  | none =>
    cases r with
    | nil => rfl
    | cons c cs =>
      have hne : c ≠ 0x2E := fun h => hp (by rw [h, head?_cons])
      simp [fracPart, hne]
  | @point ds hds hi hf =>
    obtain ⟨ht, hdrop⟩ := span_append hds hd
    have hi' : ¬ (sawInt = false ∧ allows flags allowLeadingPoint = false) := by
      rintro ⟨h₁, h₂⟩
      simp [h₁, h₂] at hi
    have hf' : ¬ (ds = [] ∧ allows flags allowLeadingPoint = false) := by
      rintro ⟨h₁, h₂⟩
      simp [h₁, h₂] at hf
    rw [cons_append, fracPart, if_pos rfl, if_neg hi']
    simp only [ht, hdrop, hf', if_false]
    congr 3
    simp only [length_cons]
    omega

/-- An exponent and what follows it do not continue a fraction. -/
theorem ExpPart.ends (hx : ExpPart x) (hr : Delim r) :
    Ends isDigit (x ++ r) ∧ (x ++ r).head? ≠ some 0x2E := by
  cases hx with
  | none =>
    refine ⟨hr.digit, fun h => ?_⟩
    have := hr _ h
    simp at this
  | exp he hs hds hne =>
    refine ⟨fun c hc => ?_, ?_⟩
    · obtain rfl := Option.some.inj hc
      rcases he with rfl | rfl <;> rfl
    · rcases he with rfl | rfl <;> simp

theorem FracPart.ends {sawInt sawFrac : Bool} (hx : FracPart flags sawInt x sawFrac)
    (hr : Ends isDigit r) : Ends isDigit (x ++ r) := by
  cases hx with
  | none => exact hr
  | point hds hi hf =>
    intro c hc
    obtain rfl := Option.some.inj hc
    rfl

/-- **Decimals are taken as a whole.** -/
theorem parseDecimal_complete (hb : Decimal flags b) (hr : Delim r) (eof : Bool) (pos : Nat) :
    parseDecimal flags eof (b ++ r) pos = .ok (r, pos + b.length) := by
  obtain ⟨hi, hf, hs, he⟩ := hb
  rename_i int frac exp sawFrac
  obtain ⟨hd, hp⟩ := he.ends hr
  obtain ⟨ht, hdrop⟩ := span_append hi.1 (hf.ends hd)
  have heq : int ++ frac ++ exp ++ r = int ++ (frac ++ (exp ++ r)) := by simp
  simp only [heq, parseDecimal, ht, hdrop, hi.2, if_false, fracPart_complete hf hd hp, hs,
    expPart_complete he hr]
  congr 2
  simp only [length_append]
  omega

/-- A number without its sign. -/
inductive Unsigned (flags : AxlJsonFlags) : List UInt8 → Prop where
  | hex {x : UInt8} {ds : List UInt8} (hf : allows flags allowHex = true)
      (hx : x = 0x78 ∨ x = 0x58) (hds : ∀ c ∈ ds, isXdigit c = true) (hne : ds ≠ []) :
      Unsigned flags (0x30 :: x :: ds)
  | decimal {b : List UInt8} (hb : Decimal flags b) : Unsigned flags b

/-- A number; a sign may also stand in front of `NaN` and `Infinity`. -/
inductive NumberText (flags : AxlJsonFlags) : List UInt8 → Prop where
  | unsigned {b : List UInt8} (hb : Unsigned flags b) : NumberText flags b
  | signed {sg : UInt8} {b : List UInt8}
      (hs : sg = 0x2D ∨ (sg = 0x2B ∧ allows flags allowPlusSign = true)) (hb : Unsigned flags b) :
      NumberText flags (sg :: b)
  | word {sg : UInt8} {w : List UInt8}
      (hs : sg = 0x2D ∨ (sg = 0x2B ∧ allows flags allowPlusSign = true))
      (hf : allows flags allowNanInf = true) (hw : w = nanWord ∨ w = infinityWord) :
      NumberText flags (sg :: w)

theorem finishNumber_sound {r : Except LexError (List UInt8 × Nat)}
    (h : finishNumber true r = .ok sp p) : ∃ rest, r = .ok (rest, p) ∧ sp = (0, p) := by
  cases r with
  | error e => cases h
  | ok rp =>
    obtain ⟨rest, pos⟩ := rp
    simp only [finishNumber, Bool.not_true, Bool.and_false, Bool.false_eq_true, if_false] at h
    cases h
    exact ⟨rest, rfl, rfl⟩

theorem isHexPrefix_iff (s : List UInt8) :
    isHexPrefix s = true ↔ ∃ x r, s = 0x30 :: x :: r ∧ (x = 0x78 ∨ x = 0x58) := by
  match s with
  | [] | [_] => simp [isHexPrefix]
  | z :: x :: r =>
    simp only [isHexPrefix, Bool.and_eq_true, beq_iff_eq, Bool.or_eq_true, List.cons.injEq]
    constructor
    · rintro ⟨rfl, hx⟩
      exact ⟨x, r, ⟨rfl, rfl, rfl⟩, hx⟩
    · rintro ⟨x', r', ⟨rfl, rfl, rfl⟩, hx⟩
      exact ⟨rfl, hx⟩

theorem parseUnsigned_sound {sign : Nat} (h : parseUnsigned flags true sign s = .ok sp p) :
    ∃ b r, s = b ++ r ∧ p = sign + b.length ∧ sp = (0, p) ∧ Unsigned flags b := by
  rw [parseUnsigned] at h
  split at h
  case isTrue hx =>
    obtain ⟨x, r, rfl, hx'⟩ := (isHexPrefix_iff s).mp hx
    split at h
    case isTrue => cases h
    case isFalse hf =>
      obtain ⟨rest, hr, hsp⟩ := finishNumber_sound h
      have hdrop : (0x30 :: x :: r).drop 2 = r := rfl
      rw [hdrop, parseHex] at hr
      by_cases hne : r.takeWhile isXdigit = []
      · simp only [hne, if_true] at hr
        cases hr
      · simp only [hne, if_false] at hr
        cases hr
        have hspan : r = r.takeWhile isXdigit ++ r.dropWhile isXdigit :=
          takeWhile_append_dropWhile.symm
        refine ⟨0x30 :: x :: r.takeWhile isXdigit, r.dropWhile isXdigit, ?_, ?_, hsp,
          .hex (by simpa using hf) hx' (fun _ => mem_takeWhile) hne⟩
        · rw [cons_append, cons_append, ← hspan]
        · simp only [length_cons]
          omega
  case isFalse hx =>
    obtain ⟨rest, hr, hsp⟩ := finishNumber_sound h
    obtain ⟨b, rfl, hp, hb⟩ := parseDecimal_sound hr
    exact ⟨b, rest, rfl, hp, hsp, .decimal hb⟩

/-- A decimal does not look like a hexadecimal number. -/
theorem Decimal.not_hex (hb : Decimal flags b) (hr : Delim r) : isHexPrefix (b ++ r) = false := by
  rw [Bool.eq_false_iff]
  intro hhex
  obtain ⟨x, t, hs, hx⟩ := (isHexPrefix_iff _).mp hhex
  have hlex := parseDecimal_complete hb hr true 0
  have hxd : isDigit x = false := by rcases hx with rfl | rfl <;> rfl
  have hxe : ¬ (x = 0x65 ∨ x = 0x45) := by rcases hx with rfl | rfl <;> simp
  have hxp : x ≠ 0x2E := by rcases hx with rfl | rfl <;> simp
  have htake : (0x30 :: x :: t).takeWhile isDigit = [0x30] := by
    simp [hxd, show isDigit 0x30 = true from rfl]
  have hdrop : (0x30 :: x :: t).dropWhile isDigit = x :: t := by
    simp [hxd, show isDigit 0x30 = true from rfl]
  simp only [hs, parseDecimal, htake, hdrop, fracPart, hxp, if_false, expPart, hxe] at hlex
  -- the decimal would end in front of the `x`, which does not delimit it
  obtain ⟨hrest, -⟩ : x :: t = r ∧ _ := by simpa using hlex
  have := hr x (by rw [← hrest, head?_cons])
  rcases hx with rfl | rfl <;> simp [isIdentCont, isIdentStart, isAlpha] at this

theorem parseUnsigned_complete (hb : Unsigned flags b) (hr : Delim r) (sign : Nat) :
    parseUnsigned flags true sign (b ++ r) = .ok (0, sign + b.length) (sign + b.length) := by
  cases hb with
  | @hex x ds hf hx hds hne =>
    have hhex : isHexPrefix (0x30 :: x :: ds ++ r) = true :=
      (isHexPrefix_iff _).mpr ⟨x, ds ++ r, rfl, hx⟩
    have hends : Ends isXdigit r := by
      refine hr.mono fun c hc => ?_
      simp only [isXdigit, isIdentCont, isIdentStart, isAlpha] at hc ⊢
      grind
    obtain ⟨ht, hdrop⟩ := span_append hds hends
    have hlen : sign + (0x30 :: x :: ds).length = sign + 2 + ds.length := by
      simp only [length_cons]
      omega
    rw [parseUnsigned, if_pos hhex, if_neg (by simp [hf]), hlen]
    simp only [cons_append, drop_succ_cons, drop_zero, parseHex, ht, hdrop, hne,
      if_false, finishNumber, Bool.not_true, Bool.and_false, Bool.false_eq_true]
  | decimal hb =>
    rw [parseUnsigned, if_neg (by simp [hb.not_hex hr]), parseDecimal_complete hb hr]
    simp [finishNumber]

theorem parseSignedWord_sound {ws : List (List UInt8)}
    (h : parseSignedWord flags true s ws = some (.ok sp p)) :
    ∃ w ∈ ws, w <+: s ∧ allows flags allowNanInf = true ∧ sp = (0, 1 + w.length) ∧
      p = 1 + w.length := by
  induction ws with
  | nil => cases h
  | cons w ws ih =>
    rw [parseSignedWord] at h
    split at h
    case isFalse =>
      obtain ⟨w', hw', hrest⟩ := ih h
      exact ⟨w', mem_cons_of_mem _ hw', hrest⟩
    case isTrue hpre =>
      dsimp only at h
      split at h
      case isTrue => cases h
      case isFalse hf =>
        simp only [Bool.not_true, Bool.and_false, Bool.false_eq_true, if_false] at h
        split at h
        case isTrue => cases h
        case isFalse =>
          cases h
          exact ⟨w, by simp, isPrefixOf_iff_prefix.mp hpre, by simpa using hf, rfl, rfl⟩

theorem parseNumber_sound (h : parseNumber flags true s = .ok sp p) :
    ∃ b r, s = b ++ r ∧ sp = (0, b.length) ∧ p = b.length ∧ NumberText flags b := by
  have hplain : parseUnsigned flags true 0 s = .ok sp p →
      ∃ b r, s = b ++ r ∧ sp = (0, b.length) ∧ p = b.length ∧ NumberText flags b := by
    intro h
    obtain ⟨b, r, hs, hp, hsp, hb⟩ := parseUnsigned_sound h
    obtain rfl : p = b.length := by omega
    exact ⟨b, r, hs, hsp, rfl, .unsigned hb⟩
  cases s with
  | nil => exact hplain h
  | cons c cs =>
    rw [parseNumber.eq_def] at h
    dsimp only at h
    split at h
    case isFalse => exact hplain h
    case isTrue hc =>
      split at h
      case isTrue => cases h
      case isFalse hplus =>
        have hs : c = 0x2D ∨ (c = 0x2B ∧ allows flags allowPlusSign = true) := by
          rcases hc with rfl | rfl
          · exact .inl rfl
          · exact .inr ⟨rfl, by simpa using hplus⟩
        simp only [Bool.not_true, Bool.false_and, Bool.false_eq_true, if_false] at h
        cases hw : parseSignedWord flags true cs [nanWord, infinityWord] with
        | some r =>
          rw [hw] at h
          dsimp only at h
          subst h
          obtain ⟨w, hmem, ⟨t, rfl⟩, hf, rfl, rfl⟩ := parseSignedWord_sound hw
          refine ⟨c :: w, t, rfl, ?_, ?_, .word hs hf (by simpa using hmem)⟩
          · rw [length_cons, Nat.add_comm]
          · rw [length_cons, Nat.add_comm]
        | none =>
          rw [hw] at h
          obtain ⟨b, r, rfl, hp, hsp, hb⟩ := parseUnsigned_sound h
          obtain rfl : p = (c :: b).length := by rw [length_cons]; omega
          exact ⟨c :: b, r, rfl, hsp, rfl, .signed hs hb⟩

/-- A number without its sign starts with a digit or a point. -/
theorem Unsigned.head (hb : Unsigned flags b) :
    ∃ c cs, b = c :: cs ∧ (isDigit c = true ∨ c = 0x2E) := by
  cases hb with
  | hex => exact ⟨0x30, _, rfl, .inl rfl⟩
  | decimal hb =>
    obtain ⟨hi, hf, hs, he⟩ := hb
    rename_i int frac exp sawFrac
    cases int with
    | cons c cs => exact ⟨c, _, rfl, .inl (hi.1 c (by simp))⟩
    | nil =>
      cases hf with
      | none => simp at hs
      | point => exact ⟨0x2E, _, rfl, .inr rfl⟩

theorem parseSignedWord_none (hc : isDigit c = true ∨ c = 0x2E) :
    parseSignedWord flags true (c :: cs) [nanWord, infinityWord] = none := by
  have h₁ : c ≠ 0x4E := by
    rintro rfl
    simp [isDigit] at hc
  have h₂ : c ≠ 0x49 := by
    rintro rfl
    simp [isDigit] at hc
  simp [parseSignedWord, nanWord, infinityWord, h₁.symm, h₂.symm]

theorem parseSignedWord_complete {w : List UInt8} (hw : w = nanWord ∨ w = infinityWord)
    (hf : allows flags allowNanInf = true) (hr : Delim r) :
    parseSignedWord flags true (w ++ r) [nanWord, infinityWord]
      = some (.ok (0, 1 + w.length) (1 + w.length)) := by
  have hend : r.head?.any isIdentCont = false := by
    cases r with
    | nil => rfl
    | cons c cs => exact hr.ident c rfl
  rcases hw with rfl | rfl
  · simp [parseSignedWord, nanWord, hf, hend]
  · simp [parseSignedWord, nanWord, infinityWord, hf, hend]

/-- **Numbers are taken as a whole.** -/
theorem parseNumber_complete (hb : NumberText flags b) (hr : Delim r) :
    parseNumber flags true (b ++ r) = .ok (0, b.length) b.length := by
  have hsign : ∀ {sg : UInt8},
      sg = 0x2D ∨ (sg = 0x2B ∧ allows flags allowPlusSign = true) →
      (sg = 0x2D ∨ sg = 0x2B) ∧ ¬ (sg = 0x2B ∧ allows flags allowPlusSign = false) := by
    rintro sg (rfl | ⟨rfl, hf⟩) <;> simp_all
  cases hb with
  | unsigned hb =>
    obtain ⟨c, cs, rfl, hc⟩ := hb.head
    have hne : ¬ (c = 0x2D ∨ c = 0x2B) := by
      rintro (rfl | rfl) <;> simp [isDigit] at hc
    have := parseUnsigned_complete hb hr 0
    rw [Nat.zero_add] at this
    rw [cons_append, parseNumber, if_neg hne]
    exact this
  | @signed sg b hs hb =>
    obtain ⟨h₁, h₂⟩ := hsign hs
    have hu := parseUnsigned_complete hb hr 1
    obtain ⟨c, cs, rfl, hc⟩ := hb.head
    rw [cons_append, parseNumber, if_pos h₁, if_neg h₂, if_neg (by simp), cons_append,
      parseSignedWord_none hc]
    dsimp only
    rw [cons_append] at hu
    rw [hu, show 1 + (c :: cs).length = (sg :: c :: cs).length from Nat.add_comm _ _]
  | @word sg w hs hf hw =>
    obtain ⟨h₁, h₂⟩ := hsign hs
    rw [cons_append, parseNumber, if_pos h₁, if_neg h₂, if_neg (by simp),
      parseSignedWord_complete hw hf hr]
    dsimp only
    rw [length_cons, Nat.add_comm]

/-! ## Keywords -/

/-- A keyword that the flags allow. -/
def WordText (flags : AxlJsonFlags) (b : List UInt8) : Prop :=
  b = trueWord ∨ b = falseWord ∨ b = nullWord ∨
    (allows flags allowNanInf = true ∧ (b = nanWord ∨ b = infinityWord))

theorem parseLiteral_sound (h : parseLiteral flags true s = .ok sp p) :
    ∃ b r, s = b ++ r ∧ sp = (0, b.length) ∧ p = b.length ∧ WordText flags b := by
  simp only [parseLiteral, Bool.not_true, Bool.false_and, Bool.false_eq_true, if_false] at h
  cases hk : keywords.find? (keywordMatches flags s) with
  | none =>
    rw [hk] at h
    dsimp only at h
    split at h <;> cases h
  | some k =>
    rw [hk] at h
    cases h
    have hmem := mem_of_find?_eq_some hk
    have hmatch := find?_some hk
    simp only [keywordMatches, Bool.and_eq_true, Bool.or_eq_true, beq_iff_eq] at hmatch
    obtain ⟨⟨hneed, hpre⟩, -⟩ := hmatch
    obtain ⟨r, rfl⟩ := isPrefixOf_iff_prefix.mp hpre
    refine ⟨k.1, r, rfl, rfl, rfl, ?_⟩
    have hne : allowNanInf ≠ 0 := by decide
    simp only [keywords, mem_cons, not_mem_nil, or_false] at hmem
    rcases hmem with rfl | rfl | rfl | rfl | rfl
    · exact .inl rfl
    · exact .inr (.inl rfl)
    · exact .inr (.inr (.inl rfl))
    · exact .inr (.inr (.inr ⟨hneed.resolve_left hne, .inl rfl⟩))
    · exact .inr (.inr (.inr ⟨hneed.resolve_left hne, .inr rfl⟩))

/-- **Keywords are taken as a whole.** -/
theorem parseLiteral_complete (hb : WordText flags b) (hr : Delim r) :
    parseLiteral flags true (b ++ r) = .ok (0, b.length) b.length := by
  have hend : r.head?.any isIdentCont = false := by
    cases r with
    | nil => rfl
    | cons c cs => exact hr.ident c rfl
  have hne : (allowNanInf == 0#64) = false := by decide
  rcases hb with rfl | rfl | rfl | ⟨hf, rfl | rfl⟩ <;>
  simp [parseLiteral, keywords, keywordMatches, trueWord, falseWord, nullWord, nanWord,
    infinityWord, *]

end Json

end AxlSdk
