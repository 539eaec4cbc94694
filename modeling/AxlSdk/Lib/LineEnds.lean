import Mathlib

/-!
# Line terminators

A text is a sequence of bytes and of terminators, of which there are three: LF, CR LF
and CR. A CR directly before an LF is one terminator with it.

- `tokens`, `spell`: the sequence, and its bytes; `spell_tokens`.
- `normalize`: the text with one style of terminator. `tokens_normalize`: only the
  styles change; `normalize_normalize`.
- `feed`: the same from left to right, with a CR held back until the next byte is
  known. `feed_append`: it may be stopped anywhere; `feed_flush`.
-/

namespace AxlSdk

namespace LineEnds

open List

/-- The terminators. -/
inductive Style where
  | lf
  | crlf
  | cr
  deriving DecidableEq, Repr

abbrev crByte : UInt8 := 13

abbrev lfByte : UInt8 := 10

/-- The bytes of a terminator. -/
def Style.bytes : Style → List UInt8
  | .lf => [lfByte]
  | .crlf => [crByte, lfByte]
  | .cr => [crByte]

/-- A byte of the text or a terminator. -/
inductive Token where
  | text (b : UInt8)
  | ending (s : Style)
  deriving DecidableEq, Repr

def Token.bytes : Token → List UInt8
  | .text b => [b]
  | .ending s => s.bytes

/-- A byte that is not part of a pair. -/
def single (b : UInt8) : Token :=
  if b = crByte then .ending .cr else if b = lfByte then .ending .lf else .text b

/-- The bytes and terminators of a text. -/
def tokens : List UInt8 → List Token
  | [] => []
  | [b] => [single b]
  | b :: c :: cs =>
    if b = crByte ∧ c = lfByte then .ending .crlf :: tokens cs else single b :: tokens (c :: cs)

/-- The bytes of a sequence. -/
def spell (ts : List Token) : List UInt8 := ts.flatMap Token.bytes

/-- The same with another style. -/
def Token.restyle (s : Style) : Token → Token
  | .text b => .text b
  | .ending _ => .ending s

/-- The text with every terminator in one style. -/
def normalize (s : Style) (text : List UInt8) : List UInt8 :=
  spell ((tokens text).map (Token.restyle s))

variable {b : UInt8} {text : List UInt8} {s : Style} {ts : List Token}

theorem tokens_pair (text : List UInt8) : tokens (crByte :: lfByte :: text) = .ending .crlf :: tokens text := by
  rw [tokens, if_pos ⟨rfl, rfl⟩]

/-- A byte that does not start a pair. -/
theorem tokens_cons (h : b ≠ crByte ∨ text.head? ≠ some lfByte) : tokens (b :: text) = single b :: tokens text := by
  cases text with
  | nil => rfl
  | cons c cs =>
    rw [tokens, if_neg]
    rintro ⟨rfl, rfl⟩
    rcases h with h | h
    · exact h rfl
    · exact h rfl

/-- A token that can come from a text, and is of a style if it is a terminator. -/
def Token.Of (s : Style) : Token → Prop
  | .text b => b ≠ crByte ∧ b ≠ lfByte
  | .ending s' => s' = s

theorem tokens_text (h : .text b ∈ tokens text) : b ≠ crByte ∧ b ≠ lfByte := by
  have hsingle : ∀ c, .text b = single c → b ≠ crByte ∧ b ≠ lfByte := by
    intro c hc
    rw [single] at hc
    split at hc
    · cases hc
    · split at hc
      · cases hc
      · rename_i h₁ h₂
        cases hc
        exact ⟨h₁, h₂⟩
  induction text using tokens.induct with
  | case1 => cases h
  | case2 c => exact hsingle c (mem_singleton.mp h)
  | case3 c d cs hcd ih =>
    rw [tokens, if_pos hcd] at h
    rcases mem_cons.mp h with h | h
    · cases h
    · exact ih h
  | case4 c d cs hcd ih =>
    rw [tokens, if_neg hcd] at h
    rcases mem_cons.mp h with h | h
    · exact hsingle c h
    · exact ih h

theorem restyle_of (s : Style) : ∀ t ∈ (tokens text).map (Token.restyle s), t.Of s := by
  intro t ht
  obtain ⟨u, hu, rfl⟩ := mem_map.mp ht
  cases u with
  | text b => exact tokens_text hu
  | ending _ => rfl

/-- A sequence with one style is read back from its bytes: after a CR alone no LF can
come. -/
theorem tokens_spell (h : ∀ t ∈ ts, t.Of s) : tokens (spell ts) = ts := by
  induction ts with
  | nil => rfl
  | cons t ts ih =>
    have ih := ih fun t ht => h t (mem_cons_of_mem _ ht)
    have ht := h t mem_cons_self
    rw [spell, flatMap_cons]
    change tokens (t.bytes ++ spell ts) = _
    cases t with
    | text b =>
      have hb : single b = .text b := by rw [single, if_neg ht.1, if_neg ht.2]
      rw [Token.bytes, singleton_append, tokens_cons (.inl ht.1), ih, hb]
    | ending s' =>
      cases s' with
      | lf =>
        rw [Token.bytes, Style.bytes, singleton_append, tokens_cons (.inl (by decide)), ih]
        rfl
      | crlf => exact (tokens_pair _).trans (congrArg _ ih)
      | cr =>
        have hhead : (spell ts).head? ≠ some lfByte := by
          cases ts with
          | nil => decide
          | cons u us =>
            have hu := h u (by simp)
            cases u with
            | text b =>
              intro hb
              exact hu.2 (Option.some.inj hb)
            | ending s'' =>
              obtain rfl : s'' = s := hu
              obtain rfl : Style.cr = s'' := ht
              intro hb
              cases Option.some.inj hb
        rw [Token.bytes, Style.bytes, singleton_append, tokens_cons (.inr hhead), ih]
        rfl

/-- Only the styles change. -/
theorem tokens_normalize (s : Style) (text : List UInt8) :
    tokens (normalize s text) = (tokens text).map (Token.restyle s) :=
  tokens_spell (restyle_of s)

theorem normalize_normalize (s : Style) (text : List UInt8) :
    normalize s (normalize s text) = normalize s text := by
  have hmap : ((tokens text).map (Token.restyle s)).map (Token.restyle s) =
      (tokens text).map (Token.restyle s) := by
    rw [map_map]
    refine map_congr_left fun t _ => ?_
    cases t <;> rfl
  rw [normalize, tokens_normalize, hmap, normalize]

/-! ## From left to right -/

/-- What a byte adds, with a CR before it held back or not, and whether it is itself
held back. -/
def feedStep (s : Style) (held : Bool) (b : UInt8) : List UInt8 × Bool :=
  let flushed := if held then s.bytes else []
  if held ∧ b = lfByte then (flushed, false)
  else if b = crByte then (flushed, true)
  else if b = lfByte then (flushed ++ s.bytes, false)
  else (flushed ++ [b], false)

/-- What the bytes of a text add. -/
def feed (s : Style) : Bool → List UInt8 → List UInt8 × Bool
  | held, [] => ([], held)
  | held, b :: text =>
    let r := feedStep s held b
    let r' := feed s r.2 text
    (r.1 ++ r'.1, r'.2)

/-- A text may be cut anywhere. -/
theorem feed_append (s : Style) (held : Bool) (text more : List UInt8) :
    feed s held (text ++ more) =
      ((feed s held text).1 ++ (feed s (feed s held text).2 more).1,
        (feed s (feed s held text).2 more).2) := by
  induction text generalizing held with
  | nil => rfl
  | cons b text ih =>
    rw [cons_append, feed, feed, ih]
    simp only [append_assoc]

theorem normalize_cons (h : b ≠ crByte ∨ text.head? ≠ some lfByte) :
    normalize s (b :: text) = ((single b).restyle s).bytes ++ normalize s text := by
  rw [normalize, tokens_cons h, map_cons, spell, flatMap_cons]
  rfl

theorem normalize_pair (s : Style) (text : List UInt8) :
    normalize s (crByte :: lfByte :: text) = s.bytes ++ normalize s text := by
  rw [normalize, tokens_pair, map_cons, spell, flatMap_cons]
  rfl

/-- With what is held back at the end, the text is normalized. -/
theorem feed_flush (s : Style) (held : Bool) (text : List UInt8) :
    (feed s held text).1 ++ (if (feed s held text).2 then s.bytes else []) =
      normalize s (if held then crByte :: text else text) := by
  induction text generalizing held with
  | nil => cases held <;> simp [feed, normalize, tokens, spell, single, Token.restyle, Token.bytes]
  | cons b text ih =>
    rw [feed, feedStep]
    dsimp only
    by_cases hpair : held ∧ b = lfByte
    · obtain ⟨rfl, rfl⟩ := hpair
      have := ih false
      rw [if_pos ⟨rfl, rfl⟩, append_assoc, this]
      exact (normalize_pair s text).symm
    · rw [if_neg hpair]
      have hheld : (if held then s.bytes else []) ++ normalize s (b :: text) =
          normalize s (if held then crByte :: b :: text else b :: text) := by
        cases held with
        | false => rfl
        | true =>
          have hb : b ≠ lfByte := fun hb => hpair ⟨rfl, hb⟩
          have hhead : (b :: text).head? ≠ some lfByte := fun h => hb (Option.some.inj h)
          rw [if_pos rfl, if_pos rfl, normalize_cons (.inr hhead)]
          rfl
      rw [← hheld]
      by_cases hcr : b = crByte
      · subst hcr
        have := ih true
        rw [if_pos rfl, append_assoc, this]
        rfl
      · have := ih false
        rw [if_neg hcr, normalize_cons (.inl hcr)]
        by_cases hlf : b = lfByte
        · subst hlf
          rw [if_pos rfl, append_assoc, append_assoc, this]
          rfl
        · rw [if_neg hlf, append_assoc, append_assoc, this]
          simp [single, hcr, hlf, Token.restyle, Token.bytes]

/-- What a text adds is at most two bytes for each of its own, and two for a CR before
it. -/
theorem feed_length (s : Style) (held : Bool) (text : List UInt8) :
    (feed s held text).1.length ≤ 2 * text.length + 2 * held.toNat := by
  have hs : s.bytes.length ≤ 2 := by cases s <;> decide
  have hstep : ∀ (held : Bool) (b : UInt8),
      (feedStep s held b).1.length + 2 * (feedStep s held b).2.toNat ≤ 2 + 2 * held.toNat := by
    intro held b
    have hf : (if held then s.bytes else []).length ≤ 2 * held.toNat := by
      cases held
      · exact Nat.le_refl _
      · exact hs
    rw [feedStep]
    split
    · simp only [Bool.toNat_false]
      omega
    · split
      · simp only [Bool.toNat_true]
        omega
      · split
        · rw [length_append, Bool.toNat_false]
          omega
        · rw [length_append, length_singleton, Bool.toNat_false]
          omega
  induction text generalizing held with
  | nil => exact Nat.zero_le _
  | cons b text ih =>
    have h₁ := hstep held b
    have h₂ := ih (feedStep s held b).2
    rw [feed, length_append, length_cons]
    omega

end LineEnds

end AxlSdk
