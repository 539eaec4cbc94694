import AxlSdk.Json.Chunks

/-!
# Chunking independence

A scanner over a pull source sees the document through a window. `Scanner.whole`
is the scanner over the whole document at the same place, and one turn of the
scanner loop does the same to both (`turn_agree`), as long as the token that the
turn reads ends below offset 2^31: spans are C `int`s, and the scanner over the
whole document truncates an offset that the windowed one never sees.
-/

namespace AxlSdk

namespace Json

open List

/-! ## Bounds of a leaf's result -/

variable {flags : AxlJsonFlags} {kind : LeafKind} {w : List UInt8}

theorem leaf_ok_bounds {span : Nat × Nat} {p : Nat} (h : leaf flags kind true w = .ok span p) :
    p ≤ w.length ∧ (kind ≠ .ws → span.1 ≤ span.2 ∧ span.2 ≤ p) := by
  cases kind with
  | ws =>
    obtain ⟨g, r, rfl, rfl, -⟩ := skipWs_sound h
    simp
  | string quote =>
    obtain ⟨b, r, hw, rfl, rfl, -⟩ := parseStringLoop_sound h
    cases w with
    | nil => simp at hw
    | cons c cs =>
      obtain rfl : cs = b ++ quote :: r := hw
      refine ⟨?_, fun _ => ?_⟩ <;> simp <;> omega
  | ident =>
    simp only [leaf, parseIdentifier, Bool.not_true, Bool.and_false, Bool.false_eq_true,
      if_false] at h
    cases h
    exact ⟨(List.takeWhile_prefix _).length_le, fun _ => by simp⟩
  | number =>
    obtain ⟨b, r, rfl, rfl, rfl, -⟩ := parseNumber_sound h
    simp
  | literal =>
    obtain ⟨b, r, rfl, rfl, rfl, -⟩ := parseLiteral_sound h
    simp

variable {eof : Bool} {pos r : Nat} {e : LexError}

theorem skipWsLoop_fail_offset {m : WsMode} {res : Nat}
    (h : skipWsLoop flags eof m w pos res = .fail e r) : e.offset ≤ pos + w.length := by
  fun_induction skipWsLoop flags eof m w pos res with
  | case1 | case5 | case10 | case11 | case12 => cases h
  | _ =>
    first
    | cases h; simp
    | simp_all; omega

/-- A gap that ends inside a window ends on a byte. -/
theorem skipWsLoop_ok_lt {m : WsMode} {res : Nat} {sp : Nat × Nat} {p : Nat}
    (h : skipWsLoop flags false m w pos res = .ok sp p) :
    p < pos + w.length := by
  fun_induction skipWsLoop flags false m w pos res with
  | case10 | case11 =>
    cases h
    simp
  | _ =>
    first
    | cases h; done
    | simp_all; done
    | simp_all; omega

theorem parseStringLoop_fail_offset {quote : UInt8} {fuel : Nat} {s : List UInt8}
    (h : parseStringLoop flags eof quote fuel s pos = .fail e r) : e.offset ≤ pos + s.length := by
  induction fuel generalizing s pos with
  | zero =>
    cases h
    cases eof <;> simp [lexFail]
  | succ fuel ih =>
    rw [parseStringLoop] at h
    split at h
    · cases h
    · split at h
      · cases h
        simp only [lexFail]
        split <;> simp
      · rename_i n hn
        obtain ⟨u, r, rfl, rfl, -, -⟩ := stringUnit_sound hn
        have := ih h
        simp at this ⊢
        omega

@[simp] theorem lexFail_offset (eof : Bool) (here : List UInt8) (code : ErrorCode) (pos : Nat)
    (flag : AxlJsonFlags) : (lexFail eof here code pos flag).offset = pos := by
  unfold lexFail
  split <;> rfl

theorem fracPart_error_offset {sawInt : Bool} {s : List UInt8}
    (h : fracPart flags eof sawInt s pos = .error e) : e.offset = 0 := by
  cases s with
  | nil => cases h
  | cons c cs =>
    rw [fracPart] at h
    split at h
    · dsimp only at h
      split at h
      · cases h
        simp
      · split at h
        · cases h
          simp
        · cases h
    · cases h

theorem expPart_error_offset {s : List UInt8} (h : expPart eof s pos = .error e) :
    e.offset = 0 := by
  cases s with
  | nil => cases h
  | cons c cs =>
    rw [expPart] at h
    split at h
    · dsimp only at h
      split at h
      · cases h
        simp
      · cases h
    · cases h

theorem parseDecimal_error_offset {s : List UInt8} (h : parseDecimal flags eof s pos = .error e) :
    e.offset = 0 := by
  rw [parseDecimal] at h
  split at h
  · cases h
    simp
  · split at h
    · rename_i hf
      cases h
      exact fracPart_error_offset hf
    · split at h
      · cases h
        simp
      · exact expPart_error_offset h

/-- A failure of a number is about its first byte, unless the window ran out. -/
def AtStart (r : LeafResult) : Prop :=
  ∀ e k, r = .fail e k → k = 0 ∧ (e.code = .incomplete ∨ e.offset = 0)

theorem finishNumber_atStart {r : Except LexError (List UInt8 × Nat)}
    (hr : ∀ e, r = .error e → e.offset = 0) : AtStart (finishNumber eof r) := by
  intro e k h
  cases r with
  | error e' =>
    cases h
    exact ⟨rfl, .inr (hr _ rfl)⟩
  | ok rp =>
    rw [finishNumber] at h
    split at h
    · cases h
      simp
    · cases h

theorem parseUnsigned_atStart (flags : AxlJsonFlags) (eof : Bool) (sign : Nat) (s : List UInt8) :
    AtStart (parseUnsigned flags eof sign s) := by
  unfold parseUnsigned
  split
  · split
    · intro e k h
      cases h
      simp
    · refine finishNumber_atStart fun e h => ?_
      rw [parseHex] at h
      split at h
      · cases h
        simp
      · cases h
  · exact finishNumber_atStart fun e h => parseDecimal_error_offset h

theorem parseSignedWord_atStart {s : List UInt8} {ws : List (List UInt8)} {r : LeafResult}
    (h : parseSignedWord flags eof s ws = some r) :
    AtStart r := by
  induction ws with
  | nil => cases h
  | cons w ws ih =>
    rw [parseSignedWord] at h
    dsimp only at h
    split at h
    · intro e k hr
      subst hr
      split at h
      · cases h
        simp
      · split at h
        · cases h
          simp
        · split at h
          · cases h
            simp
          · cases h
    · exact ih h

theorem parseNumber_atStart (flags : AxlJsonFlags) (eof : Bool) (s : List UInt8) :
    AtStart (parseNumber flags eof s) := by
  cases s with
  | nil => exact parseUnsigned_atStart flags eof 0 []
  | cons c cs =>
    rw [parseNumber.eq_def]
    dsimp only
    split
    · split
      · intro e k h
        cases h
        simp
      · split
        · intro e k h
          cases h
          simp
        · split
          · exact parseSignedWord_atStart ‹_›
          · exact parseUnsigned_atStart flags eof 1 cs
    · exact parseUnsigned_atStart flags eof 0 (c :: cs)

theorem parseLiteral_atStart (flags : AxlJsonFlags) (eof : Bool) (s : List UInt8) :
    AtStart (parseLiteral flags eof s) := by
  intro e k h
  unfold parseLiteral at h
  split at h
  · cases h
    simp
  · split at h
    · cases h
    · split at h <;>
        · cases h
          simp

theorem parseStringLoop_fail_resume {quote : UInt8} {fuel : Nat} {s : List UInt8}
    (h : parseStringLoop flags eof quote fuel s pos = .fail e r) : r = 0 := by
  induction fuel generalizing s pos with
  | zero =>
    cases h
    rfl
  | succ fuel ih =>
    rw [parseStringLoop] at h
    split at h
    · cases h
    · split at h
      · cases h
        rfl
      · exact ih h

/-- Only a gap may be resumed; every other leaf is started over. -/
theorem leaf_fail_resume (hk : kind ≠ .ws) (h : leaf flags kind eof w = .fail e r) :
    r = 0 := by
  cases kind with
  | ws => exact absurd rfl hk
  | string quote => exact parseStringLoop_fail_resume h
  | ident =>
    simp only [leaf, parseIdentifier] at h
    split at h
    · cases h
      rfl
    · cases h
  | number => exact (parseNumber_atStart flags eof w e r h).1
  | literal => exact (parseLiteral_atStart flags eof w e r h).1

/-- What a leaf reports inside a window lies in it. -/
theorem leaf_fail_offset (h : leaf flags kind false w = .fail e r) (he : e.code ≠ .incomplete) :
    e.offset ≤ w.length := by
  cases kind with
  | ws => simpa using skipWsLoop_fail_offset h
  | string quote =>
    cases w with
    | nil =>
      simp only [leaf, parseString] at h
      cases h
      simp at he
    | cons c cs =>
      have := parseStringLoop_fail_offset h
      simp at this ⊢
      omega
  | ident =>
    simp only [leaf, parseIdentifier] at h
    split at h
    · cases h
      simp at he
    · cases h
  | number =>
    have := (parseNumber_atStart flags false w e r h).2.resolve_left he
    omega
  | literal =>
    have := (parseLiteral_atStart flags false w e r h).2.resolve_left he
    omega

/-! ## The window on a document -/

namespace Scanner

/-- The bytes that the source still has. -/
def ahead (s : Scanner) : List UInt8 := s.src.elim [] fun src => src.rest

/-- `s` reads `doc`, and its window has left `gone` behind. -/
structure Window (doc : List UInt8) (s : Scanner) (gone : List UInt8) : Prop where
  split : doc = gone ++ (s.json ++ s.ahead)
  base : gone.length = s.base
  lines : (s.line, s.column) = lineColOver (1, 1) gone
  eof : s.atEof = true → s.ahead = []
  healthy : ∀ src, s.src = some src → ∀ n, src.fault n = none
  cursor : s.pos ≤ s.json.length
  room : s.atEof = false → s.json.length ≤ s.bufCap

/-- `s` reads `doc`. -/
def On (doc : List UInt8) (s : Scanner) : Prop := ∃ gone, Window doc s gone

/-- The part of a scanner that is not about where the bytes are. -/
structure Control where
  flags : AxlJsonFlags
  depth : Nat
  maxDepth : Nat
  state : ScanState
  inArray : Nat → Bool
  err : JsonError
  done : Bool

def control (s : Scanner) : Control :=
  ⟨s.flags, s.depth, s.maxDepth, s.state, s.inArray, s.err, s.done⟩

/-- The scanner over the whole document at the same place. -/
def whole (doc : List UInt8) (s : Scanner) : Scanner :=
  { s with
    src := none, srcEof := false, json := doc, pos := s.base + s.pos, base := 0, bufCap := 0,
    line := 1, column := 1 }

theorem lineColOver_append (lc : UInt32 × UInt32) (a b : List UInt8) :
    lineColOver lc (a ++ b) = lineColOver (lineColOver lc a) b :=
  foldl_append

namespace Window

variable {doc gone : List UInt8} {s : Scanner}

/-- The unread bytes. -/
theorem drop (h : Window doc s gone) :
    doc.drop s.consumed = s.json.drop s.pos ++ s.ahead := by
  rw [h.split, consumed, ← h.base, drop_length_add_append,
    drop_append_of_le_length h.cursor]

/-- Line and column of an offset that the window holds. -/
theorem lineCol_eq (h : Window doc s gone) {off : Nat} (hoff : off ≤ s.json.length ∨ s.ahead = []) :
    s.lineCol off = lineColOver (1, 1) (doc.take (s.base + off)) := by
  have htake : (s.json ++ s.ahead).take off = s.json.take (min off s.json.length) := by
    rcases hoff with hoff | hnil
    · rw [take_append_of_le_length hoff, Nat.min_eq_left hoff]
    · rw [hnil, append_nil, take_eq_take_min]
  rw [lineCol, h.lines, ← lineColOver_append, h.split, ← h.base, take_length_add_append,
    htake]

end Window

/-- How many refills can still change something. -/
def remaining (s : Scanner) : Nat := s.ahead.length + if s.atEof then 0 else 1

theorem control_compact (s : Scanner) : s.compact.control = s.control := by
  unfold compact
  split <;> rfl

theorem control_grow (s : Scanner) : s.grow.control = s.control := by
  unfold grow
  split <;> rfl

theorem Window.compact {doc gone : List UInt8} {s : Scanner} (h : Window doc s gone) :
    ∃ gone', Window doc s.compact gone' ∧ s.compact.consumed = s.consumed ∧ s.compact.pos = 0 := by
  unfold Scanner.compact
  split
  case isFalse hpos => exact ⟨gone, h, rfl, by omega⟩
  case isTrue hpos =>
    refine ⟨gone ++ s.json.take s.pos, ⟨?_, ?_, ?_, h.eof, h.healthy, Nat.zero_le _, ?_⟩, rfl, rfl⟩
    · rw [append_assoc, ← append_assoc (s.json.take s.pos)]
      show doc = gone ++ (s.json.take s.pos ++ s.json.drop s.pos ++ s.ahead)
      rw [take_append_drop, ← h.split]
    · have := h.cursor
      have := h.base
      simp only [length_append, length_take]
      omega
    · rw [lineColOver_append, ← h.lines]
    · intro he
      have := h.room he
      simp only [length_drop]
      omega

/-- The read loop stops with a full buffer or at the end of the source. -/
theorem fillLoop_window {doc gone : List UInt8} {fuel : Nat} {s : Scanner}
    (h : Window doc s gone) (he : s.atEof = false) (hf : s.bufCap - s.json.length < fuel) :
    ∃ s', fillLoop fuel s = (true, s') ∧ Window doc s' gone ∧ s'.control = s.control ∧
      s'.consumed = s.consumed ∧ s'.remaining ≤ s.remaining ∧ s.json.length ≤ s'.json.length ∧
      (s.json.length < s.bufCap → s'.remaining < s.remaining ∧
        (s.json.length < s'.json.length ∨ s'.srcEof = true)) := by
  induction fuel generalizing s with
  | zero => omega
  | succ fuel ih =>
    obtain ⟨src, hsrc⟩ : ∃ src, s.src = some src := by
      cases hs : s.src with
      | none => simp [atEof, hs] at he
      | some src => exact ⟨src, rfl⟩
    have heof : s.srcEof = false := by simpa [atEof, hsrc] using he
    rw [fillLoop, hsrc]
    dsimp only
    split
    case isFalse hfull => exact ⟨s, rfl, h, rfl, rfl, le_rfl, le_rfl, fun h => absurd h hfull⟩
    case isTrue hroom =>
      simp only [PullSource.read, h.healthy src hsrc]
      have hahead : s.ahead = src.rest := by simp [ahead, hsrc]
      split
      case h_1 heq => simp at heq
      case h_2 src' heq =>
        -- nothing was delivered although there was room: the source is exhausted
        simp only [Prod.mk.injEq, Except.ok.injEq, take_eq_nil_iff] at heq
        obtain ⟨hnil, rfl⟩ := heq
        have hrest : src.rest = [] := by
          refine hnil.resolve_left ?_
          have : 1 ≤ Nat.max 1 (src.sizes src.reads) := Nat.le_max_left _ _
          omega
        refine ⟨_, rfl, ⟨?_, h.base, h.lines, ?_, ?_, h.cursor, ?_⟩, rfl, rfl, ?_, le_rfl,
          fun _ => ⟨?_, .inr rfl⟩⟩
        · rw [h.split, hahead]
          simp [ahead, hrest]
        · simp [ahead, hrest]
        · intro src' hsrc'
          cases hsrc'
          exact h.healthy src hsrc
        · simp [atEof]
        · simp [remaining, ahead, hrest, atEof]
        · simp [remaining, ahead, hrest, atEof, hsrc, heof]
      case h_3 bs src' hbs heq =>
        simp only [Prod.mk.injEq, Except.ok.injEq] at heq
        obtain ⟨rfl, rfl⟩ := heq
        have hn : min (Nat.max 1 (src.sizes src.reads)) (s.bufCap - s.json.length)
          ≤ s.bufCap - s.json.length := Nat.min_le_right _ _
        generalize min (Nat.max 1 (src.sizes src.reads)) (s.bufCap - s.json.length) = n at *
        have hne : 0 < (src.rest.take n).length := length_pos_iff.mpr hbs
        have hw : Window doc { s with
            src := some { src with rest := src.rest.drop n, reads := src.reads + 1 },
            json := s.json ++ src.rest.take n } gone := by
          refine ⟨?_, h.base, h.lines, ?_, ?_, ?_, fun _ => ?_⟩
          · rw [h.split, hahead]
            simp [ahead]
          · intro heof'
            simp [atEof, heof] at heof'
          · intro src' hsrc'
            cases hsrc'
            exact h.healthy src hsrc
          · have := h.cursor
            simp only [length_append]
            omega
          · simp only [length_append, length_take]
            omega
        obtain ⟨s', hrun, hw', hc', hp', hr', hl', -⟩ := ih hw (by simp [atEof, heof]) (by
          simp only [length_append]
          omega)
        rw [length_take] at hne
        simp only [length_append, length_take] at hl'
        have hless : s'.remaining < s.remaining := by
          refine lt_of_le_of_lt hr' ?_
          simp only [remaining, ahead, atEof, heof, hsrc, Option.elim_some, length_drop,
            Option.isNone_some, Bool.or_false, Bool.false_eq_true, if_false]
          omega
        exact ⟨s', hrun, hw', hc', hp', hless.le, by omega, fun _ => ⟨hless, .inl (by omega)⟩⟩

/-- `grow` makes room behind what the buffer holds. -/
theorem Window.grow {doc gone : List UInt8} {s : Scanner} (h : Window doc s gone)
    (he : s.atEof = false) :
    Window doc s.grow gone ∧ s.grow.consumed = s.consumed ∧ s.grow.json = s.json ∧
      s.grow.atEof = false ∧ s.grow.remaining = s.remaining ∧ s.grow.json.length < s.grow.bufCap := by
  have hroom := h.room he
  unfold Scanner.grow
  split
  case isFalse hfull => exact ⟨h, rfl, rfl, he, rfl, by omega⟩
  case isTrue hfull =>
    have hcap : s.json.length < if s.bufCap = 0 then windowMin else s.bufCap * 2 := by
      unfold windowMin
      split <;> omega
    exact ⟨⟨h.split, h.base, h.lines, h.eof, h.healthy, h.cursor, fun _ => hcap.le⟩, rfl, rfl, he,
      rfl, hcap⟩

theorem atEof_compact (s : Scanner) :
    s.compact.atEof = s.atEof ∧ s.compact.remaining = s.remaining := by
  unfold compact
  split <;> exact ⟨rfl, rfl⟩

theorem refill_eof {s : Scanner} (he : s.atEof = true) : s.refill = (false, s) := by
  rw [refill, if_pos he]

/-- A refill goes on with the same document at the same place. -/
theorem refill_window {doc gone : List UInt8} {s : Scanner} (h : Window doc s gone)
    (he : s.atEof = false) :
    ∃ s', s.refill = (true, s') ∧ On doc s' ∧ s'.control = s.control ∧
      s'.consumed = s.consumed ∧ s'.remaining < s.remaining := by
  obtain ⟨gone', h₁, hcons₁, -⟩ := h.compact
  obtain ⟨he₁, hrem₁⟩ := s.atEof_compact
  obtain ⟨h₂, hcons₂, hjson, he₂, hrem₂, hroom⟩ := h₁.grow (he₁.trans he)
  obtain ⟨s', hrun, h₃, hctl, hcons₃, -, -, hmore⟩ :=
    fillLoop_window h₂ he₂ (Nat.lt_succ_self _)
  obtain ⟨hless, hgrew⟩ := hmore hroom
  refine ⟨s', ?_, ⟨gone', h₃⟩, ?_, ?_, ?_⟩
  · rw [refill, if_neg (by simp [he])]
    dsimp only
    rw [hrun, ← hjson]
    simpa using hgrew
  · rw [hctl, control_grow, control_compact]
  · rw [hcons₃, hcons₂, hcons₁]
  · omega

/-! ## Running a leaf -/

/-- The error record for the offset `off` of the document; the first one wins. -/
def errorAt (doc : List UInt8) (err : JsonError) (code : ErrorCode) (off : Nat)
    (flag : AxlJsonFlags) : JsonError :=
  let lc := lineColOver (1, 1) (doc.take off)
  if err.code = .ok then ⟨code, off, lc.1, lc.2, flag⟩ else err

theorem adopt_err {doc gone : List UInt8} {s : Scanner} (h : Window doc s gone) {at_ : Nat}
    {e : LexError} (hoff : at_ + e.offset ≤ s.json.length ∨ s.ahead = []) :
    (s.adopt at_ e).err = errorAt doc s.err
      (if e.code = .unknown then .unexpectedByte else e.code) (s.base + at_ + e.offset)
      e.missingFlag := by
  simp only [adopt, errorAt, h.lineCol_eq hoff, Nat.add_assoc]

theorem fail_err {doc gone : List UInt8} {s : Scanner} (h : Window doc s gone) (code : ErrorCode)
    (flag : AxlJsonFlags) :
    (s.fail code (s.base + s.pos) flag).err = errorAt doc s.err code s.consumed flag := by
  simp only [fail, errorAt, Nat.add_sub_cancel_left, h.lineCol_eq (.inl h.cursor), consumed]

/-- What a leaf with the result `r` over the unread document leaves behind. -/
def Ran (doc : List UInt8) (kind : LeafKind) (s : Scanner) :
    LeafResult → Option (Nat × Nat) × Scanner → Prop
  | .ok span p, (some sp, s') =>
    On doc s' ∧ s'.control = s.control ∧ s'.consumed = s.consumed + p ∧
      (kind = .ws → s'.json.drop s'.pos = [] → s'.ahead = []) ∧
      (kind ≠ .ws → s'.base + sp.1 = s.consumed + span.1 ∧ s'.base + sp.2 = s.consumed + span.2 ∧
        sp.2 ≤ s'.pos)
  | .fail e _, (none, s') =>
    s'.done = true ∧ s'.err = errorAt doc s.err
      (if e.code = .unknown then .unexpectedByte else e.code) (s.consumed + e.offset) e.missingFlag
  | _, _ => False

variable {kind : LeafKind} {t : Scanner}

/-- A leaf started over from `k` bytes on. -/
theorem Ran.resumed {doc : List UInt8} {s : Scanner} {r r' : LeafResult}
    {res : Option (Nat × Nat) × Scanner} {k : Nat} (h : Ran doc kind t r' res)
    (hctl : t.control = s.control) (hpos : t.consumed = s.consumed + k)
    (hr : r.forget = (r'.shift k).forget) (hk : kind ≠ .ws → k = 0) : Ran doc kind s r res := by
  have herr : t.err = s.err := congrArg Control.err hctl
  obtain ⟨sp, s'⟩ := res
  cases r' with
  | ok span p =>
    cases r with
    | fail e q => simp at hr
    | ok span' p' =>
      obtain ⟨rfl, rfl⟩ : span' = span ∧ p' = p + k := by simpa using hr
      cases sp with
      | none => exact h.elim
      | some sp =>
        obtain ⟨hon, hc, hp, hend, hspan⟩ := h
        refine ⟨hon, hc.trans hctl, by omega, hend, fun hne => ?_⟩
        obtain rfl := hk hne
        simpa [hpos] using hspan hne
  | fail e q =>
    cases r with
    | ok span' p' => simp at hr
    | fail e' q' =>
      obtain rfl : e' = { e with offset := e.offset + k } := by simpa using hr
      cases sp with
      | some sp => exact h.elim
      | none =>
        obtain ⟨hdone, he⟩ := h
        refine ⟨hdone, ?_⟩
        rw [he, herr, hpos]
        congr 1
        dsimp only
        omega

/-- `scan_leaf_run` does what the leaf does over the unread document. -/
theorem leafRun_ran {doc : List UInt8} {fuel : Nat} {s : Scanner} (h : On doc s)
    (hf : s.remaining < fuel) :
    Ran doc kind s (leaf s.flags kind true (doc.drop s.consumed)) (leafRun kind fuel s) := by
  induction fuel generalizing s with
  | zero => omega
  | succ fuel ih =>
    obtain ⟨gone, h⟩ := h
    have hcur := h.cursor
    have hmove : ∀ k ≤ (s.json.drop s.pos).length, Window doc { s with pos := s.pos + k } gone := by
      intro k hk
      refine ⟨h.split, h.base, h.lines, h.eof, h.healthy, ?_, h.room⟩
      simp only [length_drop] at hk
      dsimp only
      omega
    rw [leafRun, h.drop]
    -- a success, as soon as the leaf over the window agrees with the one over the document
    have hsome : ∀ span p, leaf s.flags kind true (s.json.drop s.pos) = .ok span p →
        (kind = .ws → s.json.drop (s.pos + p) = [] → s.ahead = []) →
        Ran doc kind s (.ok span p)
          (some (s.pos + span.1, s.pos + span.2), { s with pos := s.pos + p }) := by
      intro span p hleaf hend
      obtain ⟨hp, hspan⟩ := leaf_ok_bounds hleaf
      refine ⟨⟨gone, hmove p hp⟩, rfl, by simp only [consumed]; omega, hend, fun hne => ?_⟩
      obtain ⟨-, hle⟩ := hspan hne
      simp only [consumed]
      omega
    cases he : s.atEof with
    | true =>
      rw [h.eof he, append_nil]
      cases hleaf : leaf s.flags kind true (s.json.drop s.pos) with
      | ok span p => exact hsome span p hleaf fun _ _ => h.eof he
      | fail e r =>
        have hadopt : ∀ t : Scanner, t = { s with pos := s.pos + r } ∨ t = s →
            Ran doc kind s (.fail e r) (none, t.adopt s.pos e) := by
          intro t ht
          refine ⟨rfl, ?_⟩
          have herr := @adopt_err doc gone s h s.pos e (.inr (h.eof he))
          rcases ht with rfl | rfl <;> exact herr
        dsimp only
        split
        · have he' : ({ s with pos := s.pos + r } : Scanner).atEof = true := he
          rw [refill_eof he']
          exact hadopt _ (.inl rfl)
        · exact hadopt _ (.inr rfl)
    | false =>
      cases hleaf : leaf s.flags kind false (s.json.drop s.pos) with
      | ok span p =>
        have hdef : (leaf s.flags kind false (s.json.drop s.pos)).Definite := by rw [hleaf]; trivial
        have hall := leaf_definite hdef
        rw [hall, hleaf]
        refine hsome span p ?_ ?_
        · have := hall []
          rwa [append_nil, hleaf] at this
        · rintro rfl hnil
          have := skipWsLoop_ok_lt hleaf
          rw [drop_eq_nil_iff] at hnil
          rw [length_drop] at this
          omega
      | fail e r =>
        dsimp only
        split
        case isFalse hinc =>
          have hdef : (leaf s.flags kind false (s.json.drop s.pos)).Definite := by
            rw [hleaf]
            exact hinc
          rw [leaf_definite hdef, hleaf]
          refine ⟨rfl, ?_⟩
          have hoff := leaf_fail_offset hleaf hinc
          rw [length_drop] at hoff
          rw [adopt_err h (.inl (by omega))]
          rfl
        case isTrue hinc =>
          -- the window ran out: go on from `resume_at` with more bytes
          have hres : r ≤ (s.json.drop s.pos).length ∧ (kind ≠ .ws → r = 0) ∧
              (leaf s.flags kind true (s.json.drop s.pos ++ s.ahead)).forget
                = ((leaf s.flags kind true ((s.json.drop s.pos).drop r ++ s.ahead)).shift r).forget := by
            by_cases hk : kind = .ws
            · subst hk
              obtain ⟨hr, hrun⟩ := skipWs_resume hleaf hinc
              exact ⟨hr, fun hne => absurd rfl hne, hrun _⟩
            · obtain rfl := leaf_fail_resume hk hleaf
              refine ⟨Nat.zero_le _, fun _ => rfl, ?_⟩
              rw [drop_zero]
              cases leaf s.flags kind true (s.json.drop s.pos ++ s.ahead) <;> rfl
          obtain ⟨hr, hk, hrun⟩ := hres
          obtain ⟨s', href, hon, hctl, hcons, hless⟩ := refill_window (hmove r hr) he
          rw [href]
          have hcons' : s'.consumed = s.consumed + r := by
            rw [hcons]
            simp only [consumed]
            omega
          have hrem : s'.remaining < fuel := by
            have : s'.remaining < s.remaining := hless
            omega
          have hflags : s'.flags = s.flags := congrArg Control.flags hctl
          have := ih hon hrem
          refine this.resumed (s := s) hctl hcons' ?_ hk
          rw [hcons', hflags, ← drop_drop, h.drop, drop_append_of_le_length hr]
          exact hrun

theorem remaining_lt_turns {s : Scanner} : s.remaining < s.turns := by
  unfold remaining turns ahead
  cases s.src <;> simp <;> split <;> omega

theorem runLeaf_ran {doc : List UInt8} {s : Scanner} (h : On doc s) (kind : LeafKind) :
    Ran doc kind s (leaf s.flags kind true (doc.drop s.consumed)) (s.runLeaf kind) :=
  leafRun_ran h remaining_lt_turns

theorem On.whole {doc : List UInt8} {s : Scanner} (h : On doc s) : On doc (s.whole doc) := by
  obtain ⟨gone, h⟩ := h
  refine ⟨[], by simp [Scanner.whole, ahead], rfl, rfl, fun _ => rfl, by simp [Scanner.whole], ?_,
    ?_⟩
  · have := congrArg List.length h.split
    have := h.cursor
    have := h.base
    simp only [length_append] at *
    simp only [Scanner.whole]
    omega
  · simp [atEof, Scanner.whole]

variable {s' : Scanner} {sp : Nat × Nat}

/-- The scanner over the whole document moves its cursor only. -/
theorem runLeaf_view {s : Scanner} (hs : s.src = none) (h : s.runLeaf kind = (some sp, s')) :
    s' = { s with pos := s'.pos } := by
  have he : s.atEof = true := by simp [atEof, hs]
  rw [runLeaf, turns, hs, leafRun] at h
  split at h
  · cases h
    rfl
  · split at h
    · have he' : ∀ k, ({ s with pos := k } : Scanner).atEof = true := fun _ => he
      rw [refill_eof (he' _)] at h
      cases h
    · cases h

theorem whole_of_view {doc : List UInt8} {s : Scanner} {p : Nat}
    (ht : t = { s.whole doc with pos := p }) (hc : s'.control = s.control)
    (hp : t.consumed = s'.consumed) : t = s'.whole doc := by
  subst ht
  simp only [control, Control.mk.injEq] at hc
  simp only [consumed, whole] at hp
  simp only [whole, Scanner.mk.injEq]
  simp_all

/-- A leaf ends the same way over a window and over the whole document. -/
theorem runLeaf_whole {doc : List UInt8} {s : Scanner} (h : On doc s) (kind : LeafKind) :
    (∃ sp sp' s' span p, s.runLeaf kind = (some sp, s') ∧
      (s.whole doc).runLeaf kind = (some sp', s'.whole doc) ∧
      leaf s.flags kind true (doc.drop s.consumed) = .ok span p ∧
      On doc s' ∧ s'.control = s.control ∧ s'.consumed = s.consumed + p ∧
      (kind = .ws → s'.json.drop s'.pos = [] → s'.ahead = []) ∧
      (kind ≠ .ws → s'.base + sp.1 = sp'.1 ∧ s'.base + sp.2 = sp'.2 ∧ sp.2 ≤ s'.pos ∧
        sp'.1 = s.consumed + span.1 ∧ sp'.2 = s.consumed + span.2)) ∨
    ∃ s' c', s.runLeaf kind = (none, s') ∧ (s.whole doc).runLeaf kind = (none, c') ∧
      s'.done = true ∧ c'.done = true ∧ s'.err = c'.err := by
  have hs := runLeaf_ran h kind
  have hc := runLeaf_ran h.whole kind
  have hcons : (s.whole doc).consumed = s.consumed := by simp [whole, consumed]
  rw [hcons] at hc
  have hflags : (s.whole doc).flags = s.flags := rfl
  rw [hflags] at hc
  have hview : ∀ sp c', (s.whole doc).runLeaf kind = (some sp, c') →
      c' = { s.whole doc with pos := c'.pos } := fun sp c' hrun => runLeaf_view rfl hrun
  generalize s.runLeaf kind = res at *
  generalize (s.whole doc).runLeaf kind = res' at *
  obtain ⟨sp, s'⟩ := res
  obtain ⟨sp', c'⟩ := res'
  cases hleaf : leaf s.flags kind true (doc.drop s.consumed) with
  | ok span p =>
    rw [hleaf] at hs hc
    cases sp with
    | none => exact hs.elim
    | some sp =>
      cases sp' with
      | none => exact hc.elim
      | some sp' =>
        obtain ⟨hon, hctl, hpos, hend, hspan⟩ := hs
        obtain ⟨-, -, hpos', -, hspan'⟩ := hc
        rw [hcons] at hpos' hspan'
        have hc' := hview sp' c' rfl
        have hwhole : c' = s'.whole doc := whole_of_view hc' hctl (by omega)
        refine .inl ⟨sp, sp', s', span, p, rfl, by rw [hwhole], rfl, hon, hctl, hpos, hend,
          fun hne => ?_⟩
        have hbase : c'.base = 0 := by rw [hc']; rfl
        obtain ⟨h₁, h₂, h₃⟩ := hspan hne
        obtain ⟨h₁', h₂', -⟩ := hspan' hne
        omega
  | fail e r =>
    rw [hleaf] at hs hc
    cases sp with
    | some sp => exact hs.elim
    | none =>
      cases sp' with
      | some sp' => exact hc.elim
      | none =>
        refine .inr ⟨s', c', rfl, rfl, hs.1, hc.1, ?_⟩
        rw [hs.2, hc.2, hcons]
        rfl

/-! ## One turn -/

/-- What a caller sees of an event. -/
def seen (ev : Event) : EventKind × EventText × Nat × Nat :=
  (ev.kind, ev.text, ev.offset, ev.depth)

/-- The bytes of a token are the same in the window and in the document. -/
theorem textEvent_whole {doc : List UInt8} {s : Scanner} (h : On doc s) {sp' : Nat × Nat}
    (hle : sp.1 ≤ sp.2) (h₁ : s.base + sp.1 = sp'.1) (h₂ : s.base + sp.2 = sp'.2)
    (hin : sp.2 ≤ s.json.length) (hfit : sp'.2 < 2 ^ 31) (kind : EventKind) (off : Nat) :
    seen (s.textEvent kind sp off) = seen ((s.whole doc).textEvent kind sp' off) := by
  obtain ⟨gone, h⟩ := h
  have hlen : toSize (toInt32 sp.2 - toInt32 sp.1) = sp.2 - sp.1 := toSize_sub hle (by omega)
  have hlen' : toSize (toInt32 sp'.2 - toInt32 sp'.1) = sp.2 - sp.1 := by
    rw [toSize_sub (by omega) hfit]
    omega
  have hdoc : doc.length = s.base + (s.json.length + s.ahead.length) := by
    rw [h.split, ← h.base]
    simp
  have hdrop : doc.drop sp'.1 = s.json.drop sp.1 ++ s.ahead := by
    rw [h.split, ← h₁, ← h.base, drop_length_add_append,
      drop_append_of_le_length (by omega)]
  have htake : (doc.drop sp'.1).take (sp.2 - sp.1) = (s.json.drop sp.1).take (sp.2 - sp.1) := by
    rw [hdrop, take_append_of_le_length (by rw [length_drop]; omega)]
  have hjson : (s.whole doc).json = doc := rfl
  simp only [textEvent, seen, hlen, hlen', textAt, hjson]
  simp only [toInt32_of_lt (show sp.1 < 2 ^ 31 by omega),
    toInt32_of_lt (show sp'.1 < 2 ^ 31 by omega), Int.toNat_natCast, htake]
  rw [if_pos ⟨by omega, by omega⟩, if_pos ⟨by omega, by omega⟩]
  rfl

theorem literalKind_whole {doc : List UInt8} {s : Scanner} (h : On doc s) {sp' : Nat × Nat}
    (hlt : sp.1 < sp.2) (h₁ : s.base + sp.1 = sp'.1) (h₂ : s.base + sp.2 = sp'.2)
    (hin : sp.2 ≤ s.json.length) (hfit : sp'.2 < 2 ^ 31) :
    s.literalKind sp = (s.whole doc).literalKind sp' := by
  obtain ⟨gone, h⟩ := h
  have hlen : toSize (toInt32 sp.2 - toInt32 sp.1) = sp.2 - sp.1 := toSize_sub hlt.le (by omega)
  have hlen' : toSize (toInt32 sp'.2 - toInt32 sp'.1) = sp.2 - sp.1 := by
    rw [toSize_sub (by omega) hfit]
    omega
  have hdrop : (doc.drop sp'.1).head? = (s.json.drop sp.1).head? := by
    rw [h.split, ← h₁, ← h.base, drop_length_add_append,
      drop_append_of_le_length (by omega), head?_append_of_ne_nil]
    simp only [ne_eq, drop_eq_nil_iff]
    omega
  have hjson : (s.whole doc).json = doc := rfl
  simp only [literalKind, hlen, hlen', hjson]
  simp only [toInt32_of_lt (show sp.1 < 2 ^ 31 by omega),
    toInt32_of_lt (show sp'.1 < 2 ^ 31 by omega), Int.toNat_natCast, hdrop]
  simp

/-- Two turns, over a window and over the whole document, do the same. -/
def Agree (doc : List UInt8) : Step → Step → Prop
  | .event ev s, .event ev' c => seen ev = seen ev' ∧ On doc s ∧ c = s.whole doc
  | .again s, .again c => On doc s ∧ c = s.whole doc
  | .stop s, .stop c => s.done = true ∧ c.done = true ∧ s.err = c.err
  | _, _ => False

/-- The token that `kind` reads at the cursor of `s` ends below 2^31. -/
def EndsBelow (doc : List UInt8) (s : Scanner) (kind : LeafKind) : Prop :=
  ∀ span p, leaf s.flags kind true (doc.drop s.consumed) = .ok span p →
    s.consumed + span.2 < 2 ^ 31

/-- A turn that stops with an error at the cursor. -/
theorem fail_agree {doc : List UInt8} {s : Scanner} (h : On doc s) (code : ErrorCode)
    (flag : AxlJsonFlags) :
    Agree doc (.stop (s.fail code (s.base + s.pos) flag))
      (.stop ((s.whole doc).fail code ((s.whole doc).base + (s.whole doc).pos) flag)) := by
  refine ⟨rfl, rfl, ?_⟩
  obtain ⟨gone, hw⟩ := h
  obtain ⟨gone', hw'⟩ := On.whole ⟨gone, hw⟩
  rw [fail_err hw, fail_err hw']
  simp [whole, consumed]

theorem On.afterValue {doc : List UInt8} {s : Scanner} (h : On doc s) : On doc s.afterValue := by
  obtain ⟨gone, h⟩ := h
  exact ⟨gone, h.split, h.base, h.lines, h.eof, h.healthy, h.cursor, h.room⟩

/-- A turn that reads a token: `ev` classifies it and `after` is the state behind it. -/
theorem token_agree {doc : List UInt8} {s : Scanner} (h : On doc s) (hk : kind ≠ .ws)
    (hfit : EndsBelow doc s kind) (ev : Scanner → Nat × Nat → EventKind) (after : Scanner → Scanner)
    (hev : ∀ t sp sp', On doc t → t.base + sp.1 = sp'.1 → t.base + sp.2 = sp'.2 →
      sp.2 ≤ t.json.length → sp'.2 < 2 ^ 31 →
      (∃ span p, leaf s.flags kind true (doc.drop s.consumed) = .ok span p ∧
        span.2 - span.1 = sp.2 - sp.1) → ev t sp = ev (t.whole doc) sp')
    (hafter : ∀ t, On doc t → On doc (after t))
    (hwhole : ∀ t, after (t.whole doc) = (after t).whole doc) :
    Agree doc
      (match s.runLeaf kind with
        | (none, s') => .stop s'
        | (some span, s') => .event (s'.textEvent (ev s' span) span (s.base + s.pos)) (after s'))
      (match (s.whole doc).runLeaf kind with
        | (none, s') => .stop s'
        | (some span, s') =>
          .event (s'.textEvent (ev s' span) span ((s.whole doc).base + (s.whole doc).pos))
            (after s')) := by
  rcases runLeaf_whole h kind with
    ⟨sp, sp', s', span, p, hrun, hrun', hleaf, hon, -, hpos, -, hspan⟩ |
    ⟨s', c', hrun, hrun', hstop⟩
  · obtain ⟨h₁, h₂, hin, hs₁, hs₂⟩ := hspan hk
    have hle := ((leaf_ok_bounds hleaf).2 hk).1
    have hcur : s'.pos ≤ s'.json.length := hon.choose_spec.cursor
    have hb := hfit span p hleaf
    rw [hrun, hrun']
    refine ⟨?_, hafter _ hon, hwhole _⟩
    rw [hev s' sp sp' hon h₁ h₂ (by omega) (by omega) ⟨span, p, hleaf, by omega⟩,
      textEvent_whole hon (by omega) h₁ h₂ (by omega) (by omega)]
    simp [whole]
  · rw [hrun, hrun']
    exact hstop

theorem leafValue_agree {doc : List UInt8} {s : Scanner} (h : On doc s) (hk : kind ≠ .ws)
    (hfit : EndsBelow doc s kind) (ev : EventKind) :
    Agree doc (s.leafValue kind fun _ _ => ev) ((s.whole doc).leafValue kind fun _ _ => ev) :=
  token_agree h hk hfit _ _ (fun _ _ _ _ _ _ _ _ _ => rfl) (fun _ => On.afterValue) fun _ => rfl

theorem leafLiteral_agree {doc : List UInt8} {s : Scanner} (h : On doc s)
    (hfit : EndsBelow doc s .literal) :
    Agree doc (s.leafValue .literal literalKind) ((s.whole doc).leafValue .literal literalKind) := by
  refine token_agree h (by simp) hfit _ _ ?_ (fun _ => On.afterValue) fun _ => rfl
  intro t sp sp' hon h₁ h₂ hin hfit' ⟨span, p, hleaf, hlen⟩
  obtain ⟨b, r, -, rfl, rfl, hb⟩ := parseLiteral_sound hleaf
  have hpos : 0 < b.length := by
    rcases hb with rfl | rfl | rfl | ⟨-, rfl | rfl⟩ <;> decide
  exact literalKind_whole hon (by simp at hlen; omega) h₁ h₂ hin hfit'

theorem leafKey_agree {doc : List UInt8} {s : Scanner} (h : On doc s) (hk : kind ≠ .ws)
    (hfit : EndsBelow doc s kind) :
    Agree doc (s.leafKey kind) ((s.whole doc).leafKey kind) := by
  refine token_agree h hk hfit (fun _ _ => .key) (fun t => { t with state := .colon })
    (fun _ _ _ _ _ _ _ _ _ => rfl) ?_ fun _ => rfl
  rintro t ⟨gone, h⟩
  exact ⟨gone, h.split, h.base, h.lines, h.eof, h.healthy, h.cursor, h.room⟩

theorem openContainer_agree {doc : List UInt8} {s : Scanner} (h : On doc s)
    (hin : s.pos < s.json.length) (isArray : Bool) :
    Agree doc (s.openContainer isArray) ((s.whole doc).openContainer isArray) := by
  unfold openContainer
  by_cases hd : s.depth ≥ s.maxDepth
  · have hd' : (s.whole doc).depth ≥ (s.whole doc).maxDepth := hd
    rw [if_pos hd, if_pos hd']
    exact fail_agree h _ _
  · have hd' : ¬ (s.whole doc).depth ≥ (s.whole doc).maxDepth := hd
    rw [if_neg hd, if_neg hd']
    obtain ⟨gone, h⟩ := h
    refine ⟨by simp [seen, bareEvent, whole], ?_, rfl⟩
    exact ⟨gone, h.split, h.base, h.lines, h.eof, h.healthy, hin, h.room⟩

theorem closeContainer_agree {doc : List UInt8} {s : Scanner} (h : On doc s)
    (hin : s.pos < s.json.length) (isArray : Bool) :
    Agree doc (s.closeContainer isArray) ((s.whole doc).closeContainer isArray) := by
  obtain ⟨gone, h⟩ := h
  refine ⟨by simp [seen, bareEvent, whole], ?_, rfl⟩
  exact ⟨gone, h.split, h.base, h.lines, h.eof, h.healthy, hin, h.room⟩

/-- The leaf that reads a value starting with the byte `c`. -/
def valueLeaf (flags : AxlJsonFlags) (c : UInt8) : Option LeafKind :=
  if c = 0x22 ∨ c = 0x27 then
    if c = 0x27 ∧ allows flags allowSingleQuotes = false then none else some (.string c)
  else if c = 0x2B ∨ c = 0x2D ∨ isDigit c ∨ c = 0x2E then some .number
  else if isIdentStart c then some .literal
  else none

/-- The leaf that reads a key starting with the byte `c`. -/
def keyLeaf (flags : AxlJsonFlags) (c : UInt8) : Option LeafKind :=
  if c = 0x22 ∨ c = 0x27 then
    if c = 0x27 ∧ allows flags allowSingleQuotes = false then none else some (.string c)
  else if isIdentStart c ∧ allows flags allowUnquotedKeys then some .ident
  else none

variable {c : UInt8}

theorem scanValue_agree {doc : List UInt8} {s : Scanner} (h : On doc s)
    (hin : s.pos < s.json.length)
    (hfit : ∀ kind, valueLeaf s.flags c = some kind → EndsBelow doc s kind) :
    Agree doc (s.scanValue c) ((s.whole doc).scanValue c) := by
  have hflags : (s.whole doc).flags = s.flags := rfl
  unfold scanValue
  rw [hflags]
  split
  · exact openContainer_agree h hin false
  · split
    · exact openContainer_agree h hin true
    · split
      case isTrue hq =>
        split
        · exact fail_agree h _ _
        case isFalse hs =>
          exact leafValue_agree h (by simp) (hfit _ (by rw [valueLeaf, if_pos hq, if_neg hs])) _
      case isFalse hq =>
        split
        case isTrue hn =>
          exact leafValue_agree h (by simp) (hfit _ (by rw [valueLeaf, if_neg hq, if_pos hn])) _
        case isFalse hn =>
          split
          case isTrue hi =>
            exact leafLiteral_agree h (hfit _ (by rw [valueLeaf, if_neg hq, if_neg hn, if_pos hi]))
          · exact fail_agree h _ _

theorem scanKey_agree {doc : List UInt8} {s : Scanner} (h : On doc s)
    (hfit : ∀ kind, keyLeaf s.flags c = some kind → EndsBelow doc s kind) :
    Agree doc (s.scanKey c) ((s.whole doc).scanKey c) := by
  have hflags : (s.whole doc).flags = s.flags := rfl
  unfold scanKey
  rw [hflags]
  split
  case isTrue hq =>
    split
    · exact fail_agree h _ _
    case isFalse hs =>
      exact leafKey_agree h (by simp) (hfit _ (by rw [keyLeaf, if_pos hq, if_neg hs]))
  case isFalse hq =>
    split
    case isTrue hi =>
      split
      · exact fail_agree h _ _
      case isFalse ha =>
        have ha' : allows s.flags allowUnquotedKeys = true := by simpa using ha
        exact leafKey_agree h (by simp) (hfit _ (by rw [keyLeaf, if_neg hq, if_pos ⟨hi, ha'⟩]))
    · exact fail_agree h _ _

/-- The leaf that reads the token at the byte `c`, in the states that take one. -/
def tokenLeaf (s : Scanner) (c : UInt8) : Option LeafKind :=
  match s.state with
  | .valueRoot | .value | .arrFirst => valueLeaf s.flags c
  | .objFirst | .objKey => keyLeaf s.flags c
  | .colon | .after | .rootDone | .done => none

theorem separator_agree {doc : List UInt8} {s : Scanner} (h : On doc s)
    (hin : s.pos < s.json.length) (st : ScanState) :
    Agree doc (.again { s with pos := s.pos + 1, state := st })
      (.again { s.whole doc with pos := (s.whole doc).pos + 1, state := st }) := by
  obtain ⟨gone, h⟩ := h
  exact ⟨⟨gone, h.split, h.base, h.lines, h.eof, h.healthy, hin, h.room⟩, rfl⟩

theorem dispatch_agree {doc : List UInt8} {s : Scanner} (h : On doc s) (hin : s.pos < s.json.length)
    (hfit : ∀ kind, s.tokenLeaf c = some kind → EndsBelow doc s kind) :
    Agree doc (s.dispatch c) ((s.whole doc).dispatch c) := by
  have hstate : (s.whole doc).state = s.state := rfl
  unfold dispatch
  rw [hstate]
  cases hst : s.state with
  | valueRoot =>
    exact scanValue_agree h hin fun kind hk => hfit kind (by rw [tokenLeaf, hst]; exact hk)
  | value =>
    have harr : (s.whole doc).inArray = s.inArray := rfl
    have hdepth : (s.whole doc).depth = s.depth := rfl
    have hflags : (s.whole doc).flags = s.flags := rfl
    simp only [harr, hdepth, hflags]
    split
    · exact closeContainer_agree h hin true
    · exact scanValue_agree h hin fun kind hk => hfit kind (by rw [tokenLeaf, hst]; exact hk)
  | arrFirst =>
    dsimp only
    split
    · exact closeContainer_agree h hin true
    · exact scanValue_agree h hin fun kind hk => hfit kind (by rw [tokenLeaf, hst]; exact hk)
  | objFirst =>
    dsimp only
    split
    · exact closeContainer_agree h hin false
    · exact scanKey_agree h fun kind hk => hfit kind (by rw [tokenLeaf, hst]; exact hk)
  | objKey =>
    dsimp only
    split
    · have hflags : (s.whole doc).flags = s.flags := rfl
      rw [hflags]
      split
      · exact closeContainer_agree h hin false
      · exact fail_agree h _ _
    · exact scanKey_agree h fun kind hk => hfit kind (by rw [tokenLeaf, hst]; exact hk)
  | colon =>
    dsimp only
    split
    · exact separator_agree h hin .value
    · exact fail_agree h _ _
  | after =>
    have harr : (s.whole doc).inArray (s.whole doc).depth = s.inArray s.depth := rfl
    simp only [harr]
    split
    · exact separator_agree h hin _
    · split
      · exact closeContainer_agree h hin _
      · exact fail_agree h _ _
  | rootDone | done => exact ⟨rfl, rfl, rfl⟩

/-- The token that the next turn of a scanner over a contiguous document reads
behind the gap at the cursor, if any, ends below offset 2^31. -/
def Fits (s : Scanner) : Prop :=
  ∀ sp gap c kind span p, skipWs s.flags true (s.json.drop s.pos) = .ok sp gap →
    (s.json.drop (s.pos + gap)).head? = some c → s.tokenLeaf c = some kind →
    leaf s.flags kind true (s.json.drop (s.pos + gap)) = .ok span p →
    s.pos + gap + span.2 < 2 ^ 31

/-- **One turn does the same** over a window and over the whole document. -/
theorem turn_agree {doc : List UInt8} {s : Scanner} (h : On doc s) (hfit : (s.whole doc).Fits) :
    Agree doc s.turn (s.whole doc).turn := by
  have hstate : (s.whole doc).state = s.state := rfl
  unfold turn
  rw [hstate]
  split
  · obtain ⟨gone, h⟩ := h
    exact ⟨by simp [seen, bareEvent, whole],
      ⟨gone, h.split, h.base, h.lines, h.eof, h.healthy, h.cursor, h.room⟩, rfl⟩
  · rcases runLeaf_whole h .ws with
      ⟨sp, sp', s', span, p, hrun, hrun', hleaf, hon, hctl, hpos, hend, -⟩ |
      ⟨s', c', hrun, hrun', hstop⟩
    · rw [hrun, hrun']
      obtain ⟨gone, hw⟩ := hon
      have hdrop : (s'.whole doc).json.drop (s'.whole doc).pos = s'.json.drop s'.pos ++ s'.ahead :=
        hw.drop
      dsimp only
      rw [hdrop]
      cases hhere : s'.json.drop s'.pos with
      | nil =>
        -- the window is empty only where the document ends
        rw [hend rfl hhere]
        have hstate' : (s'.whole doc).state = s'.state := rfl
        have hdepth' : (s'.whole doc).depth = s'.depth := rfl
        simp only [append_nil, hstate', hdepth']
        split
        · exact ⟨rfl, rfl, rfl⟩
        · exact fail_agree ⟨gone, hw⟩ _ _
      | cons c cs =>
        have hin : s'.pos < s'.json.length := by
          have : (s'.json.drop s'.pos).length ≠ 0 := by simp [hhere]
          rw [length_drop] at this
          omega
        refine dispatch_agree ⟨gone, hw⟩ hin fun kind hk span' p' hleaf' => ?_
        simp only [control, Control.mk.injEq] at hctl
        obtain ⟨hflags, -, -, hst, -⟩ := hctl
        have hcons : s.base + s.pos + p = s'.consumed := hpos.symm
        rw [hpos]
        refine hfit span p c kind span' p' hleaf ?_ ?_ ?_
        · show (doc.drop (s.base + s.pos + p)).head? = some c
          rw [hcons, hw.drop, hhere]
          rfl
        · rw [← hk, tokenLeaf, tokenLeaf, hst, hflags]
          rfl
        · show leaf s.flags kind true (doc.drop (s.base + s.pos + p)) = .ok span' p'
          rw [hcons, ← hflags]
          exact hleaf'
    · rw [hrun, hrun']
      exact hstop

/-! ## Runs -/

/-- The states that a scan passes through, turn by turn. -/
inductive Passes (s : Scanner) : Scanner → Prop where
  | start : Passes s s
  | event {t t' : Scanner} {ev : Event} (h : Passes s t) (ht : t.turn = .event ev t') : Passes s t'
  | again {t t' : Scanner} (h : Passes s t) (ht : t.turn = .again t') : Passes s t'

theorem Passes.trans {s u : Scanner} (h : Passes s t) (h' : Passes t u) : Passes s u := by
  induction h' with
  | start => exact h
  | event _ ht ih => exact ih.event ht
  | again _ ht ih => exact ih.again ht

/-- Two calls of `axl_json_scanner_next` return the same. -/
def SameNext (doc : List UInt8) (s : Scanner) :
    Option Event × Scanner → Option Event × Scanner → Prop
  | (some ev, s'), (some ev', c') =>
    seen ev = seen ev' ∧ On doc s' ∧ c' = s'.whole doc ∧ Passes (s.whole doc) c'
  | (none, s'), (none, c') => s'.err = c'.err
  | _, _ => False

theorem nextLoop_agree {doc : List UInt8} (fuel : Nat) {s : Scanner} (h : On doc s)
    (hfit : ∀ t, Passes (s.whole doc) t → t.Fits) :
    SameNext doc s (nextLoop fuel s) (nextLoop fuel (s.whole doc)) := by
  induction fuel generalizing s with
  | zero => exact rfl
  | succ fuel ih =>
    have hturn := turn_agree h (hfit _ .start)
    rw [nextLoop, nextLoop]
    cases hs : s.turn with
    | event ev s' =>
      cases hc : (s.whole doc).turn with
      | event ev' c' =>
        rw [hs, hc] at hturn
        obtain ⟨hseen, hon, hwhole⟩ := hturn
        exact ⟨hseen, hon, hwhole, Passes.start.event hc⟩
      | again c' | stop c' => rw [hs, hc] at hturn; exact hturn.elim
    | again s' =>
      cases hc : (s.whole doc).turn with
      | again c' =>
        rw [hs, hc] at hturn
        obtain ⟨hon, rfl⟩ := hturn
        have hpass : Passes (s.whole doc) (s'.whole doc) := Passes.start.again hc
        have := ih hon fun t ht => hfit t (hpass.trans ht)
        dsimp only
        generalize nextLoop fuel s' = r at this ⊢
        generalize nextLoop fuel (s'.whole doc) = r' at this ⊢
        obtain ⟨ev, s''⟩ := r
        obtain ⟨ev', c''⟩ := r'
        cases ev <;> cases ev'
        · exact this
        · exact this
        · exact this
        · obtain ⟨hseen, hon, hwhole, hp⟩ := this
          exact ⟨hseen, hon, hwhole, hpass.trans hp⟩
      | event _ c' | stop c' => rw [hs, hc] at hturn; exact hturn.elim
    | stop s' =>
      cases hc : (s.whole doc).turn with
      | stop c' =>
        rw [hs, hc] at hturn
        exact hturn.2.2
      | event _ c' | again c' => rw [hs, hc] at hturn; exact hturn.elim

theorem next_agree {doc : List UInt8} {s : Scanner} (h : On doc s)
    (hfit : ∀ t, Passes (s.whole doc) t → t.Fits) :
    SameNext doc s s.next (s.whole doc).next := by
  have hdone : (s.whole doc).done = s.done := rfl
  unfold next
  rw [hdone]
  split
  · exact rfl
  · exact nextLoop_agree 2 h hfit

/-- What a caller of `axl_json_scanner_next` sees of a run: the events, with
`axl_json_scanner_consumed` behind each, and the error record. -/
def observed (r : List (Event × Nat) × Scanner) :
    List ((EventKind × EventText × Nat × Nat) × Nat) × JsonError :=
  (r.1.map fun e => (seen e.1, e.2), r.2.err)

theorem drain_agree {doc : List UInt8} (n : Nat) {s : Scanner} (h : On doc s)
    (hfit : ∀ t, Passes (s.whole doc) t → t.Fits) :
    observed (drain n s) = observed (drain n (s.whole doc)) := by
  induction n generalizing s with
  | zero => rfl
  | succ n ih =>
    have hnext := next_agree h hfit
    rw [drain, drain]
    generalize s.next = r at hnext ⊢
    generalize (s.whole doc).next = r' at hnext ⊢
    obtain ⟨ev, s'⟩ := r
    obtain ⟨ev', c'⟩ := r'
    cases ev <;> cases ev'
    case none.none =>
      have herr : s'.err = c'.err := hnext
      simp [observed, herr]
    case none.some => exact hnext.elim
    case some.none => exact hnext.elim
    case some.some ev ev' =>
      obtain ⟨hseen, hon, rfl, hpass⟩ := hnext
      have hrest := ih hon fun t ht => hfit t (hpass.trans ht)
      have hcons : (s'.whole doc).consumed = s'.consumed := by simp [whole, consumed]
      simp only [observed, Prod.mk.injEq] at hrest
      simp [observed, hseen, hcons, hrest.1, hrest.2]

theorem tokenLeaf_ne_ws {s : Scanner} (h : s.tokenLeaf c = some kind) : kind ≠ .ws := by
  rintro rfl
  unfold tokenLeaf valueLeaf keyLeaf at h
  grind

theorem fits_of_length {s : Scanner} (h : s.json.length < 2 ^ 31) : s.Fits := by
  intro sp gap c kind span p _ hc hk hleaf
  have hin : s.pos + gap < s.json.length := by
    by_contra hout
    rw [drop_eq_nil_of_le (by omega)] at hc
    cases hc
  obtain ⟨hp, hspan⟩ := leaf_ok_bounds hleaf
  obtain ⟨-, hle⟩ := hspan (tokenLeaf_ne_ws hk)
  rw [length_drop] at hp
  omega

/-- The scanner over a short document passes through states over that document. -/
theorem passes_whole {doc : List UInt8} (hlen : doc.length < 2 ^ 31) {s : Scanner} (h : On doc s)
    (hp : Passes (s.whole doc) t) : ∃ s', On doc s' ∧ t = s'.whole doc := by
  induction hp with
  | start => exact ⟨s, h, rfl⟩
  | event _ ht ih =>
    obtain ⟨s', hon, rfl⟩ := ih
    have hturn := turn_agree hon (fits_of_length (show (s'.whole doc).json.length < 2 ^ 31 from hlen))
    rw [ht] at hturn
    cases hs : s'.turn with
    | event ev s'' =>
      rw [hs] at hturn
      exact ⟨s'', hturn.2.1, hturn.2.2⟩
    | again s'' | stop s'' => rw [hs] at hturn; exact hturn.elim
  | again _ ht ih =>
    obtain ⟨s', hon, rfl⟩ := ih
    have hturn := turn_agree hon (fits_of_length (show (s'.whole doc).json.length < 2 ^ 31 from hlen))
    rw [ht] at hturn
    cases hs : s'.turn with
    | again s'' =>
      rw [hs] at hturn
      exact ⟨s'', hturn.1, hturn.2⟩
    | event ev s'' | stop s'' => rw [hs] at hturn; exact hturn.elim

theorem init_pull_on {doc : List UInt8} {flags : AxlJsonFlags}
    (hmode : ¬ utf8Of flags = utf8Mask) (sizes : Nat → Nat) :
    On doc (init (.pull ⟨doc, sizes, fun _ => none, 0⟩) flags).2 ∧
      (init (.view doc) flags).2
        = (init (.pull ⟨doc, sizes, fun _ => none, 0⟩) flags).2.whole doc := by
  simp only [init, if_neg hmode]
  refine ⟨⟨[], ?_⟩, rfl⟩
  constructor <;> simp [ahead, zeroed, atEof, lineColOver]

variable {flags : AxlJsonFlags}

theorem init_accepts {input : Input} :
    (init input flags).1 = true ↔ ¬ utf8Of flags = utf8Mask := by
  unfold init
  split
  · simp_all
  · cases input <;> simp_all

/-- No token of a document of fewer than 2^31 bytes ends too far. -/
theorem init_fits {doc : List UInt8} (hlen : doc.length < 2 ^ 31)
    (haccept : (init (.view doc) flags).1 = true) {s : Scanner}
    (hp : Passes (init (.view doc) flags).2 s) : s.Fits := by
  obtain ⟨hon, hview⟩ := @init_pull_on doc flags (init_accepts.mp haccept) fun _ => 1
  rw [hview] at hp
  obtain ⟨s', -, rfl⟩ := passes_whole hlen hon hp
  exact fits_of_length hlen

/-- **Chunking independence**: a scan of `doc` through a pull source, whatever
its reads deliver, shows the events and the error of a scan of the same bytes as
one view, in every run whose turns read tokens that end below offset 2^31. -/
theorem drain_chunking_independent (doc : List UInt8) (flags : AxlJsonFlags) (sizes : Nat → Nat)
    (haccept : (init (.view doc) flags).1 = true)
    (hfit : ∀ s, Passes (init (.view doc) flags).2 s → s.Fits) (n : Nat) :
    (init (.pull ⟨doc, sizes, fun _ => none, 0⟩) flags).1 = true ∧
      observed (drain n (init (.pull ⟨doc, sizes, fun _ => none, 0⟩) flags).2)
        = observed (drain n (init (.view doc) flags).2) := by
  have hmode := init_accepts.mp haccept
  obtain ⟨hon, hview⟩ := @init_pull_on doc flags hmode sizes
  refine ⟨init_accepts.mpr hmode, ?_⟩
  rw [hview] at hfit ⊢
  exact drain_agree n hon hfit

/-- `[-1e2]` byte by byte. -/
theorem drain_chunking_independent_bytewise :
    (init (.view [0x5B, 0x2D, 0x31, 0x65, 0x32, 0x5D]) strict).1 = true ∧
      observed (drain 4 (init
        (.pull ⟨[0x5B, 0x2D, 0x31, 0x65, 0x32, 0x5D], fun _ => 1, fun _ => none, 0⟩) strict).2)
        = observed (drain 4 (init (.view [0x5B, 0x2D, 0x31, 0x65, 0x32, 0x5D]) strict).2) :=
  ⟨by decide, (drain_chunking_independent _ strict (fun _ => 1) (by decide)
    (fun _ => init_fits (by decide) (by decide)) 4).2⟩

/-! ## A token behind 2^31 bytes of whitespace -/

/-- The window has not grown beyond its first size. -/
def Small (s : Scanner) : Prop :=
  (s.bufCap = 0 ∧ s.json = []) ∨ (s.bufCap = windowMin ∧ s.json.length ≤ windowMin)

theorem fillLoop_bufCap {fuel : Nat} {s : Scanner} (h : fillLoop fuel s = (true, s'))
    (hfit : s.json.length ≤ s.bufCap) :
    s'.bufCap = s.bufCap ∧ s'.json.length ≤ s'.bufCap := by
  induction fuel generalizing s with
  | zero =>
    cases h
    exact ⟨rfl, hfit⟩
  | succ fuel ih =>
    rw [fillLoop] at h
    split at h
    · cases h
      exact ⟨rfl, hfit⟩
    · split at h
      case isFalse =>
        cases h
        exact ⟨rfl, hfit⟩
      case isTrue hroom =>
        split at h
        · cases h
        · cases h
          exact ⟨rfl, hfit⟩
        · rename_i src bs src' _ hread
          have hle : bs.length ≤ s.bufCap - s.json.length := by
            unfold PullSource.read at hread
            split at hread
            · cases hread
            · simp only [Prod.mk.injEq, Except.ok.injEq] at hread
              rw [← hread.1, length_take]
              omega
          have := ih h (by
            simp only [length_append]
            omega)
          exact this

/-- A refill that keeps less than a window does not grow it. -/
theorem Small.refill {s : Scanner} (h : s.Small) (hkeep : (s.json.drop s.pos).length < windowMin)
    (hr : s.refill = (true, s')) : s'.Small := by
  have hcompact : s.compact.bufCap = s.bufCap ∧ s.compact.json = s.json.drop s.pos := by
    unfold compact
    split
    · exact ⟨rfl, rfl⟩
    · rw [show s.pos = 0 by omega]
      exact ⟨rfl, rfl⟩
  have hgrow : s.compact.grow.bufCap = windowMin ∧ s.compact.grow.json.length < windowMin := by
    unfold grow
    rw [hcompact.1, hcompact.2]
    rcases h with ⟨hcap, hnil⟩ | ⟨hcap, -⟩
    · rw [if_pos (by omega), if_pos hcap]
      exact ⟨rfl, hkeep⟩
    · rw [if_neg (by omega)]
      exact ⟨by rw [hcompact.1, hcap], by rw [hcompact.2]; exact hkeep⟩
  rw [Scanner.refill] at hr
  split at hr
  · cases hr
  · dsimp only at hr
    split at hr
    · cases hr
    · rename_i s'' hfill
      obtain ⟨-, rfl⟩ := Prod.mk.inj hr
      obtain ⟨hcap, hlen⟩ := fillLoop_bufCap hfill (by omega)
      exact .inr ⟨by omega, by omega⟩

theorem skipWsLoop_blank {w : List UInt8} {pos : Nat} {e : LexError} {r : Nat}
    (hw : ∀ c ∈ w, c = 0x20 ∨ c = 0x22) (h : skipWsLoop flags false .between w pos pos = .fail e r)
    : r = pos + w.length := by
  induction w generalizing pos with
  | nil =>
    simp only [skipWsLoop] at h
    cases h
    rfl
  | cons c w ih =>
    rcases hw c (by simp) with rfl | rfl
    · rw [skipWsLoop_space ⟨by decide, fun h => absurd h (by decide)⟩] at h
      have := ih (fun c hc => hw c (by simp [hc])) h
      simp only [length_cons]
      omega
    · rw [skipWsLoop_stop (by decide) (by decide)] at h
      cases h

/-- A leaf keeps the window small where every refill keeps less than a window. -/
theorem leafRun_small {doc : List UInt8} {kind : LeafKind} {fuel : Nat} {s : Scanner}
    (h : On doc s) (hs : s.Small)
    (hkeep : ∀ (t : Scanner) e r, On doc t → t.flags = s.flags → s.consumed ≤ t.consumed →
      leaf t.flags kind false (t.json.drop t.pos) = .fail e r →
      (t.json.drop (t.pos + r)).length < windowMin ∧ t.pos + r ≤ t.json.length) :
    (leafRun kind fuel s).2.Small := by
  induction fuel generalizing s with
  | zero => exact hs
  | succ fuel ih =>
    rw [leafRun]
    split
    · exact hs
    · rename_i e r hleaf
      split
      · cases he : s.atEof with
        | true =>
          have he' : ({ s with pos := s.pos + r } : Scanner).atEof = true := he
          rw [refill_eof he']
          exact hs
        | false =>
          rw [he] at hleaf
          obtain ⟨hless, hpos⟩ := hkeep s e r h rfl le_rfl hleaf
          obtain ⟨gone, hw⟩ := h
          have hmove : Window doc { s with pos := s.pos + r } gone :=
            ⟨hw.split, hw.base, hw.lines, hw.eof, hw.healthy, hpos, hw.room⟩
          obtain ⟨s', href, hon, hctl, hcons, -⟩ := refill_window hmove he
          have hmoved : ({ s with pos := s.pos + r } : Scanner).Small := hs
          have hsmall := hmoved.refill hless href
          have hflags : s'.flags = s.flags := congrArg Control.flags hctl
          have hle : s.consumed ≤ s'.consumed := by
            rw [hcons]
            simp only [consumed]
            omega
          rw [href]
          exact ih hon hsmall fun t e r ht hf hc => hkeep t e r ht (hf.trans hflags) (hle.trans hc)
      · exact hs

/-- `n` spaces and an empty string. -/
def farString (n : Nat) : List UInt8 := List.replicate n 0x20 ++ [0x22, 0x22]

theorem farString_gap (flags : AxlJsonFlags) (n : Nat) : Gap flags (List.replicate n 0x20) := by
  induction n with
  | zero => exact .nil
  | succ n ih => exact .space ⟨by decide, fun h => absurd h (by decide)⟩ ih

theorem farString_bytes {n : Nat} (h : c ∈ farString n) : c = 0x20 ∨ c = 0x22 := by
  simp only [farString, mem_append, mem_replicate, mem_cons, not_mem_nil,
    or_false] at h
  rcases h with ⟨-, rfl⟩ | rfl | rfl <;> simp

theorem Window.json_subset {doc gone : List UInt8} {s : Scanner} (h : Window doc s gone)
    (hc : c ∈ s.json) : c ∈ doc := by
  rw [h.split]
  simp [hc]

/-- What a leaf that succeeds on a scanner over a view or a small window keeps. -/
def Kept (s s' : Scanner) : Prop :=
  (s.Small → s'.Small) ∧ (s.src = none → s'.src = none ∧ s'.base = s.base)

theorem runLeaf_kept {doc : List UInt8} {s : Scanner} (h : On doc s)
    (hrun : s.runLeaf kind = (some sp, s'))
    (hkeep : ∀ (t : Scanner) e r, On doc t → t.flags = s.flags → s.consumed ≤ t.consumed →
      leaf t.flags kind false (t.json.drop t.pos) = .fail e r →
      (t.json.drop (t.pos + r)).length < windowMin ∧ t.pos + r ≤ t.json.length) : Kept s s' := by
  constructor
  · intro hs
    have hsmall := @leafRun_small doc kind s.turns s h hs hkeep
    rwa [show leafRun kind s.turns s = _ from hrun] at hsmall
  · intro hsrc
    rw [runLeaf_view hsrc hrun]
    exact ⟨hsrc, rfl⟩

theorem farString_ws_kept {n : Nat} {s : Scanner} (h : On (farString n) s)
    (hrun : s.runLeaf .ws = (some sp, s')) : Kept s s' := by
  refine runLeaf_kept h hrun fun t e r ht _ _ hleaf => ?_
  obtain ⟨gone, hw⟩ := ht
  have hcur := hw.cursor
  have hbytes : ∀ c ∈ t.json.drop t.pos, c = 0x20 ∨ c = 0x22 := fun c hc =>
    farString_bytes (hw.json_subset (mem_of_mem_drop hc))
  have hr : r = (t.json.drop t.pos).length := by simpa using skipWsLoop_blank hbytes hleaf
  rw [length_drop] at hr
  simp only [length_drop, windowMin]
  omega

theorem farString_string_kept {n : Nat} {s : Scanner} (h : On (farString n) s) (hn : s.consumed = n)
    (hrun : s.runLeaf (.string 0x22) = (some sp, s')) : Kept s s' := by
  refine runLeaf_kept h hrun fun t e r ht _ hc hleaf => ?_
  obtain rfl := leaf_fail_resume (by simp) hleaf
  obtain ⟨gone, hw⟩ := ht
  have hcur := hw.cursor
  have hlen := congrArg List.length hw.drop
  simp only [length_drop, length_append, farString, length_replicate,
    length_cons, length_nil] at hlen
  simp only [length_drop, windowMin, Nat.add_zero]
  omega

/-- The first turn over `farString` emits the string, at its place in the window. -/
theorem farString_turn {n : Nat} {s : Scanner} (h : On (farString n) s) (hpos : s.consumed = 0)
    (hstate : s.state = .valueRoot) :
    ∃ (sp : Nat × Nat) (s' : Scanner), s.turn = .event (s'.textEvent .string sp n) s'.afterValue ∧
      s'.depth = s.depth ∧ s'.base + sp.1 = n + 1 ∧ s'.base + sp.2 = n + 1 ∧ s'.consumed = n + 2 ∧
      sp.2 ≤ s'.json.length ∧ Kept s s' := by
  have hgap : leaf s.flags .ws true ((farString n).drop s.consumed) = .ok (0, 0) n := by
    rw [hpos, drop_zero]
    have hstops : Stops [0x22, 0x22] := by
      intro c hc
      obtain rfl := Option.some.inj hc
      decide
    have := skipWs_gap (farString_gap s.flags n) hstops
    rwa [length_replicate] at this
  have hws := runLeaf_ran h .ws
  rw [hgap] at hws
  rw [turn, if_neg (by simp [hstate])]
  cases hrun : s.runLeaf .ws with
  | mk sp₁ s₁ =>
  rw [hrun] at hws
  cases sp₁ with
  | none => exact hws.elim
  | some sp₁ =>
  obtain ⟨hon₁, hctl₁, hpos₁, hend, -⟩ := hws
  have hkept₁ := farString_ws_kept h hrun
  rw [hpos, Nat.zero_add] at hpos₁
  obtain ⟨gone, hw₁⟩ := hon₁
  have hrest : (farString n).drop s₁.consumed = [0x22, 0x22] := by
    rw [hpos₁, farString, drop_append_of_le_length (by simp)]
    simp
  simp only [control, Control.mk.injEq] at hctl₁
  obtain ⟨hflags, hdepth, -, hst, -⟩ := hctl₁
  have hhere : ∃ cs, s₁.json.drop s₁.pos = 0x22 :: cs := by
    have hsplit := hw₁.drop
    rw [hrest] at hsplit
    cases hd : s₁.json.drop s₁.pos with
    | nil =>
      rw [hd, hend rfl hd] at hsplit
      cases hsplit
    | cons c cs =>
      rw [hd] at hsplit
      rw [(List.cons.inj hsplit).1]
      exact ⟨cs, rfl⟩
  obtain ⟨cs, hhere⟩ := hhere
  have hstr := runLeaf_ran ⟨gone, hw₁⟩ (.string 0x22)
  have hleaf : leaf s₁.flags (.string 0x22) true [0x22, 0x22] = .ok (1, 1) 2 := by
    have hnil : StrBody s₁.flags 0x22 [] := .nil
    simpa [leaf] using parseString_complete (r := []) hnil (by decide)
  rw [hrest, hleaf] at hstr
  have hdisp : s₁.dispatch 0x22 = s₁.leafValue (.string 0x22) fun _ _ => .string := by
    simp [dispatch, hst, hstate, scanValue]
  dsimp only
  rw [hhere]
  dsimp only
  rw [hdisp, leafValue]
  cases hrun₂ : s₁.runLeaf (.string 0x22) with
  | mk sp₂ s₂ =>
  rw [hrun₂] at hstr
  cases sp₂ with
  | none => exact hstr.elim
  | some sp₂ =>
  obtain ⟨hon₂, hctl₂, hpos₂, -, hspan⟩ := hstr
  obtain ⟨h₁, h₂, hin⟩ := hspan (by simp)
  have hkept₂ := farString_string_kept ⟨gone, hw₁⟩ hpos₁ hrun₂
  have hdepth₂ : s₂.depth = s₁.depth := congrArg Control.depth hctl₂
  have hcur := hon₂.choose_spec.cursor
  refine ⟨sp₂, s₂, ?_, hdepth₂.trans hdepth, by omega, by omega, by omega, by omega, ?_⟩
  · rw [show s₁.base + s₁.pos = n from hpos₁]
  · refine ⟨fun hs => hkept₂.1 (hkept₁.1 hs), fun hs => ?_⟩
    obtain ⟨hs₁, hb₁⟩ := hkept₁.2 hs
    obtain ⟨hs₂, hb₂⟩ := hkept₂.2 hs₁
    exact ⟨hs₂, hb₂.trans hb₁⟩

theorem next_of_turn {s : Scanner} {ev : Event} (hd : s.done = false) (ht : s.turn = .event ev s') :
    drain 1 s = ([(ev, s'.consumed)], s') := by
  have hnext : s.next = (some ev, s') := by
    simp [next, hd, nextLoop, ht]
  simp [drain, hnext]

/-- An empty string behind 2^31 spaces: the scan through a window finds its text,
the scan over one view points before the document. -/
theorem drain_far_string_differs :
    (init (.view (farString (2 ^ 31))) strict).1 = true ∧
      observed (drain 1 (init
        (.pull ⟨farString (2 ^ 31), fun _ => 1024, fun _ => none, 0⟩) strict).2)
        ≠ observed (drain 1 (init (.view (farString (2 ^ 31))) strict).2) := by
  have hmode : ¬ utf8Of strict = utf8Mask := by decide
  obtain ⟨hon, hview⟩ := @init_pull_on (farString (2 ^ 31)) strict hmode fun _ => 1024
  refine ⟨init_accepts.mpr hmode, ?_⟩
  obtain ⟨sp, s', hturn, -, h₁, h₂, -, hin, hkept⟩ := farString_turn hon
    (by simp [init, hmode, zeroed, consumed]) (by simp [init, hmode, zeroed])
  obtain ⟨sp', c', hturn', -, h₁', h₂', -, -, hkept'⟩ := farString_turn hon.whole
    (by simp [init, hmode, zeroed, consumed, whole]) (by simp [init, hmode, zeroed, whole])
  have hbase : c'.base = 0 := (hkept'.2 rfl).2
  have hsmall : s'.json.length ≤ windowMin := by
    rcases hkept.1 (.inl (by simp [init, hmode, zeroed])) with ⟨-, hnil⟩ | ⟨-, hle⟩
    · simp [hnil]
    · exact hle
  rw [hview, next_of_turn (by simp [init, hmode, zeroed]) hturn,
    next_of_turn (by simp [init, hmode, zeroed, whole]) hturn']
  have heq : sp.1 = sp.2 := by omega
  have htext : (s'.textEvent .string sp (2 ^ 31)).text = .bytes [] := by
    have hlt : sp.1 < 2 ^ 31 := by
      rw [windowMin] at hsmall
      omega
    have hzero : toSize 0 = 0 := by decide
    simp only [textEvent, ← heq, Int.sub_self, textAt, hzero, toInt32_of_lt hlt, Int.toNat_natCast]
    rw [if_pos ⟨by omega, by omega⟩, take_zero]
  have hwild : (c'.textEvent .string sp' (2 ^ 31)).text = .wild := by
    rw [show sp' = (2 ^ 31 + 1, 2 ^ 31 + 1) from Prod.ext (by omega) (by omega)]
    rfl
  intro hsame
  simp only [observed, seen, map_cons, map_nil, Prod.mk.injEq, List.cons.injEq] at hsame
  have hboth := htext.symm.trans (hsame.1.1.1.2.1.trans hwild)
  cases hboth

end Scanner

end Json

end AxlSdk
