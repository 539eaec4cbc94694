import AxlSdk.Json.Grammar

/-!
# The language of the parser

`axl_json_parse` accepts a text exactly when it is a gap, a syntax tree of the
dialect's lexicon whose containers nest no deeper than the limit, and a gap; its
tokens are then the preorder listing of the tree.

- `next_sound` and `next_complete`: an event of the scanner and the moves to it.
- `parseLoop_sound` and `parseLoop_complete`: the loop and a path to the end of
  the document.
- `parse_ok_iff`: the language, without a policy over the finished document.
-/

namespace AxlSdk

namespace Json

open JsonSyntax Scanner

variable {flags : AxlJsonFlags} {max : Nat}

/-! ## Moves take bytes -/

theorem leaf_text_ne {l : Leaf} (h : ValueLeaf flags l ∨ KeyLeaf flags l) : 0 < l.text.length := by
  rcases h with h | h
  · cases h with
    | str => simp [Leaf.text]
    | number ht =>
      obtain ⟨c, cs, rfl, -⟩ := numberText_head ht
      simp [Leaf.text]
    | word ht =>
      obtain ⟨c, cs, rfl, -⟩ := wordText_head ht
      simp [Leaf.text]
  · cases h with
    | str => simp [Leaf.text]
    | ident _ ht =>
      obtain ⟨c, cs, rfl, -⟩ := identText_head ht
      simp [Leaf.text]

variable {m m' : Place}

theorem Move.takes {mk : Option Mark} (h : Move flags max m mk m') :
    m'.rest.length < m.rest.length := by
  cases h with
  | value hst hg hv =>
    cases hv with
    | leaf hl r =>
      have := leaf_text_ne (.inl hl)
      simp only [List.length_append]
      omega
    | opens a hd r =>
      simp only [List.length_append, List.length_cons]
      omega
  | key hst hg hk r =>
    have := leaf_text_ne (.inr hk)
    simp only [List.length_append]
    omega
  | colon hg r | comma hg r | close hst hg r =>
    simp only [List.length_append, List.length_cons]
    omega

/-- The mark of a move lies before the place behind it. -/
theorem Move.short {mk : Mark} (h : Move flags max m (some mk) m') (hm : m'.pos < 2 ^ 31) :
    Builder.ShortMark mk := by
  generalize hmk : some mk = mk' at h
  cases h with
  | value hst hg hv =>
    cases hmk
    cases hv with
    | @leaf l hl r =>
      obtain ⟨h₁, h₂⟩ := span_bounds l (_ + _)
      exact ⟨h₁, by simp only at hm; omega⟩
    | opens a hd r =>
      simp only [Builder.ShortMark] at hm ⊢
      omega
  | @key st kinds pos g k hst hg hk r =>
    cases hmk
    obtain ⟨h₁, h₂⟩ := span_bounds k (pos + g.length)
    exact ⟨h₁, by simp only at hm; omega⟩
  | colon | comma => cases hmk
  | close hst hg r =>
    cases hmk
    simp only [Builder.ShortMark] at hm ⊢
    omega

variable {s : Scanner}

theorem Scanner.Sits.pos_lt (h : Sits flags max s m) : m.pos < 2 ^ 31 := by
  have := h.cursor
  have := h.short
  have := h.pos
  omega

/-- The state behind a separator: it takes a value or a key. -/
theorem Move.separator (h : Move flags max m none m') :
    m'.state = .value ∨ m'.state = .objKey := by
  generalize hmk : (none : Option Mark) = mk' at h
  cases h with
  | value | key | close => cases hmk
  | colon => exact .inl rfl
  | @comma a => cases a <;> simp [nextState]

/-- A separator is not followed by a separator. -/
theorem Move.marked {mk : Option Mark} (h : Move flags max m mk m')
    (hm : m.state = .value ∨ m.state = .objKey) : ∃ k, mk = some k := by
  cases h with
  | value | key | close => exact ⟨_, rfl⟩
  | colon | comma => simp at hm

variable {E : Place} {mks : List Mark}

/-- No move leads on from the end of a document. -/
theorem Path.of_rootDone {fol : Prop} (h : Path flags max fol m mks E) (hm : m.state = .rootDone) :
    mks = [] ∧ m = E := by
  cases h with
  | nil => exact ⟨rfl, rfl⟩
  | cons hmv _ _ =>
    exfalso
    cases hmv with
    | value hst => simp only at hm; simp [TakesValue, hm] at hst
    | key hst => simp only at hm; simp [hm] at hst
    | colon | comma => cases hm
    | @close a st _ _ _ hst =>
      simp only at hm
      cases a <;> simp [MayClose, firstState, nextState, hm] at hst

/-! ## Events -/

/-- An event of the scanner is the mark of a path of one or two moves. -/
theorem next_sound {s' : Scanner} {ev : Event} (h : Sits flags max s m) (hm : m.Ok)
    (hst : m.state ≠ .rootDone) (hn : s.next = (some ev, s')) :
    ∃ mk m', Path flags max False m [mk] m' ∧ Sits flags max s' m' ∧ m'.Ok ∧ Matches ev mk ∧
      Builder.ShortMark mk := by
  rw [next, h.clean.1, if_neg (by simp), nextLoop] at hn
  have hmoved := turn_sound h hm hst
  cases hturn : s.turn with
  | stop s₁ => simp [hturn] at hn
  | event ev₁ s₁ =>
    rw [hturn] at hn hmoved
    cases hn
    obtain ⟨mk, m', hmv, hs', hev⟩ := hmoved
    exact ⟨mk, m', Path.single hmv False.elim, hs', hmv.ok hm, hev, hmv.short hs'.pos_lt⟩
  | again s₁ =>
    rw [hturn] at hn hmoved
    obtain ⟨m₁, hmv₁, hs₁⟩ := hmoved
    have hst₁ : m₁.state ≠ .rootDone := by
      rcases hmv₁.separator with h | h <;> simp [h]
    have hmoved₁ := turn_sound hs₁ (hmv₁.ok hm) hst₁
    simp only [nextLoop] at hn
    cases hturn₁ : s₁.turn with
    | stop s₂ | again s₂ => simp [hturn₁] at hn
    | event ev₂ s₂ =>
      rw [hturn₁] at hn hmoved₁
      cases hn
      obtain ⟨mk, m', hmv, hs', hev⟩ := hmoved₁
      exact ⟨mk, m', (Path.single hmv₁ False.elim).trans (Path.single hmv False.elim), hs',
        hmv.ok (hmv₁.ok hm), hev, hmv.short hs'.pos_lt⟩

/-- The next event on a path to the end of the document. -/
theorem next_complete (h : Sits flags max s m) (hE : E.state = .rootDone)
    (hst : m.state ≠ .rootDone) (hp : Path flags max True m mks E) :
    ∃ ev s' mk mks' m', s.next = (some ev, s') ∧ mks = mk :: mks' ∧ Sits flags max s' m' ∧
      Path flags max True m' mks' E ∧ Matches ev mk ∧ Builder.ShortMark mk ∧
      m'.rest.length < m.rest.length := by
  rw [next, h.clean.1, if_neg (by simp), nextLoop]
  cases hp with
  | nil => exact absurd hE hst
  | @cons _ m₁ _ mk₁ mks₁ hmv hf hp =>
    have hmakes := turn_complete h hmv (hf trivial)
    cases hturn : s.turn with
    | stop s₁ => rw [hturn] at hmakes; exact hmakes.elim
    | event ev s₁ =>
      rw [hturn] at hmakes
      obtain ⟨mk, rfl, hev, hs₁⟩ := hmakes
      exact ⟨ev, s₁, mk, mks₁, m₁, rfl, rfl, hs₁, hp, hev, hmv.short hs₁.pos_lt, hmv.takes⟩
    | again s₁ =>
      rw [hturn] at hmakes
      obtain ⟨rfl, hs₁⟩ := hmakes
      have hsep := hmv.separator
      cases hp with
      | nil => rcases hsep with h | h <;> rw [h] at hE <;> cases hE
      | @cons _ m₂ _ mk₂ mks₂ hmv₂ hf₂ hp₂ =>
        obtain ⟨mk, rfl⟩ := hmv₂.marked hsep
        have hmakes₂ := turn_complete hs₁ hmv₂ (hf₂ trivial)
        simp only [nextLoop]
        cases hturn₂ : s₁.turn with
        | stop s₂ => rw [hturn₂] at hmakes₂; exact hmakes₂.elim
        | again s₂ => rw [hturn₂] at hmakes₂; cases hmakes₂.1
        | event ev s₂ =>
          rw [hturn₂] at hmakes₂
          obtain ⟨k, hk, hev, hs₂⟩ := hmakes₂
          cases hk
          exact ⟨ev, s₂, mk, mks₂, m₂, rfl, rfl, hs₂, hp₂, hev, hmv₂.short hs₂.pos_lt,
            hmv₂.takes.trans hmv.takes⟩

/-- At the end of a document the scanner says so and starts over. -/
theorem next_eof (h : Sits flags max s m) (hst : m.state = .rootDone) :
    ∃ ev, ev.kind = .eof ∧ s.next = (some ev, { s with state := .valueRoot }) := by
  refine ⟨bareEvent .eof (s.base + s.pos) 0, rfl, ?_⟩
  rw [next, if_neg (by simp [h.clean.1]), nextLoop, turn, if_pos (h.state.trans hst)]

/-! ## The loop -/

theorem parseLoop_sound (fuel : Nat) {s' : Scanner} {b b' : Builder} (h : Sits flags max s m)
    (hm : m.Ok) (hrun : parseLoop fuel s b = (s', b', true)) :
    ∃ mks E s₁, Path flags max False m mks E ∧ E.state = .rootDone ∧ b' = mks.foldl Builder.mark b ∧
      Sits flags max s₁ E ∧ s' = { s₁ with state := .valueRoot } := by
  induction fuel generalizing s m b with
  | zero => simp [parseLoop] at hrun
  | succ fuel ih =>
    rw [parseLoop] at hrun
    by_cases hst : m.state = .rootDone
    · obtain ⟨ev, hev, hn⟩ := next_eof h hst
      rw [hn] at hrun
      simp only [hev, if_true] at hrun
      cases hrun
      exact ⟨[], m, s, .nil m, hst, rfl, h, rfl⟩
    · cases hn : s.next with
      | mk o s₁ =>
        cases o with
        | none => simp [hn] at hrun
        | some ev =>
          obtain ⟨mk, m', hp, hs', hm', hev, hshort⟩ := next_sound h hm hst hn
          obtain ⟨hbuild, hkind⟩ := Builder.event_of_matches (b := b) hev hshort
          rw [hn] at hrun
          simp only [hkind, if_false, hbuild] at hrun
          obtain ⟨mks, E, s₂, hp', hE, rfl, hs₂, rfl⟩ := ih hs' hm' hrun
          exact ⟨mk :: mks, E, s₂, hp.trans hp', hE, rfl, hs₂, rfl⟩

theorem parseLoop_complete (fuel : Nat) (b : Builder) (h : Sits flags max s m)
    (hE : E.state = .rootDone) (hp : Path flags max True m mks E) (hfuel : m.rest.length < fuel) :
    ∃ s₁, Sits flags max s₁ E ∧
      parseLoop fuel s b = ({ s₁ with state := .valueRoot }, mks.foldl Builder.mark b, true) := by
  induction fuel generalizing s m b mks with
  | zero => omega
  | succ fuel ih =>
    by_cases hst : m.state = .rootDone
    · obtain ⟨rfl, rfl⟩ := hp.of_rootDone hst
      obtain ⟨ev, hev, hn⟩ := next_eof h hst
      refine ⟨s, h, ?_⟩
      rw [parseLoop, hn]
      simp [hev]
    · obtain ⟨ev, s', mk, mks', m', hn, rfl, hs', hp', hev, hshort, hlt⟩ :=
        next_complete h hE hst hp
      obtain ⟨hbuild, hkind⟩ := Builder.event_of_matches (b := b) hev hshort
      obtain ⟨s₁, hs₁, hrun⟩ := ih (b.mark mk) hs' hp' (by omega)
      refine ⟨s₁, hs₁, ?_⟩
      rw [parseLoop, hn]
      simp only [hkind, if_false, hbuild, hrun, List.foldl_cons]

/-! ## Documents -/

/-- The text of a document: a gap, a tree of the dialect that nests no deeper
than the limit, and a gap that the end of the input may cut short. -/
structure IsText (flags : AxlJsonFlags) (json lead : List UInt8) (t : Syn .value)
    (tail : List UInt8) : Prop where
  before : Gap flags lead
  valid : t.Valid (lexicon flags)
  depth : t.depth ≤ depthLimit flags
  behind : TailGap flags tail
  text : json = lead ++ (t.render ++ tail)

/-- The code of the first policy that fails. -/
def policyCode (flags : AxlJsonFlags) (json : List UInt8) (toks : List Tok) : ErrorCode :=
  match (if utf8Of flags = utf8Strict then checkUtf8Strict json else none) with
  | some _ => .badUtf8
  | none =>
    match (if allows flags rejectDuplicates then checkDuplicateKeys json toks (utf8Of flags)
      else none) with
    | some e => e.1
    | none => .ok

theorem applyPolicies_code (s : Scanner) (json : List UInt8) (toks : List Tok) :
    (applyPolicies s json flags toks).code = policyCode flags json toks := by
  unfold applyPolicies policyCode
  cases (if utf8Of flags = utf8Strict then checkUtf8Strict json else none) with
  | some pos => rfl
  | none =>
    dsimp only
    cases (if allows flags rejectDuplicates then checkDuplicateKeys json toks (utf8Of flags)
      else none) <;> rfl

/-- Without a policy nothing fails behind the scan. -/
theorem policyCode_of_none (hu : utf8Of flags ≠ utf8Strict)
    (hd : allows flags rejectDuplicates = false) (json : List UInt8) (toks : List Tok) :
    policyCode flags json toks = .ok := by
  simp [policyCode, hu, hd]

/-- The scanner that `axl_json_parse` starts with. -/
def startScanner (json : List UInt8) (flags : AxlJsonFlags) : Scanner :=
  { zeroed with flags := flags, line := 1, column := 1, maxDepth := depthLimit flags, json := json }

theorem init_view (h : utf8Of flags ≠ utf8Mask) (json : List UInt8) :
    Scanner.init (.view json) flags = (true, startScanner json flags) := by
  rw [Scanner.init, if_neg h]
  rfl

variable {json : List UInt8}

theorem startScanner_sits (hlen : json.length < 2 ^ 31) :
    Sits flags (depthLimit flags) (startScanner json flags) ⟨.valueRoot, [], 0, json⟩ :=
  ⟨rfl, rfl, rfl, rfl, rfl, rfl, rfl, Nat.zero_le _, hlen, rfl, fun i h => absurd h (by simp),
    rfl, rfl⟩

/-! ### Failures -/

theorem fail_code_ne (s : Scanner) {code : ErrorCode} (h : code ≠ .ok) (off : Nat)
    (flag : AxlJsonFlags) : (s.fail code off flag).err.code ≠ .ok := by
  unfold fail
  dsimp only
  split
  · exact h
  · assumption

theorem adopt_code_ne (s : Scanner) {e : LexError} (h : e.code ≠ .ok) (off : Nat) :
    (s.adopt off e).err.code ≠ .ok := by
  unfold adopt
  dsimp only
  split
  · dsimp only
    split
    · simp
    · exact h
  · assumption

theorem lexFail_code_ne (eof : Bool) (here : List UInt8) {code : ErrorCode} (h : code ≠ .ok)
    (pos : Nat) (flag : AxlJsonFlags) : (lexFail eof here code pos flag).code ≠ .ok := by
  unfold lexFail
  split
  · simp
  · exact h

theorem skipWsLoop_code_ne {eof : Bool} {mode : WsMode} {s : List UInt8} {pos res r : Nat}
    {e : LexError} (h : skipWsLoop flags eof mode s pos res = .fail e r) : e.code ≠ .ok := by
  fun_induction skipWsLoop flags eof mode s pos res
  all_goals first
    | (rename_i ih; exact ih h)
    | cases h <;> exact lexFail_code_ne _ _ (by simp) _ _

/-- The region behind the document is a gap to the end of the input. -/
theorem finishScan_sound (h : Sits flags max s E)
    (hok : (finishScan { s with state := .valueRoot } true).err.code = .ok) :
    TailGap flags E.rest := by
  have hsrc : ({ s with state := .valueRoot } : Scanner).src = none := h.src
  rcases runLeaf_of_view hsrc .ws with ⟨span, p, hleaf, hrun⟩ | ⟨e, r, s', hleaf, hrun⟩
  · replace hleaf : skipWs s.flags true (s.json.drop s.pos) = .ok span p := hleaf
    rw [h.flags, h.rest] at hleaf
    obtain ⟨g, r, hsplit, rfl, hg⟩ := skipWs_sound hleaf
    obtain ⟨hle, hdrop⟩ := h.advance hsplit rfl
    simp only [finishScan, hrun, Bool.not_true, Bool.false_eq_true, if_false] at hok
    split at hok
    · exact absurd hok (fail_code_ne _ (by simp) _ _)
    · rename_i hend
      have hend : s.pos + g.length = s.json.length := by simpa using hend
      have hr : r = [] := by rw [← hdrop, hend, List.drop_length]
      subst hr
      rw [hsplit, List.append_nil]
      exact hg.elim .gap fun hg => hg.2
  · simp only [finishScan, hrun, Bool.not_true, Bool.false_eq_true, if_false] at hok
    exact absurd hok (adopt_code_ne _ (skipWsLoop_code_ne hleaf) _)

theorem finishScan_complete (h : Sits flags max s E) (ht : TailGap flags E.rest) :
    (finishScan { s with state := .valueRoot } true).err.code = .ok := by
  have hsrc : ({ s with state := .valueRoot } : Scanner).src = none := h.src
  have hskip := skipWs_tail ht
  rw [← h.flags, ← h.rest] at hskip
  rcases runLeaf_of_view hsrc .ws with ⟨span, p, hleaf, hrun⟩ | ⟨e, r, s', hleaf, -⟩
  · have := hskip.symm.trans hleaf
    cases this
    have hend : s.pos + (s.json.drop s.pos).length = s.json.length := by
      have := h.cursor
      rw [List.length_drop]
      omega
    simp only [finishScan, hrun, Bool.not_true, Bool.false_eq_true, if_false, hend, ne_eq,
      not_true_eq_false]
    rw [h.clean.2]
    rfl
  · have := hskip.symm.trans hleaf
    cases this

/-- The scan of an accepted text. -/
theorem scan_sound (hlen : json.length < 2 ^ 31) {fuel : Nat} {b : Builder} {done : Bool}
    (hrun : parseLoop fuel (startScanner json flags) .empty = (s, b, done))
    (hok : (finishScan s done).err.code = .ok) :
    ∃ lead t tail, IsText flags json lead t tail ∧ b.tokens = tokens lead.length t := by
  cases done with
  | false =>
    -- the loop stopped before the end of a document
    exfalso
    simp only [finishScan, Bool.not_false, if_true] at hok
    split at hok
    · exact absurd hok (fail_code_ne _ (by simp) _ _)
    · contradiction
  | true =>
    obtain ⟨mks, E, s₁, hp, hE, rfl, hs₁, rfl⟩ :=
      parseLoop_sound fuel (startScanner_sits hlen) rfl hrun
    have htail := finishScan_sound hs₁ hok
    obtain ⟨mk, m₁, mks', hmove, hp', rfl⟩ := hp.step hE (by simp)
    generalize hm₀ : (⟨.valueRoot, [], 0, json⟩ : Place) = m₀ at hmove
    cases hmove with
    | key hst => cases hm₀; simp at hst
    | colon | comma | close => cases hm₀
    | @value st kinds pos lead r mk m' hst hg hv =>
      cases hm₀
      obtain ⟨t, tail, mks₂, rfl, ht, hd, hmks, hpt⟩ :=
        (syn_of_path hE r.length).1 _ _ _ _ _ _ le_rfl (Nat.zero_le _) hv hp'
      obtain ⟨rfl, rfl⟩ := hpt.of_rootDone (by simp [afterState])
      refine ⟨lead, t, tail, ⟨hg, ht, by simpa using hd, htail, rfl⟩, ?_⟩
      rw [Option.toList_some, List.singleton_append, hmks, List.append_nil,
        Builder.built (0 + lead.length) t, Nat.zero_add]
      rfl

/-- The gap behind a document delimits its last token. -/
theorem delim_tail {tail : List UInt8} (h : TailGap flags tail) : Delim tail := by
  have hnil : Delim [] := fun c hc => by simp at hc
  cases h with
  | gap hg => simpa using delim_gap hg hnil
  | line hg _ _ => exact delim_gap hg (delim_byte (by decide) _)

theorem scan_complete {lead tail : List UInt8} {t : Syn .value} (h : IsText flags json lead t tail)
    (hlen : json.length < 2 ^ 31) :
    ∃ s b, parseLoop (json.length + 2) (startScanner json flags) .empty = (s, b, true) ∧
      b.tokens = tokens lead.length t ∧ (finishScan s true).err.code = .ok := by
  have hdelim : Delim tail := delim_tail h.behind
  have hpath := @path_of_syn flags (depthLimit flags) _ t h.valid .valueRoot [] 0 lead tail
    (.inl rfl) h.before hdelim (by simpa using h.depth)
  rw [← h.text] at hpath
  obtain ⟨s₁, hs₁, hrun⟩ := parseLoop_complete (json.length + 2) .empty (startScanner_sits hlen)
    (by simp [afterState]) hpath (by simp)
  refine ⟨_, _, hrun, ?_, finishScan_complete hs₁ h.behind⟩
  rw [Builder.built (0 + lead.length) t, Nat.zero_add]
  rfl

theorem render_ne_nil {t : Syn .value} (h : t.Valid (lexicon flags)) :
    ∃ c cs, t.render = c :: cs := by
  cases t with
  | leaf l => exact List.exists_cons_of_length_pos (leaf_text_ne (.inl h))
  | empty a g => exact ⟨_, _, rfl⟩
  | node a h v r => exact ⟨_, _, rfl⟩

/-- **The language of the parser**, with the tokens of an accepted text. -/
theorem parse_ok_iff (hmode : utf8Of flags ≠ utf8Mask) (hlen : json.length < 2 ^ 31) (rd : Reader) :
    parse json flags = .ok rd ↔ ∃ lead t tail, IsText flags json lead t tail ∧
      rd = ⟨json, tokens lead.length t, utf8Of flags⟩ ∧
      policyCode flags json (tokens lead.length t) = .ok := by
  constructor
  · intro h
    rw [parse] at h
    split at h
    · cases h
    · rw [parseInternal, init_view hmode] at h
      dsimp only at h
      generalize hrun : parseLoop _ _ _ = res at h
      obtain ⟨s, b, done⟩ := res
      dsimp only at h
      by_cases hok : (finishScan s done).err.code = .ok
      · rw [if_pos hok, applyPolicies_code] at h
        split at h
        · rename_i hpol
          cases h
          obtain ⟨lead, t, tail, htext, htoks⟩ := scan_sound hlen hrun hok
          exact ⟨lead, t, tail, htext, by rw [htoks], by rw [← htoks]; exact hpol⟩
        · cases h
      · rw [if_neg hok, if_neg hok] at h
        cases h
  · rintro ⟨lead, t, tail, htext, rfl, hpol⟩
    obtain ⟨s, b, hrun, htoks, hok⟩ := scan_complete htext hlen
    have hne : json ≠ [] := by
      rintro rfl
      obtain ⟨c, cs, hc⟩ := render_ne_nil htext.valid
      have := htext.text
      simp [hc] at this
    rw [parse, if_neg hne, parseInternal, init_view hmode]
    dsimp only
    rw [hrun]
    dsimp only
    rw [if_pos hok, htoks, applyPolicies_code, if_pos hpol]

/-- An accepted document has a byte, and the flags no reserved mode. -/
theorem parse_ready {rd : Reader} (h : parse json flags = .ok rd) :
    json ≠ [] ∧ utf8Of flags ≠ utf8Mask := by
  rw [parse] at h
  split at h
  case isTrue => cases h
  case isFalse hne =>
    refine ⟨hne, fun hmask => ?_⟩
    rw [parseInternal, Scanner.init, if_pos hmask] at h
    cases h

end Json

end AxlSdk
