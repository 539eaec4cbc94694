import AxlSdk.Json.Leaves
import AxlSdk.Json.Parse
import AxlSdk.Lib.JsonSyntax

/-!
# The moves of the scanner

A scanner over one view is at a `Place`: its state, the open containers as a
list, the cursor and the unread bytes. `Move` says what one successful turn of
the scanner loop can do, as a relation on places: it skips a gap and takes a
value, a key, a separator or a closing bracket.

- `turn_sound`: every turn that does not stop is a move.
- `turn_complete`: every move is made, if what follows a word or a number does
  not continue it.
-/

namespace AxlSdk

namespace Json

open JsonSyntax List

/-! ## The lexicon of a dialect -/

/-- A quote that the flags allow. -/
def QuoteOk (flags : AxlJsonFlags) (q : UInt8) : Prop :=
  q = 0x22 ∨ (q = 0x27 ∧ allows flags allowSingleQuotes = true)

/-- A leaf in the place of a value. -/
inductive ValueLeaf (flags : AxlJsonFlags) : Leaf → Prop where
  | str {q : UInt8} {b : List UInt8} (hq : QuoteOk flags q) (hb : StrBody flags q b) :
      ValueLeaf flags (.str q b)
  | number {t : List UInt8} (ht : NumberText flags t) : ValueLeaf flags (.prim t)
  | word {t : List UInt8} (ht : WordText flags t) : ValueLeaf flags (.prim t)

/-- A leaf in the place of a key. -/
inductive KeyLeaf (flags : AxlJsonFlags) : Leaf → Prop where
  | str {q : UInt8} {b : List UInt8} (hq : QuoteOk flags q) (hb : StrBody flags q b) :
      KeyLeaf flags (.str q b)
  | ident {t : List UInt8} (hf : allows flags allowUnquotedKeys = true) (ht : IdentText t) :
      KeyLeaf flags (.prim t)

/-- The lexicon that a flags word selects. -/
def lexicon (flags : AxlJsonFlags) : Lexicon where
  gap := Gap flags
  value := ValueLeaf flags
  key := KeyLeaf flags
  trailingComma := allows flags allowTrailingComma = true

/-! ## Places and moves -/

/-- Where a scan stands; `kinds` are the open containers, innermost first. -/
structure Place where
  state : ScanState
  kinds : List Bool
  pos : Nat
  rest : List UInt8

/-- The state behind a value. -/
def afterState (kinds : List Bool) : ScanState := if kinds = [] then .rootDone else .after

/-- The state behind an opening bracket. -/
def firstState (isArray : Bool) : ScanState := if isArray then .arrFirst else .objFirst

/-- The state behind a comma. -/
def nextState (isArray : Bool) : ScanState := if isArray then .value else .objKey

/-- The states in which a value may start. -/
def TakesValue (st : ScanState) : Prop := st = .valueRoot ∨ st = .value ∨ st = .arrFirst

/-- The states in which the innermost container may close. -/
def MayClose (flags : AxlJsonFlags) (isArray : Bool) (st : ScanState) : Prop :=
  st = .after ∨ st = firstState isArray ∨
    (st = nextState isArray ∧ allows flags allowTrailingComma = true)

/-- The first step of a value, on its first byte. -/
inductive Starts (flags : AxlJsonFlags) (max : Nat) (kinds : List Bool) (pos : Nat) :
    List UInt8 → Mark → Place → Prop where
  | leaf {l : Leaf} (hl : ValueLeaf flags l) (r : List UInt8) :
      Starts flags max kinds pos (l.text ++ r) (.leaf l.isString (l.span pos).1 (l.span pos).2)
        ⟨afterState kinds, kinds, pos + l.text.length, r⟩
  | opens (a : Bool) (hd : kinds.length < max) (r : List UInt8) :
      Starts flags max kinds pos (opener a :: r) (.opens a pos)
        ⟨firstState a, a :: kinds, pos + 1, r⟩

/-- A turn of the scanner: skip a gap and take what stands behind it. -/
inductive Move (flags : AxlJsonFlags) (max : Nat) : Place → Option Mark → Place → Prop where
  | value {st : ScanState} {kinds : List Bool} {pos : Nat} {g r : List UInt8} {mk : Mark}
      {m : Place} (hst : TakesValue st) (hg : Gap flags g)
      (hv : Starts flags max kinds (pos + g.length) r mk m) :
      Move flags max ⟨st, kinds, pos, g ++ r⟩ (some mk) m
  | key {st : ScanState} {kinds : List Bool} {pos : Nat} {g : List UInt8} {k : Leaf}
      (hst : st = .objFirst ∨ st = .objKey) (hg : Gap flags g) (hk : KeyLeaf flags k)
      (r : List UInt8) :
      Move flags max ⟨st, kinds, pos, g ++ (k.text ++ r)⟩
        (some (.key (k.span (pos + g.length)).1 (k.span (pos + g.length)).2))
        ⟨.colon, kinds, pos + g.length + k.text.length, r⟩
  | colon {kinds : List Bool} {pos : Nat} {g : List UInt8} (hg : Gap flags g) (r : List UInt8) :
      Move flags max ⟨.colon, kinds, pos, g ++ 0x3A :: r⟩ none
        ⟨.value, kinds, pos + g.length + 1, r⟩
  | comma {a : Bool} {kinds : List Bool} {pos : Nat} {g : List UInt8} (hg : Gap flags g)
      (r : List UInt8) :
      Move flags max ⟨.after, a :: kinds, pos, g ++ 0x2C :: r⟩ none
        ⟨nextState a, a :: kinds, pos + g.length + 1, r⟩
  | close {a : Bool} {st : ScanState} {kinds : List Bool} {pos : Nat} {g : List UInt8}
      (hst : MayClose flags a st) (hg : Gap flags g) (r : List UInt8) :
      Move flags max ⟨st, a :: kinds, pos, g ++ closer a :: r⟩
        (some (.closes a (pos + g.length))) ⟨afterState kinds, kinds, pos + g.length + 1, r⟩

/-- The containers that a state goes with. -/
def Place.Ok (m : Place) : Prop :=
  match m.state with
  | .valueRoot | .rootDone => m.kinds = []
  | .arrFirst => m.kinds.head? = some true
  | .objFirst | .objKey | .colon => m.kinds.head? = some false
  | .value | .after => m.kinds ≠ []
  | .done => False

theorem afterState_ok (kinds : List Bool) (pos : Nat) (r : List UInt8) :
    Place.Ok ⟨afterState kinds, kinds, pos, r⟩ := by
  unfold afterState
  split
  case isTrue h => exact h
  case isFalse h => exact h

theorem Move.ok {flags : AxlJsonFlags} {max : Nat} {m m' : Place} {mk : Option Mark}
    (h : Move flags max m mk m') (hm : m.Ok) : m'.Ok := by
  cases h with
  | value hst hg hv =>
    cases hv with
    | leaf hl r => exact afterState_ok _ _ _
    | opens a hd r => cases a <;> rfl
  | key hst hg hk r =>
    rcases hst with rfl | rfl <;> exact hm
  | colon hg r =>
    intro hnil
    have hm : List.head? _ = some false := hm
    simp_all
  | @comma a kinds pos g hg r => cases a <;> simp [nextState, Place.Ok]
  | close hst hg r => exact afterState_ok _ _ _

/-- A move may start with more of a gap. -/
theorem Move.prepend {flags : AxlJsonFlags} {max : Nat} {st : ScanState} {kinds : List Bool}
    {pos : Nat} {g r : List UInt8} {mk : Option Mark} {m : Place} (hg : Gap flags g)
    (h : Move flags max ⟨st, kinds, pos + g.length, r⟩ mk m) :
    Move flags max ⟨st, kinds, pos, g ++ r⟩ mk m := by
  generalize hm₀ : (⟨st, kinds, pos + g.length, r⟩ : Place) = m₀ at h
  cases h with
  | @value st' kinds' pos' g' r' mk m' hst hg' hv =>
    cases hm₀
    rw [← append_assoc]
    refine .value hst (hg.append hg') ?_
    rwa [length_append, ← Nat.add_assoc]
  | @key st' kinds' pos' g' k hst hg' hk r' =>
    cases hm₀
    have := @Move.key flags max st kinds pos (g ++ g') k hst (hg.append hg') hk r'
    simpa [Nat.add_assoc] using this
  | @colon kinds' pos' g' hg' r' =>
    cases hm₀
    have := @Move.colon flags max kinds pos (g ++ g') (hg.append hg') r'
    simpa [Nat.add_assoc] using this
  | @comma a kinds' pos' g' hg' r' =>
    cases hm₀
    have := @Move.comma flags max a kinds' pos (g ++ g') (hg.append hg') r'
    simpa [Nat.add_assoc] using this
  | @close a st' kinds' pos' g' hst hg' r' =>
    cases hm₀
    have := @Move.close flags max a st kinds' pos (g ++ g') hst (hg.append hg') r'
    simpa [Nat.add_assoc] using this

/-- The event of a mark. -/
def Matches (ev : Event) : Mark → Prop
  | .opens a off => ev.kind = (if a then .arrBegin else .objBegin) ∧ ev.offset = off
  | .closes a off => ev.kind = (if a then .arrEnd else .objEnd) ∧ ev.offset = off
  | .key start stop => ev.kind = .key ∧ ev.start = start ∧ ev.len = stop - start
  | .leaf true start stop => ev.kind = .string ∧ ev.start = start ∧ ev.len = stop - start
  | .leaf false start stop =>
    (ev.kind = .number ∨ ev.kind = .bool ∨ ev.kind = .null) ∧ ev.start = start ∧
      ev.len = stop - start

namespace Scanner

/-- A scanner over one short view is at a place. -/
structure Sits (flags : AxlJsonFlags) (max : Nat) (s : Scanner) (m : Place) : Prop where
  src : s.src = none
  base : s.base = 0
  flags : s.flags = flags
  maxDepth : s.maxDepth = max
  state : s.state = m.state
  pos : s.pos = m.pos
  rest : s.json.drop s.pos = m.rest
  cursor : s.pos ≤ s.json.length
  short : s.json.length < 2 ^ 31
  depth : s.depth = m.kinds.length
  levels : ∀ i, (h : i < m.kinds.length) → s.inArray (m.kinds.length - i) = m.kinds[i]
  clean : s.done = false ∧ s.err = .none

variable {s : Scanner}

theorem runLeaf_of_view (hs : s.src = none) (kind : LeafKind) :
    (∃ span p, leaf s.flags kind true (s.json.drop s.pos) = .ok span p ∧
      s.runLeaf kind
        = (some (s.pos + span.1, s.pos + span.2), { s with pos := s.pos + p })) ∨
    ∃ (e : LexError) (r : Nat) (s' : Scanner),
      leaf s.flags kind true (s.json.drop s.pos) = .fail e r ∧
      s.runLeaf kind = (none, s'.adopt s.pos e) := by
  have he : s.atEof = true := by simp [atEof, hs]
  have hturns : s.turns = 3 := by simp [turns, hs]
  rw [runLeaf, hturns, leafRun, he]
  cases hleaf : leaf s.flags kind true (s.json.drop s.pos) with
  | ok span p => exact .inl ⟨span, p, rfl, rfl⟩
  | fail e r =>
    refine .inr ⟨e, r, ?_⟩
    dsimp only
    split
    · have hr : ({ s with pos := s.pos + r } : Scanner).refill
          = (false, { s with pos := s.pos + r }) := by
        rw [refill, if_pos (show ({ s with pos := s.pos + r } : Scanner).atEof = true from he)]
      rw [hr]
      exact ⟨_, rfl, rfl⟩
    · exact ⟨_, rfl, rfl⟩

/-- The event of a token whose span is `[a, b)` in a short view. -/
theorem textEvent_short {s : Scanner} {kind : EventKind} {a b off : Nat} (hab : a ≤ b)
    (hb : b < 2 ^ 31) :
    (s.textEvent kind (a, b) off).kind = kind ∧ (s.textEvent kind (a, b) off).start = a ∧
      (s.textEvent kind (a, b) off).len = b - a := by
  refine ⟨rfl, ?_, ?_⟩
  · exact toInt32_of_lt (by omega)
  · exact toSize_sub hab hb

variable {flags : AxlJsonFlags} {max : Nat}

variable {m : Place} {r : List UInt8}

/-- Move the cursor of a sitting scanner over `n` bytes. -/
theorem Sits.advance (h : Sits flags max s m) {n : Nat} {u : List UInt8} (hu : m.rest = u ++ r)
    (hn : n = u.length) :
    s.pos + n ≤ s.json.length ∧ s.json.drop (s.pos + n) = r := by
  subst hn
  have hlen := congrArg List.length h.rest
  rw [hu, length_drop, length_append] at hlen
  have := h.cursor
  refine ⟨by omega, ?_⟩
  rw [← drop_drop, h.rest, hu, drop_left]

/-- The place behind a value. -/
theorem Sits.afterValue {s' : Scanner} (h : Sits flags max s m) {n : Nat} {u : List UInt8}
    (hu : m.rest = u ++ r) (hn : n = u.length) (hs' : s' = { s with pos := s.pos + n }) :
    Sits flags max s'.afterValue ⟨afterState m.kinds, m.kinds, m.pos + n, r⟩ := by
  obtain ⟨hle, hdrop⟩ := h.advance hu hn
  subst hs'
  refine ⟨h.src, h.base, h.flags, h.maxDepth, ?_, ?_, hdrop, hle, h.short, h.depth, h.levels, h.clean⟩
  · show (if s.depth = 0 then ScanState.rootDone else .after) = afterState m.kinds
    rw [h.depth, afterState]
    simp only [length_eq_zero_iff]
  · show s.pos + n = m.pos + n
    rw [h.pos]

/-- What a leaf function reads. -/
def LeafOf (flags : AxlJsonFlags) : LeafKind → Leaf → Prop
  | .string q, .str q' b => q' = q ∧ StrBody flags q b
  | .number, .prim t => NumberText flags t
  | .literal, .prim t => WordText flags t
  | .ident, .prim t => IdentText t
  | _, _ => False

/-- The byte on which a leaf function is called. -/
def LeafStart : LeafKind → UInt8 → Prop
  | .string q, c => c = q ∧ (q = 0x22 ∨ q = 0x27)
  | .ident, c => isIdentStart c = true
  | .ws, _ => False
  | _, _ => True

variable {kind : LeafKind} {c : UInt8} {cs : List UInt8}

theorem leaf_sound {span : Nat × Nat} {p : Nat} (hc : LeafStart kind c)
    (h : leaf flags kind true (c :: cs) = .ok span p) :
    ∃ lf r, c :: cs = lf.text ++ r ∧ p = lf.text.length ∧ span = lf.span 0 ∧
      LeafOf flags kind lf := by
  cases kind with
  | ws => exact hc.elim
  | string q =>
    obtain ⟨rfl, -⟩ := hc
    obtain ⟨b, r, rfl, rfl, rfl, hb⟩ := parseString_sound h
    exact ⟨.str c b, r, by simp [Leaf.text], by simp [Leaf.text], by simp [Leaf.span], rfl, hb⟩
  | ident =>
    obtain ⟨b, r, hs, rfl, rfl, hb⟩ := parseIdentifier_sound hc h
    exact ⟨.prim b, r, hs, rfl, by simp [Leaf.span], hb⟩
  | number =>
    have h : parseNumber flags true (c :: cs) = .ok span p := h
    obtain ⟨b, r, hs, rfl, rfl, hb⟩ := parseNumber_sound h
    exact ⟨.prim b, r, hs, rfl, by simp [Leaf.span], hb⟩
  | literal =>
    obtain ⟨b, r, hs, rfl, rfl, hb⟩ := parseLiteral_sound h
    exact ⟨.prim b, r, hs, rfl, by simp [Leaf.span], hb⟩

theorem leaf_complete {lf : Leaf} (hl : LeafOf flags kind lf)
    (hq : ∀ q, kind = .string q → q ≠ 0x0A) (hr : lf.isString = false → Delim r) :
    leaf flags kind true (lf.text ++ r) = .ok (lf.span 0) lf.text.length := by
  cases kind with
  | ws => cases lf <;> exact hl.elim
  | string q =>
    cases lf with
    | prim t => exact hl.elim
    | str q' b =>
      obtain ⟨rfl, hb⟩ := hl
      simpa [leaf, Leaf.text, Leaf.span] using
        @parseString_complete flags true q' b r hb (hq q' rfl)
  | ident =>
    cases lf with
    | str q' b => exact hl.elim
    | prim t => simpa [leaf, Leaf.span, Leaf.text] using parseIdentifier_complete hl (hr rfl).ident
  | number =>
    cases lf with
    | str q' b => exact hl.elim
    | prim t => simpa [leaf, Leaf.span, Leaf.text] using parseNumber_complete hl (hr rfl)
  | literal =>
    cases lf with
    | str q' b => exact hl.elim
    | prim t => simpa [leaf, Leaf.span, Leaf.text] using parseLiteral_complete hl (hr rfl)

theorem span_eq (lf : Leaf) (off : Nat) :
    lf.span off = (off + (lf.span 0).1, off + (lf.span 0).2) := by
  cases lf <;> simp [Leaf.span]
  omega

theorem span_bounds (lf : Leaf) (off : Nat) :
    (lf.span off).1 ≤ (lf.span off).2 ∧ (lf.span off).2 ≤ off + lf.text.length := by
  cases lf <;> simp [Leaf.span, Leaf.text]
  omega

/-- A token at a place, once the leaf function has read it. -/
theorem Sits.token (h : Sits flags max s m) {lf : Leaf} (hrest : m.rest = lf.text ++ r)
    (hleaf : leaf flags kind true m.rest = .ok (lf.span 0) lf.text.length) :
    s.runLeaf kind = (some (lf.span m.pos), { s with pos := s.pos + lf.text.length }) ∧
      (lf.span m.pos).2 < 2 ^ 31 := by
  rw [span_eq lf m.pos, ← h.pos]
  constructor
  · rcases runLeaf_of_view h.src kind with ⟨span, p, hok, hrun⟩ | ⟨e, r, s', hfail, -⟩
    · rw [h.flags, h.rest, hleaf] at hok
      cases hok
      exact hrun
    · rw [h.flags, h.rest, hleaf] at hfail
      cases hfail
  · have hadv := (h.advance hrest rfl).1
    have := (span_bounds lf 0).2
    have := h.short
    dsimp only
    omega

/-- A leaf function that succeeds at a place. -/
theorem Sits.runLeaf_sound {s' : Scanner} (h : Sits flags max s m) (hrest : m.rest = c :: cs)
    (hc : LeafStart kind c) {sp : Nat × Nat} (hrun : s.runLeaf kind = (some sp, s')) :
    ∃ lf r, m.rest = lf.text ++ r ∧ LeafOf flags kind lf ∧ sp = lf.span m.pos ∧
      s' = { s with pos := s.pos + lf.text.length } ∧ (lf.span m.pos).2 < 2 ^ 31 := by
  rcases runLeaf_of_view h.src kind with ⟨span, p, hok, hrun'⟩ | ⟨e, r, s'', -, hrun'⟩
  · rw [h.flags, h.rest] at hok
    have hok' := hok
    rw [hrest] at hok'
    obtain ⟨lf, r, hsplit, rfl, rfl, hl⟩ := leaf_sound hc hok'
    rw [← hrest] at hsplit
    obtain ⟨htok, hlt⟩ := h.token hsplit hok
    rw [hrun] at htok
    obtain ⟨hsp, rfl⟩ := Prod.mk.inj htok
    exact ⟨lf, r, hsplit, hl, Option.some.inj hsp, rfl, hlt⟩
  · rw [hrun] at hrun'
    cases hrun'

/-- A successful step from the place `m` is a move. -/
def Moved (flags : AxlJsonFlags) (max : Nat) (m : Place) : Step → Prop
  | .event ev s' => ∃ mk m', Move flags max m (some mk) m' ∧ Sits flags max s' m' ∧ Matches ev mk
  | .again s' => ∃ m', Move flags max m none m' ∧ Sits flags max s' m'
  | .stop _ => True

/-- A successful step that starts a value at the place `m`. -/
def Started (flags : AxlJsonFlags) (max : Nat) (m : Place) : Step → Prop
  | .event ev s' => ∃ mk m', Starts flags max m.kinds m.pos m.rest mk m' ∧
      Sits flags max s' m' ∧ Matches ev mk
  | .again _ => False
  | .stop _ => True

theorem Started.moved {m : Place} {step : Step} (h : Started flags max m step)
    (hst : TakesValue m.state) : Moved flags max m step := by
  cases step with
  | event ev s' =>
    obtain ⟨mk, m', hv, hs, hm⟩ := h
    have := @Move.value flags max m.state m.kinds m.pos [] m.rest mk m' hst .nil hv
    exact ⟨mk, m', this, hs, hm⟩
  | again s' => exact h.elim
  | stop s' => trivial

/-- `scan_open` below the depth limit. -/
theorem openContainer_step (h : Sits flags max s m) (a : Bool) (hrest : m.rest = opener a :: cs)
    (hd : m.kinds.length < max) :
    ∃ ev s', s.openContainer a = .event ev s' ∧
      Sits flags max s' ⟨firstState a, a :: m.kinds, m.pos + 1, cs⟩ ∧
      Matches ev (.opens a m.pos) := by
  obtain ⟨hle, hdrop⟩ := h.advance (u := [opener a]) (r := cs) hrest rfl
  have hd' : ¬ s.depth ≥ s.maxDepth := by
    rw [h.depth, h.maxDepth]
    omega
  rw [openContainer, if_neg hd']
  refine ⟨_, _, rfl, ?_, ?_⟩
  · refine ⟨h.src, h.base, h.flags, h.maxDepth, by simp [firstState], ?_, hdrop, hle, h.short, ?_,
      ?_, h.clean⟩
    · show s.pos + 1 = m.pos + 1
      rw [h.pos]
    · show s.depth + 1 = (a :: m.kinds).length
      rw [h.depth, length_cons]
    · intro i hi
      simp only [length_cons] at hi ⊢
      rw [h.depth]
      cases i with
      | zero => simp
      | succ i =>
        rw [Function.update_of_ne (by omega), Nat.add_sub_add_right]
        exact h.levels i (by omega)
  · rw [Matches, h.base, h.pos, Nat.zero_add]
    exact ⟨rfl, rfl⟩

theorem openContainer_sound (h : Sits flags max s m) (a : Bool) (hrest : m.rest = opener a :: cs) :
    Started flags max m (s.openContainer a) := by
  by_cases hd : m.kinds.length < max
  · obtain ⟨ev, s', hrun, hs', hev⟩ := openContainer_step h a hrest hd
    rw [hrun]
    refine ⟨_, _, ?_, hs', hev⟩
    rw [hrest]
    exact .opens a hd cs
  · have hd' : s.depth ≥ s.maxDepth := by
      rw [h.depth, h.maxDepth]
      omega
    rw [openContainer, if_pos hd']
    trivial

variable {kinds : List Bool}

/-- `scan_close`. -/
theorem closeContainer_step (h : Sits flags max s m) {a : Bool} (hk : m.kinds = a :: kinds)
    (hrest : m.rest = closer a :: cs) :
    ∃ ev s', s.closeContainer a = .event ev s' ∧
      Sits flags max s' ⟨afterState kinds, kinds, m.pos + 1, cs⟩ ∧
      Matches ev (.closes a m.pos) := by
  obtain ⟨hle, hdrop⟩ := h.advance (u := [closer a]) (r := cs) hrest rfl
  obtain ⟨st, kinds', pos, rest⟩ := m
  obtain rfl : kinds' = a :: kinds := hk
  have hdepth : s.depth = kinds.length + 1 := h.depth
  refine ⟨_, _, rfl, ?_, ?_⟩
  · refine ⟨h.src, h.base, h.flags, h.maxDepth, ?_, ?_, hdrop, hle, h.short, ?_, ?_, h.clean⟩
    · show (if s.depth - 1 = 0 then ScanState.rootDone else .after) = afterState kinds
      rw [hdepth, Nat.add_sub_cancel, afterState]
      simp only [length_eq_zero_iff]
    · show s.pos + 1 = pos + 1
      rw [h.pos]
    · show s.depth - 1 = kinds.length
      omega
    · intro i hi
      have := h.levels (i + 1) (by simpa using hi)
      show s.inArray (kinds.length - i) = kinds[i]
      simpa [Nat.add_sub_add_right] using this
  · rw [Matches]
    show _ ∧ s.base + s.pos = pos
    rw [h.base, h.pos, Nat.zero_add]
    exact ⟨rfl, rfl⟩

theorem closeContainer_sound (h : Sits flags max s m) {a : Bool} (hk : m.kinds = a :: kinds)
    (hst : MayClose flags a m.state) (hrest : m.rest = closer a :: cs) :
    Moved flags max m (s.closeContainer a) := by
  obtain ⟨ev, s', hrun, hs', hev⟩ := closeContainer_step h hk hrest
  rw [hrun]
  refine ⟨_, _, ?_, hs', hev⟩
  obtain ⟨st, kinds', pos, rest⟩ := m
  obtain rfl : kinds' = a :: kinds := hk
  obtain rfl : rest = closer a :: cs := hrest
  exact @Move.close flags max a st kinds pos [] hst .nil cs

/-- The kind of event that a leaf value becomes. -/
def KindFits (lf : Leaf) (kind : EventKind) : Prop :=
  if lf.isString then kind = .string else kind = .number ∨ kind = .bool ∨ kind = .null

theorem matches_leaf {lf : Leaf} {kind : EventKind} {pos off : Nat} (hk : KindFits lf kind)
    (hlt : (lf.span pos).2 < 2 ^ 31) :
    Matches (s.textEvent kind (lf.span pos) off)
      (.leaf lf.isString (lf.span pos).1 (lf.span pos).2) := by
  obtain ⟨h₁, h₂, h₃⟩ := @textEvent_short s kind _ _ off (span_bounds lf pos).1 hlt
  unfold KindFits at hk
  cases hs : lf.isString with
  | true =>
    rw [hs] at hk
    exact ⟨h₁.trans (by simpa using hk), h₂, h₃⟩
  | false =>
    rw [hs] at hk
    exact ⟨by rw [h₁]; simpa using hk, h₂, h₃⟩

theorem leafValue_sound (h : Sits flags max s m) (kind : LeafKind) (hrest : m.rest = c :: cs)
    (hc : LeafStart kind c) (hv : ∀ lf, LeafOf flags kind lf → ValueLeaf flags lf)
    {evk : Scanner → Nat × Nat → EventKind}
    (hk : ∀ t sp lf, LeafOf flags kind lf → KindFits lf (evk t sp)) :
    Started flags max m (s.leafValue kind evk) := by
  unfold leafValue
  cases hrun : s.runLeaf kind with
  | mk sp s' =>
    cases sp with
    | none => trivial
    | some sp =>
      obtain ⟨lf, r, hsplit, hl, rfl, hs', hlt⟩ := h.runLeaf_sound hrest hc hrun
      refine ⟨.leaf lf.isString (lf.span m.pos).1 (lf.span m.pos).2,
        ⟨afterState m.kinds, m.kinds, m.pos + lf.text.length, r⟩, ?_, ?_, ?_⟩
      · rw [hsplit]
        exact .leaf (hv lf hl) r
      · exact h.afterValue hsplit rfl hs'
      · exact matches_leaf (hk _ _ _ hl) hlt

theorem leafOf_prim (hk : ∀ q, kind ≠ .string q) {lf : Leaf} (hl : LeafOf flags kind lf) :
    lf.isString = false := by
  cases lf with
  | prim t => rfl
  | str q b =>
    cases kind with
    | string q' => exact absurd rfl (hk q')
    | _ => exact hl.elim

theorem literalKind_fits (s : Scanner) (sp : Nat × Nat) :
    s.literalKind sp = .number ∨ s.literalKind sp = .bool ∨ s.literalKind sp = .null := by
  simp only [literalKind]
  generalize (if 0 ≤ toInt32 sp.1 then _ else _) = c
  split
  · exact .inr (.inl rfl)
  · split
    · exact .inr (.inr rfl)
    · exact .inl rfl

theorem scanValue_sound (h : Sits flags max s m) (hrest : m.rest = c :: cs) :
    Started flags max m (s.scanValue c) := by
  unfold scanValue
  rw [h.flags]
  split
  case isTrue hc =>
    subst hc
    exact openContainer_sound h false hrest
  case isFalse =>
  split
  case isTrue hc =>
    subst hc
    exact openContainer_sound h true hrest
  case isFalse =>
  split
  case isTrue hq =>
    split
    case isTrue => trivial
    case isFalse hs =>
      have hok : QuoteOk flags c := by
        rcases hq with rfl | rfl
        · exact .inl rfl
        · exact .inr ⟨rfl, by simpa using hs⟩
      refine leafValue_sound h (.string c) hrest ⟨rfl, hq⟩ ?_ ?_
      · intro lf hl
        cases lf with
        | prim t => exact hl.elim
        | str q b =>
          obtain ⟨rfl, hb⟩ := hl
          exact .str hok hb
      · intro t sp lf hl
        cases lf with
        | prim t => exact hl.elim
        | str q b => rfl
  case isFalse =>
  split
  case isTrue =>
    refine leafValue_sound h .number hrest trivial ?_ ?_
    · intro lf hl
      cases lf with
      | str q b => exact hl.elim
      | prim t => exact .number hl
    · intro t sp lf hl
      rw [KindFits, leafOf_prim (by simp) hl]
      exact .inl rfl
  case isFalse =>
  split
  case isTrue =>
    refine leafValue_sound h .literal hrest trivial ?_ ?_
    · intro lf hl
      cases lf with
      | str q b => exact hl.elim
      | prim t => exact .word hl
    · intro t sp lf hl
      rw [KindFits, leafOf_prim (by simp) hl]
      exact literalKind_fits t sp
  case isFalse => trivial

theorem leafKey_sound (h : Sits flags max s m) (hst : m.state = .objFirst ∨ m.state = .objKey)
    (kind : LeafKind) (hrest : m.rest = c :: cs) (hc : LeafStart kind c)
    (hk : ∀ lf, LeafOf flags kind lf → KeyLeaf flags lf) :
    Moved flags max m (s.leafKey kind) := by
  unfold leafKey
  cases hrun : s.runLeaf kind with
  | mk sp s' =>
    cases sp with
    | none => trivial
    | some sp =>
      obtain ⟨lf, r, hsplit, hl, rfl, rfl, hlt⟩ := h.runLeaf_sound hrest hc hrun
      obtain ⟨hle, hdrop⟩ := h.advance hsplit rfl
      refine ⟨.key (lf.span m.pos).1 (lf.span m.pos).2,
        ⟨.colon, m.kinds, m.pos + lf.text.length, r⟩, ?_, ?_, ?_⟩
      · have := @Move.key flags max m.state m.kinds m.pos [] lf hst .nil (hk lf hl) r
        rw [nil_append, ← hsplit] at this
        exact this
      · refine ⟨h.src, h.base, h.flags, h.maxDepth, rfl, ?_, hdrop, hle, h.short, h.depth, h.levels, h.clean⟩
        show s.pos + lf.text.length = m.pos + lf.text.length
        rw [h.pos]
      · exact textEvent_short (span_bounds lf m.pos).1 hlt

theorem scanKey_sound (h : Sits flags max s m) (hst : m.state = .objFirst ∨ m.state = .objKey)
    (hrest : m.rest = c :: cs) : Moved flags max m (s.scanKey c) := by
  unfold scanKey
  rw [h.flags]
  split
  case isTrue hq =>
    split
    case isTrue => trivial
    case isFalse hs =>
      have hok : QuoteOk flags c := by
        rcases hq with rfl | rfl
        · exact .inl rfl
        · exact .inr ⟨rfl, by simpa using hs⟩
      refine leafKey_sound h hst (.string c) hrest ⟨rfl, hq⟩ ?_
      intro lf hl
      cases lf with
      | prim t => exact hl.elim
      | str q b =>
        obtain ⟨rfl, hb⟩ := hl
        exact .str hok hb
  case isFalse =>
  split
  case isTrue hi =>
    split
    case isTrue => trivial
    case isFalse ha =>
      refine leafKey_sound h hst .ident hrest hi ?_
      intro lf hl
      cases lf with
      | str q b => exact hl.elim
      | prim t => exact .ident (by simpa using ha) hl
  case isFalse => trivial

theorem separator_sound (h : Sits flags max s m) (hrest : m.rest = c :: cs) (st : ScanState)
    (hmove : Move flags max m none ⟨st, m.kinds, m.pos + 1, cs⟩) :
    Moved flags max m (.again { s with pos := s.pos + 1, state := st }) := by
  obtain ⟨hle, hdrop⟩ := h.advance (u := [c]) (r := cs) hrest rfl
  refine ⟨_, hmove, h.src, h.base, h.flags, h.maxDepth, rfl, ?_, hdrop, hle, h.short, h.depth,
    h.levels, h.clean⟩
  show s.pos + 1 = m.pos + 1
  rw [h.pos]

/-- The bit of the innermost container. -/
theorem Sits.top (h : Sits flags max s m) {a : Bool} (hk : m.kinds = a :: kinds) :
    s.depth = kinds.length + 1 ∧ s.inArray s.depth = a := by
  have hd := h.depth
  have hl := h.levels 0 (by rw [hk]; simp)
  simp only [hk, length_cons] at hd hl
  refine ⟨hd, ?_⟩
  rw [hd]
  simpa using hl

theorem dispatch_sound (h : Sits flags max s m) (hm : m.Ok) (hrest : m.rest = c :: cs) :
    Moved flags max m (s.dispatch c) := by
  unfold dispatch
  rw [h.state]
  obtain ⟨st, kinds, pos, rest⟩ := m
  obtain rfl : rest = c :: cs := hrest
  cases st with
  | valueRoot => exact (scanValue_sound h rfl).moved (.inl rfl)
  | value =>
    dsimp only
    split
    case isFalse => exact (scanValue_sound h rfl).moved (.inr (.inl rfl))
    case isTrue hc =>
      obtain ⟨-, rfl, ht, harr⟩ := hc
      rw [h.flags] at ht
      obtain ⟨a, ks, rfl⟩ := exists_cons_of_ne_nil hm
      obtain rfl : true = a := harr.symm.trans (h.top rfl).2
      exact closeContainer_sound h rfl (.inr (.inr ⟨rfl, ht⟩)) rfl
  | arrFirst =>
    dsimp only
    split
    case isFalse => exact (scanValue_sound h rfl).moved (.inr (.inr rfl))
    case isTrue hc =>
      subst hc
      obtain ⟨ks, rfl⟩ : ∃ ks, kinds = true :: ks := head?_eq_some_iff.mp hm
      exact closeContainer_sound h rfl (.inr (.inl rfl)) rfl
  | objFirst =>
    dsimp only
    split
    case isFalse => exact scanKey_sound h (.inl rfl) rfl
    case isTrue hc =>
      subst hc
      obtain ⟨ks, rfl⟩ : ∃ ks, kinds = false :: ks := head?_eq_some_iff.mp hm
      exact closeContainer_sound h rfl (.inr (.inl rfl)) rfl
  | objKey =>
    dsimp only
    split
    case isFalse => exact scanKey_sound h (.inr rfl) rfl
    case isTrue hc =>
      subst hc
      split
      case isFalse => trivial
      case isTrue ht =>
        rw [h.flags] at ht
        obtain ⟨ks, rfl⟩ : ∃ ks, kinds = false :: ks := head?_eq_some_iff.mp hm
        exact closeContainer_sound h rfl (.inr (.inr ⟨rfl, ht⟩)) rfl
  | colon =>
    dsimp only
    split
    case isFalse => trivial
    case isTrue hc =>
      subst hc
      exact separator_sound h rfl .value (@Move.colon flags max kinds pos [] .nil cs)
  | after =>
    obtain ⟨a, ks, rfl⟩ := exists_cons_of_ne_nil hm
    dsimp only
    rw [(h.top rfl).2]
    split
    case isTrue hc =>
      subst hc
      exact separator_sound h rfl _ (@Move.comma flags max a ks pos [] .nil cs)
    case isFalse =>
      split
      case isFalse => trivial
      case isTrue hc =>
        obtain rfl : c = closer a := by
          rcases hc with ⟨rfl, rfl⟩ | ⟨rfl, rfl⟩ <;> rfl
        exact closeContainer_sound h rfl (.inl rfl) rfl
  | rootDone | done => trivial

/-- **Every turn that does not stop is a move.** -/
theorem turn_sound (h : Sits flags max s m) (hm : m.Ok) (hst : m.state ≠ .rootDone) :
    Moved flags max m s.turn := by
  unfold turn
  rw [h.state, if_neg hst]
  rcases runLeaf_of_view h.src .ws with ⟨span, p, hok, hrun⟩ | ⟨e, r, s', -, hrun⟩
  · rw [hrun]
    rw [h.flags, h.rest] at hok
    obtain ⟨g, r, hsplit, rfl, hg⟩ := skipWs_sound hok
    obtain ⟨hle, hdrop⟩ := h.advance hsplit rfl
    dsimp only
    rw [hdrop]
    cases r with
    | nil =>
      dsimp only
      split <;> trivial
    | cons c cs =>
      have hg : Gap flags g := hg.resolve_right (by simp)
      have hsits : Sits flags max { s with pos := s.pos + g.length }
          ⟨m.state, m.kinds, m.pos + g.length, c :: cs⟩ := by
        refine ⟨h.src, h.base, h.flags, h.maxDepth, h.state, ?_, hdrop, hle, h.short, h.depth,
          h.levels, h.clean⟩
        show s.pos + g.length = m.pos + g.length
        rw [h.pos]
      have hmoved := dispatch_sound hsits hm rfl
      obtain ⟨st, kinds, pos, rest⟩ := m
      obtain rfl : rest = g ++ c :: cs := hsplit
      dsimp only
      cases hd : dispatch { s with pos := s.pos + g.length } c with
      | event ev s' =>
        rw [hd] at hmoved
        obtain ⟨mk, m', hmv, hs', hev⟩ := hmoved
        exact ⟨mk, m', hmv.prepend hg, hs', hev⟩
      | again s' =>
        rw [hd] at hmoved
        obtain ⟨m', hmv, hs'⟩ := hmoved
        exact ⟨m', hmv.prepend hg, hs'⟩
      | stop s' => trivial
  · rw [hrun]
    trivial

/-! ### Completeness -/

/-- What must not follow a token: more of a word or number. -/
def Follows : Option Mark → List UInt8 → Prop
  | some (.leaf false _ _), r => Delim r
  | some (.key _ _), r => Delim r
  | _, _ => True

/-- The byte starts a number. -/
def isNumberStart (c : UInt8) : Prop := c = 0x2B ∨ c = 0x2D ∨ isDigit c = true ∨ c = 0x2E

instance (c : UInt8) : Decidable (isNumberStart c) := inferInstanceAs (Decidable (_ ∨ _))

theorem numberStart_bytes (h : isNumberStart c) :
    c ≠ 0x7B ∧ c ≠ 0x5B ∧ ¬ (c = 0x22 ∨ c = 0x27) ∧ c ≠ 0x5D ∧ isSpace c = false ∧ c ≠ 0x2F :=
  byte_all (p := fun c => isNumberStart c → c ≠ 0x7B ∧ c ≠ 0x5B ∧ ¬ (c = 0x22 ∨ c = 0x27) ∧
    c ≠ 0x5D ∧ isSpace c = false ∧ c ≠ 0x2F) (by decide +kernel) c h

theorem identStart_bytes (h : isIdentStart c = true) :
    c ≠ 0x7B ∧ c ≠ 0x5B ∧ ¬ (c = 0x22 ∨ c = 0x27) ∧ c ≠ 0x5D ∧ isSpace c = false ∧ c ≠ 0x2F ∧
      ¬ isNumberStart c ∧ c ≠ 0x7D :=
  byte_all (p := fun c => isIdentStart c = true → c ≠ 0x7B ∧ c ≠ 0x5B ∧ ¬ (c = 0x22 ∨ c = 0x27) ∧
    c ≠ 0x5D ∧ isSpace c = false ∧ c ≠ 0x2F ∧ ¬ isNumberStart c ∧ c ≠ 0x7D) (by decide +kernel) c h

theorem numberText_head {t : List UInt8} (h : NumberText flags t) :
    ∃ c cs, t = c :: cs ∧ isNumberStart c := by
  cases h with
  | unsigned hb =>
    obtain ⟨c, cs, rfl, hc⟩ := hb.head
    exact ⟨c, cs, rfl, .inr (.inr hc)⟩
  | signed hs hb =>
    refine ⟨_, _, rfl, ?_⟩
    rcases hs with rfl | ⟨rfl, -⟩
    · exact .inr (.inl rfl)
    · exact .inl rfl
  | word hs =>
    refine ⟨_, _, rfl, ?_⟩
    rcases hs with rfl | ⟨rfl, -⟩
    · exact .inr (.inl rfl)
    · exact .inl rfl

theorem wordText_head {t : List UInt8} (h : WordText flags t) :
    ∃ c cs, t = c :: cs ∧ isIdentStart c = true := by
  rcases h with rfl | rfl | rfl | ⟨-, rfl | rfl⟩ <;> exact ⟨_, _, rfl, by decide⟩

theorem identText_head {t : List UInt8} (h : IdentText t) :
    ∃ c cs, t = c :: cs ∧ isIdentStart c = true := by
  obtain ⟨⟨c, hc, hs⟩, -⟩ := h
  obtain ⟨cs, rfl⟩ := head?_eq_some_iff.mp hc
  exact ⟨c, cs, rfl, hs⟩

/-- A step that makes the move to `m'` with the mark `mk`. -/
def Makes (flags : AxlJsonFlags) (max : Nat) (m' : Place) (mk : Option Mark) : Step → Prop
  | .event ev s' => ∃ k, mk = some k ∧ Matches ev k ∧ Sits flags max s' m'
  | .again s' => mk = none ∧ Sits flags max s' m'
  | .stop _ => False

theorem leafValue_complete (h : Sits flags max s m) (kind : LeafKind) (lf : Leaf)
    (hrest : m.rest = lf.text ++ r) (hl : LeafOf flags kind lf)
    (hq : ∀ q, kind = .string q → q ≠ 0x0A) (hr : lf.isString = false → Delim r)
    {evk : Scanner → Nat × Nat → EventKind} (hk : ∀ t sp, KindFits lf (evk t sp)) :
    Makes flags max ⟨afterState m.kinds, m.kinds, m.pos + lf.text.length, r⟩
      (some (.leaf lf.isString (lf.span m.pos).1 (lf.span m.pos).2)) (s.leafValue kind evk) := by
  have hleaf := leaf_complete hl hq hr
  rw [← hrest] at hleaf
  obtain ⟨hrun, hlt⟩ := h.token hrest hleaf
  unfold leafValue
  rw [hrun]
  exact ⟨_, rfl, matches_leaf (hk _ _) hlt, h.afterValue hrest rfl rfl⟩

/-- The first byte of a value: it ends a gap and closes nothing. -/
theorem starts_begins {pos : Nat} {mk : Mark} (h : Starts flags max kinds pos r mk m) :
    ∃ c cs, r = c :: cs ∧ (isSpace c = false ∧ c ≠ 0x2F) ∧ c ≠ 0x5D := by
  cases h with
  | opens a hd r => exact ⟨opener a, r, rfl, by cases a <;> decide, by cases a <;> decide⟩
  | leaf hl r =>
    cases hl with
    | str hq hb =>
      refine ⟨_, _, rfl, ?_⟩
      rcases hq with rfl | ⟨rfl, -⟩ <;> decide
    | number ht =>
      obtain ⟨c, cs, rfl, hc⟩ := numberText_head ht
      obtain ⟨-, -, -, h₄, h₅, h₆⟩ := numberStart_bytes hc
      exact ⟨c, cs ++ r, rfl, ⟨h₅, h₆⟩, h₄⟩
    | word ht =>
      obtain ⟨c, cs, rfl, hc⟩ := wordText_head ht
      obtain ⟨-, -, -, h₄, h₅, h₆, -⟩ := identStart_bytes hc
      exact ⟨c, cs ++ r, rfl, ⟨h₅, h₆⟩, h₄⟩

theorem scanValue_complete {m' : Place} {mk : Mark} (h : Sits flags max s m)
    (hv : Starts flags max m.kinds m.pos m.rest mk m') (hf : Follows (some mk) m'.rest)
    (hc : m.rest = c :: cs) :
    Makes flags max m' (some mk) (s.scanValue c) := by
  generalize hrest : m.rest = w at hv hc
  cases hv with
  | opens a hd r =>
    obtain rfl : opener a = c := (List.cons.inj hc).1
    obtain ⟨ev, s', hrun, hs', hev⟩ := openContainer_step h a hrest hd
    have hscan : s.scanValue (opener a) = s.openContainer a := by
      cases a <;> rfl
    rw [hscan, hrun]
    exact ⟨_, rfl, hev, hs'⟩
  | @leaf l hl r =>
    cases hl with
    | @str q b hq hb =>
      obtain rfl : q = c := (List.cons.inj hc).1
      have hq' : q ≠ 0x0A := by
        rcases hq with rfl | ⟨rfl, -⟩ <;> decide
      have hscan : s.scanValue q = s.leafValue (.string q) fun _ _ => .string := by
        rcases hq with rfl | ⟨rfl, hs⟩
        · simp [scanValue]
        · simp [scanValue, h.flags, hs]
      rw [hscan]
      exact leafValue_complete h (.string q) (.str q b) hrest ⟨rfl, hb⟩ (by rintro _ ⟨⟩; exact hq')
        (by simp [Leaf.isString]) fun _ _ => rfl
    | number ht =>
      obtain ⟨c', cs', rfl, hn⟩ := numberText_head ht
      obtain rfl : c' = c := (List.cons.inj hc).1
      obtain ⟨h₁, h₂, h₃, -⟩ := numberStart_bytes hn
      have hscan : s.scanValue c' = s.leafValue .number fun _ _ => .number := by
        rw [scanValue, if_neg h₁, if_neg h₂, if_neg h₃]
        exact if_pos hn
      rw [hscan]
      exact leafValue_complete h .number (.prim (c' :: cs')) hrest ht (by simp) (fun _ => hf)
        fun _ _ => .inl rfl
    | word ht =>
      obtain ⟨c', cs', rfl, hi⟩ := wordText_head ht
      obtain rfl : c' = c := (List.cons.inj hc).1
      obtain ⟨h₁, h₂, h₃, -, -, -, h₇, -⟩ := identStart_bytes hi
      have hscan : s.scanValue c' = s.leafValue .literal literalKind := by
        rw [scanValue, if_neg h₁, if_neg h₂, if_neg h₃]
        exact (if_neg h₇).trans (if_pos hi)
      rw [hscan]
      exact leafValue_complete h .literal (.prim (c' :: cs')) hrest ht (by simp) (fun _ => hf)
        literalKind_fits

theorem leafKey_complete (h : Sits flags max s m) (kind : LeafKind) (lf : Leaf)
    (hrest : m.rest = lf.text ++ r) (hl : LeafOf flags kind lf)
    (hq : ∀ q, kind = .string q → q ≠ 0x0A) (hr : Delim r) :
    Makes flags max ⟨.colon, m.kinds, m.pos + lf.text.length, r⟩
      (some (.key (lf.span m.pos).1 (lf.span m.pos).2)) (s.leafKey kind) := by
  have hleaf := leaf_complete hl hq fun _ => hr
  rw [← hrest] at hleaf
  obtain ⟨hrun, hlt⟩ := h.token hrest hleaf
  obtain ⟨hle, hdrop⟩ := h.advance hrest rfl
  unfold leafKey
  rw [hrun]
  refine ⟨_, rfl, textEvent_short (span_bounds lf m.pos).1 hlt, h.src, h.base, h.flags, h.maxDepth,
    rfl, ?_, hdrop, hle, h.short, h.depth, h.levels, h.clean⟩
  show s.pos + lf.text.length = m.pos + lf.text.length
  rw [h.pos]

/-- The first byte of a key. -/
theorem keyLeaf_begins {k : Leaf} (h : KeyLeaf flags k) (r : List UInt8) :
    ∃ c cs, k.text ++ r = c :: cs ∧ (isSpace c = false ∧ c ≠ 0x2F) ∧ c ≠ 0x7D := by
  cases h with
  | str hq hb =>
    refine ⟨_, _, rfl, ?_⟩
    rcases hq with rfl | ⟨rfl, -⟩ <;> decide
  | ident hf ht =>
    obtain ⟨c, cs, rfl, hc⟩ := identText_head ht
    obtain ⟨-, -, -, -, h₅, h₆, -, h₈⟩ := identStart_bytes hc
    exact ⟨c, cs ++ r, rfl, ⟨h₅, h₆⟩, h₈⟩

theorem scanKey_complete (h : Sits flags max s m) {k : Leaf} (hk : KeyLeaf flags k)
    (hrest : m.rest = k.text ++ r) (hr : Delim r) (hc : m.rest = c :: cs) :
    Makes flags max ⟨.colon, m.kinds, m.pos + k.text.length, r⟩
      (some (.key (k.span m.pos).1 (k.span m.pos).2)) (s.scanKey c) := by
  rw [hrest] at hc
  cases hk with
  | @str q b hq hb =>
    obtain rfl : q = c := (List.cons.inj hc).1
    have hq' : q ≠ 0x0A := by
      rcases hq with rfl | ⟨rfl, -⟩ <;> decide
    have hscan : s.scanKey q = s.leafKey (.string q) := by
      rcases hq with rfl | ⟨rfl, hs⟩
      · simp [scanKey]
      · simp [scanKey, h.flags, hs]
    rw [hscan]
    exact leafKey_complete h (.string q) (.str q b) hrest ⟨rfl, hb⟩ (by rintro _ ⟨⟩; exact hq') hr
  | ident hf ht =>
    obtain ⟨c', cs', rfl, hi⟩ := identText_head ht
    obtain rfl : c' = c := (List.cons.inj hc).1
    obtain ⟨-, -, h₃, -⟩ := identStart_bytes hi
    have hscan : s.scanKey c' = s.leafKey .ident := by
      rw [scanKey, if_neg h₃, if_pos hi, h.flags, if_neg (by simp [hf])]
    rw [hscan]
    exact leafKey_complete h .ident (.prim (c' :: cs')) hrest ht (by simp) hr

/-- A turn skips the gap and looks at the byte behind it. -/
theorem turn_skip {st : ScanState} {pos : Nat} {g : List UInt8}
    (h : Sits flags max s ⟨st, kinds, pos, g ++ c :: cs⟩) (hst : st ≠ .rootDone) (hg : Gap flags g)
    (hc : isSpace c = false ∧ c ≠ 0x2F) :
    ∃ s', s.turn = s'.dispatch c ∧
      Sits flags max s' ⟨st, kinds, pos + g.length, c :: cs⟩ := by
  have hstops : Stops (c :: cs) := by
    intro c' hc'
    obtain rfl := Option.some.inj hc'
    simp [hc.1, hc.2]
  obtain ⟨hle, hdrop⟩ := h.advance (u := g) (r := c :: cs) rfl rfl
  have hstate : s.state ≠ .rootDone := by
    rw [h.state]
    exact hst
  refine ⟨{ s with pos := s.pos + g.length }, ?_, h.src, h.base, h.flags, h.maxDepth, h.state, ?_,
    hdrop, hle, h.short, h.depth, h.levels, h.clean⟩
  · rw [turn, if_neg hstate]
    rcases runLeaf_of_view h.src .ws with ⟨span, p, hok, hrun⟩ | ⟨e, r, s', hfail, -⟩
    · rw [h.flags, h.rest] at hok
      have := (skipWs_gap hg hstops).symm.trans hok
      cases this
      rw [hrun]
      dsimp only
      rw [hdrop]
    · rw [h.flags, h.rest] at hfail
      have := (skipWs_gap hg hstops).symm.trans hfail
      cases this
  · show s.pos + g.length = pos + g.length
    rw [show s.pos = pos from h.pos]

theorem dispatch_value {st : ScanState} (hst : TakesValue st) (hs : s.state = st) (hc : c ≠ 0x5D) :
    s.dispatch c = s.scanValue c := by
  subst hs
  unfold dispatch
  rcases hst with h | h | h <;> rw [h] <;> simp [hc]

theorem dispatch_key (hst : s.state = .objFirst ∨ s.state = .objKey) (hc : c ≠ 0x7D) :
    s.dispatch c = s.scanKey c := by
  unfold dispatch
  rcases hst with h | h <;> rw [h] <;> simp [hc]

theorem dispatch_close {a : Bool} {st : ScanState} {pos : Nat}
    (h : Sits flags max s ⟨st, a :: kinds, pos, r⟩) (hst : MayClose flags a st) :
    s.dispatch (closer a) = s.closeContainer a := by
  obtain ⟨hdepth, htop⟩ := h.top rfl
  have hs : s.state = st := h.state
  unfold dispatch
  rcases hst with rfl | rfl | ⟨rfl, ht⟩
  · rw [hs]
    cases a <;> simp [closer, htop]
  · rw [hs]
    cases a <;> simp [firstState, closer]
  · rw [hs]
    cases a with
    | false => simp [nextState, closer, h.flags, ht]
    | true =>
      simp only [nextState, closer, if_true, h.flags, ht, htop]
      rw [if_pos ⟨by omega, trivial, trivial, trivial⟩]

theorem separator_step (h : Sits flags max s m) (hrest : m.rest = c :: cs) (st : ScanState) :
    Makes flags max ⟨st, m.kinds, m.pos + 1, cs⟩ none
      (.again { s with pos := s.pos + 1, state := st }) := by
  obtain ⟨hle, hdrop⟩ := h.advance (u := [c]) (r := cs) hrest rfl
  refine ⟨rfl, h.src, h.base, h.flags, h.maxDepth, rfl, ?_, hdrop, hle, h.short, h.depth, h.levels, h.clean⟩
  show s.pos + 1 = m.pos + 1
  rw [h.pos]

/-- **Every move is made**, if no word or number goes on behind it. -/
theorem turn_complete {m' : Place} {mk : Option Mark} (h : Sits flags max s m)
    (hmove : Move flags max m mk m') (hf : Follows mk m'.rest) :
    Makes flags max m' mk s.turn := by
  cases hmove with
  | @value st kinds pos g r mk m' hst hg hv =>
    obtain ⟨c, cs, rfl, hc, hclose⟩ := starts_begins hv
    have hne : st ≠ .rootDone := by
      rcases hst with rfl | rfl | rfl <;> simp
    obtain ⟨s', hturn, hs'⟩ := turn_skip h hne hg hc
    rw [hturn, dispatch_value hst hs'.state hclose]
    exact scanValue_complete hs' hv hf rfl
  | @key st kinds pos g k hst hg hk r =>
    obtain ⟨c, cs, htext, hc, hclose⟩ := keyLeaf_begins hk r
    have hne : st ≠ .rootDone := by
      rcases hst with rfl | rfl <;> simp
    rw [htext] at h
    obtain ⟨s', hturn, hs'⟩ := turn_skip h hne hg hc
    rw [hturn, dispatch_key (hs'.state ▸ hst) hclose]
    exact scanKey_complete hs' hk htext.symm hf rfl
  | @colon kinds pos g hg r =>
    obtain ⟨s', hturn, hs'⟩ := turn_skip h (by simp) hg (by decide)
    have hd : s'.dispatch 0x3A = .again { s' with pos := s'.pos + 1, state := .value } := by
      rw [dispatch, hs'.state]
      rfl
    rw [hturn, hd]
    exact separator_step hs' rfl .value
  | @comma a kinds pos g hg r =>
    obtain ⟨s', hturn, hs'⟩ := turn_skip h (by simp) hg (by decide)
    have hd : s'.dispatch 0x2C = .again { s' with pos := s'.pos + 1, state := nextState a } := by
      rw [dispatch, hs'.state]
      dsimp only
      rw [(hs'.top rfl).2]
      rfl
    rw [hturn, hd]
    exact separator_step hs' rfl (nextState a)
  | @close a st kinds pos g hst hg r =>
    have hne : st ≠ .rootDone := by
      rcases hst with rfl | rfl | ⟨rfl, -⟩ <;> cases a <;> simp [firstState, nextState]
    obtain ⟨s', hturn, hs'⟩ := turn_skip h hne hg (by cases a <;> decide)
    obtain ⟨ev, s'', hrun, hs'', hev⟩ := closeContainer_step hs' rfl rfl
    rw [hturn, dispatch_close hs' hst, hrun]
    exact ⟨_, rfl, hev, hs''⟩

end Scanner

end Json

end AxlSdk
