import AxlSdk.Json.Moves

/-!
# The grammar of the parser

`axl_json_parse` accepts a text exactly when it is a gap, a syntax tree of the
dialect's lexicon whose containers nest no deeper than the limit, and a gap, and
its tokens are the preorder listing of the tree.

- `foldl_mark_value`: the builder makes the listing of a tree from its marks.
- `path_of_syn` and `syn_of_path`: the moves over a tree, and back.
- `parse_complete` and `parse_sound`.
-/

namespace AxlSdk

namespace Json

open JsonSyntax List

/-! ## Tokens from marks -/

/-- The token type of a kind. -/
def tokType : TokenKind → TokType
  | .object => .object
  | .array => .array
  | .string => .string
  | .primitive => .primitive

/-- A listed token as the parser stores it. -/
def Tok.ofToken (t : Token) : Tok := ⟨tokType t.kind, t.start, t.stop, t.size⟩

/-- The listing of a tree as a token array. -/
def tokens {p : Part} (off : Nat) (t : Syn p) : List Tok := (t.listing off).map Tok.ofToken

namespace Builder

/-- What the builder does with the event of a mark. -/
def mark (b : Builder) : Mark → Builder
  | .opens a off =>
    let b := b.buildCount false
    { tokens := b.tokens ++ [⟨tokType (container a), off, -1, 0⟩],
      stack := (b.tokens.length, 0) :: b.stack }
  | .closes _ off =>
    match b.stack with
    | [] => b
    | (idx, count) :: stack =>
      { tokens := b.tokens.modify idx fun t => { t with stop := off + 1, size := count },
        stack := stack }
  | .key start stop =>
    let b := b.buildCount true
    { b with tokens := b.tokens ++ [⟨.string, start, stop, 0⟩] }
  | .leaf isString start stop =>
    let b := b.buildCount false
    { b with tokens := b.tokens ++ [⟨if isString then .string else .primitive, start, stop, 0⟩] }

/-- A mark within a document of fewer than 2^31 bytes. -/
def ShortMark : Mark → Prop
  | .opens _ off => off < 2 ^ 31
  | .closes _ off => off < 2 ^ 31
  | .key start stop => start ≤ stop ∧ stop < 2 ^ 31
  | .leaf _ start stop => start ≤ stop ∧ stop < 2 ^ 31

variable {b : Builder}

theorem event_of_matches {ev : Event} {mk : Mark} (h : Matches ev mk) (hs : ShortMark mk) :
    b.event ev = b.mark mk ∧ ev.kind ≠ .eof := by
  have hspan : ∀ {start stop : Nat}, start ≤ stop → stop < 2 ^ 31 → ev.len = stop - start →
      (start : Int) + toInt32 ev.len = stop := by
    intro start stop hle hlt h₂
    rw [h₂, toInt32_of_lt (by omega)]
    omega
  cases mk with
  | opens a off =>
    obtain ⟨hk, hoff⟩ := h
    cases a <;> simp only [Bool.false_eq_true, if_false, if_true] at hk
    all_goals
      refine ⟨?_, by simp [hk]⟩
      rw [event, hk]
      simp only [buildOpen, mark, hoff, toInt32_of_lt hs]
      rfl
  | closes a off =>
    obtain ⟨hk, hoff⟩ := h
    cases a <;> simp only [Bool.false_eq_true, if_false, if_true] at hk
    all_goals
      refine ⟨?_, by simp [hk]⟩
      rw [event, hk]
      cases hst : b.stack <;> simp only [buildClose, mark, hst, hoff, toInt32_of_lt hs]
  | key start stop =>
    obtain ⟨hk, h₁, h₂⟩ := h
    refine ⟨?_, by simp [hk]⟩
    rw [event, hk]
    simp only [buildLeaf, mark, h₁, hspan hs.1 hs.2 h₂]
  | leaf isString start stop =>
    cases isString with
    | true =>
      obtain ⟨hk, h₁, h₂⟩ := h
      refine ⟨?_, by simp [hk]⟩
      rw [event, hk]
      simp only [buildLeaf, mark, h₁, hspan hs.1 hs.2 h₂]
      rfl
    | false =>
      obtain ⟨hk, h₁, h₂⟩ := h
      refine ⟨?_, by rcases hk with hk | hk | hk <;> simp [hk]⟩
      rw [event]
      rcases hk with hk | hk | hk <;> rw [hk] <;>
        simp only [buildLeaf, mark, h₁, hspan hs.1 hs.2 h₂] <;> rfl

theorem buildCount_tokens (b : Builder) (isKey : Bool) : (b.buildCount isKey).tokens = b.tokens := by
  unfold buildCount
  split
  · rfl
  · split <;> rfl

/-- The innermost open container is of the kind `a`, with `n` children so far. -/
def Inside (b : Builder) (a : Bool) (idx n : Nat) (stack : List (Nat × Nat)) : Prop :=
  b.stack = (idx, n) :: stack ∧ ∃ t, b.tokens[idx]? = some t ∧ t.type = tokType (container a)

variable {stack : List (Nat × Nat)}

theorem buildCount_inside {a : Bool} {idx n : Nat} (h : Inside b a idx n stack) (isKey : Bool) :
    (b.buildCount isKey).stack = (idx, if isKey || a then n + 1 else n) :: stack := by
  obtain ⟨hs, t, ht, htype⟩ := h
  unfold buildCount
  rw [hs]
  simp only [ht, Option.map_some, htype, Option.some.injEq]
  cases isKey <;> cases a <;> simp [container, tokType, hs]

/-- Tokens behind the innermost container leave it open. -/
theorem Inside.append {a : Bool} {idx n : Nat} (h : Inside b a idx n stack) (n' : Nat)
    (ts : List Tok) :
    Inside ⟨b.tokens ++ ts, (idx, n') :: stack⟩ a idx n' stack := by
  obtain ⟨-, t, ht, htype⟩ := h
  refine ⟨rfl, t, ?_, htype⟩
  rw [getElem?_append_left (List.getElem?_eq_some_iff.mp ht).1]
  exact ht

/-- What the builder has made of the tree `t` at `off`. -/
def Built : {p : Part} → Nat → Syn p → Prop
  | .value, off, t => ∀ b : Builder, (t.marks off).foldl mark b
      = ⟨b.tokens ++ Json.tokens off t, (b.buildCount false).stack⟩
  | .rest a, off, t => ∀ (b : Builder) (idx n : Nat) (stack : List (Nat × Nat)),
      Inside b a idx n stack → (t.marks off).foldl mark b
        = ⟨(b.tokens ++ Json.tokens off t).modify idx fun tok =>
            { tok with stop := (off + t.render.length : Nat), size := n + t.count }, stack⟩

theorem leaf_type (l : Leaf) :
    tokType (if l.isString then .string else .primitive)
      = if l.isString then TokType.string else TokType.primitive := by
  cases l <;> rfl

/-- The head of an element and its value count one child. -/
theorem foldl_mark_element {a : Bool} {h : Head a} {v : Syn .value} {off : Nat}
    (hv : Built (off + h.render.length) v) {idx n : Nat} (hb : Inside b a idx n stack) :
    (h.marks off ++ v.marks (off + h.render.length)).foldl mark b
      = ⟨b.tokens ++ ((h.listing off).map Tok.ofToken ++ Json.tokens (off + h.render.length) v),
          (idx, n + 1) :: stack⟩ := by
  have hcount := buildCount_inside hb
  cases h with
  | item g =>
    rw [Head.marks, nil_append, hv b, hcount false]
    simp [Head.listing]
  | member g k g₁ g₂ =>
    rw [foldl_append, hv]
    simp only [Head.marks, foldl_cons, foldl_nil, mark, buildCount_tokens, hcount true,
      Bool.true_or, if_true, Head.listing, map_cons, map_nil, Tok.ofToken, keyToken,
      tokType]
    have hin := hb.append (n + 1)
      [⟨.string, ((k.span (off + g.length)).1 : Nat), ((k.span (off + g.length)).2 : Nat), 0⟩]
    rw [buildCount_inside hin false]
    simp

theorem modify_length_append {α : Type} (l r : List α) (x : α) (f : α → α) :
    (l ++ x :: r).modify l.length f = l ++ f x :: r := by
  induction l with
  | nil => rfl
  | cons y l ih => simp [ih]

/-- **The builder makes the listing of a tree.** -/
theorem built {p : Part} (off : Nat) (t : Syn p) : Built off t := by
  induction t generalizing off with
  | leaf l =>
    intro b
    simp only [Syn.marks, foldl_cons, foldl_nil, mark, buildCount_tokens, Json.tokens,
      Syn.listing, map_cons, map_nil, Tok.ofToken, Leaf.token, leaf_type]
  | empty a g =>
    intro b
    simp only [Syn.marks, foldl_cons, foldl_nil, mark, buildCount_tokens, Json.tokens,
      Syn.listing, map_cons, map_nil, Tok.ofToken, modify_length_append]
    simp
  | node a h v r ihv ihr =>
    intro b
    have hin : Inside ⟨b.tokens ++ [⟨tokType (container a), (off : Nat), -1, 0⟩],
        (b.tokens.length, 0) :: (b.buildCount false).stack⟩ a b.tokens.length 0
        (b.buildCount false).stack :=
      ⟨rfl, ⟨tokType (container a), (off : Nat), -1, 0⟩, by simp, rfl⟩
    have helem := foldl_mark_element (h := h) (ihv (off + 1 + h.render.length)) hin
    have hin' := hin.append (0 + 1)
      ((h.listing (off + 1)).map Tok.ofToken ++ Json.tokens (off + 1 + h.render.length) v)
    have hrest := ihr (off + 1 + h.render.length + v.render.length) _ _ _ _ hin'
    rw [Syn.marks, foldl_cons, ← append_assoc, foldl_append]
    simp only [mark, buildCount_tokens]
    rw [helem, hrest]
    simp only [append_assoc, cons_append, nil_append, modify_length_append]
    simp only [Json.tokens, Syn.listing, Syn.render, map_cons, map_append, Tok.ofToken,
      length_cons, length_append]
    have hend : off + 1 + h.render.length + v.render.length + r.render.length
        = off + (h.render.length + (v.render.length + r.render.length) + 1) := by omega
    rw [hend, Nat.zero_add, Nat.add_comm 1]
  | stop g =>
    intro b idx n stack hb
    simp only [Syn.marks, foldl_cons, foldl_nil, mark, hb.1, Json.tokens, Syn.listing,
      map_nil, append_nil, Syn.count, Syn.render, length_append, length_cons,
      length_nil, Nat.add_zero]
    rfl
  | trail g g' =>
    intro b idx n stack hb
    simp only [Syn.marks, foldl_cons, foldl_nil, mark, hb.1, Json.tokens, Syn.listing,
      map_nil, append_nil, Syn.count, Syn.render, length_append, length_cons,
      length_nil, Nat.add_zero]
    rw [show off + (g.length + (g'.length + (0 + 1) + 1)) = off + g.length + 1 + g'.length + 1 by
      omega]
    rfl
  | more g h v r ihv ihr =>
    intro b idx n stack hb
    have helem := foldl_mark_element (h := h) (ihv (off + g.length + 1 + h.render.length)) hb
    have hin := hb.append (n + 1)
      ((h.listing (off + g.length + 1)).map Tok.ofToken ++
        Json.tokens (off + g.length + 1 + h.render.length) v)
    have hrest := ihr (off + g.length + 1 + h.render.length + v.render.length) _ _ _ _ hin
    rw [Syn.marks, ← append_assoc, foldl_append, helem, hrest]
    simp only [Json.tokens, Syn.listing, Syn.render, map_append, append_assoc,
      length_append, length_cons, Syn.count]
    have hend : off + g.length + 1 + h.render.length + v.render.length + r.render.length
        = off + (g.length + (h.render.length + (v.render.length + r.render.length) + 1)) := by
      omega
    rw [hend, show n + 1 + r.count = n + (r.count + 1) by omega]

end Builder

/-! ## Paths -/

/-- A run of moves with the marks it leaves. With `fol`, no word or number goes
on behind its token. -/
inductive Path (flags : AxlJsonFlags) (max : Nat) (fol : Prop) :
    Place → List Mark → Place → Prop where
  | nil (m : Place) : Path flags max fol m [] m
  | cons {m m₁ m₂ : Place} {mk : Option Mark} {mks : List Mark} (hm : Move flags max m mk m₁)
      (hf : fol → Scanner.Follows mk m₁.rest) (hp : Path flags max fol m₁ mks m₂) :
      Path flags max fol m (mk.toList ++ mks) m₂

variable {flags : AxlJsonFlags} {max : Nat} {fol : Prop}

theorem Path.single {m m' : Place} {mk : Option Mark} (hm : Move flags max m mk m')
    (hf : fol → Scanner.Follows mk m'.rest) : Path flags max fol m mk.toList m' := by
  have := Path.cons hm hf (.nil m')
  rwa [append_nil] at this

theorem Path.trans {m₁ m₂ m₃ : Place} {ms ms' : List Mark} (h : Path flags max fol m₁ ms m₂)
    (h' : Path flags max fol m₂ ms' m₃) : Path flags max fol m₁ (ms ++ ms') m₃ := by
  induction h with
  | nil => exact h'
  | cons hm hf _ ih =>
    rw [append_assoc]
    exact .cons hm hf (ih h')

/-! ### The moves over a tree -/

theorem gap_head {g : List UInt8} (h : Gap flags g) :
    g = [] ∨ ∃ c g', g = c :: g' ∧ (isSpace c = true ∨ c = 0x2F) := by
  cases h with
  | nil => exact .inl rfl
  | space hc _ => exact .inr ⟨_, _, rfl, .inl hc.1⟩
  | line => exact .inr ⟨_, _, rfl, .inr rfl⟩
  | block => exact .inr ⟨_, _, rfl, .inr rfl⟩

theorem spaceByte_delim {c : UInt8} (h : isSpace c = true ∨ c = 0x2F) :
    (isIdentCont c || c == 0x2E) = false :=
  byte_all (p := fun c => isSpace c = true ∨ c = 0x2F → (isIdentCont c || c == 0x2E) = false)
    (by decide +kernel) c h

/-- A gap before a delimiter delimits. -/
theorem delim_gap {g r : List UInt8} (hg : Gap flags g) (hr : Delim r) : Delim (g ++ r) := by
  rcases gap_head hg with rfl | ⟨c, g', rfl, hc⟩
  · exact hr
  · intro c' hc'
    obtain rfl := Option.some.inj hc'
    exact spaceByte_delim hc

theorem delim_byte {c : UInt8} (hc : (isIdentCont c || c == 0x2E) = false) (r : List UInt8) :
    Delim (c :: r) := by
  intro c' hc'
  obtain rfl := Option.some.inj hc'
  exact hc

theorem delim_closer (a : Bool) (r : List UInt8) : Delim (closer a :: r) :=
  delim_byte (by cases a <;> decide) r

theorem delim_rest {a : Bool} {t : Syn (.rest a)} (h : t.Valid (lexicon flags)) (r : List UInt8) :
    Delim (t.render ++ r) := by
  cases t with
  | stop g =>
    rw [Syn.render, append_assoc]
    exact delim_gap h (delim_closer a r)
  | trail g g' =>
    rw [Syn.render, append_assoc]
    exact delim_gap h.2.1 (delim_byte (by decide) _)
  | more g hd v t =>
    rw [Syn.render, append_assoc]
    exact delim_gap h.1 (delim_byte (by decide) _)

/-- The moves over a tree. -/
def Traced (flags : AxlJsonFlags) (max : Nat) : {p : Part} → Syn p → Prop
  | .value, t => ∀ (st : ScanState) (kinds : List Bool) (pos : Nat) (g r : List UInt8),
      TakesValue st → Gap flags g → Delim r → kinds.length + t.depth ≤ max →
      Path flags max True ⟨st, kinds, pos, g ++ (t.render ++ r)⟩ (t.marks (pos + g.length))
        ⟨afterState kinds, kinds, pos + g.length + t.render.length, r⟩
  | .rest a, t => ∀ (kinds : List Bool) (pos : Nat) (r : List UInt8),
      kinds.length + 1 + t.depth ≤ max →
      Path flags max True ⟨.after, a :: kinds, pos, t.render ++ r⟩ (t.marks pos)
        ⟨afterState kinds, kinds, pos + t.render.length, r⟩

/-- The moves over an element of a container. -/
theorem path_element {a : Bool} {h : Head a} {v : Syn .value} (hh : h.Valid (lexicon flags))
    (hv : Traced flags max v) {st : ScanState} (hst : st = firstState a ∨ st = nextState a)
    {kinds : List Bool} {r : List UInt8} (hr : Delim r) (hd : kinds.length + 1 + v.depth ≤ max)
    (pos : Nat) :
    Path flags max True ⟨st, a :: kinds, pos, h.render ++ (v.render ++ r)⟩
      (h.marks pos ++ v.marks (pos + h.render.length))
      ⟨.after, a :: kinds, pos + h.render.length + v.render.length, r⟩ := by
  have hafter : afterState (a :: kinds) = .after := by simp [afterState]
  cases h with
  | item g =>
    have hval : TakesValue st := by
      rcases hst with rfl | rfl
      · exact .inr (.inr rfl)
      · exact .inr (.inl rfl)
    have := hv st (true :: kinds) pos g r hval hh hr (by simpa using hd)
    rw [hafter] at this
    exact this
  | member g k g₁ g₂ =>
    obtain ⟨hg, hk, hg₁, hg₂⟩ := hh
    have hkey := @Move.key flags max st (false :: kinds) pos g k hst hg hk
      (g₁ ++ 0x3A :: (g₂ ++ (v.render ++ r)))
    have hcolon := @Move.colon flags max (false :: kinds) (pos + g.length + k.text.length) g₁ hg₁
      (g₂ ++ (v.render ++ r))
    have hval := hv .value (false :: kinds) (pos + g.length + k.text.length + g₁.length + 1) g₂ r
      (.inr (.inl rfl)) hg₂ hr (by simpa using hd)
    rw [hafter] at hval
    have hpath := (Path.single hkey fun _ => delim_gap hg₁ (delim_byte (by decide) _)).trans
      ((Path.single hcolon fun _ => trivial).trans hval)
    have hlen : pos + (Head.member g k g₁ g₂).render.length
        = pos + g.length + k.text.length + g₁.length + 1 + g₂.length := by
      simp only [Head.render, length_append, length_cons]
      omega
    rw [hlen]
    simpa [Head.render, Head.marks] using hpath

/-- **The moves over a tree** of the lexicon. -/
theorem path_of_syn {p : Part} (t : Syn p) (ht : t.Valid (lexicon flags)) :
    Traced flags max t := by
  induction t with
  | leaf l =>
    intro st kinds pos g r hst hg hr hd
    exact Path.single (.value hst hg (.leaf ht r)) fun _ => by
      cases l with
      | str q b => trivial
      | prim t => exact hr
  | empty a g₀ =>
    intro st kinds pos g r hst hg hr hd
    have hopen : Move flags max ⟨st, kinds, pos, g ++ opener a :: (g₀ ++ closer a :: r)⟩ _ _ :=
      .value hst hg (.opens a (by simp only [Syn.depth] at hd; omega) _)
    have hclose := @Move.close flags max a (firstState a) kinds (pos + g.length + 1) g₀
      (.inr (.inl rfl)) ht r
    have hpath := (@Path.single flags max True _ _ _ hopen fun _ => trivial).trans
      (Path.single hclose fun _ => trivial)
    simpa [Syn.render, Syn.marks, Nat.add_assoc, Nat.add_comm, Nat.add_left_comm] using hpath
  | node a h v t ihv iht =>
    intro st kinds pos g r hst hg hr hd
    obtain ⟨hh, hv, ht⟩ := ht
    simp only [Syn.depth] at hd
    have hopen : Move flags max
        ⟨st, kinds, pos, g ++ opener a :: (h.render ++ (v.render ++ (t.render ++ r)))⟩ _ _ :=
      .value hst hg (.opens a (by omega) _)
    have helem := @path_element flags max a h v hh (ihv hv) (firstState a) (.inl rfl) kinds
      (t.render ++ r) (delim_rest ht r) (by omega) (pos + g.length + 1)
    have hrest := iht ht kinds (pos + g.length + 1 + h.render.length + v.render.length) r (by omega)
    have hpath := (Path.single hopen fun _ => trivial).trans (helem.trans hrest)
    simpa [Syn.render, Syn.marks, Nat.add_assoc, Nat.add_comm, Nat.add_left_comm] using hpath
  | @stop a g =>
    intro kinds pos r hd
    have hclose := @Move.close flags max a .after kinds pos g (.inl rfl) ht r
    have hpath := @Path.single flags max True _ _ _ hclose fun _ => trivial
    simpa [Syn.render, Syn.marks, Nat.add_assoc] using hpath
  | @trail a g g' =>
    intro kinds pos r hd
    obtain ⟨hc, hg, hg'⟩ := ht
    have hcomma := @Move.comma flags max a kinds pos g hg (g' ++ closer a :: r)
    have hclose := @Move.close flags max a (nextState a) kinds (pos + g.length + 1) g'
      (.inr (.inr ⟨rfl, hc⟩)) hg' r
    have hpath := (@Path.single flags max True _ _ _ hcomma fun _ => trivial).trans
      (Path.single hclose fun _ => trivial)
    simpa [Syn.render, Syn.marks, Nat.add_assoc, Nat.add_comm, Nat.add_left_comm] using hpath
  | @more a g h v t ihv iht =>
    intro kinds pos r hd
    obtain ⟨hg, hh, hv, ht⟩ := ht
    simp only [Syn.depth] at hd
    have hcomma := @Move.comma flags max a kinds pos g hg
      (h.render ++ (v.render ++ (t.render ++ r)))
    have helem := @path_element flags max a h v hh (ihv hv) (nextState a) (.inr rfl) kinds
      (t.render ++ r) (delim_rest ht r) (by omega) (pos + g.length + 1)
    have hrest := iht ht kinds (pos + g.length + 1 + h.render.length + v.render.length) r (by omega)
    have hpath := (Path.single hcomma fun _ => trivial).trans (helem.trans hrest)
    simpa [Syn.render, Syn.marks, Nat.add_assoc, Nat.add_comm, Nat.add_left_comm] using hpath

/-! ### The tree of a path -/

section Sound

variable {E : Place} (hE : E.state = .rootDone)

include hE

variable {mks : List Mark}

theorem Path.step {m : Place} (h : Path flags max fol m mks E) (hm : m.state ≠ .rootDone) :
    ∃ mk m₁ mks', Move flags max m mk m₁ ∧ Path flags max fol m₁ mks' E ∧
      mks = mk.toList ++ mks' := by
  cases h with
  | nil => exact absurd hE hm
  | cons hmove _ hp => exact ⟨_, _, _, hmove, hp, rfl⟩

variable {kinds : List Bool}

/-- Behind an opening bracket or a comma: the container closes, or an element
starts. -/
theorem element_or_close {a : Bool} {st : ScanState} {pos : Nat} {w : List UInt8}
    (hst : st = firstState a ∨ st = nextState a)
    (h : Path flags max fol ⟨st, a :: kinds, pos, w⟩ mks E) :
    (∃ g r mks', Gap flags g ∧ w = g ++ closer a :: r ∧ MayClose flags a st ∧
      mks = .closes a (pos + g.length) :: mks' ∧
      Path flags max fol ⟨afterState kinds, kinds, pos + g.length + 1, r⟩ mks' E) ∨
    ∃ (h : Head a) (w' : List UInt8) (mk : Mark) (m₁ : Place) (mks' : List Mark),
      h.Valid (lexicon flags) ∧ w = h.render ++ w' ∧ mks = h.marks pos ++ mk :: mks' ∧
      Starts flags max (a :: kinds) (pos + h.render.length) w' mk m₁ ∧
      Path flags max fol m₁ mks' E := by
  have hne : st ≠ .rootDone := by
    rcases hst with rfl | rfl <;> cases a <;> simp [firstState, nextState]
  obtain ⟨mk, m₁, mks', hmove, hp, rfl⟩ := h.step hE hne
  generalize hm₀ : (⟨st, a :: kinds, pos, w⟩ : Place) = m₀ at hmove
  cases hmove with
  | @value st' kinds' pos' g r mk m' hst' hg hv =>
    cases hm₀
    cases a with
    | true => exact .inr ⟨.item g, r, mk, m₁, mks', hg, rfl, rfl, hv, hp⟩
    | false =>
      -- an object takes no value here
      exfalso
      rcases hst with rfl | rfl <;> simp [TakesValue, firstState, nextState] at hst'
  | @key st' kinds' pos' g k hst' hg hk r =>
    cases hm₀
    cases a with
    | true =>
      exfalso
      rcases hst with rfl | rfl <;> simp [firstState, nextState] at hst'
    | false =>
      obtain ⟨mk₂, m₂, mks₂, hmove₂, hp₂, rfl⟩ := hp.step hE (by simp)
      generalize hm₁ : (⟨.colon, false :: kinds, pos + g.length + k.text.length, r⟩ : Place) = m₁'
        at hmove₂
      cases hmove₂ with
      | value hst₂ => cases hm₁; simp [TakesValue] at hst₂
      | key hst₂ => cases hm₁; simp at hst₂
      | comma => cases hm₁
      | close hst₂ =>
        cases hm₁
        simp [MayClose, firstState, nextState] at hst₂
      | @colon kinds₂ pos₂ g₁ hg₁ r₁ =>
        cases hm₁
        obtain ⟨mk₃, m₃, mks₃, hmove₃, hp₃, rfl⟩ := hp₂.step hE (by simp)
        generalize hm₂ : (⟨.value, false :: kinds, pos + g.length + k.text.length + g₁.length + 1, r₁⟩ :
          Place) = m₂' at hmove₃
        cases hmove₃ with
        | colon => cases hm₂
        | comma => cases hm₂
        | key hst₃ => cases hm₂; simp at hst₃
        | close hst₃ =>
          cases hm₂
          simp [MayClose, firstState, nextState] at hst₃
        | @value st₃ kinds₃ pos₃ g₂ r₂ mk₃ m₃' hst₃ hg₂ hv =>
          cases hm₂
          refine .inr ⟨.member g k g₁ g₂, r₂, mk₃, m₃, mks₃, ⟨hg, hk, hg₁, hg₂⟩, ?_, ?_, ?_, hp₃⟩
          · simp [Head.render]
          · simp [Head.marks]
          · have hlen : pos + (Head.member g k g₁ g₂).render.length
                = pos + g.length + k.text.length + g₁.length + 1 + g₂.length := by
              simp only [Head.render, length_append, length_cons]
              omega
            rw [hlen]
            exact hv
  | colon =>
    cases hm₀
    exfalso
    rcases hst with h | h <;> cases a <;> simp [firstState, nextState] at h
  | comma =>
    cases hm₀
    exfalso
    rcases hst with h | h <;> cases a <;> simp [firstState, nextState] at h
  | @close a' st' kinds' pos' g hst' hg r =>
    cases hm₀
    exact .inl ⟨g, r, mks', hg, rfl, hst', rfl, hp⟩

/-- A path that goes on behind a tree. -/
def Continues (flags : AxlJsonFlags) (max : Nat) (fol : Prop) (E : Place) (p : Part)
    (bound : Nat) (kinds : List Bool) (pos : Nat) (w : List UInt8) (mks : List Mark) : Prop :=
  ∃ (t : Syn p) (r : List UInt8) (mks' : List Mark), w = t.render ++ r ∧
    t.Valid (lexicon flags) ∧ bound + t.depth ≤ max ∧ mks = t.marks pos ++ mks' ∧
    Path flags max fol ⟨afterState kinds, kinds, pos + t.render.length, r⟩ mks' E

/-- The moves behind an element: the container closes, or a comma stands. -/
theorem comma_or_close {a : Bool} {pos : Nat} {w : List UInt8}
    (h : Path flags max fol ⟨.after, a :: kinds, pos, w⟩ mks E) :
    (∃ g r mks', Gap flags g ∧ w = g ++ closer a :: r ∧
      mks = .closes a (pos + g.length) :: mks' ∧
      Path flags max fol ⟨afterState kinds, kinds, pos + g.length + 1, r⟩ mks' E) ∨
    ∃ g r, Gap flags g ∧ w = g ++ 0x2C :: r ∧
      Path flags max fol ⟨nextState a, a :: kinds, pos + g.length + 1, r⟩ mks E := by
  obtain ⟨mk, m₁, mks', hmove, hp, rfl⟩ := h.step hE (by simp)
  generalize hm₀ : (⟨.after, a :: kinds, pos, w⟩ : Place) = m₀ at hmove
  cases hmove with
  | value hst => cases hm₀; simp [TakesValue] at hst
  | key hst => cases hm₀; simp at hst
  | colon => cases hm₀
  | comma hg r =>
    cases hm₀
    exact .inr ⟨_, r, hg, rfl, hp⟩
  | close hst hg r =>
    cases hm₀
    exact .inl ⟨_, r, mks', hg, rfl, rfl, hp⟩

omit hE in
/-- An element and what follows it, given the trees of shorter texts. -/
theorem element_of_path {n : Nat}
    (ihv : ∀ kinds pos w mk m₁ mks, w.length ≤ n → kinds.length ≤ max →
      Starts flags max kinds pos w mk m₁ → Path flags max fol m₁ mks E →
      Continues flags max fol E .value kinds.length kinds pos w (mk :: mks))
    (ihr : ∀ a kinds pos w mks, w.length ≤ n → kinds.length < max →
      Path flags max fol ⟨.after, a :: kinds, pos, w⟩ mks E →
      Continues flags max fol E (.rest a) (kinds.length + 1) kinds pos w mks) {a : Bool} {pos : Nat}
    {w : List UInt8} {mk : Mark} {m₁ : Place} (hn : w.length ≤ n) (hmax : kinds.length < max)
    (hs : Starts flags max (a :: kinds) pos w mk m₁) (hp : Path flags max fol m₁ mks E) :
    ∃ (v : Syn .value) (t : Syn (.rest a)) (r : List UInt8) (mks' : List Mark),
      w = v.render ++ (t.render ++ r) ∧ v.Valid (lexicon flags) ∧ t.Valid (lexicon flags) ∧
      kinds.length + 1 + v.depth ≤ max ∧ kinds.length + 1 + t.depth ≤ max ∧
      mk :: mks = v.marks pos ++ (t.marks (pos + v.render.length) ++ mks') ∧
      Path flags max fol
        ⟨afterState kinds, kinds, pos + v.render.length + t.render.length, r⟩ mks' E := by
  obtain ⟨v, r, mks₁, rfl, hv, hdv, hmks, hpv⟩ := ihv (a :: kinds) _ _ _ _ _ hn hmax hs hp
  rw [show afterState (a :: kinds) = .after by simp [afterState]] at hpv
  rw [length_append] at hn
  obtain ⟨t, r', mks₂, rfl, ht, hdt, rfl, hpt⟩ := ihr _ _ _ _ _ (by omega) hmax hpv
  exact ⟨v, t, r', mks₂, rfl, hv, ht, hdv, hdt, hmks, hpt⟩

/-- **The tree of a path**: what it takes from the start of a value, and what it
takes behind an element. -/
theorem syn_of_path (n : Nat) :
    (∀ kinds pos w mk m₁ mks, w.length ≤ n → kinds.length ≤ max →
      Starts flags max kinds pos w mk m₁ → Path flags max fol m₁ mks E →
      Continues flags max fol E .value kinds.length kinds pos w (mk :: mks)) ∧
    ∀ a kinds pos w mks, w.length ≤ n → kinds.length < max →
      Path flags max fol ⟨.after, a :: kinds, pos, w⟩ mks E →
      Continues flags max fol E (.rest a) (kinds.length + 1) kinds pos w mks := by
  -- an opening bracket or a comma stands before every shorter text
  induction n with
  | zero =>
    refine ⟨?_, ?_⟩
    · intro kinds pos w mk m₁ mks hn _ hs hp
      obtain ⟨c, cs, rfl, -⟩ := Scanner.starts_begins hs
      simp at hn
    · intro a kinds pos w mks hn hmax hp
      rcases comma_or_close hE hp with ⟨g, r, mks', -, rfl, -⟩ | ⟨g, r, -, rfl, -⟩ <;>
        simp at hn
  | succ n ih =>
    obtain ⟨ihv, ihr⟩ := ih
    refine ⟨?_, ?_⟩
    · intro kinds pos w mk m₁ mks hn hmax hs hp
      cases hs with
      | @leaf l hl r => exact ⟨.leaf l, r, mks, rfl, hl, hmax, rfl, hp⟩
      | opens a hd r =>
        rcases element_or_close hE (.inl rfl) hp with
          ⟨g, r', mks', hg, rfl, -, rfl, hp'⟩ | ⟨h, w', mk, m₁, mks', hh, rfl, rfl, hs, hp'⟩
        · refine ⟨.empty a g, r', mks', ?_, hg, hd, rfl, ?_⟩
          · simp [Syn.render]
          · simpa [Syn.render, Nat.add_assoc, Nat.add_comm, Nat.add_left_comm] using hp'
        · obtain ⟨v, t, r', mks₂, rfl, hv, ht, hdv, hdt, hmks, hpt⟩ :=
            element_of_path ihv ihr (by simp at hn; omega) hd hs hp'
          refine ⟨.node a h v t, r', mks₂, ?_, ⟨hh, hv, ht⟩, ?_, ?_, ?_⟩
          · simp [Syn.render]
          · simp only [Syn.depth]
            omega
          · simp [Syn.marks, hmks]
          · simpa [Syn.render, Nat.add_assoc, Nat.add_comm, Nat.add_left_comm] using hpt
    · intro a kinds pos w mks hn hmax hp
      rcases comma_or_close hE hp with ⟨g, r, mks', hg, rfl, rfl, hp'⟩ | ⟨g, r, hg, rfl, hp'⟩
      · refine ⟨.stop g, r, mks', ?_, hg, hmax, rfl, ?_⟩
        · simp [Syn.render]
        · simpa [Syn.render, Nat.add_assoc] using hp'
      · rcases element_or_close hE (.inr rfl) hp' with
          ⟨g', r', mks', hg', rfl, hc, rfl, hp''⟩ | ⟨h, w', mk, m₁, mks', hh, rfl, rfl, hs, hp''⟩
        · -- behind a comma only a trailing comma lets the container close
          have htrail : allows flags allowTrailingComma = true := by
            rcases hc with hc | hc | hc
            · cases a <;> simp [nextState] at hc
            · cases a <;> simp [nextState, firstState] at hc
            · exact hc.2
          refine ⟨.trail g g', r', mks', ?_, ⟨htrail, hg, hg'⟩, hmax, rfl, ?_⟩
          · simp [Syn.render]
          · simpa [Syn.render, Nat.add_assoc, Nat.add_comm, Nat.add_left_comm] using hp''
        · obtain ⟨v, t, r', mks₂, rfl, hv, ht, hdv, hdt, hmks, hpt⟩ :=
            element_of_path ihv ihr (by simp at hn; omega) hmax hs hp''
          refine ⟨.more g h v t, r', mks₂, ?_, ⟨hg, hh, hv, ht⟩, ?_, ?_, ?_⟩
          · simp [Syn.render]
          · simp only [Syn.depth]
            omega
          · simp [Syn.marks, hmks]
          · simpa [Syn.render, Nat.add_assoc, Nat.add_comm, Nat.add_left_comm] using hpt

end Sound

end Json

end AxlSdk
