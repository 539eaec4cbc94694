import AxlSdk.Json.Language

/-!
# Walks over the tokens of a document

The tokens of a document list its tree in preorder, and a walk over the members of
an object finds its way in them by their spans alone: behind a value, it skips the
tokens that start before the value ends.

- `skipValue_value`: the skip is right on the listing of a tree.
- `positions_node`: a walk visits the keys of its object, in document order.
- `objects_spec`: the objects of a tree, at any depth, and their keys.
-/

namespace AxlSdk

namespace Json

open JsonSyntax List

/-! ## The walk -/

/-- The loops that skip a value: one past the token at `idx` and all nested in it. -/
def skipValue (toks : List Tok) (idx : Nat) : Nat :=
  match toks[idx]? with
  | none => idx + 1
  | some v => idx + 1 + ((toks.drop (idx + 1)).takeWhile fun t => t.start < v.stop).length

/-- The positions of the `pairs` keys from `pos` on, as the walks over an object meet
them. -/
def positions (toks : List Tok) : Nat → Nat → List Nat
  | 0, _ => []
  | pairs + 1, pos =>
    if pos + 1 < toks.length then pos :: positions toks pairs (skipValue toks (pos + 1)) else []

theorem skipValue_drop (toks : List Tok) (i idx : Nat) :
    skipValue (toks.drop i) idx + i = skipValue toks (idx + i) := by
  unfold skipValue
  rw [getElem?_drop, drop_drop, Nat.add_comm i idx,
    show i + (idx + 1) = idx + i + 1 by omega]
  split
  · omega
  · omega

theorem positions_drop (toks : List Tok) (i pairs pos : Nat) :
    (positions (toks.drop i) pairs pos).map (· + i) = positions toks pairs (pos + i) := by
  induction pairs generalizing pos with
  | zero => rfl
  | succ pairs ih =>
    rw [positions, positions, length_drop]
    by_cases h : pos + 1 < toks.length - i
    · rw [if_pos h, if_pos (by omega), map_cons, ih, skipValue_drop,
        show pos + 1 + i = pos + i + 1 by omega]
    · rw [if_neg h, if_neg (by omega)]
      rfl

/-! ## Keys and objects of a tree -/

/-- The tokens of the head of an element. -/
def headWeight (isArray : Bool) : Nat := if isArray then 0 else 1

/-- How many tokens a tree has. -/
def weight : {p : Part} → Syn p → Nat
  | _, .leaf _ => 1
  | _, .empty _ _ => 1
  | _, .node a _ v r => 1 + headWeight a + weight v + weight r
  | _, .stop _ => 0
  | _, .trail _ _ => 0
  | .rest a, .more _ _ v r => headWeight a + weight v + weight r

/-- The positions of the keys in what is left of an object, its tokens being those from
`idx` on. -/
def keysFrom : {p : Part} → Nat → Syn p → List Nat
  | .rest false, idx, .more _ _ v r => idx :: keysFrom (idx + 1 + weight v) r
  | _, _, _ => []

/-- The objects of a tree whose tokens are those from `idx` on: the position of each,
with those of its keys. -/
def objects : {p : Part} → Nat → Syn p → List (Nat × List Nat)
  | _, _, .leaf _ => []
  | _, idx, .empty a _ => if a then [] else [(idx, [])]
  | _, idx, .node a _ v r =>
    (if a then [] else [(idx, (idx + 1) :: keysFrom (idx + 2 + weight v) r)]) ++
      (objects (idx + 1 + headWeight a) v ++ objects (idx + 1 + headWeight a + weight v) r)
  | _, _, .stop _ => []
  | _, _, .trail _ _ => []
  | .rest a, idx, .more _ _ v r =>
    objects (idx + headWeight a) v ++ objects (idx + headWeight a + weight v) r

theorem listing_length {p : Part} (t : Syn p) (off : Nat) : (t.listing off).length = weight t := by
  have hhead : ∀ {a : Bool} (h : Head a) (off : Nat), (h.listing off).length = headWeight a := by
    intro a h off
    cases h <;> rfl
  induction t generalizing off with
  | leaf | empty | stop | trail => rfl
  | node a h v r ihv ihr =>
    rw [Syn.listing, length_cons, length_append, length_append, hhead, ihv, ihr,
      weight]
    omega
  | @more a g h v r ihv ihr =>
    rw [Syn.listing, length_append, length_append, hhead, ihv, ihr, weight]
    omega

theorem tokens_length {p : Part} (t : Syn p) (off : Nat) : (tokens off t).length = weight t := by
  rw [tokens, length_map, listing_length]

theorem weight_pos (v : Syn .value) : 1 ≤ weight v := by
  cases v with
  | leaf | empty => exact Nat.le_refl 1
  | node =>
    rw [weight]
    omega

variable {flags : AxlJsonFlags}

/-! ## Spans -/

/-- A span within `[lo, hi)` of the text, the end of a string being on its quote. -/
def Within (lo hi : Nat) (x : Token) : Prop := lo ≤ x.start ∧ x.start < hi ∧ x.start ≤ x.stop ∧ x.stop ≤ hi

theorem Within.mono {lo hi lo' hi' : Nat} {x : Token} (h : Within lo hi x) (hlo : lo' ≤ lo)
    (hhi : hi ≤ hi') : Within lo' hi' x := by
  unfold Within at h ⊢
  omega

theorem span_within {l : Leaf} (hl : ValueLeaf flags l ∨ KeyLeaf flags l) (off : Nat) :
    off ≤ (l.span off).1 ∧ (l.span off).1 < off + l.text.length ∧
      (l.span off).1 ≤ (l.span off).2 ∧ (l.span off).2 ≤ off + l.text.length := by
  have hpos := leaf_text_ne hl
  cases l with
  | str q b =>
    simp only [Leaf.span, Leaf.text, length_cons, length_append, length_nil]
    omega
  | prim t =>
    simp only [Leaf.span, Leaf.text] at hpos ⊢
    omega

theorem head_within {a : Bool} {h : Head a} (hh : h.Valid (lexicon flags)) (off : Nat) :
    ∀ x ∈ h.listing off, Within off (off + h.render.length) x := by
  cases h with
  | item => simp [Head.listing]
  | member g k g₁ g₂ =>
    intro x hx
    obtain rfl := mem_singleton.mp hx
    have := span_within (.inr hh.2.1) (off + g.length)
    simp only [Within, keyToken, Head.render, length_append, length_cons]
    omega

/-- The tokens of a tree lie within its text. -/
theorem listing_within {p : Part} {t : Syn p} (ht : t.Valid (lexicon flags)) (off : Nat) :
    ∀ x ∈ t.listing off, Within off (off + t.render.length) x := by
  induction t generalizing off with
  | leaf l =>
    intro x hx
    obtain rfl := mem_singleton.mp hx
    exact span_within (.inl ht) off
  | empty a g =>
    intro x hx
    obtain rfl := mem_singleton.mp hx
    simp only [Within, Syn.render, length_cons, length_append, length_nil]
    omega
  | node a h v r ihv ihr =>
    obtain ⟨hh, hv, hr⟩ := ht
    intro x hx
    simp only [Syn.listing, mem_cons, mem_append] at hx
    simp only [Syn.render, length_cons, length_append]
    rcases hx with rfl | hx | hx | hx
    · simp only [Within, Syn.render, length_cons, length_append]
      omega
    · exact (head_within hh _ x hx).mono (by omega) (by omega)
    · exact (ihv hv _ x hx).mono (by omega) (by omega)
    · exact (ihr hr _ x hx).mono (by omega) (by omega)
  | stop | trail => simp [Syn.listing]
  | more g h v r ihv ihr =>
    obtain ⟨-, hh, hv, hr⟩ := ht
    intro x hx
    simp only [Syn.listing, mem_append] at hx
    simp only [Syn.render, length_cons, length_append]
    rcases hx with hx | hx | hx
    · exact (head_within hh _ x hx).mono (by omega) (by omega)
    · exact (ihv hv _ x hx).mono (by omega) (by omega)
    · exact (ihr hr _ x hx).mono (by omega) (by omega)

/-- Tokens that start at `off` or behind it. -/
def Behind (off : Nat) (toks : List Tok) : Prop := ∀ x ∈ toks, (off : Int) ≤ x.start

theorem Behind.append {off : Nat} {a b : List Tok} (ha : Behind off a) (hb : Behind off b) :
    Behind off (a ++ b) := by
  intro x hx
  rcases mem_append.mp hx with h | h
  · exact ha x h
  · exact hb x h

theorem Behind.mono {off off' : Nat} {a : List Tok} (ha : Behind off a) (h : off' ≤ off) :
    Behind off' a := fun x hx => by
  have := ha x hx
  omega

theorem behind_tokens {p : Part} {t : Syn p} (ht : t.Valid (lexicon flags)) (off : Nat) :
    Behind off (tokens off t) := by
  intro x hx
  obtain ⟨y, hy, rfl⟩ := mem_map.mp hx
  have := (listing_within ht off y hy).1
  simp only [Tok.ofToken]
  omega

/-! ## The skip -/

theorem takeWhile_split {α : Type} {p : α → Bool} {a b : List α} (ha : ∀ x ∈ a, p x = true)
    (hb : ∀ x ∈ b, p x = false) : (a ++ b).takeWhile p = a := by
  rw [takeWhile_append_of_pos ha]
  cases b with
  | nil => simp
  | cons x b => simp [hb x (by simp)]

/-- **The skip is right**: behind a value it goes on with the token behind its listing. -/
theorem skipValue_value {v : Syn .value} (hv : v.Valid (lexicon flags)) (pre : List Tok)
    {post : List Tok} {off : Nat} (hpost : Behind (off + v.render.length) post) :
    skipValue (pre ++ (tokens off v ++ post)) pre.length = pre.length + weight v := by
  obtain ⟨root, inner, hlist⟩ : ∃ root inner, v.listing off = root :: inner := by
    cases v <;> exact ⟨_, _, rfl⟩
  -- the root ends behind all that it holds
  have hroot : root.stop ≤ off + v.render.length ∧ ∀ x ∈ inner, x.start < root.stop := by
    refine ⟨(listing_within hv off root (by simp [hlist])).2.2.2, ?_⟩
    cases v with
    | leaf l =>
      obtain ⟨rfl, rfl⟩ := List.cons.inj hlist
      simp
    | empty a g =>
      obtain ⟨rfl, rfl⟩ := List.cons.inj hlist
      simp
    | node a h w r =>
      intro x hx
      have hin := (listing_within hv off x (by rw [hlist]; exact mem_cons_of_mem _ hx)).2.1
      obtain ⟨rfl, -⟩ := List.cons.inj hlist
      exact hin
  have htoks : tokens off v = Tok.ofToken root :: inner.map Tok.ofToken := by
    rw [tokens, hlist, map_cons]
  have hlen := tokens_length v off
  rw [htoks, length_cons] at hlen
  have hget : (pre ++ (tokens off v ++ post))[pre.length]? = some (Tok.ofToken root) := by
    rw [getElem?_append_right (Nat.le_refl _), Nat.sub_self, htoks]
    rfl
  have hdrop : (pre ++ (tokens off v ++ post)).drop (pre.length + 1) =
      inner.map Tok.ofToken ++ post := by
    rw [← drop_drop, drop_left, htoks]
    rfl
  rw [skipValue, hget]
  dsimp only
  rw [hdrop, takeWhile_split]
  · omega
  · intro x hx
    obtain ⟨y, hy, rfl⟩ := mem_map.mp hx
    have hlt : (y.start : Int) < root.stop := by exact_mod_cast hroot.2 y hy
    exact decide_eq_true hlt
  · intro x hx
    have hbehind := hpost x hx
    have hle := hroot.1
    have hge : ¬ x.start < (root.stop : Int) := by omega
    exact decide_eq_false hge

/-! ## Keys -/

/-- A token that stands for a key of the document. -/
structure KeyTok (json : List UInt8) (tok : Tok) : Prop where
  type : tok.type = .string
  span : ∃ a b : Nat, tok.start = a ∧ tok.stop = b ∧ a ≤ b ∧ b ≤ json.length
  /-- A NUL stands behind a backslash only. -/
  nul : 0 ∈ tok.text json → 0x5C ∈ tok.text json

/-- An event over the span of a key has its bytes. -/
theorem KeyTok.textAt {json : List UInt8} {tok : Tok} (h : KeyTok json tok) {start : Int}
    {len : Nat} (hstart : start = tok.start) (hlen : (len : Int) = tok.stop - tok.start) :
    textAt json start len = .bytes (tok.text json) := by
  obtain ⟨a, b, ha, hb, hab, hle⟩ := h.span
  have hspan : tok.stop.toNat - tok.start.toNat = len := by
    rw [ha, hb] at hlen ⊢
    omega
  have hbound : start.toNat + len ≤ json.length := by
    rw [ha, hb] at hlen
    omega
  have hnonneg : 0 ≤ start := by
    rw [hstart, ha]
    exact Int.natCast_nonneg a
  rw [Json.textAt, if_pos ⟨hnonneg, hbound⟩, Tok.text, hspan, hstart]

theorem strBody_nul {q : UInt8} {b : List UInt8} (h : StrBody flags q b) (hmem : 0 ∈ b) :
    0x5C ∈ b := by
  induction h with
  | nil => simp at hmem
  | cons hu _ _ ih =>
    rcases mem_append.mp hmem with hmem | hmem
    · cases hu with
      | raw _ hc =>
        obtain rfl := mem_singleton.mp hmem
        exact absurd hc (by simp)
      | escape => simp
    · exact mem_append_right _ (ih hmem)

theorem text_of_span {json x y z : List UInt8} {a b : Nat} {type : TokType} {size : Nat}
    (hjson : json = x ++ (y ++ z)) (ha : a = x.length) (hb : b = a + y.length) :
    (Tok.mk type a b size).text json = y := by
  subst ha hb
  have hlen : ((x.length + y.length : Nat) : Int).toNat - ((x.length : Nat) : Int).toNat =
      y.length := by omega
  rw [Tok.text, hlen, hjson, Int.toNat_natCast, drop_left, take_left]

theorem keyTok_of_leaf {k : Leaf} (hk : KeyLeaf flags k) {json a b : List UInt8} {off : Nat}
    (hjson : json = a ++ (k.text ++ b)) (hoff : a.length = off) :
    KeyTok json (Tok.ofToken (keyToken off k)) := by
  have hspan := span_within (.inr hk) off
  have hlen := congrArg List.length hjson
  simp only [length_append] at hlen
  refine ⟨rfl, ⟨_, _, rfl, rfl, hspan.2.2.1, ?_⟩, fun hmem => ?_⟩
  · have := hspan.2.2.2
    simp only [keyToken]
    omega
  · cases hk with
    | @str q body hq hbody =>
      have htext : (Tok.ofToken (keyToken off (.str q body))).text json = body := by
        refine text_of_span (x := a ++ [q]) (z := q :: b) ?_ ?_ rfl
        · rw [hjson]
          simp [Leaf.text]
        · simp [keyToken, Leaf.span, hoff]
      rw [htext] at hmem ⊢
      exact strBody_nul hbody hmem
    | @ident t hf ht =>
      have htext : (Tok.ofToken (keyToken off (.prim t))).text json = t :=
        text_of_span (x := a) (z := b) hjson (by simp [keyToken, Leaf.span, hoff]) rfl
      rw [htext] at hmem
      exact absurd (ht.2 0 hmem) (by decide)

/-- The tokens `ks` of `toks` stand for keys. -/
def AllKeys (json : List UInt8) (toks : List Tok) (ks : List Nat) : Prop :=
  ∀ k ∈ ks, ∃ tok, toks[k]? = some tok ∧ KeyTok json tok

/-- The tree `t` stands at the offset `off` of the text and its tokens at the position
`idx` of the array, with nothing of the tree behind them. -/
structure Stands {p : Part} (flags : AxlJsonFlags) (json : List UInt8) (toks : List Tok)
    (off idx : Nat) (t : Syn p) : Prop where
  valid : t.Valid (lexicon flags)
  text : ∃ a b, json = a ++ (t.render ++ b) ∧ a.length = off
  listed : ∃ pre post, toks = pre ++ (tokens off t ++ post) ∧ pre.length = idx ∧
    Behind (off + t.render.length) post

section Stands

variable {json : List UInt8} {toks : List Tok} {off idx : Nat}

theorem Stands.root {v : Syn .value} (h : Stands flags json toks off idx v) :
    ∃ tok, toks[idx]? = some tok ∧ (tokens off v).head? = some tok := by
  obtain ⟨pre, post, rfl, rfl, -⟩ := h.listed
  obtain ⟨tok, inner, hlist⟩ : ∃ tok inner, tokens off v = tok :: inner := by
    refine exists_cons_of_length_pos ?_
    rw [tokens_length]
    exact weight_pos v
  refine ⟨tok, ?_, by rw [hlist]; rfl⟩
  rw [getElem?_append_right (Nat.le_refl _), Nat.sub_self, hlist]
  rfl

theorem Stands.skip {v : Syn .value} (h : Stands flags json toks off idx v) :
    skipValue toks idx = idx + weight v := by
  obtain ⟨pre, post, rfl, rfl, hpost⟩ := h.listed
  exact skipValue_value h.valid pre hpost

theorem Stands.length_le {p : Part} {t : Syn p} (h : Stands flags json toks off idx t) :
    idx + weight t ≤ toks.length := by
  obtain ⟨pre, post, rfl, rfl, -⟩ := h.listed
  simp only [length_append, tokens_length]
  omega

/-- The parts of an element: its key, if it has one, its value and what follows. -/
structure Element (flags : AxlJsonFlags) (json : List UInt8) (toks : List Tok) (off idx : Nat)
    {a : Bool} (h : Head a) (v : Syn .value) (r : Syn (.rest a)) : Prop where
  key : a = false → ∃ tok, toks[idx]? = some tok ∧ KeyTok json tok
  value : Stands flags json toks (off + h.render.length) (idx + headWeight a) v
  rest : Stands flags json toks (off + h.render.length + v.render.length)
    (idx + headWeight a + weight v) r

theorem element_of_parts {a : Bool} {h : Head a} {v : Syn .value} {r : Syn (.rest a)}
    (hh : h.Valid (lexicon flags)) (hv : v.Valid (lexicon flags)) (hr : r.Valid (lexicon flags))
    {x y : List UInt8} (hjson : json = x ++ (h.render ++ (v.render ++ (r.render ++ y))))
    (hoff : x.length = off) {b c : List Tok}
    (htoks : toks = b ++ ((h.listing off).map Tok.ofToken ++
      (tokens (off + h.render.length) v ++
        (tokens (off + h.render.length + v.render.length) r ++ c))))
    (hidx : b.length = idx)
    (hpost : Behind (off + h.render.length + v.render.length + r.render.length) c) :
    Element flags json toks off idx h v r := by
  have hhead : ((h.listing off).map Tok.ofToken).length = headWeight a := by
    cases h <;> rfl
  refine ⟨fun ha => ?_, ⟨hv, ?_, ?_⟩, ⟨hr, ?_, ?_⟩⟩
  · subst ha
    cases h with
    | member g k g₁ g₂ =>
      refine ⟨Tok.ofToken (keyToken (off + g.length) k), ?_, ?_⟩
      · rw [htoks, getElem?_append_right (by omega), hidx, Nat.sub_self]
        rfl
      · have hsplit : json =
            (x ++ g) ++ (k.text ++ (g₁ ++ 0x3A :: g₂ ++ (v.render ++ (r.render ++ y)))) := by
          rw [hjson]
          simp only [Head.render, append_assoc]
        exact keyTok_of_leaf hh.2.1 hsplit (by simp [hoff])
  · exact ⟨x ++ h.render, r.render ++ y, by rw [hjson, append_assoc], by simp [hoff]⟩
  · refine ⟨b ++ (h.listing off).map Tok.ofToken, _, by rw [htoks, append_assoc],
      by rw [length_append, hidx, hhead], ?_⟩
    exact (behind_tokens hr _).append (hpost.mono (by omega))
  · refine ⟨x ++ (h.render ++ v.render), y, by rw [hjson]; simp only [append_assoc], ?_⟩
    simp only [length_append, hoff]
    omega
  · refine ⟨b ++ ((h.listing off).map Tok.ofToken ++ tokens (off + h.render.length) v), c,
      by rw [htoks]; simp only [append_assoc], ?_, hpost⟩
    simp only [length_append, hidx, hhead, tokens_length]
    omega

theorem Stands.node {a : Bool} {h : Head a} {v : Syn .value} {r : Syn (.rest a)}
    (hs : Stands flags json toks off idx (.node a h v r)) :
    Element flags json toks (off + 1) (idx + 1) h v r := by
  obtain ⟨hh, hv, hr⟩ := hs.valid
  obtain ⟨x, y, hjson, hoff⟩ := hs.text
  obtain ⟨pre, post, htoks, hidx, hpost⟩ := hs.listed
  refine element_of_parts hh hv hr (x := x ++ [opener a]) (y := y) ?_ (by simp [hoff])
    (b := pre ++ [Tok.ofToken ⟨container a, off, off + (Syn.node a h v r).render.length,
      r.count + 1⟩]) (c := post) ?_ (by simp [hidx]) (hpost.mono ?_)
  · rw [hjson]
    simp only [Syn.render, append_assoc, cons_append, nil_append]
  · rw [htoks]
    simp only [tokens, Syn.listing, map_cons, map_append, append_assoc,
      cons_append, nil_append]
  · simp only [Syn.render, length_cons, length_append]
    omega

theorem Stands.more {a : Bool} {g : List UInt8} {h : Head a} {v : Syn .value} {r : Syn (.rest a)}
    (hs : Stands flags json toks off idx (.more g h v r)) :
    Element flags json toks (off + g.length + 1) idx h v r := by
  obtain ⟨-, hh, hv, hr⟩ := hs.valid
  obtain ⟨x, y, hjson, hoff⟩ := hs.text
  obtain ⟨pre, post, htoks, hidx, hpost⟩ := hs.listed
  refine element_of_parts hh hv hr (x := x ++ (g ++ [0x2C])) (y := y) ?_ ?_
    (b := pre) (c := post) ?_ hidx (hpost.mono ?_)
  · rw [hjson]
    simp only [Syn.render, append_assoc, cons_append, nil_append]
  · simp only [length_append, length_singleton, hoff]
    omega
  · rw [htoks]
    simp only [tokens, Syn.listing, map_append, append_assoc]
  · simp only [Syn.render, length_cons, length_append]
    omega

/-- A walk over the members behind the first. -/
theorem positions_rest {p : Part} (r : Syn p) (hp : p = .rest false) (off idx : Nat)
    (hs : Stands flags json toks off idx r) :
    positions toks r.count idx = keysFrom idx r ∧ AllKeys json toks (keysFrom idx r) := by
  induction r generalizing off idx with
  | leaf | empty | node => cases hp
  | stop | trail =>
    cases hp
    exact ⟨rfl, fun k hk => by simp [keysFrom] at hk⟩
  | more g h v r _ ih =>
    cases hp
    have helem := hs.more
    obtain ⟨hpos, hkeys⟩ := ih rfl _ _ helem.rest
    have hlen := helem.value.length_le
    have hone := weight_pos v
    simp only [headWeight] at hpos hkeys hlen
    constructor
    · rw [Syn.count, positions, if_pos (by simp only [Bool.false_eq_true, if_false] at hlen; omega),
        keysFrom]
      have hskip := helem.value.skip
      simp only [headWeight, Bool.false_eq_true, if_false] at hskip hpos
      rw [hskip, hpos]
    · rw [keysFrom]
      intro k hk
      rcases mem_cons.mp hk with rfl | hk
      · exact helem.key rfl
      · exact hkeys k (by simpa using hk)

/-- **A walk visits the keys of its object**, in document order. -/
theorem positions_node {h : Head false} {v : Syn .value} {r : Syn (.rest false)}
    (hs : Stands flags json toks off idx (.node false h v r)) :
    positions toks (r.count + 1) (idx + 1) = (idx + 1) :: keysFrom (idx + 2 + weight v) r ∧
      AllKeys json toks ((idx + 1) :: keysFrom (idx + 2 + weight v) r) := by
  have helem := hs.node
  obtain ⟨hpos, hkeys⟩ := positions_rest r rfl _ _ helem.rest
  have hlen := helem.value.length_le
  have hskip := helem.value.skip
  have hone := weight_pos v
  simp only [headWeight, Bool.false_eq_true, if_false] at hpos hkeys hlen hskip
  constructor
  · rw [positions, if_pos (by omega), hskip, hpos]
  · intro k hk
    rcases mem_cons.mp hk with rfl | hk
    · exact helem.key rfl
    · exact hkeys k hk

/-! ## Objects -/

/-- The token at `o.1` is an object, and a walk over it visits the keys at `o.2`. -/
structure ObjectAt (json : List UInt8) (toks : List Tok) (o : Nat × List Nat) : Prop where
  object : ∃ tok, toks[o.1]? = some tok ∧ tok.type = .object ∧
    positions toks tok.size (o.1 + 1) = o.2
  keys : AllKeys json toks o.2

/-- What `objects` lists are objects. -/
theorem objects_sound {p : Part} (t : Syn p) (off idx : Nat)
    (hs : Stands flags json toks off idx t) : ∀ o ∈ objects idx t, ObjectAt json toks o := by
  induction t generalizing off idx with
  | leaf | stop | trail => simp [objects]
  | empty a g =>
    intro o ho
    cases a with
    | true => simp [objects] at ho
    | false =>
      obtain rfl : o = (idx, []) := by simpa [objects] using ho
      obtain ⟨tok, htok, hhead⟩ := hs.root
      obtain rfl := Option.some.inj hhead
      exact ⟨⟨_, htok, rfl, rfl⟩, fun k hk => by simp at hk⟩
  | node a h v r ihv ihr =>
    intro o ho
    have helem := hs.node
    rw [objects, mem_append, mem_append] at ho
    rcases ho with ho | ho | ho
    · cases a with
      | true => simp at ho
      | false =>
        obtain rfl : o = _ := by simpa using ho
        obtain ⟨tok, htok, hhead⟩ := hs.root
        obtain rfl := Option.some.inj hhead
        obtain ⟨hpos, hkeys⟩ := positions_node hs
        exact ⟨⟨_, htok, rfl, hpos⟩, hkeys⟩
    · exact ihv _ _ helem.value o ho
    · exact ihr _ _ helem.rest o ho
  | more g h v r ihv ihr =>
    intro o ho
    have helem := hs.more
    rw [objects, mem_append] at ho
    rcases ho with ho | ho
    · exact ihv _ _ helem.value o ho
    · exact ihr _ _ helem.rest o ho

/-- An element's tokens are its key, those of its value and those of what follows. -/
theorem Element.cases_pos {a : Bool} {h : Head a} {v : Syn .value} {r : Syn (.rest a)}
    (he : Element flags json toks off idx h v r) {i : Nat} {tok : Tok}
    (hlo : idx ≤ i) (hhi : i < idx + headWeight a + weight v + weight r)
    (htok : toks[i]? = some tok) (hobj : tok.type = .object) :
    (idx + headWeight a ≤ i ∧ i < idx + headWeight a + weight v) ∨
      (idx + headWeight a + weight v ≤ i ∧ i < idx + headWeight a + weight v + weight r) := by
  by_cases hkey : idx + headWeight a ≤ i
  · omega
  · -- a key is no object
    cases a with
    | true =>
      simp only [headWeight, if_true] at hkey
      omega
    | false =>
      obtain ⟨ktok, hk, hkt⟩ := he.key rfl
      simp only [headWeight, Bool.false_eq_true, if_false] at hkey
      obtain rfl : i = idx := by omega
      obtain rfl := Option.some.inj (hk.symm.trans htok)
      rw [hkt.type] at hobj
      cases hobj

/-- `objects` lists every object. -/
theorem objects_complete {p : Part} (t : Syn p) (off idx : Nat)
    (hs : Stands flags json toks off idx t) {i : Nat} {tok : Tok} (hlo : idx ≤ i)
    (hhi : i < idx + weight t) (htok : toks[i]? = some tok) (hobj : tok.type = .object) :
    ∃ ks, (i, ks) ∈ objects idx t := by
  induction t generalizing off idx with
  | leaf l =>
    obtain rfl : i = idx := by
      rw [weight] at hhi
      omega
    obtain ⟨tok', htok', hhead⟩ := hs.root
    obtain rfl := Option.some.inj hhead
    obtain rfl := Option.some.inj (htok'.symm.trans htok)
    cases l <;> cases hobj
  | empty a g =>
    obtain rfl : i = idx := by
      rw [weight] at hhi
      omega
    obtain ⟨tok', htok', hhead⟩ := hs.root
    obtain rfl := Option.some.inj hhead
    obtain rfl := Option.some.inj (htok'.symm.trans htok)
    cases a with
    | true => cases hobj
    | false => exact ⟨[], by simp [objects]⟩
  | node a h v r ihv ihr =>
    have helem := hs.node
    rw [weight] at hhi
    by_cases hroot : i = idx
    · subst hroot
      obtain ⟨tok', htok', hhead⟩ := hs.root
      obtain rfl := Option.some.inj hhead
      obtain rfl := Option.some.inj (htok'.symm.trans htok)
      cases a with
      | true => cases hobj
      | false => exact ⟨(i + 1) :: keysFrom (i + 2 + weight v) r, by rw [objects]; simp⟩
    · rcases helem.cases_pos (by omega) (by omega) htok hobj with ⟨hlo, hhi⟩ | ⟨hlo, hhi⟩
      · obtain ⟨ks, hks⟩ := ihv _ _ helem.value hlo hhi
        exact ⟨ks, by rw [objects]; simp [hks]⟩
      · obtain ⟨ks, hks⟩ := ihr _ _ helem.rest hlo hhi
        exact ⟨ks, by rw [objects]; simp [hks]⟩
  | stop | trail =>
    rw [weight] at hhi
    omega
  | more g h v r ihv ihr =>
    have helem := hs.more
    rw [weight] at hhi
    rcases helem.cases_pos (by omega) (by omega) htok hobj with ⟨hlo, hhi⟩ | ⟨hlo, hhi⟩
    · obtain ⟨ks, hks⟩ := ihv _ _ helem.value hlo hhi
      exact ⟨ks, by rw [objects]; simp [hks]⟩
    · obtain ⟨ks, hks⟩ := ihr _ _ helem.rest hlo hhi
      exact ⟨ks, by rw [objects]; simp [hks]⟩

end Stands

/-- The tree of an accepted text stands for its whole token array. -/
theorem IsText.stands {json lead tail : List UInt8} {t : Syn .value}
    (h : IsText flags json lead t tail) :
    Stands flags json (tokens lead.length t) lead.length 0 t := by
  refine ⟨h.valid, ⟨lead, tail, h.text, rfl⟩, ⟨[], [], by simp, rfl, fun x hx => ?_⟩⟩
  simp at hx

/-- An object of an accepted text, and the keys that a walk over it visits. -/
theorem IsText.objectAt {json lead tail : List UInt8} {t : Syn .value}
    (h : IsText flags json lead t tail) {i : Nat} {tok : Tok}
    (htok : (tokens lead.length t)[i]? = some tok) (hobj : tok.type = .object) :
    ∃ ks, (i, ks) ∈ objects 0 t ∧ ObjectAt json (tokens lead.length t) (i, ks) := by
  have hlt := (List.getElem?_eq_some_iff.mp htok).1
  rw [tokens_length] at hlt
  obtain ⟨ks, hks⟩ := objects_complete t lead.length 0 h.stands (Nat.zero_le i) (by omega) htok hobj
  exact ⟨ks, hks, objects_sound t lead.length 0 h.stands _ hks⟩

end Json

end AxlSdk
