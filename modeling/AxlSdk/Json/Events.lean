import AxlSdk.Json.Walk

/-!
# Events of a document

The events that the scanner gives over a view are the marks of the tree, and the
tokens of the parser stand at the same spans.

- `turn_quotes`: an event over a view quotes the view.
- `key_event`: the KEY event that starts with the token of a key has its bytes.
-/

namespace AxlSdk

namespace Json

open JsonSyntax List

/-- The calls of `axl_json_scanner_next` give the event, before the end of the document. -/
inductive Emits : Scanner → Event → Prop where
  | here {s s' : Scanner} {ev : Event} : s.next = (some ev, s') → ev.kind ≠ .eof → Emits s ev
  | later {s s' : Scanner} {ev ev' : Event} :
    s.next = (some ev', s') → ev'.kind ≠ .eof → Emits s' ev → Emits s ev

/-- The second event, from what the first two calls return. -/
theorem Emits.second {s : Scanner} {ev ev' : Event} (h₁ : s.next.1 = some ev)
    (h₂ : s.next.2.next.1 = some ev') (hkind : ev.kind ≠ .eof ∧ ev'.kind ≠ .eof) : Emits s ev' :=
  .later (Prod.ext h₁ rfl) hkind.1 (.here (Prod.ext h₂ rfl) hkind.2)

namespace Scanner

/-! ## Texts of events -/

/-- A step over the view `json` quotes it: the view stays, and a key has the text of its
span. -/
def Quotes (json : List UInt8) : Step → Prop
  | .event ev s => s.src = none ∧ s.json = json ∧
    (ev.kind = .key → ev.text = textAt json ev.start ev.len)
  | .again s => s.src = none ∧ s.json = json
  | .stop _ => True

variable {s : Scanner} {json : List UInt8}

theorem leafValue_quotes (hs : s.src = none) (hj : s.json = json) (kind : LeafKind)
    (k : Scanner → Nat × Nat → EventKind) : Quotes json (s.leafValue kind k) := by
  rw [leafValue]
  rcases runLeaf_of_view hs kind with ⟨span, p, -, hrun⟩ | ⟨e, r, s', -, hrun⟩
  · rw [hrun]
    exact ⟨hs, hj, fun _ => by rw [← hj]; rfl⟩
  · rw [hrun]
    trivial

theorem leafKey_quotes (hs : s.src = none) (hj : s.json = json) (kind : LeafKind) :
    Quotes json (s.leafKey kind) := by
  rw [leafKey]
  rcases runLeaf_of_view hs kind with ⟨span, p, -, hrun⟩ | ⟨e, r, s', -, hrun⟩
  · rw [hrun]
    exact ⟨hs, hj, fun _ => by rw [← hj]; rfl⟩
  · rw [hrun]
    trivial

theorem openContainer_quotes (hs : s.src = none) (hj : s.json = json) (a : Bool) :
    Quotes json (s.openContainer a) := by
  rw [openContainer]
  split
  · trivial
  · exact ⟨hs, hj, fun hkind => by cases a <;> cases hkind⟩

theorem closeContainer_quotes (hs : s.src = none) (hj : s.json = json) (a : Bool) :
    Quotes json (s.closeContainer a) :=
  ⟨hs, hj, fun hkind => by cases a <;> cases hkind⟩

theorem scanValue_quotes (hs : s.src = none) (hj : s.json = json) (c : UInt8) :
    Quotes json (s.scanValue c) := by
  unfold scanValue
  split_ifs
  · exact openContainer_quotes hs hj false
  · exact openContainer_quotes hs hj true
  · trivial
  all_goals first | exact leafValue_quotes hs hj _ _ | trivial

theorem scanKey_quotes (hs : s.src = none) (hj : s.json = json) (c : UInt8) :
    Quotes json (s.scanKey c) := by
  unfold scanKey
  split_ifs
  all_goals first | exact leafKey_quotes hs hj _ | trivial

theorem dispatch_quotes (hs : s.src = none) (hj : s.json = json) (c : UInt8) :
    Quotes json (s.dispatch c) := by
  unfold dispatch
  cases s.state
  case valueRoot => exact scanValue_quotes hs hj c
  case rootDone | done => trivial
  all_goals
    dsimp only
    split_ifs
    all_goals first
      | exact scanValue_quotes hs hj c
      | exact scanKey_quotes hs hj c
      | exact closeContainer_quotes hs hj _
      | exact ⟨hs, hj⟩
      | trivial

theorem turn_quotes (hs : s.src = none) (hj : s.json = json) : Quotes json s.turn := by
  unfold turn
  split
  case isTrue => exact ⟨hs, hj, fun hkind => by cases hkind⟩
  case isFalse =>
    rcases runLeaf_of_view hs .ws with ⟨span, p, -, hrun⟩ | ⟨e, r, s', -, hrun⟩
    · rw [hrun]
      dsimp only
      split
      · split_ifs <;> trivial
      · exact dispatch_quotes (s := { s with pos := s.pos + p }) hs hj _
    · rw [hrun]
      trivial

theorem next_quotes {s' : Scanner} {ev : Event} (hs : s.src = none) (hj : s.json = json)
    (h : s.next = (some ev, s')) : Quotes json (.event ev s') := by
  have hloop : ∀ (fuel : Nat) {s : Scanner}, s.src = none → s.json = json →
      nextLoop fuel s = (some ev, s') → Quotes json (.event ev s') := by
    intro fuel
    induction fuel with
    | zero => exact fun _ _ h => by cases h
    | succ fuel ih =>
      intro s hs hj h
      rw [nextLoop] at h
      have hq := turn_quotes hs hj
      cases hturn : s.turn with
      | event ev₁ s₁ =>
        rw [hturn] at h hq
        cases h
        exact hq
      | again s₁ =>
        rw [hturn] at h hq
        exact ih hq.1 hq.2 h
      | stop s₁ =>
        rw [hturn] at h
        cases h
  rw [next] at h
  split at h
  · cases h
  · exact hloop 2 hs hj h

end Scanner

theorem Emits.quotes {s : Scanner} {ev : Event} {json : List UInt8} (h : Emits s ev)
    (hs : s.src = none) (hj : s.json = json) (hkind : ev.kind = .key) :
    ev.text = textAt json ev.start ev.len := by
  induction h with
  | here hn _ => exact (Scanner.next_quotes hs hj hn).2.2 hkind
  | later hn _ _ ih =>
    obtain ⟨hs', hj', -⟩ := Scanner.next_quotes hs hj hn
    exact ih hs' hj' hkind

/-! ## Marks -/

variable {flags : AxlJsonFlags} {max : Nat}

/-- On a path to the end of a document every event is one of its marks. -/
theorem Emits.mark {s : Scanner} {ev : Event} (h : Emits s ev) {m E : Place} {mks : List Mark}
    (hs : s.Sits flags max m) (hE : E.state = .rootDone) (hp : Path flags max True m mks E) :
    ∃ mk ∈ mks, Matches ev mk := by
  induction h generalizing m mks with
  | @here s s' ev hn hkind =>
    have hst : m.state ≠ .rootDone := by
      intro hst
      obtain ⟨ev', heof, hn'⟩ := next_eof hs hst
      obtain ⟨hev, -⟩ := Prod.mk.inj (hn.symm.trans hn')
      exact hkind (Option.some.inj hev ▸ heof)
    obtain ⟨ev', s₁, mk, mks', m', hn', rfl, -, -, hev, -⟩ := next_complete hs hE hst hp
    obtain ⟨he, -⟩ := Prod.mk.inj (hn.symm.trans hn')
    exact ⟨mk, mem_cons_self, Option.some.inj he ▸ hev⟩
  | @later s s' ev ev' hn hkind _ ih =>
    have hst : m.state ≠ .rootDone := by
      intro hst
      obtain ⟨ev'', heof, hn'⟩ := next_eof hs hst
      obtain ⟨hev, -⟩ := Prod.mk.inj (hn.symm.trans hn')
      exact hkind (Option.some.inj hev ▸ heof)
    obtain ⟨ev'', s₁, mk, mks', m', hn', rfl, hs₁, hp', -⟩ := next_complete hs hE hst hp
    obtain ⟨-, rfl⟩ := Prod.mk.inj (hn.symm.trans hn')
    obtain ⟨mk', hmem, hev⟩ := ih hs₁ hp'
    exact ⟨mk', mem_cons_of_mem _ hmem, hev⟩

theorem key_mem_listing {p : Part} {t : Syn p} {off a b : Nat} (h : Mark.key a b ∈ t.marks off) :
    (⟨.string, a, b, 0⟩ : Token) ∈ t.listing off := by
  have hhead : ∀ {isArray : Bool} {h : Head isArray} {off : Nat}, Mark.key a b ∈ h.marks off →
      (⟨.string, a, b, 0⟩ : Token) ∈ h.listing off := by
    intro isArray h off hmem
    cases h with
    | item => simp [Head.marks] at hmem
    | member g k g₁ g₂ =>
      obtain ⟨rfl, rfl⟩ := Mark.key.inj (mem_singleton.mp hmem)
      exact mem_singleton.mpr rfl
  induction t generalizing off with
  | leaf | empty | stop | trail => simp [Syn.marks] at h
  | node =>
    rename_i ihv ihr
    simp only [Syn.marks, mem_cons, mem_append, reduceCtorEq, false_or] at h
    simp only [Syn.listing, mem_cons, mem_append]
    exact .inr (h.imp hhead (Or.imp ihv ihr))
  | more =>
    rename_i ihv ihr
    simp only [Syn.marks, mem_append] at h
    simp only [Syn.listing, mem_append]
    exact h.imp hhead (Or.imp ihv ihr)

/-- The tokens of a tree stand in the order of their starts. -/
theorem listing_sorted {p : Part} {t : Syn p} (ht : t.Valid (lexicon flags)) (off : Nat) :
    (t.listing off).Pairwise fun x y => x.start < y.start := by
  have hhead : ∀ {a : Bool} (h : Head a) (off : Nat),
      (h.listing off).Pairwise fun x y => x.start < y.start := by
    intro a h off
    cases h
    · exact .nil
    · exact pairwise_singleton _ _
  -- the parts of an element lie behind one another
  have hparts : ∀ {a : Bool} {h : Head a} {v : Syn .value} {r : Syn (.rest a)} (off : Nat),
      h.Valid (lexicon flags) → v.Valid (lexicon flags) → r.Valid (lexicon flags) →
      (∀ off, (v.listing off).Pairwise fun x y => x.start < y.start) →
      (∀ off, (r.listing off).Pairwise fun x y => x.start < y.start) →
      (h.listing off ++ (v.listing (off + h.render.length) ++
        r.listing (off + h.render.length + v.render.length))).Pairwise
          fun x y => x.start < y.start := by
    intro a h v r off hh hv hr ihv ihr
    have hwithin := listing_within hv (off + h.render.length)
    have hwithin' := listing_within hr (off + h.render.length + v.render.length)
    refine pairwise_append.mpr ⟨hhead h off, pairwise_append.mpr ⟨ihv _, ihr _, ?_⟩, ?_⟩
    · intro x hx y hy
      exact Nat.lt_of_lt_of_le (hwithin x hx).2.1 (hwithin' y hy).1
    · intro x hx y hy
      have hx' := (head_within hh off x hx).2.1
      rcases mem_append.mp hy with hy | hy
      · exact Nat.lt_of_lt_of_le hx' (hwithin y hy).1
      · exact Nat.lt_of_lt_of_le hx' (Nat.le_trans (Nat.le_add_right _ _) (hwithin' y hy).1)
  induction t generalizing off with
  | leaf | empty => exact pairwise_singleton _ _
  | stop | trail => exact .nil
  | node a h v r ihv ihr =>
    obtain ⟨hh, hv, hr⟩ := ht
    have hlt : ∀ {off' : Nat}, off + 1 ≤ off' → off < off' := fun h => h
    refine pairwise_cons.mpr ⟨?_, hparts (off + 1) hh hv hr (ihv hv) (ihr hr)⟩
    intro y hy
    simp only [mem_append] at hy
    rcases hy with hy | hy | hy
    · exact (head_within hh _ y hy).1
    · have := (listing_within hv _ y hy).1
      exact hlt (by omega)
    · have := (listing_within hr _ y hy).1
      exact hlt (by omega)
  | more g h v r ihv ihr =>
    obtain ⟨-, hh, hv, hr⟩ := ht
    exact hparts (off + g.length + 1) hh hv hr (ihv hv) (ihr hr)

/-- The only token of a tree that starts at `start`. -/
theorem listing_start_inj {p : Part} {t : Syn p} (ht : t.Valid (lexicon flags)) {off : Nat}
    {x y : Token} (hx : x ∈ t.listing off) (hy : y ∈ t.listing off) (h : x.start = y.start) :
    x = y := by
  have hsorted := listing_sorted ht off
  obtain ⟨i, hi, rfl⟩ := mem_iff_getElem.mp hx
  obtain ⟨j, hj, rfl⟩ := mem_iff_getElem.mp hy
  rcases Nat.lt_trichotomy i j with hlt | rfl | hgt
  · have := pairwise_iff_getElem.mp hsorted i j hi hj hlt
    omega
  · rfl
  · have := pairwise_iff_getElem.mp hsorted j i hj hi hgt
    omega

/-! ## Documents -/

/-- A KEY event of the scanner over a text that starts where the token of a key does has
the bytes of the key. -/
theorem IsText.key_event {json lead tail : List UInt8} {t : Syn .value}
    (h : IsText flags json lead t tail) (hlen : json.length < 2 ^ 31) {tok : Tok}
    (htok : tok ∈ tokens lead.length t) (hkey : KeyTok json tok) {ev : Event}
    (hev : Emits (startScanner json flags) ev) (hkind : ev.kind = .key)
    (hstart : ev.start = tok.start) : ev.text = .bytes (tok.text json) := by
  have hpath := @path_of_syn flags (Scanner.depthLimit flags) _ t h.valid .valueRoot [] 0 lead tail
    (.inl rfl) h.before (delim_tail h.behind) (by simpa using h.depth)
  rw [← h.text] at hpath
  obtain ⟨mk, hmem, hmatch⟩ := hev.mark (startScanner_sits hlen) (by simp [afterState]) hpath
  rw [Nat.zero_add] at hmem
  obtain ⟨x, hx, rfl⟩ := mem_map.mp htok
  obtain ⟨a, b, rfl⟩ : ∃ a b, mk = .key a b := by
    cases mk with
    | key a b => exact ⟨a, b, rfl⟩
    | opens isArray | closes isArray =>
      cases isArray <;> simp [Matches, hkind] at hmatch
    | leaf isString => cases isString <;> simp [Matches, hkind] at hmatch
  obtain ⟨-, ha, hb⟩ := hmatch
  -- the token of that mark is the token of the key
  have hsame : x.start = a := by
    rw [ha] at hstart
    exact (Int.ofNat.inj hstart).symm
  obtain rfl := listing_start_inj h.valid hx (key_mem_listing hmem) hsame
  obtain ⟨a', b', ha', hb', hab, -⟩ := hkey.span
  rw [hev.quotes rfl rfl hkind]
  refine hkey.textAt hstart ?_
  simp only [Tok.ofToken] at ha' hb' ⊢
  omega

end Json

end AxlSdk
