import AxlSdk.Gfx.Region.Spans

/-!
# The band sweep (`src/gfx/axl-gfx-region.c`)

`region_op` cuts the y-axis at every edge of both operands, combines the spans of each
strip and merges a strip into the open band above it when the spans are the same.

- `Canonical rects`: the rectangles are the bands of a canonical stack.
- `Canonical.ext`: such rectangles are determined by the points they contain.
- `regionOp_spec`: the sweep gives the canonical rectangles of the combination.
-/

namespace AxlSdk

namespace Gfx

open AllocM List

/-! ## Rectangles -/

structure AxlGfxClip where
  x : Int
  y : Int
  w : Nat
  h : Nat
  deriving DecidableEq, Repr

/-- `clip_x1`, in 64 bits -/
def clipX1 (c : AxlGfxClip) : Int := c.x + c.w

/-- `clip_y1`, in 64 bits -/
def clipY1 (c : AxlGfxClip) : Int := c.y + c.h

/-- `clip_empty` -/
def clipEmpty (c : AxlGfxClip) : Bool := c.w == 0 || c.h == 0

/-- The cast to `int32_t`. -/
def int32 (n : Int) : Int := n.bmod (2 ^ 32)

/-- The cast to `uint32_t`. -/
def uint32 (n : Int) : Nat := (n % 2 ^ 32).toNat

/-- `clip_make` -/
def clipMake (x0 y0 x1 y1 : Int) : AxlGfxClip :=
  if x1 ≤ x0 ∨ y1 ≤ y0 then ⟨0, 0, 0, 0⟩
  else ⟨int32 x0, int32 y0, uint32 (x1 - x0), uint32 (y1 - y0)⟩

/-! ## The sweep -/

/-- `spans_equal` -/
def spansEqual (a b : AxlArray Span) : Bool :=
  a.items.length == b.items.length &&
    (a.items.zip b.items).all fun p => p.1.x0 == p.2.x0 && p.1.x1 == p.2.x1

/-- `spans_copy` -/
def spansCopy (dst src : AxlArray Span) : AllocM (AxlArray Span) :=
  src.items.foldlM (fun dst s => dst.append s) dst.clear

/-- `spans_at` -/
def spansAt (rects : List AxlGfxClip) (yt yb : Int) (out : AxlArray Span) :
    AllocM (AxlArray Span) := do
  let out ← rects.foldlM (fun (out : AxlArray Span) c =>
    if c.y ≤ yt ∧ yb ≤ clipY1 c then spanPush out c.x (int32 (clipX1 c)) else pure out) out.clear
  pure (spanCanon out)

/-- `flush_band` -/
def flushBand (out : AxlArray AxlGfxClip) (spans : List Span) (yt yb : Int) :
    AllocM (AxlArray AxlGfxClip) :=
  spans.foldlM (fun out s => out.append (clipMake s.x0 yt s.x1 yb)) out

/-- The candidate boundaries of one operand. -/
def collectYs (ys : AxlArray Int) (rects : List AxlGfxClip) : AllocM (AxlArray Int) :=
  rects.foldlM (fun (ys : AxlArray Int) c => do
    let ys ← ys.append c.y
    ys.append (int32 (clipY1 c))) ys

/-- The locals of `region_op` in its main loop. -/
structure Sweep where
  sa : AxlArray Span
  sb : AxlArray Span
  sc : AxlArray Span
  prev : AxlArray Span
  out : AxlArray AxlGfxClip
  havePrev : Bool
  prevYt : Int

section

variable (A B : List AxlGfxClip) (op : RegionOp)

/-- What becomes of the open band when the strip from `yt` on has the spans `sc`. -/
def Sweep.emit (s : Sweep) (sc : AxlArray Span) (yt : Int) : AllocM Sweep :=
  if s.havePrev && spansEqual sc s.prev then
    -- same spans: the open band is extended
    pure { s with sc := sc }
  else do
    let out ← (if s.havePrev then flushBand s.out s.prev.items s.prevYt yt else pure s.out)
    let prev ← spansCopy s.prev sc
    pure { s with
      sc := sc, out := out, prev := prev, prevYt := yt, havePrev := 0 < sc.items.length }

/-- The body of the main loop. -/
def Sweep.strip (s : Sweep) (yt yb : Int) : AllocM Sweep :=
  if yb ≤ yt then pure s  -- duplicate boundary
  else do
    let sa ← spansAt A yt yb s.sa
    let sb ← spansAt B yt yb s.sb
    let sc ← combine sa sb op s.sc
    ({ s with sa := sa, sb := sb } : Sweep).emit sc yt

/-- The main loop, with the boundaries from `yv[i]` on. -/
def sweepLoop : List Int → Sweep → AllocM Sweep
  | yt :: yb :: ys, s => do
    let s ← s.strip A B op yt yb
    sweepLoop (yb :: ys) s
  | _, s => pure s

/-- `region_op` -/
def regionOp (out : AxlArray AxlGfxClip) : AllocM (AxlArray AxlGfxClip) := do
  let ys : AxlArray Int ← AxlArray.new
  let sa ← AxlArray.new
  let sb ← AxlArray.new
  let sc ← AxlArray.new
  let prev ← AxlArray.new
  let ys ← collectYs ys A
  let ys ← collectYs ys B
  let yv := sortKeys id ys.items
  let s ← sweepLoop A B op yv ⟨sa, sb, sc, prev, out.clear, false, 0⟩
  if s.havePrev then flushBand s.out s.prev.items s.prevYt (yv.getLast?.getD 0) else pure s.out

end

/-! ## Points and edges -/

/-- The point lies in the rectangle. -/
def AxlGfxClip.Has (c : AxlGfxClip) (x y : Int) : Prop :=
  (c.x ≤ x ∧ x < clipX1 c) ∧ c.y ≤ y ∧ y < clipY1 c

/-- The point lies in one of the rectangles. -/
def Contains (rects : List AxlGfxClip) (x y : Int) : Prop := ∃ c ∈ rects, c.Has x y

def InInt32 (n : Int) : Prop := -2 ^ 31 ≤ n ∧ n < 2 ^ 31

instance : DecidablePred InInt32 := fun _ => inferInstanceAs (Decidable (_ ∧ _))

/-- The four edges of a rectangle lie inside `int32_t`. -/
structure AxlGfxClip.Inside (c : AxlGfxClip) : Prop where
  x0 : InInt32 c.x
  y0 : InInt32 c.y
  x1 : InInt32 (clipX1 c)
  y1 : InInt32 (clipY1 c)

def Inside (rects : List AxlGfxClip) : Prop := ∀ c ∈ rects, c.Inside

theorem int32_of_in {n : Int} (h : InInt32 n) : int32 n = n := by
  unfold InInt32 at h
  unfold int32
  refine Int.bmod_eq_of_le_mul_two ?_ ?_
  · omega
  · omega

theorem uint32_of_in {n m : Int} (hn : InInt32 n) (hm : InInt32 m) (hlt : n < m) :
    ((uint32 (m - n) : Nat) : Int) = m - n := by
  unfold InInt32 at hn hm
  unfold uint32
  omega

theorem clipMake_of_in {x0 y0 x1 y1 : Int} (hx : x0 < x1) (hy : y0 < y1) (hx0 : InInt32 x0)
    (hx1 : InInt32 x1) (hy0 : InInt32 y0) (hy1 : InInt32 y1) :
    clipMake x0 y0 x1 y1 = ⟨x0, y0, (x1 - x0).toNat, (y1 - y0).toNat⟩ := by
  have hw := uint32_of_in hx0 hx1 hx
  have hh := uint32_of_in hy0 hy1 hy
  unfold clipMake
  rw [if_neg (by omega), int32_of_in hx0, int32_of_in hy0]
  congr 1
  · omega
  · omega

/-! ## Bands -/

structure Band where
  y0 : Int
  y1 : Int
  spans : List Span
  deriving DecidableEq, Repr

/-- One rectangle per span. -/
def Band.rects (b : Band) : List AxlGfxClip :=
  b.spans.map fun s => ⟨s.x0, b.y0, (s.x1 - s.x0).toNat, (b.y1 - b.y0).toNat⟩

/-- Bands from top to bottom; no band is empty, its spans are separated, and two bands
that touch have different spans. -/
structure Bands (bs : List Band) : Prop where
  canon : Intervals.Canon Band.y0 Band.y1 Band.spans bs
  spans : ∀ b ∈ bs, b.spans ≠ [] ∧ Spans b.spans

/-- The rectangles of a stack of bands. -/
def Canonical (rects : List AxlGfxClip) : Prop := ∃ bs, Bands bs ∧ rects = bs.flatMap Band.rects

theorem contains_nil (x y : Int) : ¬ Contains [] x y := by
  rintro ⟨c, hc, -⟩
  cases hc

theorem Band.contains_rects {b : Band} (hb : b.y0 < b.y1) (hs : Spans b.spans) {x y : Int} :
    Contains b.rects x y ↔ (b.y0 ≤ y ∧ y < b.y1) ∧ Covers b.spans x := by
  unfold Contains Band.rects Covers AxlGfxClip.Has clipX1 clipY1
  constructor
  · rintro ⟨c, hc, hx, hy⟩
    obtain ⟨s, hs', rfl⟩ := mem_map.mp hc
    have := hs.proper s hs'
    dsimp only at hx hy
    exact ⟨by omega, s, hs', by omega⟩
  · rintro ⟨hy, s, hs', hx⟩
    have := hs.proper s hs'
    exact ⟨_, mem_map.mpr ⟨s, hs', rfl⟩, by dsimp only; omega, by dsimp only; omega⟩

theorem contains_flatMap {bs : List Band} (h : Bands bs) {x y : Int} :
    Contains (bs.flatMap Band.rects) x y ↔
      ∃ b ∈ bs, (b.y0 ≤ y ∧ y < b.y1) ∧ Covers b.spans x := by
  constructor
  · rintro ⟨c, hc, hxy⟩
    obtain ⟨b, hb, hc⟩ := mem_flatMap.mp hc
    exact ⟨b, hb, (b.contains_rects (h.canon.proper b hb) (h.spans b hb).2).mp ⟨c, hc, hxy⟩⟩
  · rintro ⟨b, hb, hxy⟩
    obtain ⟨c, hc, hxy⟩ :=
      (b.contains_rects (h.canon.proper b hb) (h.spans b hb).2).mpr hxy
    exact ⟨c, mem_flatMap.mpr ⟨b, hb, hc⟩, hxy⟩

theorem exists_covers {l : List Span} (h : Spans l) (hne : l ≠ []) : ∃ x, Covers l x := by
  obtain ⟨s, hs⟩ := exists_mem_of_ne_nil l hne
  exact ⟨s.x0, s, hs, le_refl _, h.proper s hs⟩

/-- The spans at `y` are those of the points at `y`. -/
theorem Bands.has_iff {bs : List Band} (h : Bands bs) {y : Int} {v : List Span} :
    Intervals.Has Band.y0 Band.y1 Band.spans bs y v ↔
      (v ≠ [] ∧ Spans v) ∧ ∀ x, Covers v x ↔ Contains (bs.flatMap Band.rects) x y := by
  constructor
  · rintro ⟨b, hb, h0, h1, rfl⟩
    refine ⟨h.spans b hb, fun x => ?_⟩
    rw [contains_flatMap h]
    constructor
    · exact fun hx => ⟨b, hb, ⟨h0, h1⟩, hx⟩
    · rintro ⟨b', hb', hy, hx⟩
      have := h.canon.has_unique ⟨b, hb, h0, h1, rfl⟩ ⟨b', hb', hy.1, hy.2, rfl⟩
      rw [this]
      exact hx
  · rintro ⟨⟨hne, hv⟩, hcov⟩
    obtain ⟨x, hx⟩ := exists_covers hv hne
    obtain ⟨b, hb, hy, -⟩ := (contains_flatMap h).mp ((hcov x).mp hx)
    refine ⟨b, hb, hy.1, hy.2, (h.spans b hb).2.ext hv fun x' => ?_⟩
    rw [hcov, contains_flatMap h]
    constructor
    · exact fun hx' => ⟨b, hb, hy, hx'⟩
    · rintro ⟨b', hb', hy', hx'⟩
      have := h.canon.has_unique ⟨b, hb, hy.1, hy.2, rfl⟩ ⟨b', hb', hy'.1, hy'.2, rfl⟩
      rw [this]
      exact hx'

variable {l : List AxlGfxClip}

/-- Canonical rectangles are determined by the points they contain. -/
theorem Canonical.ext {l' : List AxlGfxClip} (h : Canonical l) (h' : Canonical l')
    (hsame : ∀ x y, Contains l x y ↔ Contains l' x y) : l = l' := by
  obtain ⟨bs, hbs, rfl⟩ := h
  obtain ⟨bs', hbs', rfl⟩ := h'
  have hinj : ∀ p q : Band, p.y0 = q.y0 → p.y1 = q.y1 → p.spans = q.spans → p = q := by
    rintro ⟨p0, p1, ps⟩ ⟨q0, q1, qs⟩ rfl rfl rfl
    rfl
  rw [Intervals.Canon.ext hinj hbs.canon hbs'.canon]
  intro y v
  rw [hbs.has_iff, hbs'.has_iff]
  simp only [hsame]

theorem Canonical.nonempty (h : Canonical l) :
    ∀ c ∈ l, clipEmpty c = false := by
  obtain ⟨bs, hbs, rfl⟩ := h
  intro c hc
  obtain ⟨b, hb, hc⟩ := mem_flatMap.mp hc
  obtain ⟨s, hs, rfl⟩ := mem_map.mp hc
  have hy := hbs.canon.proper b hb
  have hx := (hbs.spans b hb).2.proper s hs
  simp only [clipEmpty, Bool.or_eq_false_iff, beq_eq_false_iff_ne, ne_eq]
  omega

/-- In a canonical list of intervals each lies before the next ones. -/
theorem Spans.pairwise {l : List Span} (h : Spans l) : l.Pairwise fun s t => s.x1 < t.x0 := by
  induction l with
  | nil => exact List.Pairwise.nil
  | cons s l ih =>
    obtain ⟨-, hgap, hl⟩ := spans_cons.mp h
    exact pairwise_cons.mpr ⟨hgap, ih hl⟩

theorem Canonical.disjoint (h : Canonical l) :
    l.Pairwise fun c d => ∀ x y, ¬ (c.Has x y ∧ d.Has x y) := by
  obtain ⟨bs, hbs, rfl⟩ := h
  rw [pairwise_flatMap]
  constructor
  · -- in one band: by the spans
    intro b hb
    refine List.Pairwise.map _ ?_ (hbs.spans b hb).2.pairwise
    rintro s t hst x y ⟨⟨⟨hs, hs'⟩, -⟩, ⟨ht, -⟩, -⟩
    simp only [clipX1] at hs hs' ht
    omega
  · -- in two bands: by their edges
    have hchain := hbs.canon
    clear hbs
    induction bs with
    | nil => exact List.Pairwise.nil
    | cons b bs ih =>
      refine pairwise_cons.mpr ⟨fun b' hb' => ?_, ih hchain.tail⟩
      have hle := hchain.head_le b' hb'
      intro c hc d hd x y
      obtain ⟨s, -, rfl⟩ := mem_map.mp hc
      obtain ⟨t, -, rfl⟩ := mem_map.mp hd
      have hb := hchain.proper b mem_cons_self
      rintro ⟨⟨-, -, hy⟩, -, hy', -⟩
      simp only [clipY1] at hy hy'
      omega

/-! ## The parts of the sweep -/

theorem spansEqual_iff {a b : AxlArray Span} : spansEqual a b = true ↔ a.items = b.items := by
  unfold spansEqual
  rw [Bool.and_eq_true, beq_iff_eq]
  generalize a.items = l
  generalize b.items = l'
  induction l generalizing l' with
  | nil =>
    cases l' with
    | nil => simp
    | cons t l' => simp
  | cons s l ih =>
    cases l' with
    | nil => simp
    | cons t l' =>
      obtain ⟨s0, s1⟩ := s
      obtain ⟨t0, t1⟩ := t
      simp only [length_cons, zip_cons_cons, all_cons, Bool.and_eq_true,
        beq_iff_eq, List.cons.injEq, Span.mk.injEq, ← ih l', Nat.add_right_cancel_iff]
      tauto

/-- A loop of appends. -/
theorem appendAll_spec {α β : Type} (f : β → α) (out : AxlArray α) (l : List β) :
    Returns (l.foldlM (fun (out : AxlArray α) b => out.append (f b)) out) fun out' =>
      out'.items = out.items ++ l.map f := by
  have hloop := Returns.foldlM (f := fun (out : AxlArray α) (b : β) => out.append (f b))
    (P := fun (o : AxlArray α) bs => o.items ++ bs.map f = out.items ++ l.map f)
    ?_ (b := out) (l := l) rfl
  · refine hloop.mono fun out' h => ?_
    rw [← h, map_nil, List.append_nil]
  · intro o b bs ho
    refine (o.append_spec (f b)).mono fun o' ho' => ?_
    rw [ho', ← ho, map_cons, List.append_assoc]
    rfl

theorem appendAll_succeeds {α β : Type} (f : β → α) (out : AxlArray α) (l : List β) :
    Succeeds (l.foldlM (fun (out : AxlArray α) b => out.append (f b)) out) :=
  Succeeds.foldlM (fun out b => out.append_succeeds (f b)) out l

theorem spansCopy_spec (dst src : AxlArray Span) :
    Returns (spansCopy dst src) fun dst' => dst'.items = src.items := by
  refine (appendAll_spec id dst.clear src.items).mono fun dst' h => ?_
  rw [h, map_id]
  rfl

/-- The spans of a strip that no rectangle starts or ends in. -/
theorem spansAt_spec {rects : List AxlGfxClip} (hin : Inside rects) (yt yb : Int)
    (out : AxlArray Span) :
    Returns (spansAt rects yt yb out) fun out' =>
      Spans out'.items ∧ Ends InInt32 out'.items ∧
      ∀ x, Covers out'.items x ↔
        ∃ c ∈ rects, (c.y ≤ yt ∧ yb ≤ clipY1 c) ∧ c.x ≤ x ∧ x < clipX1 c := by
  have hloop := Returns.foldlM
    (f := fun (out : AxlArray Span) (c : AxlGfxClip) =>
      if c.y ≤ yt ∧ yb ≤ clipY1 c then spanPush out c.x (int32 (clipX1 c)) else pure out)
    (P := fun (o : AxlArray Span) cs =>
      Inside cs ∧ (∀ s ∈ o.items, s.x0 < s.x1) ∧ Ends InInt32 o.items ∧
      ∀ x, (Covers o.items x ∨
          ∃ c ∈ cs, (c.y ≤ yt ∧ yb ≤ clipY1 c) ∧ c.x ≤ x ∧ x < clipX1 c) ↔
        ∃ c ∈ rects, (c.y ≤ yt ∧ yb ≤ clipY1 c) ∧ c.x ≤ x ∧ x < clipX1 c)
    ?_ (b := out.clear) (l := rects) ?_
  · refine hloop.bind fun o ho => Returns.pure ?_
    obtain ⟨-, hproper, hends, hcov⟩ := ho
    obtain ⟨h₁, h₂, h₃⟩ := canonItems_spec hproper hends
    refine ⟨h₁, h₂, fun x => (h₃ x).trans (Iff.trans ?_ (hcov x))⟩
    simp
  · rintro o c cs ⟨hcs, hproper, hends, hcov⟩
    have hcs' : Inside cs := fun d hd => hcs d (mem_cons_of_mem _ hd)
    have hc := hcs c mem_cons_self
    refine Returns.ite (fun hyes => ?_) fun hno => Returns.pure ⟨hcs', hproper, hends, ?_⟩
    · rw [int32_of_in hc.x1]
      refine (spanPush_spec o c.x (clipX1 c)).mono fun o' ho' => ?_
      rw [ho']
      by_cases hle : clipX1 c ≤ c.x
      · rw [if_pos hle]
        refine ⟨hcs', hproper, hends, fun x => ?_⟩
        rw [← hcov]
        refine or_congr_right ⟨?_, ?_⟩
        · rintro ⟨d, hd, hd'⟩
          exact ⟨d, mem_cons_of_mem _ hd, hd'⟩
        · rintro ⟨d, hd, hd'⟩
          rcases mem_cons.mp hd with rfl | hd
          · omega
          · exact ⟨d, hd, hd'⟩
      · rw [if_neg hle]
        refine ⟨hcs', ?_, ?_, fun x => ?_⟩
        · intro s hs
          rcases mem_append.mp hs with hs | hs
          · exact hproper s hs
          · rw [mem_singleton.mp hs]
            exact not_le.mp hle
        · intro s hs
          rcases mem_append.mp hs with hs | hs
          · exact hends s hs
          · rw [mem_singleton.mp hs]
            exact ⟨hc.x0, hc.x1⟩
        · rw [← hcov, covers_append, covers_cons, or_assoc]
          have := covers_nil x
          simp only [mem_cons, or_and_right, exists_or, exists_eq_left, hyes,
            and_self, true_and, this, or_false]
    · intro x
      rw [← hcov]
      simp only [mem_cons, or_and_right, exists_or, exists_eq_left, hno, false_and,
        false_or]
  · refine ⟨hin, ?_, ?_, fun x => or_iff_right (covers_nil x)⟩
    · rintro s ⟨⟩
    · rintro s ⟨⟩

theorem flushBand_spec {out : AxlArray AxlGfxClip} {b : Band} (hb : b.y0 < b.y1)
    (hs : Spans b.spans) (he : Ends InInt32 b.spans) (hy : InInt32 b.y0 ∧ InInt32 b.y1) :
    Returns (flushBand out b.spans b.y0 b.y1) fun out' => out'.items = out.items ++ b.rects := by
  refine (appendAll_spec (fun s : Span => clipMake s.x0 b.y0 s.x1 b.y1) out b.spans).mono ?_
  intro out' h
  rw [h]
  refine congrArg _ (map_congr_left fun s hs' => ?_)
  exact clipMake_of_in (hs.proper s hs') hb (he s hs').1 (he s hs').2 hy.1 hy.2

/-- The y-edges of rectangles. -/
def yEdges (rects : List AxlGfxClip) : List Int := rects.flatMap fun c => [c.y, clipY1 c]

theorem collectYs_spec {rects : List AxlGfxClip} (hin : Inside rects) (ys : AxlArray Int) :
    Returns (collectYs ys rects) fun ys' => ys'.items = ys.items ++ yEdges rects := by
  have hloop := Returns.foldlM
    (f := fun (ys : AxlArray Int) (c : AxlGfxClip) => do
      let ys ← ys.append c.y
      ys.append (int32 (clipY1 c)))
    (P := fun (o : AxlArray Int) cs =>
      Inside cs ∧ o.items ++ yEdges cs = ys.items ++ yEdges rects)
    ?_ (b := ys) (l := rects) ⟨hin, rfl⟩
  · refine hloop.mono fun ys' h => ?_
    rw [← h.2]
    exact (List.append_nil _).symm
  · rintro o c cs ⟨hcs, ho⟩
    refine (o.append_spec c.y).bind fun o₁ h₁ => ?_
    refine (o₁.append_spec _).mono fun o₂ h₂ => ⟨fun d hd => hcs d (mem_cons_of_mem _ hd), ?_⟩
    rw [h₂, h₁, int32_of_in (hcs c mem_cons_self).y1, ← ho]
    simp only [yEdges, flatMap_cons, List.append_assoc, cons_append, nil_append]

/-! ## The loop -/

/-- A band with its edges inside `int32_t`. -/
structure Band.Good (b : Band) : Prop where
  proper : b.y0 < b.y1
  nonempty : b.spans ≠ []
  spans : Spans b.spans
  ends : Ends InInt32 b.spans
  edges : InInt32 b.y0 ∧ InInt32 b.y1

section

variable {A B : List AxlGfxClip} {op : RegionOp}

/-- The bands `bs` have been written when the loop stands at `yt`; the open band, if there
is one, reaches down to `yt`. -/
structure Swept (A B : List AxlGfxClip) (op : RegionOp) (yt : Int) (s : Sweep) (bs : List Band) :
    Prop where
  out : s.out.items = bs.flatMap Band.rects
  canon : Intervals.Canon Band.y0 Band.y1 Band.spans bs
  good : ∀ b ∈ bs, b.Good
  -- a gap of at least one strip
  gap : s.havePrev = false → ∀ b ∈ bs, b.y1 < yt
  openGood : s.havePrev = true → (⟨s.prevYt, yt, s.prev.items⟩ : Band).Good
  below : s.havePrev = true → ∀ b ∈ bs, b.y1 ≤ s.prevYt
  openNew : s.havePrev = true → ∀ b, bs.getLast? = some b → b.y1 = s.prevYt →
    b.spans ≠ s.prev.items
  exact : ∀ y < yt, ∀ x,
    ((∃ b ∈ bs, (b.y0 ≤ y ∧ y < b.y1) ∧ Covers b.spans x) ∨
      (s.havePrev = true ∧ s.prevYt ≤ y ∧ Covers s.prev.items x)) ↔
    op.Holds (Contains A x y) (Contains B x y)

/-- The bands with the open one closed at `yt`. -/
def Sweep.close (s : Sweep) (yt : Int) (bs : List Band) : List Band :=
  if s.havePrev then bs ++ [⟨s.prevYt, yt, s.prev.items⟩] else bs

variable {yt : Int} {s : Sweep} {bs : List Band}

theorem Swept.le (h : Swept A B op yt s bs) :
    ∀ b ∈ bs, b.y1 ≤ yt := by
  intro b hb
  cases hprev : s.havePrev with
  | false => exact (h.gap hprev b hb).le
  | true => exact le_trans (h.below hprev b hb) (h.openGood hprev).proper.le

theorem Swept.close_spec (h : Swept A B op yt s bs) :
    Intervals.Canon Band.y0 Band.y1 Band.spans (s.close yt bs) ∧
    (∀ b ∈ s.close yt bs, b.Good ∧ b.y1 ≤ yt) ∧
    ∀ y < yt, ∀ x, (∃ b ∈ s.close yt bs, (b.y0 ≤ y ∧ y < b.y1) ∧ Covers b.spans x) ↔
      op.Holds (Contains A x y) (Contains B x y) := by
  unfold Sweep.close
  cases hprev : s.havePrev with
  | false =>
    refine ⟨h.canon, fun b hb => ⟨h.good b hb, h.le b hb⟩, fun y hy x => ?_⟩
    rw [← h.exact y hy x, hprev]
    simp
  | true =>
    have hopen := h.openGood hprev
    refine ⟨h.canon.concat hopen.proper fun p hp => ?_, fun b hb => ?_, fun y hy x => ?_⟩
    · exact ⟨h.below hprev p (mem_of_getLast? hp), h.openNew hprev p hp⟩
    · rcases mem_append.mp hb with hb | hb
      · exact ⟨h.good b hb, h.le b hb⟩
      · rw [mem_singleton.mp hb]
        exact ⟨hopen, le_refl _⟩
    · rw [← h.exact y hy x, hprev]
      simp only [if_true, mem_append, mem_singleton, or_and_right, exists_or,
        exists_eq_left, true_and, hy, and_true]

/-- The open band is written when it ends at `yt`. -/
theorem Swept.flush (h : Swept A B op yt s bs) :
    Returns (if s.havePrev then flushBand s.out s.prev.items s.prevYt yt else pure s.out)
      fun out => out.items = (s.close yt bs).flatMap Band.rects := by
  unfold Sweep.close
  refine Returns.ite (fun hprev => ?_) fun hprev => Returns.pure ?_
  · have hopen := h.openGood hprev
    refine (flushBand_spec (b := ⟨s.prevYt, yt, s.prev.items⟩) hopen.proper hopen.spans
      hopen.ends hopen.edges).mono fun out hout => ?_
    rw [hout, h.out, if_pos hprev, flatMap_append, flatMap_singleton]
  · rw [if_neg hprev]
    exact h.out

/-- From `yt` to `yb` the combination has the spans `sc`. -/
theorem Swept.emit {yb : Int} (h : Swept A B op yt s bs) (hlt : yt < yb) (hyt : InInt32 yt)
    (hyb : InInt32 yb) {sc : AxlArray Span} (hsc : Spans sc.items) (hends : Ends InInt32 sc.items)
    (hstrip : ∀ y, yt ≤ y → y < yb → ∀ x,
      Covers sc.items x ↔ op.Holds (Contains A x y) (Contains B x y)) :
    Returns (s.emit sc yt) fun s' => ∃ bs', Swept A B op yb s' bs' := by
  unfold Sweep.emit
  refine Returns.ite (fun hsame => Returns.pure ⟨bs, ?_⟩) fun hdiff => ?_
  · obtain ⟨hprev, heq⟩ := Bool.and_eq_true_iff.mp hsame
    have heq : sc.items = s.prev.items := spansEqual_iff.mp heq
    have hopen := h.openGood hprev
    refine
      { out := h.out
        canon := h.canon
        good := h.good
        gap := fun hno => absurd (hprev.symm.trans hno) (by decide)
        openGood := fun _ => ⟨lt_trans hopen.proper hlt, hopen.nonempty, hopen.spans, hopen.ends,
          hopen.edges.1, hyb⟩
        below := h.below
        openNew := h.openNew
        exact := fun y hy x => ?_ }
    by_cases hyt' : y < yt
    · exact h.exact y hyt' x
    · have hyt' := not_lt.mp hyt'
      rw [← hstrip y hyt' hy x, heq]
      have hno : ¬ ∃ b ∈ bs, (b.y0 ≤ y ∧ y < b.y1) ∧ Covers b.spans x := by
        rintro ⟨b, hb, hby, -⟩
        have := h.le b hb
        omega
      have hpy : s.prevYt ≤ y := le_trans hopen.proper.le hyt'
      simp only [hno, false_or, hprev, hpy, true_and]
  · refine h.flush.bind fun out hout => ?_
    refine (spansCopy_spec s.prev sc).bind fun prev hcopy => Returns.pure ⟨s.close yt bs, ?_⟩
    obtain ⟨hcanon, hgood, hexact⟩ := h.close_spec
    refine
      { out := hout
        canon := hcanon
        good := fun b hb => (hgood b hb).1
        gap := fun _ b hb => lt_of_le_of_lt (hgood b hb).2 hlt
        openGood := fun hnew => ?_
        below := fun _ b hb => (hgood b hb).2
        openNew := fun hnew b hb hy => ?_
        exact := fun y hy x => ?_ }
    · have hnew : 0 < sc.items.length := of_decide_eq_true hnew
      refine ⟨hlt, ?_, ?_, ?_, hyt, hyb⟩
      · dsimp only
        rw [hcopy]
        exact ne_nil_of_length_pos hnew
      · dsimp only
        rw [hcopy]
        exact hsc
      · dsimp only
        rw [hcopy]
        exact hends
    · -- a band that ends here is the open one, and its spans differ
      dsimp only at hy ⊢
      rw [hcopy]
      unfold Sweep.close at hb
      cases hprev : s.havePrev with
      | false =>
        rw [hprev] at hb
        exact absurd hy (h.gap hprev b (mem_of_getLast? hb)).ne
      | true =>
        rw [hprev, if_pos rfl, getLast?_concat] at hb
        cases hb
        intro heq
        apply hdiff
        rw [hprev, Bool.true_and]
        exact spansEqual_iff.mpr heq.symm
    · by_cases hyt' : y < yt
      · rw [← hexact y hyt' x]
        refine or_iff_left fun hx => ?_
        have : yt ≤ y := hx.2.1
        omega
      · have hyt' := not_lt.mp hyt'
        rw [← hstrip y hyt' hy x]
        have hno : ¬ ∃ b ∈ s.close yt bs, (b.y0 ≤ y ∧ y < b.y1) ∧ Covers b.spans x := by
          rintro ⟨b, hb, hby, -⟩
          have := (hgood b hb).2
          omega
        dsimp only
        rw [hcopy]
        simp only [hno, false_or, hyt', true_and]
        refine ⟨fun hx => hx.2, fun hx => ⟨decide_eq_true ?_, hx⟩⟩
        obtain ⟨t, ht, -⟩ := hx
        exact length_pos_of_mem ht

variable {rects : List AxlGfxClip}

/-- Between two boundaries a rectangle is met throughout or not at all. -/
theorem contains_strip {yb : Int} (hcut : ∀ e ∈ yEdges rects, e ≤ yt ∨ yb ≤ e) {y : Int}
    (hyt : yt ≤ y) (hyb : y < yb) (x : Int) :
    (∃ c ∈ rects, (c.y ≤ yt ∧ yb ≤ clipY1 c) ∧ c.x ≤ x ∧ x < clipX1 c) ↔
      Contains rects x y := by
  constructor
  · rintro ⟨c, hc, hy, hx⟩
    exact ⟨c, hc, hx, by omega, by omega⟩
  · rintro ⟨c, hc, hx, hy⟩
    have htop := hcut c.y (mem_flatMap.mpr ⟨c, hc, by simp⟩)
    have hbottom := hcut (clipY1 c) (mem_flatMap.mpr ⟨c, hc, by simp⟩)
    exact ⟨c, hc, by omega, hx⟩

/-- The boundaries that are still ahead when the loop stands at `yt`. -/
structure Ahead (A B : List AxlGfxClip) (yt : Int) (ys : List Int) : Prop where
  sorted : (yt :: ys).Pairwise (· ≤ ·)
  range : ∀ y ∈ yt :: ys, InInt32 y
  passed : ∀ e ∈ yEdges A ++ yEdges B, e ≤ yt ∨ e ∈ ys

theorem Ahead.next {yt yb : Int} {ys : List Int} (h : Ahead A B yt (yb :: ys)) :
    Ahead A B yb ys := by
  obtain ⟨hle, hsorted⟩ := pairwise_cons.mp h.sorted
  refine ⟨hsorted, fun y hy => h.range y (mem_cons_of_mem _ hy), fun e he => ?_⟩
  rcases h.passed e he with he | he
  · exact .inl (le_trans he (hle yb mem_cons_self))
  · rcases mem_cons.mp he with rfl | he
    · exact .inl (le_refl _)
    · exact .inr he

theorem Swept.strip {yb : Int} {ys : List Int} (h : Swept A B op yt s bs)
    (hahead : Ahead A B yt (yb :: ys)) (hA : Inside A) (hB : Inside B) :
    Returns (s.strip A B op yt yb) fun s' => ∃ bs', Swept A B op yb s' bs' := by
  obtain ⟨hle, hsorted⟩ := pairwise_cons.mp hahead.sorted
  have hcut : ∀ e ∈ yEdges A ++ yEdges B, e ≤ yt ∨ yb ≤ e := by
    intro e he
    refine (hahead.passed e he).imp_right fun he => ?_
    rcases mem_cons.mp he with rfl | he
    · exact le_refl _
    · exact (pairwise_cons.mp hsorted).1 e he
  unfold Sweep.strip
  refine Returns.ite (fun hdup => Returns.pure ⟨bs, ?_⟩) fun hlt => ?_
  · rw [← le_antisymm (hle yb mem_cons_self) hdup]
    exact h
  · refine (spansAt_spec hA yt yb s.sa).bind fun sa hsa => ?_
    refine (spansAt_spec hB yt yb s.sb).bind fun sb hsb => ?_
    refine (combine_spec op hsa.1 hsb.1 hsa.2.1 hsb.2.1).bind fun sc hsc => ?_
    have h' : Swept A B op yt { s with sa := sa, sb := sb } bs :=
      ⟨h.out, h.canon, h.good, h.gap, h.openGood, h.below, h.openNew, h.exact⟩
    refine h'.emit (not_le.mp hlt) (hahead.range yt mem_cons_self)
      (hahead.range yb (by simp)) hsc.1 hsc.2.1 fun y hyt hyb x => ?_
    rw [hsc.2.2, hsa.2.2, hsb.2.2,
      contains_strip (fun e he => hcut e (mem_append_left _ he)) hyt hyb,
      contains_strip (fun e he => hcut e (mem_append_right _ he)) hyt hyb]

theorem Swept.loop {ys : List Int} (h : Swept A B op yt s bs) (hahead : Ahead A B yt ys)
    (hA : Inside A) (hB : Inside B) :
    Returns (sweepLoop A B op (yt :: ys) s) fun s' => ∃ bs' yl,
      (yt :: ys).getLast? = some yl ∧ Ahead A B yl [] ∧ Swept A B op yl s' bs' := by
  induction ys generalizing yt s bs with
  | nil => exact Returns.pure ⟨bs, yt, rfl, hahead, h⟩
  | cons yb ys ih =>
    refine (h.strip hahead hA hB).bind fun s' hs' => ?_
    obtain ⟨bs', hs'⟩ := hs'
    exact ih hs' hahead.next

/-- No point is as high as the first boundary, or as low as the last one. -/
theorem not_contains_of_edges {x y : Int}
    (h : (∀ e ∈ yEdges rects, y < e) ∨ ∀ e ∈ yEdges rects, e ≤ y) : ¬ Contains rects x y := by
  rintro ⟨c, hc, -, hy⟩
  have htop : c.y ∈ yEdges rects := mem_flatMap.mpr ⟨c, hc, by simp⟩
  have hbottom : clipY1 c ∈ yEdges rects := mem_flatMap.mpr ⟨c, hc, by simp⟩
  rcases h with h | h
  · have := h _ htop
    omega
  · have := h _ hbottom
    omega

theorem RegionOp.not_holds {p q : Prop} (hp : ¬ p) (hq : ¬ q) : ¬ op.Holds p q := by
  cases op with
  | union => exact fun h => h.elim hp hq
  | subtract => exact fun h => hp h.1
  | intersect => exact fun h => hp h.1

theorem edges_in (h : Inside rects) : ∀ e ∈ yEdges rects, InInt32 e := by
  intro e he
  obtain ⟨c, hc, he⟩ := mem_flatMap.mp he
  simp only [mem_cons, not_mem_nil, or_false] at he
  rcases he with rfl | rfl
  · exact (h c hc).y0
  · exact (h c hc).y1

theorem Band.Good.inside {b : Band} (h : b.Good) : Inside b.rects := by
  intro c hc
  obtain ⟨s, hs, rfl⟩ := mem_map.mp hc
  have hx := h.spans.proper s hs
  have hy := h.proper
  obtain ⟨he0, he1⟩ := h.ends s hs
  have hx1 : clipX1 ⟨s.x0, b.y0, (s.x1 - s.x0).toNat, (b.y1 - b.y0).toNat⟩ = s.x1 := by
    unfold clipX1
    dsimp only
    omega
  have hy1 : clipY1 ⟨s.x0, b.y0, (s.x1 - s.x0).toNat, (b.y1 - b.y0).toNat⟩ = b.y1 := by
    unfold clipY1
    dsimp only
    omega
  refine ⟨he0, h.edges.1, ?_, ?_⟩
  · rw [hx1]
    exact he1
  · rw [hy1]
    exact h.edges.2

/-- What a finished sweep has written. -/
theorem Swept.done {yt : Int} {s : Sweep} {bs : List Band} (h : Swept A B op yt s bs)
    (hahead : Ahead A B yt []) :
    let rects := (s.close yt bs).flatMap Band.rects
    Canonical rects ∧ Inside rects ∧
      ∀ x y, Contains rects x y ↔ op.Holds (Contains A x y) (Contains B x y) := by
  obtain ⟨hcanon, hgood, hexact⟩ := h.close_spec
  have hbands : Bands (s.close yt bs) :=
    ⟨hcanon, fun b hb => ⟨(hgood b hb).1.nonempty, (hgood b hb).1.spans⟩⟩
  refine ⟨⟨_, hbands, rfl⟩, fun c hc => ?_, fun x y => ?_⟩
  · obtain ⟨b, hb, hc⟩ := mem_flatMap.mp hc
    exact (hgood b hb).1.inside c hc
  · rw [contains_flatMap hbands]
    by_cases hy : y < yt
    · exact hexact y hy x
    · have hy := not_lt.mp hy
      have hpassed : ∀ e ∈ yEdges A ++ yEdges B, e ≤ y := fun e he =>
        ((hahead.passed e he).resolve_right not_mem_nil).trans hy
      constructor
      · rintro ⟨b, hb, hby, -⟩
        have := (hgood b hb).2
        omega
      · intro hx
        refine absurd hx (op.not_holds ?_ ?_)
        · exact not_contains_of_edges (.inr fun e he => hpassed e (mem_append_left _ he))
        · exact not_contains_of_edges (.inr fun e he => hpassed e (mem_append_right _ he))

/-- `region_op` gives the canonical rectangles of the combination. -/
theorem regionOp_spec (op : RegionOp) (hA : Inside A) (hB : Inside B)
    (out : AxlArray AxlGfxClip) :
    Returns (regionOp A B op out) fun out' =>
      Canonical out'.items ∧ Inside out'.items ∧
      ∀ x y, Contains out'.items x y ↔ op.Holds (Contains A x y) (Contains B x y) := by
  unfold regionOp
  refine AxlArray.new_spec.bind fun ys hys => ?_
  refine AxlArray.new_spec.bind fun sa _ => ?_
  refine AxlArray.new_spec.bind fun sb _ => ?_
  refine AxlArray.new_spec.bind fun sc _ => ?_
  refine AxlArray.new_spec.bind fun prev _ => ?_
  refine (collectYs_spec hA ys).bind fun ys₁ h₁ => ?_
  refine (collectYs_spec hB ys₁).bind fun ys₂ h₂ => ?_
  have hitems : ys₂.items = yEdges A ++ yEdges B := by
    rw [h₂, h₁, hys]
    rfl
  obtain ⟨hperm, hsorted⟩ := sortKeys_spec id ys₂.items
  rw [hitems] at hperm hsorted ⊢
  dsimp only
  generalize hyv : sortKeys id (yEdges A ++ yEdges B) = yv at hperm hsorted
  cases yv with
  | nil =>
    -- no edges: both operands are empty
    have hno : ∀ e, e ∉ yEdges A ++ yEdges B := by
      rw [nil_perm.mp hperm]
      exact fun e => not_mem_nil
    refine Returns.bind (Returns.pure rfl) fun s hs => ?_
    subst hs
    refine Returns.pure ⟨⟨[], ⟨Intervals.Canon.nil, by simp⟩, rfl⟩, ?_, fun x y => ?_⟩
    · rintro c ⟨⟩
    · refine iff_of_false (contains_nil x y) (op.not_holds ?_ ?_)
      · exact not_contains_of_edges
          (.inl fun e he => absurd (mem_append_left _ he) (hno e))
      · exact not_contains_of_edges
          (.inl fun e he => absurd (mem_append_right _ he) (hno e))
  | cons yt ys' =>
    have hahead : Ahead A B yt ys' := by
      refine ⟨hsorted, fun y hy => ?_, fun e he => ?_⟩
      · exact (mem_append.mp (hperm.mem_iff.mp hy)).elim (edges_in hA y) (edges_in hB y)
      · exact (mem_cons.mp (hperm.mem_iff.mpr he)).imp_left fun h => h.le
    have hstart : Swept A B op yt ⟨sa, sb, sc, prev, out.clear, false, 0⟩ [] := by
      refine
        { out := rfl
          canon := Intervals.Canon.nil
          good := by simp
          gap := by simp
          openGood := by simp
          below := by simp
          openNew := by simp
          exact := fun y hy x => ?_ }
      have habove : ∀ e ∈ yEdges A ++ yEdges B, y < e := by
        intro e he
        refine lt_of_lt_of_le hy ?_
        rcases mem_cons.mp (hperm.mem_iff.mpr he) with rfl | he
        · exact le_refl _
        · exact (pairwise_cons.mp hsorted).1 e he
      refine iff_of_false (by simp) (op.not_holds ?_ ?_)
      · exact not_contains_of_edges (.inl fun e he => habove e (mem_append_left _ he))
      · exact not_contains_of_edges (.inl fun e he => habove e (mem_append_right _ he))
    refine (hstart.loop hahead hA hB).bind fun s hs => ?_
    obtain ⟨bs, yl, hlast, hdone, hswept⟩ := hs
    rw [hlast]
    refine hswept.flush.mono fun out' hout' => ?_
    rw [hout']
    exact hswept.done hdone

theorem spansAt_succeeds (rects : List AxlGfxClip) (yt yb : Int) (out : AxlArray Span) :
    Succeeds (spansAt rects yt yb out) := by
  refine (Succeeds.foldlM (fun out c => ?_) _ _).bind fun o => Succeeds.pure _
  exact Succeeds.ite (spanPush_succeeds _ _ _) (Succeeds.pure _)

theorem flushBand_succeeds (out : AxlArray AxlGfxClip) (spans : List Span) (yt yb : Int) :
    Succeeds (flushBand out spans yt yb) :=
  appendAll_succeeds (fun s : Span => clipMake s.x0 yt s.x1 yb) out spans

theorem strip_succeeds (s : Sweep) (yt yb : Int) : Succeeds (s.strip A B op yt yb) := by
  unfold Sweep.strip Sweep.emit
  refine Succeeds.ite (Succeeds.pure _) ?_
  refine (spansAt_succeeds _ _ _ _).bind fun sa => (spansAt_succeeds _ _ _ _).bind fun sb => ?_
  refine (combine_succeeds _ _ _ _).bind fun sc => Succeeds.ite (Succeeds.pure _) ?_
  refine Succeeds.bind ?_ fun out => ?_
  · exact Succeeds.ite (flushBand_succeeds _ _ _ _) (Succeeds.pure _)
  · exact (appendAll_succeeds id _ _).bind fun prev => Succeeds.pure _

theorem sweepLoop_succeeds (ys : List Int) (s : Sweep) : Succeeds (sweepLoop A B op ys s) := by
  match ys with
  | [] => exact Succeeds.pure s
  | [_] => exact Succeeds.pure s
  | yt :: yb :: ys => exact (strip_succeeds s yt yb).bind fun s' => sweepLoop_succeeds (yb :: ys) s'

theorem regionOp_succeeds (A B : List AxlGfxClip) (op : RegionOp) (out : AxlArray AxlGfxClip) :
    Succeeds (regionOp A B op out) := by
  have hys : ∀ ys rects, Succeeds (collectYs ys rects) := fun ys rects =>
    Succeeds.foldlM (fun ys c => (ys.append_succeeds _).bind fun ys' => ys'.append_succeeds _) _ _
  unfold regionOp
  refine AxlArray.new_succeeds.bind fun ys => AxlArray.new_succeeds.bind fun sa => ?_
  refine AxlArray.new_succeeds.bind fun sb => AxlArray.new_succeeds.bind fun sc => ?_
  refine AxlArray.new_succeeds.bind fun prev => (hys _ _).bind fun ys₁ => (hys _ _).bind fun ys₂ => ?_
  refine (sweepLoop_succeeds _ _).bind fun s => ?_
  exact Succeeds.ite (flushBand_succeeds _ _ _ _) (Succeeds.pure _)

end

end Gfx

end AxlSdk
