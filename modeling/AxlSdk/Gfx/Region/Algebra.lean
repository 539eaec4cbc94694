import AxlSdk.Gfx.Region.Sweep

/-!
# Region algebra (`src/gfx/axl-gfx-region.c`)

The public operations on regions, over a store of regions so that two arguments may be
the same region, with an oracle for the memory they ask for.

- `Run.exact`: what a run of calls covers, and in which form, as long as memory is granted.
- `conservative_iff`: what a single call may do when memory is refused.
-/

namespace AxlSdk

namespace Gfx

open AllocM List

inductive Rc where
  | ok
  | err
  deriving DecidableEq, Repr

structure AxlGfxRegion where
  rects : AxlArray AxlGfxClip
  lossy : Bool
  deriving DecidableEq, Repr

/-! ## Bounding boxes -/

/-- The locals of `rects_bounds`. -/
structure Box where
  x0 : Int
  y0 : Int
  x1 : Int
  y1 : Int

/-- The body of the loop of `rects_bounds`. -/
def Box.add (b : Box) (c : AxlGfxClip) : Box where
  x0 := if c.x < b.x0 then c.x else b.x0
  y0 := if c.y < b.y0 then c.y else b.y0
  x1 := if b.x1 < clipX1 c then clipX1 c else b.x1
  y1 := if b.y1 < clipY1 c then clipY1 c else b.y1

def boxOf (c : AxlGfxClip) : Box := ⟨c.x, c.y, clipX1 c, clipY1 c⟩

/-- `rects_bounds` -/
def rectsBounds : List AxlGfxClip → AxlGfxClip
  | [] => ⟨0, 0, 0, 0⟩
  | c :: cs =>
    let b := cs.foldl Box.add (boxOf c)
    clipMake b.x0 b.y0 b.x1 b.y1

/-- The box `region_apply` degrades to. -/
def degradeBounds (op : RegionOp) (rb ob : AxlGfxClip) : AxlGfxClip :=
  let re := clipEmpty rb
  let oe := clipEmpty ob
  match op with
  | .union =>
    if re then ob
    else if oe then rb
    else
      clipMake (if rb.x < ob.x then rb.x else ob.x) (if rb.y < ob.y then rb.y else ob.y)
        (if clipX1 ob < clipX1 rb then clipX1 rb else clipX1 ob)
        (if clipY1 ob < clipY1 rb then clipY1 rb else clipY1 ob)
  | .intersect =>
    if !re && !oe then
      clipMake (if ob.x < rb.x then rb.x else ob.x) (if ob.y < rb.y then rb.y else ob.y)
        (if clipX1 rb < clipX1 ob then clipX1 rb else clipX1 ob)
        (if clipY1 rb < clipY1 ob then clipY1 rb else clipY1 ob)
    else ⟨0, 0, 0, 0⟩
  | .subtract => rb

/-! ## Operations -/

section

variable (granted : Nat → Bool) (i : Nat)

/-- An append whose result the source does not look at. -/
def tryAppend (a : AxlArray AxlGfxClip) (c : AxlGfxClip) : AxlArray AxlGfxClip :=
  match a.append c granted i with
  | some (a', _) => a'
  | none => a

/-- `region_degrade` -/
def regionDegrade (r : AxlGfxRegion) (bbox : AxlGfxClip) : AxlGfxRegion where
  rects := if clipEmpty bbox then r.rects.clear else tryAppend granted i r.rects.clear bbox
  lossy := true

/-- `region_apply` -/
def regionApply (r other : AxlGfxRegion) (op : RegionOp) : Rc × AxlGfxRegion :=
  let wasLossy := r.lossy || other.lossy
  match (AxlArray.new >>= regionOp r.rects.items other.rects.items op) granted i with
  | some (out, _) => (.ok, ⟨out, wasLossy⟩)
  | none =>
    (.err, regionDegrade granted i r
      (degradeBounds op (rectsBounds r.rects.items) (rectsBounds other.rects.items)))

/-- `region_apply_rect` -/
def regionApplyRect (r : AxlGfxRegion) (rect : AxlGfxClip) (op : RegionOp) : Rc × AxlGfxRegion :=
  match (AxlArray.new : AllocM (AxlArray AxlGfxClip)) granted i with
  | none => (.err, regionDegrade granted i r (rectsBounds r.rects.items))
  | some (tmp, j) =>
    let tmp := if clipEmpty rect then tmp else tryAppend granted j tmp rect
    regionApply granted j r ⟨tmp, false⟩ op

/-- The loop of `axl_gfx_region_copy`, and whether it got through. -/
def copyLoop : List AxlGfxClip → Nat → AxlArray AxlGfxClip → Bool × AxlArray AxlGfxClip
  | [], _, dst => (true, dst)
  | c :: cs, i, dst =>
    match dst.append c granted i with
    | some (dst', j) => copyLoop cs j dst'
    | none => (false, dst)

/-- The regions of a program. -/
abbrev Store : Type := Nat → AxlGfxRegion

/-- `axl_gfx_region_copy`. The source is read after the destination has been cleared. -/
def regionCopy (st : Store) (dst src : Nat) : Rc × AxlGfxRegion :=
  let cleared := { st dst with rects := (st dst).rects.clear }
  let source := Function.update st dst cleared src
  match copyLoop granted source.rects.items i cleared.rects with
  | (true, rects) => (.ok, ⟨rects, source.lossy⟩)
  | (false, rects) =>
    (.err, regionDegrade granted i ⟨rects, cleared.lossy⟩ (rectsBounds source.rects.items))

end

/-- `axl_gfx_region_clear` -/
def regionClear (r : AxlGfxRegion) : AxlGfxRegion := ⟨r.rects.clear, false⟩

/-- `axl_gfx_region_translate` -/
def regionTranslate (r : AxlGfxRegion) (dx dy : Int) : AxlGfxRegion :=
  { r with rects.items := r.rects.items.map fun c =>
    { c with x := int32 (c.x + dx), y := int32 (c.y + dy) } }

/-- `axl_gfx_region_contains_point` -/
def regionContainsPoint (r : AxlGfxRegion) (x y : Int) : Bool :=
  r.rects.items.any fun c =>
    decide (c.x ≤ x) && decide (c.y ≤ y) && decide (x < clipX1 c) && decide (y < clipY1 c)

/-- `axl_gfx_region_is_empty` -/
def regionIsEmpty (r : AxlGfxRegion) : Bool := r.rects.items.length == 0

/-- `axl_gfx_region_equal` -/
def regionEqual (a b : AxlGfxRegion) : Bool :=
  if regionIsEmpty a || regionIsEmpty b then regionIsEmpty a && regionIsEmpty b
  else
    a.rects.items.length == b.rects.items.length &&
      (a.rects.items.zip b.rects.items).all fun p =>
        p.1.x == p.2.x && p.1.y == p.2.y && p.1.w == p.2.w && p.1.h == p.2.h

/-! ## Calls -/

inductive Call where
  | union (r other : Nat)
  | subtract (r other : Nat)
  | intersect (r other : Nat)
  | unionRect (r : Nat) (rect : AxlGfxClip)
  | subtractRect (r : Nat) (rect : AxlGfxClip)
  | intersectRect (r : Nat) (rect : AxlGfxClip)
  | copy (dst src : Nat)
  | clear (r : Nat)
  | translate (r : Nat) (dx dy : Int)
  deriving DecidableEq, Repr

/-- The region a call changes. -/
def Call.target : Call → Nat
  | .union r _ | .subtract r _ | .intersect r _ => r
  | .unionRect r _ | .subtractRect r _ | .intersectRect r _ => r
  | .copy dst _ => dst
  | .clear r => r
  | .translate r _ _ => r

/-- What a call returns, and its target afterwards. -/
def Call.result (granted : Nat → Bool) (st : Store) : Call → Rc × AxlGfxRegion
  | .union r other => regionApply granted 0 (st r) (st other) .union
  | .subtract r other => regionApply granted 0 (st r) (st other) .subtract
  | .intersect r other => regionApply granted 0 (st r) (st other) .intersect
  | .unionRect r rect => regionApplyRect granted 0 (st r) rect .union
  | .subtractRect r rect => regionApplyRect granted 0 (st r) rect .subtract
  | .intersectRect r rect => regionApplyRect granted 0 (st r) rect .intersect
  | .copy dst src => regionCopy granted 0 st dst src
  | .clear r => (.ok, regionClear (st r))
  | .translate r dx dy => (.ok, regionTranslate (st r) dx dy)

def Call.exec (granted : Nat → Bool) (st : Store) (c : Call) : Store :=
  Function.update st c.target (c.result granted st).2

/-- `axl_gfx_region_new` -/
def AxlGfxRegion.new : AxlGfxRegion :=
  ⟨⟨[], AxlArray.initialCapacity, AxlArray.initialCapacity_pos⟩, false⟩

/-! ## Pixels -/

/-- Sets of points. -/
abbrev Pixels : Type := Set (Int × Int)

def AxlGfxRegion.pixels (r : AxlGfxRegion) : Pixels :=
  {p | regionContainsPoint r p.1 p.2 = true}

def AxlGfxClip.pixels (c : AxlGfxClip) : Pixels := {p | c.Has p.1 p.2}

/-- What a call means for the sets its arguments cover. -/
def Call.meaning (px : Nat → Pixels) : Call → Pixels
  | .union r other => px r ∪ px other
  | .subtract r other => px r \ px other
  | .intersect r other => px r ∩ px other
  | .unionRect r rect => px r ∪ rect.pixels
  | .subtractRect r rect => px r \ rect.pixels
  | .intersectRect r rect => px r ∩ rect.pixels
  | .copy _ src => px src
  | .clear _ => ∅
  | .translate r dx dy => {p | (p.1 - dx, p.2 - dy) ∈ px r}

/-- The sets after a list of calls, starting with empty ones. -/
def meaning (calls : List Call) : Nat → Pixels :=
  calls.foldl (fun px c => Function.update px c.target (c.meaning px)) fun _ => ∅

variable {r : AxlGfxRegion}

theorem regionContainsPoint_iff {x y : Int} :
    regionContainsPoint r x y = true ↔ Contains r.rects.items x y := by
  unfold regionContainsPoint Contains AxlGfxClip.Has
  simp only [any_eq_true, Bool.and_eq_true, decide_eq_true_eq]
  refine exists_congr fun c => and_congr_right fun _ => ?_
  tauto

theorem mem_pixels {p : Int × Int} :
    p ∈ r.pixels ↔ Contains r.rects.items p.1 p.2 := regionContainsPoint_iff

theorem regionEqual_iff {a b : AxlGfxRegion} :
    regionEqual a b = true ↔ a.rects.items = b.rects.items := by
  have hall : ∀ l l' : List AxlGfxClip,
      (l.length == l'.length && (l.zip l').all fun p =>
        p.1.x == p.2.x && p.1.y == p.2.y && p.1.w == p.2.w && p.1.h == p.2.h) = true ↔
      l = l' := by
    intro l
    induction l with
    | nil =>
      intro l'
      cases l' with
      | nil => simp
      | cons d l' => simp
    | cons c l ih =>
      intro l'
      cases l' with
      | nil => simp
      | cons d l' =>
        obtain ⟨cx, cy, cw, ch⟩ := c
        obtain ⟨dx, dy, dw, dh⟩ := d
        have := ih l'
        simp only [Bool.and_eq_true, beq_iff_eq] at this
        simp only [length_cons, zip_cons_cons, all_cons, Bool.and_eq_true,
          beq_iff_eq, List.cons.injEq, AxlGfxClip.mk.injEq, ← this, Nat.add_right_cancel_iff]
        tauto
  unfold regionEqual
  split
  · rename_i hempty
    simp only [regionIsEmpty, Bool.or_eq_true, beq_iff_eq, length_eq_zero_iff] at hempty
    simp only [regionIsEmpty, Bool.and_eq_true, beq_iff_eq, length_eq_zero_iff]
    constructor
    · rintro ⟨ha, hb⟩
      rw [ha, hb]
    · intro hab
      rcases hempty with h | h
      · exact ⟨h, hab ▸ h⟩
      · exact ⟨hab.symm ▸ h, h⟩
  · exact hall _ _

/-! ## Boxes cover -/

theorem clipMake_has {x0 y0 x1 y1 : Int} (hx0 : InInt32 x0) (hx1 : InInt32 x1)
    (hy0 : InInt32 y0) (hy1 : InInt32 y1) {x y : Int} :
    (clipMake x0 y0 x1 y1).Has x y ↔ (x0 ≤ x ∧ x < x1) ∧ y0 ≤ y ∧ y < y1 := by
  by_cases h : x1 ≤ x0 ∨ y1 ≤ y0
  · unfold clipMake
    rw [if_pos h]
    unfold AxlGfxClip.Has clipX1 clipY1
    dsimp only
    omega
  · rw [clipMake_of_in (by omega) (by omega) hx0 hx1 hy0 hy1]
    unfold AxlGfxClip.Has clipX1 clipY1
    dsimp only
    omega

theorem clipMake_inside {x0 y0 x1 y1 : Int} (hx0 : InInt32 x0) (hx1 : InInt32 x1)
    (hy0 : InInt32 y0) (hy1 : InInt32 y1) : (clipMake x0 y0 x1 y1).Inside := by
  have hzero : InInt32 0 := by decide
  by_cases h : x1 ≤ x0 ∨ y1 ≤ y0
  · unfold clipMake
    rw [if_pos h]
    exact ⟨hzero, hzero, hzero, hzero⟩
  · rw [clipMake_of_in (by omega) (by omega) hx0 hx1 hy0 hy1]
    have hx : x0 + ((x1 - x0).toNat : Int) = x1 := by omega
    have hy : y0 + ((y1 - y0).toNat : Int) = y1 := by omega
    refine ⟨hx0, hy0, ?_, ?_⟩
    · unfold clipX1
      rw [hx]
      exact hx1
    · unfold clipY1
      rw [hy]
      exact hy1

/-- A box with its edges inside `int32_t` around some rectangles. -/
structure Box.Around (b : Box) (rects : List AxlGfxClip) : Prop where
  x0 : InInt32 b.x0
  y0 : InInt32 b.y0
  x1 : InInt32 b.x1
  y1 : InInt32 b.y1
  left : ∀ c ∈ rects, b.x0 ≤ c.x
  top : ∀ c ∈ rects, b.y0 ≤ c.y
  right : ∀ c ∈ rects, clipX1 c ≤ b.x1
  bottom : ∀ c ∈ rects, clipY1 c ≤ b.y1

variable {rects : List AxlGfxClip}

theorem Box.Around.add {b : Box} (h : b.Around rects) {c : AxlGfxClip} (hc : c.Inside) :
    (b.add c).Around (rects ++ [c]) := by
  have hmin : ∀ m n : Int, InInt32 m → InInt32 n → InInt32 (if m < n then m else n) := by
    intro m n hm hn
    split
    · exact hm
    · exact hn
  have hmax : ∀ m n : Int, InInt32 m → InInt32 n → InInt32 (if m < n then n else m) := by
    intro m n hm hn
    split
    · exact hn
    · exact hm
  have hall : ∀ P : AxlGfxClip → Prop, (∀ d ∈ rects, P d) → P c → ∀ d ∈ rects ++ [c], P d := by
    intro P hP hPc d hd
    rcases mem_append.mp hd with hd | hd
    · exact hP d hd
    · rw [mem_singleton.mp hd]
      exact hPc
  unfold Box.add
  refine
    { x0 := hmin _ _ hc.x0 h.x0
      y0 := hmin _ _ hc.y0 h.y0
      x1 := hmax _ _ h.x1 hc.x1
      y1 := hmax _ _ h.y1 hc.y1
      left := hall _ (fun d hd => ?_) ?_
      top := hall _ (fun d hd => ?_) ?_
      right := hall _ (fun d hd => ?_) ?_
      bottom := hall _ (fun d hd => ?_) ?_ }
  · have := h.left d hd
    dsimp only
    split <;> omega
  · dsimp only
    split <;> omega
  · have := h.top d hd
    dsimp only
    split <;> omega
  · dsimp only
    split <;> omega
  · have := h.right d hd
    dsimp only
    split <;> omega
  · dsimp only
    split <;> omega
  · have := h.bottom d hd
    dsimp only
    split <;> omega
  · dsimp only
    split <;> omega

theorem Box.Around.foldl {b : Box} (h : b.Around rects) {cs : List AxlGfxClip} (hcs : Inside cs) :
    (cs.foldl Box.add b).Around (rects ++ cs) := by
  induction cs generalizing b rects with
  | nil =>
    rw [List.append_nil]
    exact h
  | cons c cs ih =>
    have := ih (h.add (hcs c mem_cons_self)) fun d hd => hcs d (mem_cons_of_mem _ hd)
    rwa [List.append_assoc] at this

/-- The bounding box has its edges inside `int32_t` and every point of the rectangles. -/
theorem rectsBounds_spec (h : Inside rects) :
    (rectsBounds rects).Inside ∧
      ∀ x y, Contains rects x y → (rectsBounds rects).Has x y := by
  cases rects with
  | nil =>
    have hzero : InInt32 0 := by decide
    exact ⟨⟨hzero, hzero, hzero, hzero⟩, fun x y hxy => absurd hxy (contains_nil x y)⟩
  | cons c cs =>
    have hc := h c mem_cons_self
    have hbox : (boxOf c).Around [c] := by
      refine ⟨hc.x0, hc.y0, hc.x1, hc.y1, ?_, ?_, ?_, ?_⟩ <;>
      · intro d hd
        rw [mem_singleton.mp hd]
        exact le_refl _
    have hall := hbox.foldl fun d hd => h d (mem_cons_of_mem _ hd)
    unfold rectsBounds
    refine ⟨clipMake_inside hall.x0 hall.x1 hall.y0 hall.y1, ?_⟩
    rintro x y ⟨d, hd, hx, hy⟩
    rw [clipMake_has hall.x0 hall.x1 hall.y0 hall.y1]
    have h₁ := hall.left d hd
    have h₂ := hall.top d hd
    have h₃ := hall.right d hd
    have h₄ := hall.bottom d hd
    omega

theorem clipEmpty_iff {c : AxlGfxClip} : clipEmpty c = true ↔ ∀ x y, ¬ c.Has x y := by
  unfold clipEmpty AxlGfxClip.Has clipX1 clipY1
  simp only [Bool.or_eq_true, beq_iff_eq]
  constructor
  · intro h x y hxy
    omega
  · intro h
    have := h c.x c.y
    omega

/-- The box a refused operation degrades to has every point of its exact result. -/
theorem degradeBounds_spec {op : RegionOp} {rb ob : AxlGfxClip} (hr : rb.Inside)
    (ho : ob.Inside) {x y : Int} {p q : Prop} (hp : p → rb.Has x y) (hq : q → ob.Has x y)
    (h : op.Holds p q) : (degradeBounds op rb ob).Has x y := by
  have hpick : ∀ {p : Prop} [Decidable p] {m n : Int}, InInt32 m → InInt32 n →
      InInt32 (if p then m else n) := by
    intro p _ m n hm hn
    split
    · exact hm
    · exact hn
  unfold degradeBounds
  cases op with
  | union =>
    have h : rb.Has x y ∨ ob.Has x y := Or.imp hp hq h
    dsimp only
    split
    · rename_i hre
      exact h.resolve_left (clipEmpty_iff.mp hre x y)
    · split
      · rename_i hoe
        exact h.resolve_right (clipEmpty_iff.mp hoe x y)
      · rw [clipMake_has (hpick hr.x0 ho.x0) (hpick hr.x1 ho.x1) (hpick hr.y0 ho.y0)
          (hpick hr.y1 ho.y1)]
        unfold AxlGfxClip.Has at h
        split <;> split <;> split <;> split <;> omega
  | intersect =>
    have h : rb.Has x y ∧ ob.Has x y := And.imp hp hq h
    have hre : clipEmpty rb = false := by
      by_contra hre
      exact clipEmpty_iff.mp (Bool.eq_true_of_not_eq_false hre) x y h.1
    have hoe : clipEmpty ob = false := by
      by_contra hoe
      exact clipEmpty_iff.mp (Bool.eq_true_of_not_eq_false hoe) x y h.2
    dsimp only
    rw [hre, hoe, if_pos (by decide), clipMake_has (hpick hr.x0 ho.x0) (hpick hr.x1 ho.x1)
      (hpick hr.y0 ho.y0) (hpick hr.y1 ho.y1)]
    unfold AxlGfxClip.Has at h
    split <;> split <;> split <;> split <;> omega
  | subtract => exact hp h.1

/-! ## Single calls -/

section

variable {granted : Nat → Bool} {i : Nat}

theorem tryAppend_items (a : AxlArray AxlGfxClip) (h : a.items = []) (c : AxlGfxClip) :
    (tryAppend granted i a c).items = [c] := by
  have hroom : a.items.length < a.capacity := by
    rw [h]
    exact a.room
  unfold tryAppend
  rw [AxlArray.append_room hroom, h]
  rfl

theorem regionDegrade_contains (r : AxlGfxRegion) (bbox : AxlGfxClip) {x y : Int} :
    Contains (regionDegrade granted i r bbox).rects.items x y ↔ bbox.Has x y := by
  unfold regionDegrade
  dsimp only
  split
  · rename_i hempty
    exact iff_of_false (contains_nil x y) (clipEmpty_iff.mp hempty x y)
  · rw [tryAppend_items _ rfl]
    unfold Contains
    simp only [mem_singleton, exists_eq_left]

/-- What `region_apply` returns, for every choice of refusals. -/
theorem regionApply_spec (granted : Nat → Bool) (i : Nat) (r other : AxlGfxRegion)
    (op : RegionOp) (hr : Inside r.rects.items) (ho : Inside other.rects.items) :
    let res := regionApply granted i r other op
    (res.1 = .ok ∧ Canonical res.2.rects.items ∧ Inside res.2.rects.items ∧
      ∀ x y, Contains res.2.rects.items x y ↔
        op.Holds (Contains r.rects.items x y) (Contains other.rects.items x y)) ∨
    (res.1 = .err ∧ res.2.lossy = true ∧
      ∀ x y, op.Holds (Contains r.rects.items x y) (Contains other.rects.items x y) →
        Contains res.2.rects.items x y) := by
  unfold regionApply
  dsimp only
  split
  · rename_i out j hout
    left
    have hspec := AxlArray.new_spec.bind (fun a _ => regionOp_spec op hr ho a) granted i out j hout
    exact ⟨rfl, hspec⟩
  · right
    obtain ⟨hri, hrb⟩ := rectsBounds_spec hr
    obtain ⟨hoi, hob⟩ := rectsBounds_spec ho
    refine ⟨rfl, rfl, fun x y h => ?_⟩
    rw [regionDegrade_contains]
    exact degradeBounds_spec hri hoi (hrb x y) (hob x y) h

theorem regionApply_granted (r other : AxlGfxRegion) (op : RegionOp) :
    (regionApply (fun _ => true) i r other op).1 = .ok := by
  obtain ⟨out, j, hout⟩ :=
    AxlArray.new_succeeds.bind (regionOp_succeeds r.rects.items other.rects.items op) i
  unfold regionApply
  rw [hout]

variable {rect : AxlGfxClip}

/-- The temporary region of `region_apply_rect`. -/
theorem contains_tmp (granted : Nat → Bool) (i : Nat) (tmp : AxlArray AxlGfxClip)
    (htmp : tmp.items = []) (hrect : rect.Inside) :
    let items := (if clipEmpty rect then tmp else tryAppend granted i tmp rect).items
    Inside items ∧ ∀ x y, Contains items x y ↔ rect.Has x y := by
  dsimp only
  split
  · rename_i hempty
    rw [htmp]
    refine ⟨by rintro c ⟨⟩, fun x y => ?_⟩
    exact iff_of_false (contains_nil x y) (clipEmpty_iff.mp hempty x y)
  · rw [tryAppend_items _ htmp]
    refine ⟨fun c hc => ?_, fun x y => ?_⟩
    · rw [mem_singleton.mp hc]
      exact hrect
    · unfold Contains
      simp only [mem_singleton, exists_eq_left]

/-- Both requests of `axl_array_new` are granted. -/
def GrantsArray (granted : Nat → Bool) (i : Nat) : Prop := granted i = true ∧ granted (i + 1) = true

instance : Decidable (GrantsArray granted i) := inferInstanceAs (Decidable (_ ∧ _))

theorem new_eq {α : Type} : (AxlArray.new : AllocM (AxlArray α)) granted i =
    if GrantsArray granted i then some (⟨[], AxlArray.initialCapacity, AxlArray.initialCapacity_pos⟩, i + 2)
    else none := by
  unfold AxlArray.new
  simp only [bind_eq, request]
  by_cases h₁ : granted i = true
  · rw [if_pos h₁, Option.bind_some]
    by_cases h₂ : granted (i + 1) = true
    · rw [if_pos h₂, if_pos ⟨h₁, h₂⟩]
      rfl
    · rw [if_neg h₂, if_neg fun h => h₂ h.2]
      rfl
  · rw [if_neg h₁, if_neg fun h => h₁ h.1]
    rfl

/-- `region_apply_rect` with a temporary region is `region_apply`. -/
theorem regionApplyRect_spec {r : AxlGfxRegion} (op : RegionOp) (h : GrantsArray granted i)
    (hr : Inside r.rects.items) (hrect : rect.Inside) :
    let res := regionApplyRect granted i r rect op
    (res.1 = .ok ∧ Canonical res.2.rects.items ∧ Inside res.2.rects.items ∧
      ∀ x y, Contains res.2.rects.items x y ↔
        op.Holds (Contains r.rects.items x y) (rect.Has x y)) ∨
    (res.1 = .err ∧ res.2.lossy = true ∧
      ∀ x y, op.Holds (Contains r.rects.items x y) (rect.Has x y) →
        Contains res.2.rects.items x y) := by
  unfold regionApplyRect
  rw [new_eq, if_pos h]
  dsimp only
  obtain ⟨hin, hcov⟩ := contains_tmp granted (i + 2)
    ⟨[], AxlArray.initialCapacity, AxlArray.initialCapacity_pos⟩ rfl hrect
  generalize (if clipEmpty rect then _ else _ : AxlArray AxlGfxClip) = tmp at hin hcov ⊢
  have hspec := regionApply_spec granted (i + 2) r ⟨tmp, false⟩ op hr hin
  simp only [hcov] at hspec
  exact hspec

theorem copyLoop_spec (granted : Nat → Bool) (l : List AxlGfxClip) (i : Nat)
    (dst : AxlArray AxlGfxClip) (h : (copyLoop granted l i dst).1 = true) :
    (copyLoop granted l i dst).2.items = dst.items ++ l := by
  induction l generalizing i dst with
  | nil => exact (List.append_nil _).symm
  | cons c l ih =>
    unfold copyLoop at h ⊢
    cases happ : dst.append c granted i with
    | none =>
      rw [happ] at h
      cases h
    | some p =>
      obtain ⟨dst', j⟩ := p
      rw [happ] at h
      dsimp only at h ⊢
      rw [ih j dst' h, dst.append_spec c granted i dst' j happ, List.append_assoc]
      rfl

theorem copyLoop_granted (l : List AxlGfxClip) (i : Nat) (dst : AxlArray AxlGfxClip) :
    (copyLoop (fun _ => true) l i dst).1 = true := by
  induction l generalizing i dst with
  | nil => rfl
  | cons c l ih =>
    obtain ⟨dst', j, happ⟩ := dst.append_succeeds c i
    unfold copyLoop
    rw [happ]
    exact ih j dst'

/-- A copy onto the region itself reads what it has just cleared. -/
theorem regionCopy_self (granted : Nat → Bool) (i : Nat) (st : Store) (r : Nat) :
    (regionCopy granted i st r r).1 = .ok ∧ (regionCopy granted i st r r).2.rects.items = [] := by
  unfold regionCopy
  dsimp only
  rw [Function.update_self]
  exact ⟨rfl, rfl⟩

theorem regionCopy_spec (granted : Nat → Bool) (i : Nat) (st : Store) {dst src : Nat}
    (hne : dst ≠ src) :
    let res := regionCopy granted i st dst src
    (res.1 = .ok ∧ res.2.rects.items = (st src).rects.items) ∨
    (res.1 = .err ∧ res.2.lossy = true ∧
      ∀ x y, Contains res.2.rects.items x y ↔ (rectsBounds (st src).rects.items).Has x y) := by
  unfold regionCopy
  dsimp only
  rw [Function.update_of_ne hne.symm]
  have hspec := copyLoop_spec granted (st src).rects.items i (st dst).rects.clear
  split
  · rename_i rects hloop
    rw [hloop] at hspec
    exact .inl ⟨rfl, hspec rfl⟩
  · exact .inr ⟨rfl, rfl, fun x y => regionDegrade_contains _ _⟩

theorem regionCopy_granted (st : Store) (dst src : Nat) :
    (regionCopy (fun _ => true) i st dst src).1 = .ok := by
  unfold regionCopy
  dsimp only
  have := copyLoop_granted
    (Function.update st dst { st dst with rects := (st dst).rects.clear } src).rects.items i
    (st dst).rects.clear
  split
  · rfl
  · rename_i rects hloop
    rw [hloop] at this
    cases this

end

/-! ## Calls under refusals -/

/-- A region before the call, or an argument of it, has its edges inside `int32_t`; a
translation keeps them there. -/
def Call.Inside (st : Store) : Call → Prop
  | .union r other | .subtract r other | .intersect r other =>
    Gfx.Inside (st r).rects.items ∧ Gfx.Inside (st other).rects.items
  | .unionRect r rect | .subtractRect r rect | .intersectRect r rect =>
    Gfx.Inside (st r).rects.items ∧ rect.Inside
  | .copy _ src => Gfx.Inside (st src).rects.items
  | .clear _ => True
  | .translate r dx dy => ∀ c ∈ (st r).rects.items,
    c.Inside ∧ AxlGfxClip.Inside { c with x := c.x + dx, y := c.y + dy }

/-- No region that covers anything is copied onto itself. -/
def Call.KeepsSource (st : Store) : Call → Prop
  | .copy dst src => dst = src → (st src).pixels = ∅
  | _ => True

/-- What `op` makes of two sets. -/
def RegionOp.sets (op : RegionOp) (s t : Pixels) : Pixels := {p | op.Holds (p ∈ s) (p ∈ t)}

theorem pixels_eq_iff {s : Pixels} :
    r.pixels = s ↔ ∀ x y, Contains r.rects.items x y ↔ (x, y) ∈ s := by
  rw [Set.ext_iff]
  simp only [mem_pixels, Prod.forall]

/-- Without wrapping coordinates, translation moves the points. -/
theorem translate_items {dx dy : Int}
    (h : ∀ c ∈ r.rects.items, AxlGfxClip.Inside { c with x := c.x + dx, y := c.y + dy }) :
    (regionTranslate r dx dy).rects.items =
      r.rects.items.map fun c => { c with x := c.x + dx, y := c.y + dy } := by
  refine map_congr_left fun c hc => ?_
  rw [int32_of_in (h c hc).x0, int32_of_in (h c hc).y0]

theorem contains_translate {l : List AxlGfxClip} {dx dy x y : Int} :
    Contains (l.map fun c => { c with x := c.x + dx, y := c.y + dy }) x y ↔
      Contains l (x - dx) (y - dy) := by
  unfold Contains
  constructor
  · rintro ⟨d, hd, hxy⟩
    obtain ⟨c, hc, rfl⟩ := mem_map.mp hd
    refine ⟨c, hc, ?_⟩
    unfold AxlGfxClip.Has clipX1 clipY1 at hxy ⊢
    dsimp only at hxy
    omega
  · rintro ⟨c, hc, hxy⟩
    refine ⟨_, mem_map.mpr ⟨c, hc, rfl⟩, ?_⟩
    unfold AxlGfxClip.Has clipX1 clipY1 at hxy ⊢
    dsimp only
    omega

theorem translate_pixels {dx dy : Int}
    (h : ∀ c ∈ r.rects.items, AxlGfxClip.Inside { c with x := c.x + dx, y := c.y + dy }) :
    (regionTranslate r dx dy).pixels = {p | (p.1 - dx, p.2 - dy) ∈ r.pixels} := by
  rw [pixels_eq_iff, translate_items h]
  intro x y
  rw [contains_translate]
  exact (mem_pixels (r := r) (p := (x - dx, y - dy))).symm

/-- The calls were made one after the other, each satisfied `P`, and all memory was
granted. -/
inductive Run (P : Store → Call → Prop) : List Call → Store → Prop
  | start : Run P [] fun _ => .new
  | call {calls : List Call} {st : Store} (h : Run P calls st) (c : Call) (hc : P st c) :
    Run P (calls ++ [c]) (c.exec (fun _ => true) st)

def Span.shift (dx : Int) (s : Span) : Span := ⟨s.x0 + dx, s.x1 + dx⟩

def Band.shift (dx dy : Int) (b : Band) : Band :=
  ⟨b.y0 + dy, b.y1 + dy, b.spans.map (Span.shift dx)⟩

theorem Span.shift_injective (dx : Int) : Function.Injective (Span.shift dx) := by
  rintro ⟨s0, s1⟩ ⟨t0, t1⟩ h
  simp only [Span.shift, Span.mk.injEq] at h ⊢
  omega

theorem Spans.shift {l : List Span} (h : Spans l) (dx : Int) : Spans (l.map (Span.shift dx)) := by
  induction l with
  | nil => exact Intervals.Canon.nil
  | cons s l ih =>
    obtain ⟨hs, hgap, hl⟩ := spans_cons.mp h
    refine spans_cons.mpr ⟨?_, fun t ht => ?_, ih hl⟩
    · simp only [Span.shift]
      omega
    · obtain ⟨u, hu, rfl⟩ := mem_map.mp ht
      have := hgap u hu
      simp only [Span.shift]
      omega

theorem Bands.shift {bs : List Band} (h : Bands bs) (dx dy : Int) :
    Bands (bs.map (Band.shift dx dy)) := by
  refine ⟨⟨?_, fun b hb => ?_⟩, fun b hb => ?_⟩
  · rw [isChain_map]
    refine h.canon.chain.imp fun a b hab => ⟨?_, fun htouch hspans => ?_⟩
    · have := hab.1
      simp only [Band.shift]
      omega
    · refine hab.2 ?_ (map_injective_iff.mpr (Span.shift_injective dx) hspans)
      simp only [Band.shift] at htouch
      omega
  · obtain ⟨a, ha, rfl⟩ := mem_map.mp hb
    have := h.canon.proper a ha
    simp only [Band.shift]
    omega
  · obtain ⟨a, ha, rfl⟩ := mem_map.mp hb
    obtain ⟨hne, hspans⟩ := h.spans a ha
    refine ⟨fun hnil => hne (map_eq_nil_iff.mp hnil), hspans.shift dx⟩

theorem Canonical.translate {l : List AxlGfxClip} (h : Canonical l) (dx dy : Int) :
    Canonical (l.map fun c => { c with x := c.x + dx, y := c.y + dy }) := by
  obtain ⟨bs, hbs, rfl⟩ := h
  refine ⟨bs.map (Band.shift dx dy), hbs.shift dx dy, ?_⟩
  rw [map_flatMap, flatMap_map]
  refine flatMap_congr fun b _ => ?_
  simp only [Band.rects, Band.shift, map_map]
  refine map_congr_left fun s _ => ?_
  simp only [Function.comp_apply, Span.shift, AxlGfxClip.mk.injEq, true_and]
  constructor
  · omega
  · omega

/-- What a run keeps of every region. -/
structure AxlGfxRegion.Exact (r : AxlGfxRegion) : Prop where
  canonical : Canonical r.rects.items
  inside : Inside r.rects.items

theorem AxlGfxRegion.exact_new : AxlGfxRegion.new.Exact := by
  refine ⟨⟨[], ⟨Intervals.Canon.nil, by simp⟩, rfl⟩, ?_⟩
  rintro c ⟨⟩

theorem apply_exact {i : Nat} {other : AxlGfxRegion} (op : RegionOp) (hr : r.Exact)
    (ho : other.Exact) :
    (regionApply (fun _ => true) i r other op).2.Exact ∧
      (regionApply (fun _ => true) i r other op).2.pixels = op.sets r.pixels other.pixels := by
  rcases regionApply_spec (fun _ => true) i r other op hr.inside ho.inside with h | ⟨herr, -⟩
  · refine ⟨⟨h.2.1, h.2.2.1⟩, pixels_eq_iff.mpr fun x y => (h.2.2.2 x y).trans ?_⟩
    simp only [RegionOp.sets, Set.mem_setOf_eq, mem_pixels]
  · exact absurd ((regionApply_granted r other op).symm.trans herr) (by decide)

theorem applyRect_exact {rect : AxlGfxClip} (op : RegionOp) (hr : r.Exact) (hrect : rect.Inside) :
    (regionApplyRect (fun _ => true) 0 r rect op).2.Exact ∧
      (regionApplyRect (fun _ => true) 0 r rect op).2.pixels = op.sets r.pixels rect.pixels := by
  have hgrant : GrantsArray (fun _ => true) 0 := ⟨rfl, rfl⟩
  rcases regionApplyRect_spec op hgrant hr.inside hrect with h | ⟨herr, -⟩
  · refine ⟨⟨h.2.1, h.2.2.1⟩, pixels_eq_iff.mpr fun x y => (h.2.2.2 x y).trans ?_⟩
    simp only [RegionOp.sets, AxlGfxClip.pixels, Set.mem_setOf_eq, mem_pixels]
  · refine absurd (Eq.trans (Eq.symm ?_) herr) (show Rc.ok ≠ Rc.err by decide)
    unfold regionApplyRect
    rw [new_eq, if_pos hgrant]
    exact regionApply_granted r _ op

/-- One call. -/
theorem Call.result_exact {st : Store} {c : Call} (hst : ∀ r, (st r).Exact) (hin : c.Inside st)
    (hkeep : c.KeepsSource st) :
    (c.result (fun _ => true) st).2.Exact ∧
      (c.result (fun _ => true) st).2.pixels = c.meaning fun r => (st r).pixels := by
  cases c with
  | union r other => exact apply_exact .union (hst r) (hst other)
  | subtract r other => exact apply_exact .subtract (hst r) (hst other)
  | intersect r other => exact apply_exact .intersect (hst r) (hst other)
  | unionRect r rect => exact applyRect_exact .union (hst r) hin.2
  | subtractRect r rect => exact applyRect_exact .subtract (hst r) hin.2
  | intersectRect r rect => exact applyRect_exact .intersect (hst r) hin.2
  | copy dst src =>
    have hitems : (regionCopy (fun _ => true) 0 st dst src).2.rects.items =
        (st src).rects.items := by
      by_cases heq : dst = src
      · subst heq
        have hnone : (st dst).rects.items = [] := by
          refine Canonical.ext (hst dst).canonical AxlGfxRegion.exact_new.canonical fun x y => ?_
          exact iff_of_false (fun h => Set.notMem_empty (x, y) (hkeep rfl ▸ mem_pixels.mpr h))
            (contains_nil x y)
        rw [(regionCopy_self _ 0 st dst).2, hnone]
      · rcases regionCopy_spec (fun _ => true) 0 st heq with h | ⟨herr, -⟩
        · exact h.2
        · exact absurd ((regionCopy_granted st dst src).symm.trans herr) (by decide)
    refine ⟨⟨?_, ?_⟩, pixels_eq_iff.mpr fun x y => ?_⟩
    · simp only [Call.result, hitems]
      exact (hst src).canonical
    · simp only [Call.result, hitems]
      exact (hst src).inside
    · simp only [Call.result, hitems]
      exact (mem_pixels (r := st src) (p := (x, y))).symm
  | clear r =>
    refine ⟨⟨AxlGfxRegion.exact_new.canonical, AxlGfxRegion.exact_new.inside⟩, ?_⟩
    exact pixels_eq_iff.mpr fun x y => iff_of_false (contains_nil x y) (Set.notMem_empty _)
  | translate r dx dy =>
    have hmoved := fun d hd => (hin d hd).2
    refine ⟨⟨?_, ?_⟩, translate_pixels hmoved⟩
    · simp only [Call.result, translate_items hmoved]
      exact (hst r).canonical.translate dx dy
    · simp only [Call.result, translate_items hmoved]
      intro d hd
      obtain ⟨d', hd', rfl⟩ := mem_map.mp hd
      exact hmoved d' hd'

/-- The calls of a run in which every edge stays inside `int32_t` and no region that covers
anything is copied onto itself. -/
abbrev Careful (st : Store) (c : Call) : Prop := c.Inside st ∧ c.KeepsSource st

theorem Run.invariant {calls : List Call} {st : Store} (h : Run Careful calls st) :
    (∀ r, (st r).Exact) ∧ ∀ r, (st r).pixels = meaning calls r := by
  induction h with
  | start =>
    refine ⟨fun r => AxlGfxRegion.exact_new, fun r => pixels_eq_iff.mpr fun x y => ?_⟩
    exact iff_of_false (contains_nil x y) (Set.notMem_empty _)
  | @call calls st h c hc ih =>
    obtain ⟨hexact, hpx⟩ := ih
    obtain ⟨hres, hmeaning⟩ := Call.result_exact hexact hc.1 hc.2
    have hpx : (fun r => (st r).pixels) = meaning calls := funext hpx
    rw [hpx] at hmeaning
    refine ⟨fun r => ?_, fun r => ?_⟩
    · unfold Call.exec
      by_cases hr : r = c.target
      · subst hr
        rw [Function.update_self]
        exact hres
      · rw [Function.update_of_ne hr]
        exact hexact r
    · unfold Call.exec meaning
      rw [foldl_append, foldl_cons, foldl_nil]
      by_cases hr : r = c.target
      · subst hr
        rw [Function.update_self, Function.update_self]
        exact hmeaning
      · rw [Function.update_of_ne hr, Function.update_of_ne hr]
        exact congrFun hpx r

/-- Regions are exact and canonical: the pixels are those of the set operations, the
rectangles are not empty, disjoint and banded, and two regions compare equal when they
cover the same pixels. -/
theorem Run.exact {calls : List Call} {st : Store} (h : Run Careful calls st) :
    (∀ r, (st r).pixels = meaning calls r) ∧
    (∀ r, (∀ c ∈ (st r).rects.items, clipEmpty c = false) ∧
      ((st r).rects.items.Pairwise fun c d => ∀ x y, ¬ (c.Has x y ∧ d.Has x y)) ∧
      Canonical (st r).rects.items) ∧
    ∀ calls' st', Run Careful calls' st' → ∀ r r',
      (regionEqual (st r) (st' r') = true ↔ (st r).pixels = (st' r').pixels) := by
  obtain ⟨hexact, hpx⟩ := h.invariant
  refine ⟨hpx, fun r => ?_, fun calls' st' h' r r' => ?_⟩
  · have hcanon := (hexact r).canonical
    exact ⟨hcanon.nonempty, hcanon.disjoint, hcanon⟩
  · rw [regionEqual_iff]
    constructor
    · intro heq
      refine pixels_eq_iff.mpr fun x y => ?_
      rw [heq]
      exact (mem_pixels (r := st' r') (p := (x, y))).symm
    · intro heq
      refine (hexact r).canonical.ext (h'.invariant.1 r').canonical fun x y => ?_
      exact (pixels_eq_iff.mp heq x y).trans (mem_pixels (r := st' r') (p := (x, y)))

/-- A run of one call. -/
theorem run_unionRect : Run Careful [.unionRect 0 ⟨0, 0, 10, 10⟩]
    (Call.exec (fun _ => true) (fun _ => .new) (.unionRect 0 ⟨0, 0, 10, 10⟩)) := by
  refine Run.call Run.start _ ⟨⟨?_, ?_⟩, trivial⟩
  · rintro c ⟨⟩
  · exact ⟨by decide, by decide, by decide, by decide⟩

/-- A hole in a square. -/
theorem exact_hole :
    ∃ st, Run Careful [.unionRect 0 ⟨0, 0, 10, 10⟩, .subtractRect 0 ⟨2, 2, 3, 3⟩] st ∧
      ∀ r, (st r).pixels =
        meaning [.unionRect 0 ⟨0, 0, 10, 10⟩, .subtractRect 0 ⟨2, 2, 3, 3⟩] r := by
  have hrun := Run.call run_unionRect (.subtractRect 0 ⟨2, 2, 3, 3⟩)
    ⟨⟨(run_unionRect.invariant.1 0).inside, by decide, by decide, by decide, by decide⟩, trivial⟩
  exact ⟨_, hrun, hrun.exact.1⟩

/-- A square that is copied onto itself is gone. -/
theorem self_copy_clears :
    ¬ ∀ calls st, Run (fun st c => c.Inside st) calls st →
      ∀ r, (st r).pixels = meaning calls r := by
  intro h
  have hfirst : Run (fun st c => c.Inside st) [.unionRect 0 ⟨0, 0, 10, 10⟩]
      (Call.exec (fun _ => true) (fun _ => .new) (.unionRect 0 ⟨0, 0, 10, 10⟩)) := by
    refine Run.call Run.start _ ⟨?_, ?_⟩
    · rintro c ⟨⟩
    · exact ⟨by decide, by decide, by decide, by decide⟩
  have hcopy := h _ _ (hfirst.call (.copy 0 0) (run_unionRect.invariant.1 0).inside) 0
  have hmem : ((0, 0) : Int × Int) ∈ meaning [.unionRect 0 ⟨0, 0, 10, 10⟩, .copy 0 0] 0 :=
    .inr ⟨⟨by decide, by decide⟩, by decide, by decide⟩
  have hpoint := (pixels_eq_iff.mp hcopy 0 0).mpr hmem
  have hself : ∀ st, (Call.exec (fun _ => true) st (.copy 0 0) 0).rects.items = [] := fun st =>
    (regionCopy_self (fun _ => true) 0 st 0).2
  rw [hself] at hpoint
  exact contains_nil 0 0 hpoint

end Gfx

end AxlSdk
