import AxlSdk.Gfx.Compositor.Scene

/-!
# Presenting is repainting

- `paintAt`: what a scene makes of one pixel. Outside of the footprint of a subtree, the
  subtree makes nothing of it (`paintAt_away`).
- `paintClipWithVis_spec`: painting with culling is painting without.
- `Current`: outside of the damage, the output is what the scene makes of it; every call
  keeps it (`Current.exec`), and a present leaves no damage.
-/

namespace AxlSdk

namespace Gfx

open Scene List

/-! ## Rectangles -/

theorem clipUnion_left {acc add : AxlGfxClip} {x y : Int} (h : acc.Has x y) :
    (clipUnion acc add).Has x y := by
  unfold AxlGfxClip.Has clipX1 clipY1 at h
  unfold clipUnion
  split
  · exact h
  · split
    · omega
    · unfold AxlGfxClip.Has clipX1 clipY1
      dsimp only
      split <;> split <;> split <;> split <;> omega

theorem clipUnion_right {acc add : AxlGfxClip} {x y : Int} (h : add.Has x y) :
    (clipUnion acc add).Has x y := by
  unfold AxlGfxClip.Has clipX1 clipY1 at h
  unfold clipUnion
  split
  · omega
  · split
    · exact h
    · unfold AxlGfxClip.Has clipX1 clipY1
      dsimp only
      split <;> split <;> split <;> split <;> omega

/-- The rectangle between two corners, which has no pixels where they are not in order. -/
theorem spanned_has {x₀ y₀ x₁ y₁ x y : Int} :
    (if x₁ ≤ x₀ ∨ y₁ ≤ y₀ then (⟨0, 0, 0, 0⟩ : AxlGfxClip)
      else ⟨x₀, y₀, (x₁ - x₀).toNat, (y₁ - y₀).toNat⟩).Has x y ↔
      x₀ ≤ x ∧ x < x₁ ∧ y₀ ≤ y ∧ y < y₁ := by
  unfold AxlGfxClip.Has clipX1 clipY1
  split <;> dsimp only <;> omega

theorem larger_le {a b x : Int} : (if a > b then a else b) ≤ x ↔ a ≤ x ∧ b ≤ x := by
  split <;> omega

theorem lt_smaller {a b x : Int} : x < (if a < b then a else b) ↔ x < a ∧ x < b := by
  split <;> omega

theorem clipIntersect_has {a b : AxlGfxClip} {x y : Int} :
    (clipIntersect a b).Has x y ↔ a.Has x y ∧ b.Has x y := by
  rw [clipIntersect, spanned_has, larger_le, larger_le, lt_smaller, lt_smaller]
  unfold AxlGfxClip.Has
  tauto

theorem clipToOutput_has {c : AxlCompositor} {r : AxlGfxClip} {x y : Int} :
    (clipToOutput c r).Has x y ↔ r.Has x y ∧ (⟨0, 0, c.w, c.h⟩ : AxlGfxClip).Has x y := by
  rw [clipToOutput, spanned_has]
  unfold AxlGfxClip.Has clipX1 clipY1
  have hx : (if r.x < 0 then 0 else r.x) ≤ x ↔ r.x ≤ x ∧ 0 ≤ x := by split <;> omega
  have hy : (if r.y < 0 then 0 else r.y) ≤ y ↔ r.y ≤ y ∧ 0 ≤ y := by split <;> omega
  have hx₁ : x < (if r.x + r.w > c.w then (c.w : Int) else r.x + r.w) ↔
      x < r.x + r.w ∧ x < c.w := by
    split <;> omega
  have hy₁ : y < (if r.y + r.h > c.h then (c.h : Int) else r.y + r.h) ↔
      y < r.y + r.h ∧ y < c.h := by
    split <;> omega
  rw [hx, hy, hx₁, hy₁]
  dsimp only
  omega

theorem not_has_empty {x y : Int} : ¬ (⟨0, 0, 0, 0⟩ : AxlGfxClip).Has x y := by
  unfold AxlGfxClip.Has clipX1 clipY1
  dsimp only
  omega

theorem clipToOutput_inside {c : AxlCompositor} (hw : c.w < 2 ^ 31) (hh : c.h < 2 ^ 31)
    (r : AxlGfxClip) : (clipToOutput c r).Inside := by
  have hzero : InInt32 0 := by decide
  have hlow : ∀ n : Int, 0 ≤ if n < 0 then 0 else n := by
    intro n
    split <;> omega
  have hhigh : ∀ n m : Int, (if n > m then m else n) ≤ m := by
    intro n m
    split <;> omega
  have hx0 := hlow r.x
  have hy0 := hlow r.y
  have hx1 := hhigh (clipX1 r) c.w
  have hy1 := hhigh (clipY1 r) c.h
  unfold clipToOutput
  dsimp only
  generalize (if r.x < 0 then 0 else r.x) = x0 at hx0 ⊢
  generalize (if r.y < 0 then 0 else r.y) = y0 at hy0 ⊢
  generalize (if clipX1 r > c.w then (c.w : Int) else clipX1 r) = x1 at hx1 ⊢
  generalize (if clipY1 r > c.h then (c.h : Int) else clipY1 r) = y1 at hy1 ⊢
  split
  · exact ⟨hzero, hzero, hzero, hzero⟩
  · refine ⟨?_, ?_, ?_, ?_⟩
    · show -2 ^ 31 ≤ x0 ∧ x0 < 2 ^ 31
      omega
    · show -2 ^ 31 ≤ y0 ∧ y0 < 2 ^ 31
      omega
    · show -2 ^ 31 ≤ x0 + ((x1 - x0).toNat : Int) ∧ x0 + ((x1 - x0).toNat : Int) < 2 ^ 31
      omega
    · show -2 ^ 31 ≤ y0 + ((y1 - y0).toNat : Int) ∧ y0 + ((y1 - y0).toNat : Int) < 2 ^ 31
      omega

/-! ## One pixel -/

section

variable (composite : AxlGfxPixel → AxlGfxPixel → AxlGfxPixel) (x y : Int)

/-- What a surface makes of a pixel of the output. -/
def blitAt (s : AxlSurface) (up : Chain) (px : AxlGfxPixel) : AxlGfxPixel :=
  match s.buf with
  | none => px
  | some buf =>
    if (surfScreenRect s up).Has x y then
      blitPixel composite s up px
        (buf (x - (surfAbs (s :: up)).1) (y - (surfAbs (s :: up)).2))
    else px

/-- What surfaces in paint order make of it. -/
def paintOrder (order : List (AxlSurface × Chain)) (px : AxlGfxPixel) : AxlGfxPixel :=
  order.foldl (fun px k => blitAt composite x y k.1 k.2 px) px

/-- What a scene makes of it. -/
def paintAt (up : Chain) (t : Scene) (px : AxlGfxPixel) : AxlGfxPixel :=
  paintOrder composite x y (collectOrder up t) px

end

section

variable {composite : AxlGfxPixel → AxlGfxPixel → AxlGfxPixel} {x y : Int}

theorem paintOrder_append (a b : List (AxlSurface × Chain)) (px : AxlGfxPixel) :
    paintOrder composite x y (a ++ b) px =
      paintOrder composite x y b (paintOrder composite x y a px) := foldl_append

/-- A surface, then what is in front of it. -/
theorem paintAt_node (up : Chain) (s : AxlSurface) (children next : Scene) (px : AxlGfxPixel) :
    paintAt composite x y up (.node s children next) px =
      paintAt composite x y up next
        (if s.visible then
          paintAt composite x y (s :: up) children (blitAt composite x y s up px)
        else px) := by
  unfold paintAt
  rw [collectOrder, paintOrder_append]
  by_cases hvisible : s.visible = true
  · rw [if_pos hvisible, if_pos hvisible, paintOrder_append]
    by_cases hbuf : s.buf.isSome = true
    · rw [if_pos hbuf]
      rfl
    · have hnone : s.buf = none := by simpa using hbuf
      have hblit : blitAt composite x y s up px = px := by
        unfold blitAt
        rw [hnone]
      rw [if_neg hbuf, hblit]
      rfl
  · rw [if_neg hvisible, if_neg hvisible]
    rfl

theorem paintAt_append (up : Chain) (t t' : Scene) (px : AxlGfxPixel) :
    paintAt composite x y up (t.append t') px =
      paintAt composite x y up t' (paintAt composite x y up t px) := by
  induction t generalizing px with
  | nil => rfl
  | node s children next _ ih =>
    show paintAt composite x y up (.node s children (next.append t')) px = _
    rw [paintAt_node, ih, ← paintAt_node]

/-! ### Footprints -/

variable {t : Scene}

theorem unionBounds_acc {up : Chain} {acc : AxlGfxClip} (h : acc.Has x y) :
    (unionBounds up acc t).Has x y := by
  induction t generalizing up acc with
  | nil => exact h
  | node s children next _ ih => exact ih (clipUnion_left h)

/-- Outside of its footprint a surface paints nothing, if its children do not. -/
theorem paintNode_away {s : AxlSurface} {up : Chain} {children : Scene}
    (hchildren : ∀ acc, ¬ (unionBounds (s :: up) acc children).Has x y →
      ∀ px, paintAt composite x y (s :: up) children px = px)
    (h : ¬ (surfSubtreeBounds s up children).Has x y) (px : AxlGfxPixel) :
    (if s.visible then paintAt composite x y (s :: up) children (blitAt composite x y s up px)
      else px) = px := by
  unfold surfSubtreeBounds at h
  by_cases hvisible : s.visible = true
  · rw [if_pos hvisible] at h ⊢
    rw [hchildren _ h]
    unfold blitAt
    cases hbuf : s.buf with
    | none => rfl
    | some buf =>
      rw [hbuf] at h
      exact if_neg fun hno => h (unionBounds_acc hno)
  · rw [if_neg hvisible]

/-- Outside of the bounds of some siblings nothing is painted. -/
theorem paintAt_outside {up : Chain} {acc : AxlGfxClip} (h : ¬ (unionBounds up acc t).Has x y)
    (px : AxlGfxPixel) :
    paintAt composite x y up t px = px := by
  induction t generalizing up acc px with
  | nil => rfl
  | node s children next ihchildren ihnext =>
    have hown : ¬ (surfSubtreeBounds s up children).Has x y :=
      fun hno => h (unionBounds_acc (t := next) (clipUnion_right hno))
    rw [paintAt_node, ihnext h, paintNode_away (fun acc hacc => ihchildren hacc) hown]

/-- Outside of the footprint of a subtree the subtree paints nothing. -/
theorem paintAt_away {s : AxlSurface} {up : Chain} {children : Scene}
    (h : ¬ (surfSubtreeBounds s up children).Has x y) (next : Scene) (px : AxlGfxPixel) :
    paintAt composite x y up (.node s children next) px = paintAt composite x y up next px := by
  rw [paintAt_node, paintNode_away (fun acc hacc => paintAt_outside hacc) h]

/-- What surfaces inherit. -/
def inherited (chain : Chain) : List (Int × Int × UInt8) :=
  chain.map fun s => (s.x, s.y, s.opacity)

variable {up' : Chain}

theorem surfAbs_congr {up : Chain} (h : inherited up = inherited up') :
    surfAbs up = surfAbs up' := by
  have hx : up.map AxlSurface.x = up'.map AxlSurface.x := by
    have := congrArg (List.map fun k : Int × Int × UInt8 => k.1) h
    unfold inherited at this
    rw [map_map, map_map] at this
    exact this
  have hy : up.map AxlSurface.y = up'.map AxlSurface.y := by
    have := congrArg (List.map fun k : Int × Int × UInt8 => k.2.1) h
    unfold inherited at this
    rw [map_map, map_map] at this
    exact this
  unfold surfAbs
  rw [hx, hy]

theorem surfEffectiveOpacity_congr {up : Chain} (h : inherited up = inherited up') :
    surfEffectiveOpacity up = surfEffectiveOpacity up' := by
  have hop : up.map AxlSurface.opacity = up'.map AxlSurface.opacity := by
    have := congrArg (List.map fun k : Int × Int × UInt8 => k.2.2) h
    unfold inherited at this
    rw [map_map, map_map] at this
    exact this
  have hfold : ∀ (chain : Chain) (a : Nat),
      chain.foldl (fun a s => a * s.opacity.toNat / 255) a =
        (chain.map AxlSurface.opacity).foldl (fun a o => a * o.toNat / 255) a := by
    intro chain a
    rw [foldl_map]
  unfold surfEffectiveOpacity
  rw [hfold, hfold, hop]

theorem inherited_cons {up : Chain} (h : inherited up = inherited up') (s : AxlSurface) :
    inherited (s :: up) = inherited (s :: up') := congrArg (_ :: ·) h

theorem blitAt_congr {up : Chain} (h : inherited up = inherited up') (s : AxlSurface) :
    blitAt composite x y s up = blitAt composite x y s up' := by
  have hs := inherited_cons h s
  funext px
  unfold blitAt surfScreenRect blitPixel
  rw [surfAbs_congr hs, surfEffectiveOpacity_congr hs]

/-- Of the ancestors only what is inherited matters. -/
theorem paintAt_congr {up : Chain} (h : inherited up = inherited up') (t : Scene) :
    paintAt composite x y up t = paintAt composite x y up' t := by
  induction t generalizing up up' with
  | nil => rfl
  | node s children next ihchildren ihnext =>
    funext px
    rw [paintAt_node, paintAt_node, ihchildren (inherited_cons h s), ihnext h, blitAt_congr h]

theorem unionBounds_congr {up : Chain} (h : surfAbs up = surfAbs up') (acc : AxlGfxClip) (t : Scene)
    : unionBounds up acc t = unionBounds up' acc t := by
  induction t generalizing up up' acc with
  | nil => rfl
  | node s children next ihchildren ihnext =>
    have hs : surfAbs (s :: up) = surfAbs (s :: up') := by
      have hx := congrArg Prod.fst h
      have hy := congrArg Prod.snd h
      unfold surfAbs at hx hy ⊢
      simp only [map_cons, sum_cons] at hx hy ⊢
      rw [hx, hy]
    unfold unionBounds surfScreenRect
    rw [hs]
    dsimp only
    rw [ihchildren hs, ihnext h]

/-! ### Scenes with a hole -/

variable {path : List Frame}

/-- The surroundings of siblings that paint the same paint the same. -/
theorem paintAt_zip {t' : Scene} (h : paintAt composite x y (path.map Frame.parent) t =
      paintAt composite x y (path.map Frame.parent) t') :
    paintAt composite x y [] (Scene.zip path t) = paintAt composite x y [] (Scene.zip path t') := by
  induction path generalizing t t' with
  | nil => exact h
  | cons fr path ih =>
    refine ih ?_
    funext px
    rw [paintAt_append, paintAt_append, paintAt_node, paintAt_node]
    rw [map_cons] at h
    rw [h]

theorem append_assoc (a b d : Scene) : (a.append b).append d = a.append (b.append d) := by
  induction a with
  | nil => rfl
  | node s children next _ ih => exact congrArg (Scene.node s children) ih

variable {id : Nat} {left : Scene}

theorem locate_scene {f : Focus} (h : locate id path left t = some f) :
    f.scene = Scene.zip path (left.append t) := by
  induction t generalizing path left with
  | nil => cases h
  | node s children next ihchildren ihnext =>
    rw [locate] at h
    split at h
    · cases h
      rfl
    · split at h
      · rename_i g hg
        cases h
        exact ihchildren hg
      · rw [ihnext h, append_assoc]
        rfl

namespace Scene.Focus

variable {f : Focus}

/-- Another surface in the place of one, both away from the pixel. -/
theorem paintAt_change (s : AxlSurface) (h : ¬ f.bounds.Has x y)
    (h' : ¬ (surfSubtreeBounds s f.up f.children).Has x y) :
    paintAt composite x y [] { f with surface := s : Focus }.scene =
      paintAt composite x y [] f.scene := by
  refine paintAt_zip (funext fun px => ?_)
  show paintAt composite x y f.up (f.left.append (.node s f.children f.right)) px =
    paintAt composite x y f.up (f.left.append (.node f.surface f.children f.right)) px
  rw [paintAt_append, paintAt_append, paintAt_away h, paintAt_away h']

theorem paintAt_unlink (h : ¬ f.bounds.Has x y) :
    paintAt composite x y [] f.unlink = paintAt composite x y [] f.scene := by
  refine paintAt_zip (funext fun px => ?_)
  show paintAt composite x y f.up _ px = paintAt composite x y f.up _ px
  rw [paintAt_append, paintAt_append, paintAt_away h]

theorem paintAt_subtree (h : ¬ f.bounds.Has x y) (px : AxlGfxPixel) :
    paintAt composite x y f.up f.subtree px = px := paintAt_away h .nil px

theorem paintAt_moveLast (h : ¬ f.bounds.Has x y) :
    paintAt composite x y [] f.moveLast = paintAt composite x y [] f.scene := by
  rw [← paintAt_unlink h]
  refine paintAt_zip (funext fun px => ?_)
  show paintAt composite x y f.up _ px = _
  rw [paintAt_append, paintAt_subtree h]
  rfl

theorem paintAt_moveFirst (h : ¬ f.bounds.Has x y) :
    paintAt composite x y [] f.moveFirst = paintAt composite x y [] f.scene := by
  rw [← paintAt_unlink h]
  refine paintAt_zip (funext fun px => ?_)
  show paintAt composite x y f.up _ px = _
  rw [paintAt_append, paintAt_subtree h]
  rfl

theorem paintAt_appendChild {s : AxlSurface} {children : Scene}
    (h : ¬ (surfSubtreeBounds s (f.surface :: f.up) children).Has x y) :
    paintAt composite x y [] (f.appendChild (.node s children .nil)) =
      paintAt composite x y [] f.scene := by
  refine paintAt_zip (funext fun px => ?_)
  show paintAt composite x y f.up _ px = paintAt composite x y f.up _ px
  rw [paintAt_append, paintAt_append, paintAt_node, paintAt_node]
  have hchildren : ∀ px, paintAt composite x y (f.surface :: f.up)
      (f.children.append (.node s children .nil)) px =
        paintAt composite x y (f.surface :: f.up) f.children px := by
    intro px
    rw [paintAt_append, paintAt_away h]
    rfl
  show paintAt composite x y f.up f.right (if _ then paintAt composite x y _
    (f.children.append (.node s children .nil)) _ else _) = _
  rw [hchildren]

/-- Another surface with the same position and opacity that makes the same of the pixel. -/
theorem paintAt_same (s : AxlSurface)
    (hinherited : inherited [s] = inherited [f.surface]) (hvisible : s.visible = f.surface.visible)
    (hblit : blitAt composite x y s f.up = blitAt composite x y f.surface f.up) :
    paintAt composite x y [] { f with surface := s : Focus }.scene =
      paintAt composite x y [] f.scene := by
  have hup : inherited (s :: f.up) = inherited (f.surface :: f.up) := by
    exact congrArg (· :: inherited f.up) (List.cons.inj hinherited).1
  refine paintAt_zip (funext fun px => ?_)
  show paintAt composite x y f.up (f.left.append (.node s f.children f.right)) px =
    paintAt composite x y f.up (f.left.append (.node f.surface f.children f.right)) px
  rw [paintAt_append, paintAt_append, paintAt_node, paintAt_node, hvisible, hblit,
    paintAt_congr hup]

end Scene.Focus

/-! ## Painting -/

theorem surfBlit_at {c : AxlCompositor} {s : AxlSurface} {up : Chain} {clip : AxlGfxClip}
    {output : AxlGfxBuffer} (hin : (⟨0, 0, c.w, c.h⟩ : AxlGfxClip).Has x y) :
    surfBlit composite c s up clip output x y =
      if clip.Has x y then blitAt composite x y s up (output x y) else output x y := by
  have hrect : (clipIntersect (clipToOutput c (surfScreenRect s up)) clip).Has x y ↔
      (surfScreenRect s up).Has x y ∧ clip.Has x y := by
    rw [clipIntersect_has, clipToOutput_has]
    tauto
  unfold surfBlit blitAt
  cases s.buf with
  | none =>
    dsimp only
    rw [ite_self]
  | some buf =>
    show (if (clipIntersect (clipToOutput c (surfScreenRect s up)) clip).Has x y then _ else _) = _
    by_cases hclip : clip.Has x y
    · rw [if_pos hclip]
      by_cases hs : (surfScreenRect s up).Has x y
      · rw [if_pos (hrect.mpr ⟨hs, hclip⟩)]
        exact (if_pos hs).symm
      · rw [if_neg fun hno => hs (hrect.mp hno).1]
        exact (if_neg hs).symm
    · rw [if_neg hclip, if_neg fun hno => hclip (hrect.mp hno).2]

variable {c : AxlCompositor} {s : AxlSurface} {up : Chain} {clip : AxlGfxClip}

/-- One round of the inner loop of `paint_clip_with_vis`. -/
theorem paintPart_at (hin : (⟨0, 0, c.w, c.h⟩ : AxlGfxClip).Has x y) (rect : AxlGfxClip)
    (output : AxlGfxBuffer) :
    paintRects composite c s up clip [rect] output x y =
      if rect.Has x y ∧ clip.Has x y then blitAt composite x y s up (output x y)
      else output x y := by
  show (if (clipIntersect rect clip).w ≠ 0 ∧ (clipIntersect rect clip).h ≠ 0 then
    surfBlit composite c s up (clipIntersect rect clip) output else output) x y = _
  by_cases hempty : (clipIntersect rect clip).w ≠ 0 ∧ (clipIntersect rect clip).h ≠ 0
  · rw [if_pos hempty, surfBlit_at hin]
    exact if_congr clipIntersect_has rfl rfl
  · rw [if_neg hempty, if_neg]
    rw [← clipIntersect_has]
    rintro ⟨hx, hy⟩
    unfold clipX1 at hx
    unfold clipY1 at hy
    omega

theorem paintRects_cons (rect : AxlGfxClip) (rects : List AxlGfxClip) (output : AxlGfxBuffer) :
    paintRects composite c s up clip (rect :: rects) output =
      paintRects composite c s up clip rects
        (paintRects composite c s up clip [rect] output) := rfl

theorem paintRects_away (hin : (⟨0, 0, c.w, c.h⟩ : AxlGfxClip).Has x y) {rects : List AxlGfxClip}
    (h : ¬ (Contains rects x y ∧ clip.Has x y)) (output : AxlGfxBuffer) :
    paintRects composite c s up clip rects output x y = output x y := by
  induction rects generalizing output with
  | nil => rfl
  | cons rect rects ih =>
    have hrect : ¬ (rect.Has x y ∧ clip.Has x y) :=
      fun hno => h ⟨⟨rect, mem_cons_self, hno.1⟩, hno.2⟩
    have hrects : ¬ (Contains rects x y ∧ clip.Has x y) := by
      rintro ⟨⟨d, hd, hxy⟩, hclip⟩
      exact h ⟨⟨d, mem_cons_of_mem _ hd, hxy⟩, hclip⟩
    rw [paintRects_cons, ih hrects, paintPart_at hin, if_neg hrect]

/-- The rectangles of a region do not overlap, so that a pixel is blitted once. -/
theorem paintRects_at (hin : (⟨0, 0, c.w, c.h⟩ : AxlGfxClip).Has x y) (hclip : clip.Has x y)
    {rects : List AxlGfxClip}
    (hdisjoint : rects.Pairwise fun a b => ∀ x y, ¬ (a.Has x y ∧ b.Has x y))
    (h : Contains rects x y) (output : AxlGfxBuffer) :
    paintRects composite c s up clip rects output x y =
      blitAt composite x y s up (output x y) := by
  induction rects generalizing output with
  | nil => exact absurd h (contains_nil x y)
  | cons rect rects ih =>
    obtain ⟨hrect, hrects⟩ := pairwise_cons.mp hdisjoint
    rw [paintRects_cons]
    by_cases hhas : rect.Has x y
    · have haway : ¬ (Contains rects x y ∧ clip.Has x y) := by
        rintro ⟨⟨d, hd, hxy⟩, -⟩
        exact hrect d hd x y ⟨hhas, hxy⟩
      rw [paintRects_away hin haway, paintPart_at hin, if_pos ⟨hhas, hclip⟩]
    · have hrest : Contains rects x y := by
        obtain ⟨d, hd, hxy⟩ := h
        rcases mem_cons.mp hd with rfl | hd
        · exact absurd hxy hhas
        · exact ⟨d, hd, hxy⟩
      rw [ih hrects hrest, paintPart_at hin, if_neg fun hno => hhas hno.1]

/-! ### Culling -/

/-- The pixel is covered by the opaque rectangle of one of the surfaces. -/
def Occluded (c : AxlCompositor) (order : List (AxlSurface × Chain)) (x y : Int) : Prop :=
  ∃ k ∈ order, (surfOpaqueRect c k.1 k.2).Has x y

variable {order : List (AxlSurface × Chain)}

/-- What is painted over an opaque surface does not depend on what is below it. -/
theorem paintOrder_occluded (hbuf : ∀ k ∈ order, k.1.buf.isSome = true) (h : Occluded c order x y)
    (px px' : AxlGfxPixel) :
    paintOrder composite x y order px = paintOrder composite x y order px' := by
  obtain ⟨k, hk, hhas⟩ := h
  obtain ⟨front, back, rfl⟩ := append_of_mem hk
  have hcopy : ∀ px px', blitAt composite x y k.1 k.2 px = blitAt composite x y k.1 k.2 px' := by
    intro px px'
    unfold surfOpaqueRect at hhas
    split at hhas
    · exact absurd hhas not_has_empty
    · rename_i hsolid
      simp only [Bool.or_eq_true, not_or, bne_iff_ne, ne_eq, not_not, Bool.not_eq_true] at hsolid
      obtain ⟨buf, hb⟩ := Option.isSome_iff_exists.mp (hbuf k hk)
      have hrect := (clipToOutput_has.mp hhas).1
      have hplain : surfEffectiveOpacity (k.1 :: k.2) = 255 ∧ k.1.perPixelAlpha = false :=
        ⟨hsolid.1.2, hsolid.2⟩
      unfold blitAt blitPixel
      rw [hb]
      dsimp only
      rw [if_pos hrect, if_pos hrect, if_pos hplain, if_pos hplain]
  rw [paintOrder_append, paintOrder_append]
  exact congrArg (paintOrder composite x y back) (hcopy _ _)

/-- The visible regions of surfaces in paint order. -/
def Culled (c : AxlCompositor) : List (AxlSurface × Chain) → List AxlGfxRegion → Prop
  | [], [] => True
  | (s, up) :: order, own :: vis =>
    own.Exact ∧
      (∀ x y, (⟨0, 0, c.w, c.h⟩ : AxlGfxClip).Has x y →
        ((x, y) ∈ own.pixels ↔ (surfScreenRect s up).Has x y ∧ ¬ Occluded c order x y)) ∧
      Culled c order vis
  | _, _ => False

theorem occluded_cons {k : AxlSurface × Chain} :
    Occluded c (k :: order) x y ↔ Occluded c order x y ∨ (surfOpaqueRect c k.1 k.2).Has x y := by
  unfold Occluded
  simp only [mem_cons, or_and_right, exists_or, exists_eq_left]
  exact or_comm

theorem not_mem_new (p : Int × Int) : p ∉ AxlGfxRegion.new.pixels :=
  fun h => contains_nil p.1 p.2 (mem_pixels.mp h)

theorem unionRect_spec {r : AxlGfxRegion} (hr : r.Exact) {rect : AxlGfxClip} (hrect : rect.Inside) :
    (regionApplyRect (fun _ => true) 0 r rect .union).2.Exact ∧
      ∀ x y, (x, y) ∈ (regionApplyRect (fun _ => true) 0 r rect .union).2.pixels ↔
        (x, y) ∈ r.pixels ∨ rect.Has x y := by
  obtain ⟨hexact, hpixels⟩ := applyRect_exact .union hr hrect
  refine ⟨hexact, fun x y => ?_⟩
  rw [hpixels]
  rfl

theorem visLoop_spec (hw : c.w < 2 ^ 31) (hh : c.h < 2 ^ 31) (order : List (AxlSurface × Chain)) :
    Culled c order (visLoop c order).1 ∧ (visLoop c order).2.Exact ∧
      ∀ x y, (x, y) ∈ (visLoop c order).2.pixels ↔ Occluded c order x y := by
  induction order with
  | nil =>
    refine ⟨trivial, AxlGfxRegion.exact_new, fun x y => iff_of_false (not_mem_new _) ?_⟩
    rintro ⟨k, ⟨⟩, -⟩
  | cons k order ih =>
    obtain ⟨s, up⟩ := k
    obtain ⟨hculled, hexact, hocc⟩ := ih
    have hscreen := clipToOutput_inside hw hh (surfScreenRect s up)
    obtain ⟨hown, hownPixels⟩ := unionRect_spec AxlGfxRegion.exact_new hscreen
    obtain ⟨hsub, hsubPixels⟩ := apply_exact (i := 0) .subtract hown hexact
    refine ⟨⟨hsub, fun x y hin => ?_, hculled⟩, ?_⟩
    · rw [hsubPixels]
      show (x, y) ∈ _ ∧ ¬ (x, y) ∈ _ ↔ _
      rw [hownPixels, hocc, clipToOutput_has]
      have hnew := not_mem_new (x, y)
      tauto
    · -- the occluder in front of what comes next
      have hrect : (surfOpaqueRect c s up).Inside := by
        unfold surfOpaqueRect
        split
        · have hzero : InInt32 0 := by decide
          exact ⟨hzero, hzero, hzero, hzero⟩
        · exact hscreen
      rw [visLoop]
      dsimp only
      split
      · obtain ⟨hnext, hnextPixels⟩ := unionRect_spec hexact hrect
        refine ⟨hnext, fun x y => ?_⟩
        rw [hnextPixels, hocc, occluded_cons]
      · rename_i hempty
        refine ⟨hexact, fun x y => ?_⟩
        rw [hocc, occluded_cons]
        refine ⟨.inl, fun h => h.resolve_right ?_⟩
        rintro ⟨hx, hy⟩
        unfold clipX1 at hx
        unfold clipY1 at hy
        dsimp only at hx hy
        omega

/-- Painting what is visible of each surface is painting all of it. -/
theorem paintVis_at (hin : (⟨0, 0, c.w, c.h⟩ : AxlGfxClip).Has x y) (hclip : clip.Has x y)
    {vis : List AxlGfxRegion} (hbuf : ∀ k ∈ order, k.1.buf.isSome = true) (h : Culled c order vis)
    (output : AxlGfxBuffer) :
    (order.zip vis).foldl
        (fun output k => paintRects composite c k.1.1 k.1.2 clip k.2.rects.items output) output x y =
      paintOrder composite x y order (output x y) := by
  induction order generalizing vis output with
  | nil => rfl
  | cons k order ih =>
    cases vis with
    | nil => exact absurd h (by simp [Culled])
    | cons own vis =>
      obtain ⟨s, up⟩ := k
      obtain ⟨hexact, hpixels, hculled⟩ := h
      have hbuf' : ∀ k ∈ order, k.1.buf.isSome = true :=
        fun k hk => hbuf k (mem_cons_of_mem _ hk)
      rw [zip_cons_cons, foldl_cons, ih hbuf' hculled]
      show paintOrder composite x y order _ =
        paintOrder composite x y order (blitAt composite x y s up (output x y))
      by_cases hvisible : (x, y) ∈ own.pixels
      · rw [paintRects_at hin hclip hexact.canonical.disjoint (mem_pixels.mp hvisible)]
      · rw [paintRects_away hin fun hno => hvisible (mem_pixels.mpr hno.1)]
        by_cases hocc : Occluded c order x y
        · exact paintOrder_occluded hbuf' hocc _ _
        · -- the surface does not reach the pixel
          have hscreen : ¬ (surfScreenRect s up).Has x y :=
            fun hno => hvisible ((hpixels x y hin).mpr ⟨hno, hocc⟩)
          have hblit : blitAt composite x y s up (output x y) = output x y := by
            unfold blitAt
            cases s.buf with
            | none => rfl
            | some buf => exact if_neg hscreen
          rw [hblit]

theorem paintVis_away (hin : (⟨0, 0, c.w, c.h⟩ : AxlGfxClip).Has x y) (hclip : ¬ clip.Has x y)
    (cv : List ((AxlSurface × Chain) × AxlGfxRegion)) (output : AxlGfxBuffer) :
    cv.foldl (fun output k => paintRects composite c k.1.1 k.1.2 clip k.2.rects.items output)
      output x y = output x y := by
  induction cv generalizing output with
  | nil => rfl
  | cons k cv ih => rw [foldl_cons, ih, paintRects_away hin fun hno => hclip hno.2]

theorem collectOrder_buf : ∀ {up : Chain}, ∀ k ∈ collectOrder up t,
    k.1.buf.isSome = true := by
  induction t with
  | nil =>
    intro up k hk
    cases hk
  | node s children next ihchildren ihnext =>
    intro up k hk
    rw [collectOrder] at hk
    rcases mem_append.mp hk with hk | hk
    · split at hk
      · rcases mem_append.mp hk with hk | hk
        · split at hk
          · rename_i hbuf
            rw [mem_singleton.mp hk]
            exact hbuf
          · cases hk
        · exact ihchildren k hk
      · cases hk
    · exact ihnext k hk

/-- A painted rectangle shows the scene, and nothing else changes. -/
theorem paintClipWithVis_spec (hw : c.w < 2 ^ 31) (hh : c.h < 2 ^ 31)
    (hin : (⟨0, 0, c.w, c.h⟩ : AxlGfxClip).Has x y) (clip : AxlGfxClip) (output : AxlGfxBuffer) :
    paintClipWithVis composite c (compVisBuild c) clip output x y =
      if clip.Has x y then paintAt composite x y [] c.scene black else output x y := by
  have hclip : (clipToOutput c clip).Has x y ↔ clip.Has x y := by
    rw [clipToOutput_has]
    exact and_iff_left hin
  unfold paintClipWithVis
  split
  · rename_i hempty
    rw [if_neg]
    rw [← hclip]
    rintro ⟨hx, hy⟩
    unfold clipX1 at hx
    unfold clipY1 at hy
    omega
  · by_cases hhas : clip.Has x y
    · rw [if_pos hhas]
      have hculled := (visLoop_spec hw hh (collectOrder [] c.scene)).1
      unfold compVisBuild
      dsimp only
      rw [paintVis_at hin (hclip.mpr hhas) collectOrder_buf hculled]
      unfold clearRect
      rw [if_pos (hclip.mpr hhas)]
      rfl
    · have hno := fun h => hhas (hclip.mp h)
      rw [if_neg hhas, paintVis_away hin hno]
      exact if_neg hno

/-! ## The invariant -/

/-- Outside of the damage the output shows the scene, once it has been `shown`. -/
structure Current (composite : AxlGfxPixel → AxlGfxPixel → AxlGfxPixel) (shown : Prop)
    (c : AxlCompositor) : Prop where
  width : c.w < 2 ^ 31
  height : c.h < 2 ^ 31
  exact : c.damage.Exact
  shows : shown → ∀ x y, (⟨0, 0, c.w, c.h⟩ : AxlGfxClip).Has x y → (x, y) ∉ c.damage.pixels →
    c.output x y = paintAt composite x y [] c.scene black

variable {shown : Prop}

/-- The compositor can be damaged. -/
structure Ready (c : AxlCompositor) : Prop where
  width : c.w < 2 ^ 31
  height : c.h < 2 ^ 31
  exact : c.damage.Exact

theorem markDamage_spec (h : Ready c) (rect : AxlGfxClip) :
    Ready (markDamage c rect) ∧
      ∀ x y, (⟨0, 0, c.w, c.h⟩ : AxlGfxClip).Has x y → (x, y) ∉ (markDamage c rect).damage.pixels →
        (x, y) ∉ c.damage.pixels ∧ ¬ rect.Has x y := by
  obtain ⟨hexact, hpixels⟩ :=
    unionRect_spec h.exact (clipToOutput_inside h.width h.height rect)
  refine ⟨⟨h.width, h.height, hexact⟩, fun x y hin hnot => ?_⟩
  have hmem := hpixels x y
  rw [clipToOutput_has] at hmem
  constructor
  · exact fun hno => hnot (hmem.mpr (.inl hno))
  · exact fun hno => hnot (hmem.mpr (.inr ⟨hno, hin⟩))

/-- Another scene, and damage wherever it paints something else. -/
theorem Current.change (h : Current composite shown c) {fresh : Nat} {damage : AxlGfxRegion}
    (hexact : damage.Exact)
    (hdamage : ∀ x y, (⟨0, 0, c.w, c.h⟩ : AxlGfxClip).Has x y → (x, y) ∉ damage.pixels →
      (x, y) ∉ c.damage.pixels ∧
        paintAt composite x y [] t = paintAt composite x y [] c.scene) :
    Current composite shown { c with scene := t, damage := damage, fresh := fresh } := by
  refine ⟨h.width, h.height, hexact, fun hshown x y hin hnot => ?_⟩
  obtain ⟨hout, hpaint⟩ := hdamage x y hin hnot
  rw [hpaint]
  exact h.shows hshown x y hin hout

/-- One rectangle is marked. -/
theorem Current.mark (h : Current composite shown c) {fresh : Nat} {rect : AxlGfxClip}
    (hpaint : ∀ x y, ¬ rect.Has x y →
      paintAt composite x y [] t = paintAt composite x y [] c.scene) :
    Current composite shown (markDamage { c with scene := t, fresh := fresh } rect) := by
  obtain ⟨hready, hdamage⟩ := markDamage_spec (c := { c with scene := t, fresh := fresh })
    ⟨h.width, h.height, h.exact⟩ rect
  refine h.change hready.exact fun x y hin hnot => ?_
  obtain ⟨hold, haway⟩ := hdamage x y hin hnot
  exact ⟨hold, hpaint x y haway⟩

/-- Two rectangles are marked. -/
theorem Current.markTwo (h : Current composite shown c) {before after : AxlGfxClip}
    (hpaint : ∀ x y, ¬ before.Has x y → ¬ after.Has x y →
      paintAt composite x y [] t = paintAt composite x y [] c.scene) :
    Current composite shown (markDamage (markDamage { c with scene := t } before) after) := by
  obtain ⟨hready, hdamage⟩ := markDamage_spec (c := { c with scene := t })
    ⟨h.width, h.height, h.exact⟩ before
  obtain ⟨hready', hdamage'⟩ := markDamage_spec hready after
  refine h.change hready'.exact fun x y hin hnot => ?_
  obtain ⟨hmid, hafter⟩ := hdamage' x y hin hnot
  obtain ⟨hold, hbefore⟩ := hdamage x y hin hmid
  exact ⟨hold, hpaint x y hbefore hafter⟩

theorem find_scene {f : Focus} (h : c.find id = some f) : f.scene = c.scene :=
  locate_scene h

theorem findChild_scene {f : Focus} (h : c.findChild id = some f) :
    f.scene = c.scene := find_scene (Option.filter_eq_some_iff.mp h).1

/-- Whether there is such a surface does not depend on what is around. -/
theorem locate_none {path' : List Frame} {left' : Scene} (h : locate id path left t = none) :
    locate id path' left' t = none := by
  induction t generalizing path path' left left' with
  | nil => rfl
  | node s children next ihchildren ihnext =>
    rw [locate] at h ⊢
    split at h
    · cases h
    · rename_i hne
      split at h
      · cases h
      · rename_i hnone
        rw [if_neg hne, ihchildren hnone]
        exact ihnext h

/-- A surface that keeps its pointer is found again when its fields have changed. -/
theorem locate_changed {f : Focus} (h : locate id path left t = some f) {s : AxlSurface}
    (hs : s.id = id) :
    ∃ t', { f with surface := s : Focus }.scene = Scene.zip path (left.append t') ∧
      locate id path left t' = some { f with surface := s } := by
  induction t generalizing path left with
  | nil => cases h
  | node s₀ children next ihchildren ihnext =>
    rw [locate] at h
    split at h
    · cases h
      refine ⟨.node s children next, rfl, ?_⟩
      rw [locate, if_pos hs]
    · rename_i hne
      split at h
      · rename_i g hg
        cases h
        obtain ⟨children', hscene, hlocate⟩ := ihchildren hg
        refine ⟨.node s₀ children' next, hscene, ?_⟩
        rw [locate, if_neg hne, hlocate]
      · rename_i hnone
        obtain ⟨next', hscene, hlocate⟩ := ihnext h
        refine ⟨.node s₀ children next', ?_, ?_⟩
        · rw [hscene, append_assoc]
          rfl
        · rw [locate, if_neg hne, locate_none hnone]
          exact hlocate

theorem locate_id {f : Focus} (h : locate id path left t = some f) : f.surface.id = id := by
  induction t generalizing path left with
  | nil => cases h
  | node s₀ children next ihchildren ihnext =>
    rw [locate] at h
    split at h
    · rename_i hid
      cases h
      exact hid
    · split at h
      · rename_i g hg
        cases h
        exact ihchildren hg
      · exact ihnext h

theorem find_changed {f : Focus} (h : c.find id = some f) {s : AxlSurface}
    (hs : s.id = f.surface.id) :
    { c with scene := { f with surface := s : Focus }.scene : AxlCompositor }.find id =
      some { f with surface := s } := by
  obtain ⟨t', hscene, hlocate⟩ := locate_changed h (hs.trans (locate_id h))
  unfold AxlCompositor.find
  dsimp only
  rw [hscene]
  exact hlocate

/-! ## The calls -/

theorem Current.surfaceNew (h : Current composite shown c) (parent w h' : Nat) :
    Current composite shown (surfaceNew c parent w h') := by
  unfold Gfx.surfaceNew
  split
  · exact h
  · rename_i f hf
    split
    · exact h
    · refine h.mark fun x y haway => ?_
      rw [← find_scene hf]
      exact Focus.paintAt_appendChild haway

theorem Current.surfaceFree (h : Current composite shown c) (id : Nat) :
    Current composite shown (surfaceFree c id) := by
  unfold Gfx.surfaceFree
  split
  · exact h
  · rename_i f hf
    refine h.mark fun x y haway => ?_
    rw [← findChild_scene hf]
    exact Focus.paintAt_unlink haway

theorem Current.surfaceMove (h : Current composite shown c) (id : Nat) (x y : Int) :
    Current composite shown (surfaceMove c id x y) := by
  unfold Gfx.surfaceMove
  split
  · exact h
  · rename_i f hf
    split
    · exact h
    · refine h.markTwo fun x y hbefore hafter => ?_
      rw [← find_scene hf]
      exact Focus.paintAt_change _ hbefore hafter

theorem Current.surfaceResize (h : Current composite shown c) (id w h' : Nat) :
    Current composite shown (surfaceResize c id w h') := by
  unfold Gfx.surfaceResize
  split
  · exact h
  · rename_i f hf
    dsimp only
    split
    · exact h
    · refine h.markTwo fun x y hbefore hafter => ?_
      rw [← findChild_scene hf]
      exact Focus.paintAt_change _ hbefore hafter

theorem Current.surfaceRaise (h : Current composite shown c) (id : Nat) :
    Current composite shown (surfaceRaise c id) := by
  unfold Gfx.surfaceRaise
  split
  · exact h
  · rename_i f hf
    refine h.mark fun x y haway => ?_
    rw [← findChild_scene hf]
    exact Focus.paintAt_moveLast haway

theorem Current.surfaceLower (h : Current composite shown c) (id : Nat) :
    Current composite shown (surfaceLower c id) := by
  unfold Gfx.surfaceLower
  split
  · exact h
  · rename_i f hf
    refine h.mark fun x y haway => ?_
    rw [← findChild_scene hf]
    exact Focus.paintAt_moveFirst haway

theorem Current.surfaceSetParent (h : Current composite shown c) (id newParent : Nat) :
    Current composite shown (surfaceSetParent c id newParent) := by
  unfold Gfx.surfaceSetParent
  split
  · exact h
  · rename_i f hf
    split
    · exact h
    · rename_i p hp
      refine h.markTwo fun x y hbefore hafter => ?_
      rw [← findChild_scene hf, ← Focus.paintAt_unlink hbefore]
      have hscene : p.scene = Scene.zip [] (Scene.append .nil f.unlink) := locate_scene hp
      have hscene : p.scene = f.unlink := hscene
      rw [← hscene]
      exact Focus.paintAt_appendChild hafter

/-- A field that moves nothing: the footprint is the same before and after. -/
theorem Current.setField (h : Current composite shown c) {f : Focus} (hf : c.find id = some f)
    {s : AxlSurface} (hbounds : surfSubtreeBounds s f.up f.children = f.bounds) :
    Current composite shown (setField c f s) := by
  refine h.mark fun x y haway => ?_
  rw [← find_scene hf]
  refine Focus.paintAt_change s ?_ haway
  rw [← hbounds]
  exact haway

theorem bounds_same (f : Focus) {s : AxlSurface}
    (hs : s = { f.surface with opacity := s.opacity, perPixelAlpha := s.perPixelAlpha }) :
    surfSubtreeBounds s f.up f.children = f.bounds := by
  have hup : surfAbs (s :: f.up) = surfAbs (f.surface :: f.up) := by
    rw [hs]
    rfl
  have hown : (if s.buf.isSome then surfScreenRect s f.up else ⟨0, 0, 0, 0⟩) =
      if f.surface.buf.isSome then surfScreenRect f.surface f.up else ⟨0, 0, 0, 0⟩ := by
    rw [hs]
    rfl
  have hvisible : s.visible = f.surface.visible := by rw [hs]
  unfold Focus.bounds surfSubtreeBounds
  rw [hvisible, hown, unionBounds_congr hup]

theorem Current.surfaceSetOpacity (h : Current composite shown c) (id : Nat) (opacity : UInt8) :
    Current composite shown (surfaceSetOpacity c id opacity) := by
  unfold Gfx.surfaceSetOpacity
  split
  · exact h
  · rename_i f hf
    split
    · exact h
    · exact h.setField hf (bounds_same f rfl)

theorem Current.surfaceSetPerPixelAlpha (h : Current composite shown c) (id : Nat) (on : Bool) :
    Current composite shown (surfaceSetPerPixelAlpha c id on) := by
  unfold Gfx.surfaceSetPerPixelAlpha
  split
  · exact h
  · rename_i f hf
    split
    · exact h
    · exact h.setField hf (bounds_same f rfl)

/-- The hint changes no pixel, whatever the buffer holds. -/
theorem Current.surfaceSetOpaque (h : Current composite shown c) (id : Nat) (isOpaque : Bool) :
    Current composite shown (surfaceSetOpaque c id isOpaque) := by
  unfold Gfx.surfaceSetOpaque
  split
  · exact h
  · rename_i f hf
    refine h.change h.exact fun x y _ hnot => ⟨hnot, ?_⟩
    rw [← find_scene hf]
    exact Focus.paintAt_same _ rfl rfl rfl

theorem Current.surfaceSetVisible (h : Current composite shown c) (id : Nat) (visible : Bool) :
    Current composite shown (surfaceSetVisible c id visible) := by
  unfold Gfx.surfaceSetVisible
  split
  · exact h
  · rename_i f hf
    split
    · exact h
    · refine h.mark fun x y haway => ?_
      -- hidden or shown, the footprint is inside the one that is marked
      have hinside : ∀ s : AxlSurface, s = { f.surface with visible := s.visible } →
          ¬ (surfSubtreeBounds s f.up f.children).Has x y := by
        intro s hs
        cases hv : s.visible with
        | true =>
          rw [hv] at hs
          rw [hs]
          exact haway
        | false =>
          unfold surfSubtreeBounds
          rw [hv, if_neg Bool.false_ne_true]
          exact not_has_empty
      rw [← find_scene hf]
      exact Focus.paintAt_change _ (hinside f.surface rfl) (hinside _ rfl)

/-- Drawing inside a rectangle that is then reported. -/
theorem Current.draw (h : Current composite shown c) (id : Nat) (rect : AxlGfxClip)
    (pixels : AxlGfxBuffer) :
    Current composite shown (surfaceDamage (drawInto c id rect pixels) id rect) := by
  unfold drawInto
  cases hf : c.find id with
  | none =>
    unfold surfaceDamage
    dsimp only
    rw [hf]
    exact h
  | some f =>
    unfold surfaceDamage
    dsimp only
    rw [find_changed hf (s := { f.surface with
      buf := f.surface.buf.map fun buf x y => if rect.Has x y then pixels x y else buf x y }) rfl]
    refine h.mark fun x y haway => ?_
    rw [← find_scene hf]
    refine Focus.paintAt_same _ rfl rfl ?_
    funext px
    unfold blitAt
    cases f.surface.buf with
    | none => rfl
    | some buf =>
      dsimp only [Option.map_some]
      have hout : ¬ rect.Has (x - (surfAbs (f.surface :: f.up)).1)
          (y - (surfAbs (f.surface :: f.up)).2) := by
        rintro ⟨hx, hy⟩
        refine haway ?_
        unfold AxlGfxClip.Has
        unfold clipX1 at hx ⊢
        unfold clipY1 at hy ⊢
        show ((surfAbs (f.surface :: f.up)).1 + rect.x ≤ x ∧
            x < (surfAbs (f.surface :: f.up)).1 + rect.x + rect.w) ∧
          (surfAbs (f.surface :: f.up)).2 + rect.y ≤ y ∧
            y < (surfAbs (f.surface :: f.up)).2 + rect.y + rect.h
        omega
      show (if (surfScreenRect f.surface f.up).Has x y then
          blitPixel composite f.surface f.up px
            (if rect.Has (x - (surfAbs (f.surface :: f.up)).1)
              (y - (surfAbs (f.surface :: f.up)).2) then _ else _) else px) = _
      rw [if_neg hout]
      rfl

/-- After a composite the whole output shows the scene. -/
theorem compositorComposite_shows (hw : c.w < 2 ^ 31) (hh : c.h < 2 ^ 31)
    (hin : (⟨0, 0, c.w, c.h⟩ : AxlGfxClip).Has x y) :
    (compositorComposite composite c).output x y = paintAt composite x y [] c.scene black := by
  show paintClipWithVis composite c (compVisBuild c) _ c.output x y = _
  rw [paintClipWithVis_spec hw hh hin, if_pos hin]

/-- Painting some rectangles. -/
theorem paintDamage_at (hw : c.w < 2 ^ 31) (hh : c.h < 2 ^ 31)
    (hin : (⟨0, 0, c.w, c.h⟩ : AxlGfxClip).Has x y) (rects : List AxlGfxClip)
    (output : AxlGfxBuffer)
    (h : Contains rects x y ∨ output x y = paintAt composite x y [] c.scene black) :
    rects.foldl (fun output d => paintClipWithVis composite c (compVisBuild c) d output) output x y =
      paintAt composite x y [] c.scene black := by
  induction rects generalizing output with
  | nil => exact h.resolve_left (contains_nil x y)
  | cons d rects ih =>
    rw [foldl_cons]
    refine ih _ ?_
    rw [paintClipWithVis_spec hw hh hin]
    by_cases hd : d.Has x y
    · exact .inr (if_pos hd)
    · rw [if_neg hd]
      refine h.imp_left ?_
      rintro ⟨e, he, hxy⟩
      rcases mem_cons.mp he with rfl | he
      · exact absurd hxy hd
      · exact ⟨e, he, hxy⟩

/-- After a present the whole output shows the scene, and nothing is damaged. -/
theorem Current.present (h : Current composite shown c) :
    Current composite shown (compositorPresent composite c) ∧
      (shown → ∀ x y, (⟨0, 0, c.w, c.h⟩ : AxlGfxClip).Has x y →
        (compositorPresent composite c).output x y = paintAt composite x y [] c.scene black) := by
  unfold compositorPresent
  split
  · rename_i hempty
    refine ⟨h, fun hshown x y hin => h.shows hshown x y hin fun hno => ?_⟩
    have hnil : c.damage.rects.items = [] := by simpa [regionIsEmpty] using hempty
    have hcontains := mem_pixels.mp hno
    rw [hnil] at hcontains
    exact contains_nil x y hcontains
  · have hshows : shown → ∀ x y, (⟨0, 0, c.w, c.h⟩ : AxlGfxClip).Has x y →
        c.damage.rects.items.foldl
            (fun output d => paintClipWithVis composite c (compVisBuild c) d output) c.output x y =
          paintAt composite x y [] c.scene black := by
      intro hshown x y hin
      refine paintDamage_at h.width h.height hin _ _ ?_
      by_cases hdamaged : (x, y) ∈ c.damage.pixels
      · exact .inl (mem_pixels.mp hdamaged)
      · exact .inr (h.shows hshown x y hin hdamaged)
    refine ⟨⟨h.width, h.height, ?_, fun hshown x y hin _ => hshows hshown x y hin⟩, hshows⟩
    exact ⟨AxlGfxRegion.exact_new.canonical, AxlGfxRegion.exact_new.inside⟩

end

/-! ## Runs -/

inductive SceneCall where
  | surfaceNew (parent w h : Nat)
  | surfaceFree (id : Nat)
  | surfaceMove (id : Nat) (x y : Int)
  | surfaceResize (id w h : Nat)
  | surfaceRaise (id : Nat)
  | surfaceLower (id : Nat)
  | surfaceSetParent (id newParent : Nat)
  | surfaceSetOpacity (id : Nat) (opacity : UInt8)
  | surfaceSetVisible (id : Nat) (visible : Bool)
  | surfaceSetOpaque (id : Nat) (isOpaque : Bool)
  | surfaceSetPerPixelAlpha (id : Nat) (on : Bool)
  -- pixels are written into a buffer, and a rectangle around them is reported
  | draw (id : Nat) (rect : AxlGfxClip) (pixels : AxlGfxBuffer)
  | present

section

variable (composite : AxlGfxPixel → AxlGfxPixel → AxlGfxPixel)

def SceneCall.exec (c : AxlCompositor) : SceneCall → AxlCompositor
  | .surfaceNew parent w h => Gfx.surfaceNew c parent w h
  | .surfaceFree id => Gfx.surfaceFree c id
  | .surfaceMove id x y => Gfx.surfaceMove c id x y
  | .surfaceResize id w h => Gfx.surfaceResize c id w h
  | .surfaceRaise id => Gfx.surfaceRaise c id
  | .surfaceLower id => Gfx.surfaceLower c id
  | .surfaceSetParent id newParent => Gfx.surfaceSetParent c id newParent
  | .surfaceSetOpacity id opacity => Gfx.surfaceSetOpacity c id opacity
  | .surfaceSetVisible id visible => Gfx.surfaceSetVisible c id visible
  | .surfaceSetOpaque id isOpaque => Gfx.surfaceSetOpaque c id isOpaque
  | .surfaceSetPerPixelAlpha id on => Gfx.surfaceSetPerPixelAlpha c id on
  | .draw id rect pixels => surfaceDamage (drawInto c id rect pixels) id rect
  | .present => compositorPresent composite c

def runCalls (c : AxlCompositor) (calls : List SceneCall) : AxlCompositor :=
  calls.foldl (SceneCall.exec composite) c

/-- The whole scene, painted in order over a cleared output: no culling, no damage. -/
def repaint (c : AxlCompositor) : AxlGfxBuffer :=
  (collectOrder [] c.scene).foldl
    (fun output k => surfBlit composite c k.1 k.2 ⟨0, 0, c.w, c.h⟩ output)
    (clearRect ⟨0, 0, c.w, c.h⟩ fun _ _ => transparent)

end

section

variable {composite : AxlGfxPixel → AxlGfxPixel → AxlGfxPixel} {c : AxlCompositor} {shown : Prop}

theorem repaint_at {x y : Int} (hin : (⟨0, 0, c.w, c.h⟩ : AxlGfxClip).Has x y) :
    repaint composite c x y = paintAt composite x y [] c.scene black := by
  have hfold : ∀ (order : List (AxlSurface × Chain)) (output : AxlGfxBuffer),
      order.foldl (fun output k => surfBlit composite c k.1 k.2 ⟨0, 0, c.w, c.h⟩ output) output x y =
        paintOrder composite x y order (output x y) := by
    intro order
    induction order with
    | nil => exact fun _ => rfl
    | cons k order ih =>
      intro output
      rw [foldl_cons, ih, surfBlit_at hin, if_pos hin]
      rfl
  unfold repaint
  rw [hfold]
  unfold clearRect
  rw [if_pos hin]
  rfl

theorem Current.exec (h : Current composite shown c) (call : SceneCall) :
    Current composite shown (call.exec composite c) := by
  cases call with
  | surfaceNew parent w h' => exact h.surfaceNew parent w h'
  | surfaceFree id => exact h.surfaceFree id
  | surfaceMove id x y => exact h.surfaceMove id x y
  | surfaceResize id w h' => exact h.surfaceResize id w h'
  | surfaceRaise id => exact h.surfaceRaise id
  | surfaceLower id => exact h.surfaceLower id
  | surfaceSetParent id newParent => exact h.surfaceSetParent id newParent
  | surfaceSetOpacity id opacity => exact h.surfaceSetOpacity id opacity
  | surfaceSetVisible id visible => exact h.surfaceSetVisible id visible
  | surfaceSetOpaque id isOpaque => exact h.surfaceSetOpaque id isOpaque
  | surfaceSetPerPixelAlpha id on => exact h.surfaceSetPerPixelAlpha id on
  | draw id rect pixels => exact h.draw id rect pixels
  | present => exact h.present.1

theorem Current.run (h : Current composite shown c) (calls : List SceneCall) :
    Current composite shown (runCalls composite c calls) := by
  induction calls generalizing c with
  | nil => exact h
  | cons call calls ih => exact ih (h.exec call)

/-- The size of the output stays. -/
theorem exec_size (call : SceneCall) :
    (call.exec composite c).w = c.w ∧ (call.exec composite c).h = c.h := by
  cases call <;>
  · simp only [SceneCall.exec, surfaceNew, surfaceFree, surfaceMove, surfaceResize, surfaceRaise,
      surfaceLower, surfaceSetParent, surfaceSetOpacity, surfaceSetVisible, surfaceSetOpaque,
      surfaceSetPerPixelAlpha, surfaceDamage, drawInto, setField, markDamage, compositorPresent]
    split
    all_goals try split
    all_goals exact ⟨rfl, rfl⟩

theorem run_size (composite : AxlGfxPixel → AxlGfxPixel → AxlGfxPixel) (c : AxlCompositor)
    (calls : List SceneCall) :
    (runCalls composite c calls).w = c.w ∧ (runCalls composite c calls).h = c.h := by
  induction calls generalizing c with
  | nil => exact ⟨rfl, rfl⟩
  | cons call calls ih =>
    obtain ⟨hw, hh⟩ : (call.exec composite c).w = c.w ∧ (call.exec composite c).h = c.h :=
      exec_size call
    obtain ⟨hw', hh'⟩ := ih (call.exec composite c)
    exact ⟨hw'.trans hw, hh'.trans hh⟩

/-- From a composite on, whatever has been done before it and is done behind it, the output
after a present is the scene repainted. -/
theorem present_is_repaint (composite : AxlGfxPixel → AxlGfxPixel → AxlGfxPixel) (w h : Nat)
    (hw : w < 2 ^ 31) (hh : h < 2 ^ 31) (before after : List SceneCall) (x y : Int)
    (hin : (⟨0, 0, w, h⟩ : AxlGfxClip).Has x y) :
    (runCalls composite (compositorComposite composite
        (runCalls composite (compositorNew w h) before)) (after ++ [SceneCall.present])).output x y =
      repaint composite (runCalls composite (compositorComposite composite
        (runCalls composite (compositorNew w h) before)) (after ++ [SceneCall.present])) x y := by
  have hnew : Current composite False (compositorNew w h) :=
    ⟨hw, hh, AxlGfxRegion.exact_new, False.elim⟩
  have hbefore := hnew.run before
  obtain ⟨hw₁, hh₁⟩ := run_size composite (compositorNew w h) before
  generalize runCalls composite (compositorNew w h) before = c₁ at hbefore hw₁ hh₁ ⊢
  have hcomposite : Current composite True (compositorComposite composite c₁) :=
    ⟨hbefore.width, hbefore.height, hbefore.exact,
      fun _ x y hin _ => compositorComposite_shows hbefore.width hbefore.height hin⟩
  have hafter := hcomposite.run after
  obtain ⟨hw₂, hh₂⟩ := run_size composite (compositorComposite composite c₁) after
  have hlast : runCalls composite (compositorComposite composite c₁) (after ++ [SceneCall.present]) =
      compositorPresent composite
        (runCalls composite (compositorComposite composite c₁) after) := foldl_append
  rw [hlast]
  generalize runCalls composite (compositorComposite composite c₁) after = c₂ at hafter hw₂ hh₂ ⊢
  have hw' : c₂.w = w := hw₂.trans hw₁
  have hh' : c₂.h = h := hh₂.trans hh₁
  rw [← hw', ← hh'] at hin
  have hkeeps : (compositorPresent composite c₂).w = c₂.w ∧
      (compositorPresent composite c₂).h = c₂.h ∧
      (compositorPresent composite c₂).scene = c₂.scene := by
    unfold compositorPresent
    split
    · exact ⟨rfl, rfl, rfl⟩
    · exact ⟨rfl, rfl, rfl⟩
  rw [hafter.present.2 trivial x y hin, repaint_at (by rw [hkeeps.1, hkeeps.2.1]; exact hin),
    hkeeps.2.2]

theorem present_is_repaint_window :
    (runCalls (fun _ src => src) (compositorComposite (fun _ src => src)
        (runCalls (fun _ src => src) (compositorNew 4 4) []))
          ([SceneCall.surfaceNew 0 2 2, SceneCall.surfaceMove 1 1 1] ++ [SceneCall.present])).output 1 1 =
      repaint (fun _ src => src) (runCalls (fun _ src => src)
        (compositorComposite (fun _ src => src)
          (runCalls (fun _ src => src) (compositorNew 4 4) []))
            ([SceneCall.surfaceNew 0 2 2, SceneCall.surfaceMove 1 1 1] ++ [SceneCall.present])) 1 1 :=
  present_is_repaint (fun _ src => src) 4 4 (by decide) (by decide) []
    [SceneCall.surfaceNew 0 2 2, SceneCall.surfaceMove 1 1 1] 1 1 (by decide)

end

end Gfx

end AxlSdk
