import AxlSdk.Gfx.Region.Algebra

/-!
# The compositor (`src/gfx/axl-compositor.c`)

Surfaces, the scene graph and the calls that change them; compositing with occlusion
culling; presenting what is damaged. There are no backdrop-blur surfaces and the cursor is
hidden; memory is granted, and coordinates and their sums are inside `int32_t`, so that they
are integers here. The seat, listeners and frame clock are left out.
-/

namespace AxlSdk

namespace Gfx

structure AxlGfxPixel where
  blue : UInt8
  green : UInt8
  red : UInt8
  alpha : UInt8
  deriving DecidableEq, Repr

/-- `AXL_GFX_RGB(0, 0, 0)` -/
def black : AxlGfxPixel := ⟨0, 0, 0, 255⟩

/-- What a new buffer is filled with. -/
def transparent : AxlGfxPixel := ⟨0, 0, 0, 0⟩

/-- A pixel buffer, by column and row. -/
abbrev AxlGfxBuffer : Type := Int → Int → AxlGfxPixel

structure AxlSurface where
  -- stands for the pointer
  id : Nat
  x : Int
  y : Int
  w : Nat
  h : Nat
  visible : Bool
  isOpaque : Bool
  opacity : UInt8
  perPixelAlpha : Bool
  -- none for the root
  buf : Option AxlGfxBuffer

/-- Surfaces with their children and next siblings, back to front. -/
inductive Scene where
  | nil
  | node (s : AxlSurface) (children next : Scene)

/-- A surface and its ancestors, innermost first: what the parent links lead to. -/
abbrev Chain : Type := List AxlSurface

/-! ## Geometry -/

instance (c : AxlGfxClip) (x y : Int) : Decidable (c.Has x y) :=
  inferInstanceAs (Decidable (_ ∧ _))

/-- `surf_abs` -/
def surfAbs (chain : Chain) : Int × Int :=
  ((chain.map AxlSurface.x).sum, (chain.map AxlSurface.y).sum)

/-- `surf_screen_rect` -/
def surfScreenRect (s : AxlSurface) (up : Chain) : AxlGfxClip :=
  ⟨(surfAbs (s :: up)).1, (surfAbs (s :: up)).2, s.w, s.h⟩

/-- `clip_union` -/
def clipUnion (acc add : AxlGfxClip) : AxlGfxClip :=
  if add.w = 0 ∨ add.h = 0 then acc
  else if acc.w = 0 ∨ acc.h = 0 then add
  else
    let x0 := if acc.x < add.x then acc.x else add.x
    let y0 := if acc.y < add.y then acc.y else add.y
    let x1 := if clipX1 acc > clipX1 add then clipX1 acc else clipX1 add
    let y1 := if clipY1 acc > clipY1 add then clipY1 acc else clipY1 add
    ⟨x0, y0, (x1 - x0).toNat, (y1 - y0).toNat⟩

/-- The loop over the children in `surf_subtree_bounds`. -/
def unionBounds (up : Chain) (acc : AxlGfxClip) : Scene → AxlGfxClip
  | .nil => acc
  | .node s children next =>
    let own := if s.buf.isSome then surfScreenRect s up else ⟨0, 0, 0, 0⟩
    let b := if s.visible then unionBounds (s :: up) own children else ⟨0, 0, 0, 0⟩
    unionBounds up (clipUnion acc b) next

/-- `surf_subtree_bounds` -/
def surfSubtreeBounds (s : AxlSurface) (up : Chain) (children : Scene) : AxlGfxClip :=
  if s.visible then
    unionBounds (s :: up) (if s.buf.isSome then surfScreenRect s up else ⟨0, 0, 0, 0⟩) children
  else ⟨0, 0, 0, 0⟩

/-- `clip_intersect` -/
def clipIntersect (a b : AxlGfxClip) : AxlGfxClip :=
  let x0 := if a.x > b.x then a.x else b.x
  let y0 := if a.y > b.y then a.y else b.y
  let x1 := if clipX1 a < clipX1 b then clipX1 a else clipX1 b
  let y1 := if clipY1 a < clipY1 b then clipY1 a else clipY1 b
  if x1 ≤ x0 ∨ y1 ≤ y0 then ⟨0, 0, 0, 0⟩ else ⟨x0, y0, (x1 - x0).toNat, (y1 - y0).toNat⟩

structure AxlCompositor where
  w : Nat
  h : Nat
  -- the root, with the surfaces below it
  scene : Scene
  output : AxlGfxBuffer
  damage : AxlGfxRegion
  -- the next pointer
  fresh : Nat

/-- `clip_to_output` -/
def clipToOutput (c : AxlCompositor) (r : AxlGfxClip) : AxlGfxClip :=
  let x0 := if r.x < 0 then 0 else r.x
  let y0 := if r.y < 0 then 0 else r.y
  let x1 := if clipX1 r > c.w then (c.w : Int) else clipX1 r
  let y1 := if clipY1 r > c.h then (c.h : Int) else clipY1 r
  if x1 ≤ x0 ∨ y1 ≤ y0 then ⟨0, 0, 0, 0⟩ else ⟨x0, y0, (x1 - x0).toNat, (y1 - y0).toNat⟩

/-- `mark_damage` -/
def markDamage (c : AxlCompositor) (screenRect : AxlGfxClip) : AxlCompositor :=
  { c with
    damage := (regionApplyRect (fun _ => true) 0 c.damage (clipToOutput c screenRect) .union).2 }

/-! ## The scene graph -/

namespace Scene

def append : Scene → Scene → Scene
  | nil, t => t
  | node s children next, t => node s children (next.append t)

/-- What stands around the children of a surface: its earlier siblings, itself, the later
ones. -/
structure Frame where
  left : Scene
  parent : AxlSurface
  right : Scene

/-- A surface in a scene, seen through its links: the siblings before and behind it, and the
frames up to the root. -/
structure Focus where
  left : Scene
  surface : AxlSurface
  children : Scene
  right : Scene
  path : List Frame

/-- The scene around some siblings. -/
def zip : List Frame → Scene → Scene
  | [], t => t
  | fr :: path, t => zip path (fr.left.append (.node fr.parent t fr.right))

def locate (id : Nat) (path : List Frame) (left : Scene) : Scene → Option Focus
  | nil => none
  | node s children next =>
    if s.id = id then some ⟨left, s, children, next, path⟩
    else
      match locate id (⟨left, s, next⟩ :: path) .nil children with
      | some f => some f
      | none => locate id path (left.append (.node s children .nil)) next

namespace Focus

def up (f : Focus) : Chain := f.path.map Frame.parent

/-- The surface and what is below it. -/
def subtree (f : Focus) : Scene := .node f.surface f.children .nil

def scene (f : Focus) : Scene := zip f.path (f.left.append (.node f.surface f.children f.right))

/-- `axl_ntree_unlink` -/
def unlink (f : Focus) : Scene := zip f.path (f.left.append f.right)

/-- `axl_ntree_move_before` to the end of the siblings -/
def moveLast (f : Focus) : Scene := zip f.path ((f.left.append f.right).append f.subtree)

/-- `axl_ntree_move_after` to the front of the siblings -/
def moveFirst (f : Focus) : Scene := zip f.path (f.subtree.append (f.left.append f.right))

/-- `axl_ntree_append_child` -/
def appendChild (f : Focus) (child : Scene) : Scene :=
  { f with children := f.children.append child }.scene

/-- `surf_subtree_bounds` -/
def bounds (f : Focus) : AxlGfxClip := surfSubtreeBounds f.surface f.up f.children

end Focus

end Scene

open Scene

/-! ## Surfaces -/

section

variable (c : AxlCompositor)

/-- The surface behind a pointer. -/
def AxlCompositor.find (id : Nat) : Option Focus := locate id [] .nil c.scene

/-- The same for a surface that is not the root. -/
def AxlCompositor.findChild (id : Nat) : Option Focus := (c.find id).filter fun f => !f.path.isEmpty

/-- `axl_compositor_new` -/
def compositorNew (w h : Nat) : AxlCompositor where
  w := w
  h := h
  scene := .node ⟨0, 0, 0, w, h, true, false, 255, false, none⟩ .nil .nil
  output := fun _ _ => transparent
  damage := .new
  fresh := 1

/-- `axl_surface_new` -/
def surfaceNew (parent w h : Nat) : AxlCompositor :=
  match c.find parent with
  | none => c
  | some f =>
    if w = 0 ∨ h = 0 then c
    else
      let s : AxlSurface :=
        ⟨c.fresh, 0, 0, w, h, true, false, 255, false, some fun _ _ => transparent⟩
      markDamage { c with scene := f.appendChild (.node s .nil .nil), fresh := c.fresh + 1 }
        (surfScreenRect s (f.surface :: f.up))

/-- `axl_surface_free` -/
def surfaceFree (id : Nat) : AxlCompositor :=
  match c.findChild id with
  | none => c
  | some f => { markDamage c f.bounds with scene := f.unlink }

/-- `axl_surface_move` -/
def surfaceMove (id : Nat) (x y : Int) : AxlCompositor :=
  match c.find id with
  | none => c
  | some f =>
    if f.surface.x = x ∧ f.surface.y = y then c
    else
      let f' := { f with surface := { f.surface with x := x, y := y } }
      markDamage (markDamage { c with scene := f'.scene } f.bounds) f'.bounds

/-- The new buffer of `axl_surface_resize`. -/
def resizedBuffer (buf : AxlGfxBuffer) (oldW oldH w h : Nat) : AxlGfxBuffer := fun x y =>
  let cw := if w < oldW then w else oldW
  let ch := if h < oldH then h else oldH
  if 0 ≤ x ∧ x < cw ∧ 0 ≤ y ∧ y < ch then buf x y else transparent

/-- `axl_surface_resize` -/
def surfaceResize (id w h : Nat) : AxlCompositor :=
  match c.findChild id with
  | none => c
  | some f =>
    let s := f.surface
    if w = 0 ∨ h = 0 ∨ (s.w = w ∧ s.h = h) then c
    else
      let buf := s.buf.map fun buf => resizedBuffer buf s.w s.h w h
      let f' := { f with surface := { s with buf := buf, w := w, h := h } }
      markDamage (markDamage { c with scene := f'.scene } f.bounds) f'.bounds

/-- `axl_surface_raise` -/
def surfaceRaise (id : Nat) : AxlCompositor :=
  match c.findChild id with
  | none => c
  | some f => markDamage { c with scene := f.moveLast } f.bounds

/-- `axl_surface_lower` -/
def surfaceLower (id : Nat) : AxlCompositor :=
  match c.findChild id with
  | none => c
  | some f => markDamage { c with scene := f.moveFirst } f.bounds

/-- `axl_surface_set_parent`. A new parent that is the surface or below it is not found in
the scene without the surface, and nothing is done. -/
def surfaceSetParent (id newParent : Nat) : AxlCompositor :=
  match c.findChild id with
  | none => c
  | some f =>
    match locate newParent [] .nil f.unlink with
    | none => c
    | some p =>
      let after := surfSubtreeBounds f.surface (p.surface :: p.up) f.children
      markDamage (markDamage { c with scene := p.appendChild f.subtree } f.bounds) after

/-- A field of a surface is set, and its subtree damaged. -/
def setField (f : Focus) (s : AxlSurface) : AxlCompositor :=
  let f' := { f with surface := s }
  markDamage { c with scene := f'.scene } f'.bounds

/-- `axl_surface_set_opacity` -/
def surfaceSetOpacity (id : Nat) (opacity : UInt8) : AxlCompositor :=
  match c.find id with
  | none => c
  | some f =>
    if f.surface.opacity = opacity then c
    else setField c f { f.surface with opacity := opacity }

/-- `axl_surface_set_opaque` -/
def surfaceSetOpaque (id : Nat) (isOpaque : Bool) : AxlCompositor :=
  match c.find id with
  | none => c
  | some f =>
    { c with scene := { f with surface := { f.surface with isOpaque := isOpaque } }.scene }

/-- `axl_surface_set_per_pixel_alpha` -/
def surfaceSetPerPixelAlpha (id : Nat) (on : Bool) : AxlCompositor :=
  match c.find id with
  | none => c
  | some f =>
    if f.surface.perPixelAlpha = on then c
    else setField c f { f.surface with perPixelAlpha := on }

/-- `axl_surface_set_visible` -/
def surfaceSetVisible (id : Nat) (visible : Bool) : AxlCompositor :=
  match c.find id with
  | none => c
  | some f =>
    if f.surface.visible = visible then c
    else
      let footprint := surfSubtreeBounds { f.surface with visible := true } f.up f.children
      let f' := { f with surface := { f.surface with visible := visible } }
      markDamage { c with scene := f'.scene } footprint

/-- `axl_surface_damage` -/
def surfaceDamage (id : Nat) (rect : AxlGfxClip) : AxlCompositor :=
  match c.find id with
  | none => c
  | some f =>
    let (ax, ay) := surfAbs (f.surface :: f.up)
    markDamage c ⟨ax + rect.x, ay + rect.y, rect.w, rect.h⟩

/-- A program draws into the buffer of a surface, inside a rectangle of it. -/
def drawInto (id : Nat) (rect : AxlGfxClip) (pixels : AxlGfxBuffer) : AxlCompositor :=
  match c.find id with
  | none => c
  | some f =>
    let drawn (buf : AxlGfxBuffer) : AxlGfxBuffer := fun x y =>
      if rect.Has x y then pixels x y else buf x y
    let f' := { f with surface := { f.surface with buf := f.surface.buf.map drawn } }
    { c with scene := f'.scene }

end

/-! ## Compositing -/

/-- `surf_effective_opacity` -/
def surfEffectiveOpacity (chain : Chain) : Nat :=
  chain.foldl (fun a s => a * s.opacity.toNat / 255) 255

section

variable (composite : AxlGfxPixel → AxlGfxPixel → AxlGfxPixel) (c : AxlCompositor)

/-- What `surf_blit` makes of a pixel of the output and one of the surface. -/
def blitPixel (s : AxlSurface) (up : Chain) (dst src : AxlGfxPixel) : AxlGfxPixel :=
  let op := surfEffectiveOpacity (s :: up)
  if op = 255 ∧ s.perPixelAlpha = false then src
  else composite dst { src with alpha := UInt8.ofNat (src.alpha.toNat * op / 255) }

/-- `surf_blit`; every pixel of the rectangle is read and written once -/
def surfBlit (s : AxlSurface) (up : Chain) (clip : AxlGfxClip) (output : AxlGfxBuffer) :
    AxlGfxBuffer :=
  let (ax, ay) := surfAbs (s :: up)
  let r := clipIntersect (clipToOutput c ⟨ax, ay, s.w, s.h⟩) clip
  match s.buf with
  | none => output
  | some buf => fun x y =>
    if r.Has x y then
      blitPixel composite s up (output x y) (buf (x - ax) (y - ay))
    else output x y

/-- `surf_opaque_rect` -/
def surfOpaqueRect (s : AxlSurface) (up : Chain) : AxlGfxClip :=
  if !s.isOpaque || surfEffectiveOpacity (s :: up) != 255 || s.perPixelAlpha then ⟨0, 0, 0, 0⟩
  else clipToOutput c (surfScreenRect s up)

/-- `collect_order`: the visible surfaces with a buffer, each with its ancestors -/
def collectOrder (up : Chain) : Scene → List (AxlSurface × Chain)
  | .nil => []
  | .node s children next =>
    (if s.visible then (if s.buf.isSome then [(s, up)] else []) ++ collectOrder (s :: up) children
      else []) ++ collectOrder up next

/-- The loop of `comp_vis_build`, front to back: what is visible of each surface, and what is
occluded by them. -/
def visLoop : List (AxlSurface × Chain) → List AxlGfxRegion × AxlGfxRegion
  | [] => ([], .new)
  | (s, up) :: order =>
    let (vis, occluded) := visLoop order
    let own := (regionApplyRect (fun _ => true) 0 .new (clipToOutput c (surfScreenRect s up))
      .union).2
    let own := (regionApply (fun _ => true) 0 own occluded .subtract).2
    let op := surfOpaqueRect c s up
    let occluded :=
      if op.w ≠ 0 ∧ op.h ≠ 0 then (regionApplyRect (fun _ => true) 0 occluded op .union).2
      else occluded
    (own :: vis, occluded)

/-- `comp_vis_build`: the draw order, and what is visible of each surface -/
def compVisBuild : List ((AxlSurface × Chain) × AxlGfxRegion) :=
  let order := collectOrder [] c.scene
  order.zip (visLoop c order).1

/-- `clear_rect` -/
def clearRect (r : AxlGfxClip) (output : AxlGfxBuffer) : AxlGfxBuffer := fun x y =>
  if r.Has x y then black else output x y

/-- The inner loop of `paint_clip_with_vis`. -/
def paintRects (s : AxlSurface) (up : Chain) (clip : AxlGfxClip) (rects : List AxlGfxClip)
    (output : AxlGfxBuffer) : AxlGfxBuffer :=
  rects.foldl (fun output rect =>
    let part := clipIntersect rect clip
    if part.w ≠ 0 ∧ part.h ≠ 0 then surfBlit composite c s up part output else output) output

/-- `paint_clip_with_vis` -/
def paintClipWithVis (cv : List ((AxlSurface × Chain) × AxlGfxRegion)) (clip : AxlGfxClip)
    (output : AxlGfxBuffer) : AxlGfxBuffer :=
  let clip := clipToOutput c clip
  if clip.w = 0 ∨ clip.h = 0 then output
  else
    cv.foldl (fun output k => paintRects composite c k.1.1 k.1.2 clip k.2.rects.items output)
      (clearRect clip output)

/-- `axl_compositor_composite` -/
def compositorComposite : AxlCompositor :=
  { c with output := paintClipWithVis composite c (compVisBuild c) ⟨0, 0, c.w, c.h⟩ c.output }

/-- `axl_compositor_present` -/
def compositorPresent : AxlCompositor :=
  if regionIsEmpty c.damage then c
  else
    let cv := compVisBuild c
    { c with
      output := c.damage.rects.items.foldl
        (fun output d => paintClipWithVis composite c cv d output) c.output
      damage := regionClear c.damage }

end

end Gfx

end AxlSdk
