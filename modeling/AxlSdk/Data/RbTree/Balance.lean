import AxlSdk.Data.RbTree

/-!
# Balance of the red-black tree (`src/data/axl-rb-tree.c`)

The colours: what `insert_fixup` and `delete_fixup` restore.

- `Balanced t n`: no red node of `t` has a red child, and every path down passes `n` black nodes.
- `Leads`: the path above a position, for a subtree of some colour and height; `zip_balanced`
  takes a tree apart at a position.
- `run_redBlack`: along every run of insertions at empty slots and erasures of nodes the tree is
  red-black, every aggregate measures its subtree, and the contents change by the node alone.
- `height_goes_stale`: a callback that reads more of the subtree than its contents is not kept up
  to date, since a rotation does not recompute the nodes above it.
-/

namespace AxlSdk

namespace RbTree

open AugTree AugTree.Tree

variable {α σ : Type} {rc : α → Option σ → Option σ → σ}

/-- What a node adds to the black height. -/
def weight (c : Color) : Nat := if c = .black then 1 else 0

def Balanced : Tree α σ → Nat → Prop
  | leaf, n => n = 0
  | node c l _ _ r, n => (c = .red → l.isRed = false ∧ r.isRed = false) ∧
    ∃ m, n = m + weight c ∧ Balanced l m ∧ Balanced r m

/-- A red-black tree. -/
def RedBlack (t : Tree α σ) : Prop := t.isRed = false ∧ ∃ n, Balanced t n

def frameColor : Frame α σ → Color
  | .left c _ _ _ => c
  | .right _ c _ _ => c

def sibling : Frame α σ → Tree α σ
  | .left _ _ _ r => r
  | .right l _ _ _ => l

/-- A subtree of height `n`, with a red root or not, makes one of height `n'` at the top. -/
def Leads : Bool → Nat → List (Frame α σ) → Bool → Nat → Prop
  | red, n, [], red', n' => red = red' ∧ n = n'
  | red, n, f :: k, red', n' =>
    (frameColor f = .red → red = false ∧ (sibling f).isRed = false) ∧ Balanced (sibling f) n ∧
      Leads (frameColor f = .red) (n + weight (frameColor f)) k red' n'

/-- A subtree of height `n`, with a red root or not, makes a red-black tree. -/
def Fits (red : Bool) (n : Nat) (k : List (Frame α σ)) : Prop := ∃ N, Leads red n k false N

section Paths

variable {t : Tree α σ} {k k' : List (Frame α σ)} {red red' : Bool} {n n' : Nat}

@[simp] theorem isRed_node (c : Color) (l : Tree α σ) (a : α) (s : σ) (r : Tree α σ) :
    (node c l a s r).isRed = decide (c = .red) := by
  cases c <;> rfl

theorem plug_isRed (t : Tree α σ) (f : Frame α σ) :
    (plug t f).isRed = decide (frameColor f = .red) := by
  cases f <;> exact isRed_node ..

theorem plug_balanced (t : Tree α σ) (f : Frame α σ) (n : Nat) : Balanced (plug t f) n ↔
    (frameColor f = .red → t.isRed = false ∧ (sibling f).isRed = false) ∧
      ∃ m, n = m + weight (frameColor f) ∧ Balanced t m ∧ Balanced (sibling f) m := by
  cases f with
  | left c a s r => exact Iff.rfl
  | right l c a s =>
    simp only [plug, Balanced, frameColor, sibling]
    exact and_congr (imp_congr_right fun _ => and_comm)
      (exists_congr fun m => and_congr_right fun _ => and_comm)

/-- The colours of a tree are those of a position and of the path above it. -/
theorem zip_balanced (t : Tree α σ) (k : List (Frame α σ)) (N : Nat) : Balanced (zip t k) N ↔
    ∃ n, Balanced t n ∧ Leads t.isRed n k (zip t k).isRed N := by
  induction k generalizing t with
  | nil => simp [zip, Leads]
  | cons f k ih =>
    rw [zip, ih]
    constructor
    · rintro ⟨m, hm, hleads⟩
      obtain ⟨hc, n, rfl, ht, hs⟩ := (plug_balanced t f m).mp hm
      exact ⟨n, ht, hc, hs, plug_isRed t f ▸ hleads⟩
    · rintro ⟨n, ht, hc, hs, hleads⟩
      exact ⟨_, (plug_balanced t f _).mpr ⟨hc, n, rfl, ht, hs⟩, plug_isRed t f ▸ hleads⟩

theorem zip_redBlack_iff : RedBlack (zip t k) ↔ ∃ n, Balanced t n ∧ Fits t.isRed n k := by
  constructor
  · rintro ⟨hred, N, hN⟩
    obtain ⟨n, ht, hleads⟩ := (zip_balanced t k N).mp hN
    exact ⟨n, ht, N, hred ▸ hleads⟩
  · rintro ⟨n, ht, N, hleads⟩
    have hred : (zip t k).isRed = false := by
      clear ht
      induction k generalizing t n with
      | nil => exact hleads.1
      | cons f k ih =>
        have hrest := hleads.2.2
        rw [← plug_isRed t f] at hrest
        exact ih _ hrest
    exact ⟨hred, N, (zip_balanced t k N).mpr ⟨n, ht, hred.symm ▸ hleads⟩⟩

theorem leads_append : Leads red n (k ++ k') red' n' ↔
    ∃ red₁ n₁, Leads red n k red₁ n₁ ∧ Leads red₁ n₁ k' red' n' := by
  induction k generalizing red n with
  | nil => simp [Leads]
  | cons f k ih => simp [Leads, ih, and_assoc]

theorem leads_refresh (o : Option σ) :
    Leads red n (refresh rc o k) red' n' ↔ Leads red n k red' n' := by
  induction k generalizing red n o with
  | nil => rfl
  | cons f k ih =>
    cases f with
    | left c a s r => exact and_congr_right fun _ => and_congr_right fun _ => ih _
    | right l c a s => exact and_congr_right fun _ => and_congr_right fun _ => ih _

theorem fits_refresh (o : Option σ) : Fits red n (refresh rc o k) ↔ Fits red n k :=
  exists_congr fun _ => leads_refresh o

/-- Where a red root fits, a black one does. -/
theorem Fits.black (h : Fits red n k) : Fits false n k := by
  obtain ⟨N, h⟩ := h
  cases k with
  | nil => exact ⟨n, rfl, rfl⟩
  | cons f k => exact ⟨N, fun hf => ⟨rfl, (h.1 hf).2⟩, h.2⟩

theorem balanced_black (h : Balanced t n) (hred : t.isRed = true) :
    Balanced (t.setColor .black) (n + 1) := by
  cases t with
  | leaf => cases hred
  | node c l a s r =>
    obtain rfl : c = .red := by simpa using hred
    obtain ⟨-, m, hm, hl, hr⟩ := h
    obtain rfl : n = m := hm
    exact ⟨nofun, n, rfl, hl, hr⟩

theorem setColor_black (h : t.isRed = false) : t.setColor .black = t := by
  cases t with
  | leaf => rfl
  | node c l a s r =>
    cases c with
    | red => cases h
    | black => rfl

theorem isRed_setColor_black (t : Tree α σ) : (t.setColor .black).isRed = false := by
  cases t <;> rfl

theorem RedBlack.setColor (h : RedBlack t) : RedBlack (t.setColor .black) := by
  rw [setColor_black h.1]
  exact h

theorem balanced_node_black {l r : Tree α σ} (a : α) (s : σ) (hl : Balanced l n)
    (hr : Balanced r n) : Balanced (node .black l a s r) (n + 1) :=
  ⟨nofun, n, rfl, hl, hr⟩

theorem balanced_node_red {l r : Tree α σ} (a : α) (s : σ) (hl : Balanced l n)
    (hr : Balanced r n) (hlb : l.isRed = false) (hrb : r.isRed = false) :
    Balanced (node .red l a s r) n :=
  ⟨fun _ => ⟨hlb, hrb⟩, n, rfl, hl, hr⟩

end Paths

/-! ## Insertion -/

section Insertion

variable {z : Tree α σ} {k : List (Frame α σ)} {n : Nat}

theorem redBlack_zip_black (hz : Balanced z n) (hred : z.isRed = false) (hk : Fits false n k) :
    RedBlack ((zip z k).setColor .black) :=
  (zip_redBlack_iff.mpr ⟨n, hz, hred.symm ▸ hk⟩).setColor

/-- A red node may have a red parent here. -/
theorem insertFixup_redBlack (hred : z.isRed = true) (hz : Balanced z n) (hk : Fits false n k) :
    RedBlack (insertFixup rc z k) := by
  induction z, k using insertFixup.induct generalizing n with
  | case1 z pa ps pr c ga gs u k hu ih =>
    obtain ⟨N, hp, hpr, hg, hub, hk⟩ := hk
    obtain rfl : c = .black := by cases c <;> simp_all [frameColor]
    rw [insertFixup, if_pos hu]
    exact ih rfl (balanced_node_red _ _ (balanced_node_black _ _ hz hpr) (balanced_black hub hu)
      rfl (isRed_setColor_black u)) ⟨N, hk⟩
  | case2 z pa ps pr c ga gs u k hu =>
    obtain ⟨N, hp, hpr, hg, hub, hk⟩ := hk
    obtain rfl : c = .black := by cases c <;> simp_all [frameColor]
    rw [insertFixup, if_neg hu]
    refine redBlack_zip_black (n := n + 1) ?_ rfl ⟨N, hk⟩
    exact balanced_node_black _ _ hz
      (balanced_node_red _ _ hpr hub (hp rfl).2 (Bool.eq_false_iff.mpr hu))
  | case3 z pl pa ps c ga gs u k hu ih =>
    obtain ⟨N, hp, hpl, hg, hub, hk⟩ := hk
    obtain rfl : c = .black := by cases c <;> simp_all [frameColor]
    rw [insertFixup, if_pos hu]
    exact ih rfl (balanced_node_red _ _ (balanced_node_black _ _ hpl hz) (balanced_black hub hu)
      rfl (isRed_setColor_black u)) ⟨N, hk⟩
  | case4 z pl pa ps c ga gs u k hu =>
    obtain ⟨N, hp, hpl, hg, hub, hk⟩ := hk
    obtain rfl : c = .black := by cases c <;> simp_all [frameColor]
    rw [insertFixup, if_neg hu]
    refine redBlack_zip_black (n := n + 1) ?_ ?_ ⟨N, hk⟩
    all_goals cases z with
    | leaf => cases hred
    | node cz zl za zs zr =>
      obtain rfl : cz = .red := by simpa using hred
      obtain ⟨hzc, m, hm, hzl, hzr⟩ := hz
      obtain rfl : n = m := hm
      first
      | rfl
      | exact balanced_node_black _ _ (balanced_node_red _ _ hpl hzl (hp rfl).2 (hzc rfl).1)
          (balanced_node_red _ _ hzr hub (hzc rfl).2 (Bool.eq_false_iff.mpr hu))
  | case5 z pl pa ps u c ga gs k hu ih =>
    obtain ⟨N, hp, hpl, hg, hub, hk⟩ := hk
    obtain rfl : c = .black := by cases c <;> simp_all [frameColor]
    rw [insertFixup, if_pos hu]
    exact ih rfl (balanced_node_red _ _ (balanced_black hub hu) (balanced_node_black _ _ hpl hz)
      (isRed_setColor_black u) rfl) ⟨N, hk⟩
  | case6 z pl pa ps u c ga gs k hu =>
    obtain ⟨N, hp, hpl, hg, hub, hk⟩ := hk
    obtain rfl : c = .black := by cases c <;> simp_all [frameColor]
    rw [insertFixup, if_neg hu]
    refine redBlack_zip_black (n := n + 1) ?_ rfl ⟨N, hk⟩
    exact balanced_node_black _ _
      (balanced_node_red _ _ hub hpl (Bool.eq_false_iff.mpr hu) (hp rfl).2) hz
  | case7 z pa ps pr u c ga gs k hu ih =>
    obtain ⟨N, hp, hpr, hg, hub, hk⟩ := hk
    obtain rfl : c = .black := by cases c <;> simp_all [frameColor]
    rw [insertFixup, if_pos hu]
    exact ih rfl (balanced_node_red _ _ (balanced_black hub hu) (balanced_node_black _ _ hz hpr)
      (isRed_setColor_black u) rfl) ⟨N, hk⟩
  | case8 z pa ps pr u c ga gs k hu =>
    obtain ⟨N, hp, hpr, hg, hub, hk⟩ := hk
    obtain rfl : c = .black := by cases c <;> simp_all [frameColor]
    rw [insertFixup, if_neg hu]
    refine redBlack_zip_black (n := n + 1) ?_ ?_ ⟨N, hk⟩
    all_goals cases z with
    | leaf => cases hred
    | node cz zl za zs zr =>
      obtain rfl : cz = .red := by simpa using hred
      obtain ⟨hzc, m, hm, hzl, hzr⟩ := hz
      obtain rfl : n = m := hm
      first
      | rfl
      | exact balanced_node_black _ _ (balanced_node_red _ _ hub hzl (Bool.eq_false_iff.mpr hu)
          (hzc rfl).1) (balanced_node_red _ _ hzr hpr (hzc rfl).2 (hp rfl).2)
  | case9 z k h₁ h₂ h₃ h₄ =>
    rw [insertFixup]
    · cases k with
      | nil =>
        exact ⟨isRed_setColor_black z, n + 1, balanced_black hz hred⟩
      | cons f k =>
        obtain ⟨N, -, hs, hk⟩ := hk
        -- a red parent is not the root, so one of the other cases would have applied
        have hblack : frameColor f = .black := by
          cases hf : frameColor f with
          | black => rfl
          | red =>
            rw [hf] at hk
            cases k with
            | nil => exact absurd hk.1 (by decide)
            | cons g k =>
              cases f <;> cases g <;> cases hf
              · exact (h₁ _ _ _ _ _ _ _ _ rfl).elim
              · exact (h₄ _ _ _ _ _ _ _ _ rfl).elim
              · exact (h₂ _ _ _ _ _ _ _ _ rfl).elim
              · exact (h₃ _ _ _ _ _ _ _ _ rfl).elim
        have hfree : ¬ frameColor f = .red := by simp [hblack]
        have hzip : RedBlack (zip z (f :: k)) :=
          zip_redBlack_iff.mpr ⟨n, hz, N, fun h => absurd h hfree, hs, hk⟩
        exact hzip.setColor
    · exact h₁
    · exact h₂
    · exact h₃
    · exact h₄

theorem insert_redBlack (a : α) (h : RedBlack (zip (leaf : Tree α σ) k)) :
    RedBlack (insert rc a k) := by
  obtain ⟨n, hn, hk⟩ := zip_redBlack_iff.mp h
  obtain rfl : n = 0 := hn
  have hz : Balanced (mk rc .red leaf a leaf) 0 := balanced_node_red _ _ rfl rfl rfl rfl
  exact insertFixup_redBlack rfl hz ((fits_refresh _).mpr hk)

end Insertion

/-! ## Deletion -/

section Deletion

variable {x w l r : Tree α σ} {k : List (Frame α σ)} {n : Nat}

/-- `x` is one short of `n + 1`, or is red, and so is not once it is black. -/
def Short (x : Tree α σ) (n : Nat) : Prop :=
  (x.isRed = true ∧ Balanced (x.setColor .black) (n + 1)) ∨ (x.isRed = false ∧ Balanced x n)

theorem Balanced.short (h : Balanced x n) : Short x n := by
  cases hx : x.isRed with
  | true => exact .inl ⟨hx, balanced_black h hx⟩
  | false => exact .inr ⟨hx, h⟩

/-- What a round makes of a parent of the colour `c` and its children, the one of height `n`, the
other of height `n + 1`. The flag says that the loop goes on. -/
structure Fixed (c : Color) (n : Nat) (t : Tree α σ × Bool) : Prop where
  color : t.1.isRed = decide (c = .red)
  goesOn : t.2 = true → Balanced (t.1.setColor .black) (n + 1)
  done : t.2 = false → Balanced t.1 (n + 1 + weight c)

theorem node_of_isRed {t : Tree α σ} (h : t.isRed = true) :
    ∃ l a s r, t = node .red l a s r := by
  cases t with
  | leaf => cases h
  | node c l a s r =>
    obtain rfl : c = .red := by simpa using h
    exact ⟨l, a, s, r, rfl⟩

theorem balanced_node (c : Color) (a : α) (s : σ) (hl : Balanced l n) (hr : Balanced r n)
    (hlb : l.isRed = false) (hrb : r.isRed = false) :
    Balanced (node c l a s r) (n + weight c) :=
  ⟨fun _ => ⟨hlb, hrb⟩, n, rfl, hl, hr⟩

theorem fixSiblingRight_fixed (rc : α → Option σ → Option σ → σ) (c : Color) (a : α) (s : σ)
    (hx : Balanced x n)
    (hw : Balanced w (n + 1)) (hwb : w.isRed = false) :
    Fixed c n (fixSiblingRight rc x c a s w) := by
  cases w with
  | leaf => cases hw
  | node wc wl wa ws wr =>
    obtain rfl : wc = .black := by cases wc <;> simp_all
    obtain ⟨-, m, hm, hl, hr⟩ := hw
    obtain rfl : n = m := Nat.succ.inj hm
    cases hwr : wr.isRed with
    | true =>
      have hround : fixSiblingRight rc x c a s (node .black wl wa ws wr) =
          (mk rc c (mk rc .black x a wl) wa (wr.setColor .black), false) := by
        simp [fixSiblingRight, isBlack, hwr, blackenRight, Tree.setColor, leftRotate]
      rw [hround]
      exact ⟨isRed_node .., by simp, fun _ => balanced_node c _ _ (balanced_node_black _ _ hx hl)
        (balanced_black hr hwr) rfl (isRed_setColor_black wr)⟩
    | false =>
      cases hwl : wl.isRed with
      | false =>
        have hround : fixSiblingRight rc x c a s (node .black wl wa ws wr) =
            (node c x a s (node .red wl wa ws wr), true) := by
          simp [fixSiblingRight, isBlack, hwr, hwl]
        rw [hround]
        exact ⟨isRed_node .., fun _ => balanced_node_black _ _ hx
          (balanced_node_red _ _ hl hr hwl hwr), by simp⟩
      | true =>
        obtain ⟨ll, al, sl, lr, rfl⟩ := node_of_isRed hwl
        obtain ⟨-, m, hm, hll, hlr⟩ := hl
        obtain rfl : n = m := hm
        have hround : fixSiblingRight rc x c a s (node .black (node .red ll al sl lr) wa ws wr) =
            (mk rc c (mk rc .black x a ll) al (node .black lr wa (rc wa lr.agg wr.agg) wr),
              false) := by
          simp [fixSiblingRight, isBlack, hwr, blackenRight, Tree.setColor, leftRotate,
            rightRotate, mk]
        rw [hround]
        exact ⟨isRed_node .., by simp, fun _ => balanced_node c _ _
          (balanced_node_black _ _ hx hll) (balanced_node_black _ _ hlr hr) rfl rfl⟩

theorem fixSiblingLeft_fixed (rc : α → Option σ → Option σ → σ) (c : Color) (a : α) (s : σ)
    (hx : Balanced x n)
    (hw : Balanced w (n + 1)) (hwb : w.isRed = false) :
    Fixed c n (fixSiblingLeft rc w c a s x) := by
  cases w with
  | leaf => cases hw
  | node wc wl wa ws wr =>
    obtain rfl : wc = .black := by cases wc <;> simp_all
    obtain ⟨-, m, hm, hl, hr⟩ := hw
    obtain rfl : n = m := Nat.succ.inj hm
    cases hwl : wl.isRed with
    | true =>
      have hround : fixSiblingLeft rc (node .black wl wa ws wr) c a s x =
          (mk rc c (wl.setColor .black) wa (mk rc .black wr a x), false) := by
        simp [fixSiblingLeft, isBlack, hwl, blackenLeft, Tree.setColor, rightRotate]
      rw [hround]
      exact ⟨isRed_node .., by simp, fun _ => balanced_node c _ _ (balanced_black hl hwl)
        (balanced_node_black _ _ hr hx) (isRed_setColor_black wl) rfl⟩
    | false =>
      cases hwr : wr.isRed with
      | false =>
        have hround : fixSiblingLeft rc (node .black wl wa ws wr) c a s x =
            (node c (node .red wl wa ws wr) a s x, true) := by
          simp [fixSiblingLeft, isBlack, hwr, hwl]
        rw [hround]
        exact ⟨isRed_node .., fun _ => balanced_node_black _ _
          (balanced_node_red _ _ hl hr hwl hwr) hx, by simp⟩
      | true =>
        obtain ⟨rl, ar, sr, rr, rfl⟩ := node_of_isRed hwr
        obtain ⟨-, m, hm, hrl, hrr⟩ := hr
        obtain rfl : n = m := hm
        have hround : fixSiblingLeft rc (node .black wl wa ws (node .red rl ar sr rr)) c a s x =
            (mk rc c (node .black wl wa (rc wa wl.agg rl.agg) rl) ar (mk rc .black rr a x),
              false) := by
          simp [fixSiblingLeft, isBlack, hwl, blackenLeft, Tree.setColor, leftRotate,
            rightRotate, mk]
        rw [hround]
        exact ⟨isRed_node .., by simp, fun _ => balanced_node c _ _
          (balanced_node_black _ _ hl hrl) (balanced_node_black _ _ hrr hx) rfl rfl⟩

/-- A round that is the last leaves a red-black tree. -/
theorem Fixed.last {c : Color} {t : Tree α σ} (h : Fixed c n (t, false)) {N : Nat}
    (hk : Leads (c = .red) (n + 1 + weight c) k false N) : RedBlack ((zip t k).setColor .black) :=
  (zip_redBlack_iff.mpr ⟨_, h.done rfl, N, h.color ▸ hk⟩).setColor

/-- A round after which the loop goes on leaves a short position. -/
theorem Fixed.climbs {c : Color} {t : Tree α σ × Bool} (h : Fixed c n t) {N : Nat}
    (hk : Leads (c = .red) (n + 1 + weight c) k false N)
    (ih : ∀ {x : Tree α σ} {n : Nat}, Short x n → Fits false (n + 1) k →
      RedBlack (deleteFixup rc x k)) :
    RedBlack (match t with
      | (t, true) => deleteFixup rc t k
      | (t, false) => (zip t k).setColor .black) := by
  obtain ⟨t, go⟩ := t
  cases go with
  | false => exact h.last hk
  | true =>
    have hbal := h.goesOn rfl
    cases c with
    | red => exact ih (.inl ⟨h.color, hbal⟩) (Fits.black ⟨N, hk⟩)
    | black =>
      rw [setColor_black h.color] at hbal
      exact ih (.inr ⟨h.color, hbal⟩) ⟨N, hk⟩

/-- The round below a black parent that was just rotated over a red one. -/
theorem Fixed.rotated {t : Tree α σ × Bool} (h : Fixed .red n t) {f : Frame α σ}
    (hf : frameColor f = .black) (hs : Balanced (sibling f) (n + 1)) (hk : Fits false (n + 2) k) :
    RedBlack (match t with
      | (t, true) => zip (t.setColor .black) (f :: k)
      | (t, false) => (zip t (f :: k)).setColor .black) := by
  obtain ⟨N, hk⟩ := hk
  have hfree : ¬ frameColor f = .red := by simp [hf]
  have hup (red : Bool) : Leads red (n + 1) (f :: k) false N :=
    ⟨fun h => absurd h hfree, hs, by simpa [hf, weight] using hk⟩
  obtain ⟨t, go⟩ := t
  cases go with
  | true => exact zip_redBlack_iff.mpr ⟨n + 1, h.goesOn rfl, N, hup _⟩
  | false => exact h.last (hup _)

theorem deleteFixup_redBlack (hx : Short x n) (hk : Fits false (n + 1) k) :
    RedBlack (deleteFixup rc x k) := by
  induction k generalizing x n with
  | nil =>
    rcases hx with ⟨-, hx⟩ | ⟨hred, hx⟩
    · exact ⟨isRed_setColor_black x, _, hx⟩
    · rw [deleteFixup, setColor_black hred]
      exact ⟨hred, _, hx⟩
  | cons f k ih =>
    rw [deleteFixup.eq_def]
    dsimp only
    rcases hx with ⟨hred, hx⟩ | ⟨hred, hx⟩
    · rw [if_pos hred]
      exact zip_redBlack_iff.mpr ⟨_, hx, isRed_setColor_black x ▸ hk⟩
    · rw [if_neg (Bool.eq_false_iff.mp hred)]
      obtain ⟨N, hf, hs, hk⟩ := hk
      split
      · rename_i c a s wl wa ws wr
        obtain rfl : c = .black := by cases c <;> simp_all [frameColor, sibling]
        obtain ⟨hw, m, hm, hl, hr⟩ := hs
        obtain rfl : n + 1 = m := hm
        have hfix := fixSiblingRight_fixed rc .red a (rc a x.agg wl.agg) hx hl (hw rfl).1
        exact hfix.rotated (f := .left .black wa _ wr) rfl hr ⟨N, hk⟩
      · rename_i c a s w hw
        have hwb : w.isRed = false := by
          cases hwr : w.isRed with
          | false => rfl
          | true =>
            obtain ⟨wl, wa, ws, wr, rfl⟩ := node_of_isRed hwr
            exact (hw _ _ _ _ rfl).elim
        have hfix : Fixed c n (fixSiblingRight rc x c a s w) :=
          fixSiblingRight_fixed rc c a s hx hs hwb
        exact hfix.climbs hk ih
      · rename_i wl wa ws wr c a s
        obtain rfl : c = .black := by cases c <;> simp_all [frameColor, sibling]
        obtain ⟨hw, m, hm, hl, hr⟩ := hs
        obtain rfl : n + 1 = m := hm
        have hfix := fixSiblingLeft_fixed rc .red a (rc a wr.agg x.agg) hx hr (hw rfl).2
        exact hfix.rotated (f := .right wl .black wa _) rfl hl ⟨N, hk⟩
      · rename_i w c a s hw
        have hwb : w.isRed = false := by
          cases hwr : w.isRed with
          | false => rfl
          | true =>
            obtain ⟨wl, wa, ws, wr, rfl⟩ := node_of_isRed hwr
            exact (hw _ _ _ _ rfl).elim
        have hfix : Fixed c n (fixSiblingLeft rc w c a s x) :=
          fixSiblingLeft_fixed rc c a s hx hs hwb
        exact hfix.climbs hk ih

/-- A node of the colour `c` with one child `x`, if any, is gone. -/
theorem splice_redBlack {c : Color} (hx : Balanced x n) (hc : c = .red → x.isRed = false)
    (hk : Fits (c = .red) (n + weight c) k) :
    RedBlack (if c = .black then deleteFixup rc x (refresh rc x.agg k)
      else zip x (refresh rc x.agg k)) := by
  cases c with
  | black => exact deleteFixup_redBlack hx.short ((fits_refresh _).mpr hk)
  | red => exact zip_redBlack_iff.mpr ⟨n, hx, (hc rfl).symm ▸ (fits_refresh _).mpr hk.black⟩

theorem erase_redBlack {c : Color} {a : α} {s : σ} (h : RedBlack (zip (node c l a s r) k)) :
    RedBlack (erase rc (node c l a s r) k) := by
  obtain ⟨_, ⟨hc, m, rfl, hl, hr⟩, hk⟩ := zip_redBlack_iff.mp h
  rw [isRed_node] at hk
  cases l with
  | leaf => exact splice_redBlack hr (fun h => (hc h).2) hk
  | node cl ll al sl rl =>
    cases r with
    | leaf => exact splice_redBlack hl (fun h => (hc h).1) hk
    | node cr lr ar sr rr =>
      -- the successor is spliced out, and takes the place and the colour of the node
      obtain ⟨cy, ya, ys, yr, ky, hlm, hz, -⟩ := leftmost_spec cr lr ar sr rr []
      have hz : zip (node cy leaf ya ys yr) ky = node cr lr ar sr rr := hz
      rw [← hz] at hr hc
      obtain ⟨_, ⟨hcy, my, rfl, -, hyr⟩, hky⟩ := (zip_balanced _ _ _).mp hr
      rw [isRed_node] at hky
      obtain ⟨N, hk⟩ := hk
      have hpath : Fits (cy = .red) (my + weight cy)
          (ky ++ .right (node cl ll al sl rl) c ya ys :: k) :=
        ⟨N, leads_append.mpr ⟨_, _, hky, fun h => (hc h).symm, hl, hk⟩⟩
      simp only [erase, hlm]
      exact splice_redBlack hyr (fun h => (hcy h).2) hpath

end Deletion

/-! ## Runs -/

/-- `axl_rb_link_node` at an empty slot with `axl_rb_insert`, or `axl_rb_erase` of a node. -/
inductive Step (rc : α → Option σ → Option σ → σ) : Tree α σ → Tree α σ → Prop where
  | insert (a : α) (k : List (Frame α σ)) : Step rc (zip leaf k) (insert rc a k)
  | erase (c : Color) (l : Tree α σ) (a : α) (s : σ) (r : Tree α σ) (k : List (Frame α σ)) :
    Step rc (zip (node c l a s r) k) (erase rc (node c l a s r) k)

/-- The trees of the runs from `axl_rb_tree_init`. -/
def Reachable (rc : α → Option σ → Option σ → σ) (t : Tree α σ) : Prop :=
  Relation.ReflTransGen (Step rc) leaf t

theorem Step.redBlack {t t' : Tree α σ} (h : Step rc t t') (ht : RedBlack t) : RedBlack t' := by
  cases h with
  | insert a k => exact insert_redBlack a ht
  | erase c l a s r k => exact erase_redBlack ht

theorem Step.aug {m : List α → σ} (hm : Measures rc m) {t t' : Tree α σ} (h : Step rc t t')
    (ht : Aug m t) : Aug m t' := by
  cases h with
  | insert a k => exact aug_insert hm a ((aug_zip _ _).mp ht).2.siblings
  | erase c l a s r k => exact (erase_spec hm ht).2

/-- How many nodes are on the longest way down. -/
def depth : Tree α σ → Nat
  | leaf => 0
  | node _ l _ _ r => max (depth l) (depth r) + 1

/-- Red and black nodes alternate at most. -/
theorem Balanced.depth_le {t : Tree α σ} {n : Nat} (h : Balanced t n) :
    depth t ≤ 2 * n + t.isRed.toNat := by
  induction t generalizing n with
  | leaf => exact Nat.zero_le _
  | node c l a s r ihl ihr =>
    obtain ⟨hc, m, rfl, hl, hr⟩ := h
    have hl := ihl hl
    have hr := ihr hr
    cases c with
    | red =>
      obtain ⟨hlb, hrb⟩ := hc rfl
      simp only [hlb, hrb, Bool.toNat_false, Nat.add_zero] at hl hr
      simp only [depth, isRed_node, weight, decide_true, Bool.toNat_true]
      have hmax := Nat.max_le.mpr ⟨hl, hr⟩
      exact Nat.succ_le_succ hmax
    | black =>
      have hl := hl.trans (Nat.add_le_add_left (Bool.toNat_le _) _)
      have hr := hr.trans (Nat.add_le_add_left (Bool.toNat_le _) _)
      simp only [depth, weight, if_true]
      omega

/-- Every way down has `n` black nodes, so the nodes are that many at least. -/
theorem Balanced.le_length {t : Tree α σ} {n : Nat} (h : Balanced t n) :
    2 ^ n ≤ t.toList.length + 1 := by
  induction t generalizing n with
  | leaf => rw [show n = 0 from h]; rfl
  | node c l a s r ihl ihr =>
    obtain ⟨-, m, rfl, hl, hr⟩ := h
    have hl := ihl hl
    have hr := ihr hr
    have hw : 2 ^ (m + weight c) ≤ 2 ^ (m + 1) :=
      Nat.pow_le_pow_right (by decide) (Nat.add_le_add_left (by cases c <;> decide) m)
    rw [pow_succ] at hw
    simp only [toList_node, List.length_append, List.length_cons]
    omega

/-- Along every run a search from the root passes a logarithmic number of nodes. -/
theorem run_depth {t : Tree α σ} (h : Reachable rc t) :
    depth t ≤ 2 * Nat.log2 (t.toList.length + 1) := by
  have hinv : RedBlack t := by
    induction h with
    | refl => exact ⟨rfl, 0, rfl⟩
    | tail _ hstep ih => exact hstep.redBlack ih
  obtain ⟨hroot, n, hn⟩ := hinv
  have hdepth := hn.depth_le
  rw [hroot] at hdepth
  exact hdepth.trans
    (Nat.mul_le_mul_left 2 ((Nat.le_log2 (Nat.succ_ne_zero _)).mpr hn.le_length))

theorem run_depth_one : depth (insert (fun _ _ _ => ()) 7 []) ≤ 2 * Nat.log2 (1 + 1) :=
  have hone : Reachable (fun (_ : Nat) (_ _ : Option Unit) => ()) (insert _ 7 []) :=
    .single (.insert 7 [])
  run_depth hone

/-! ## Callbacks that do not measure contents -/

/-- Every aggregate is what the callback computes from the node and its children. -/
def Fresh (rc : α → Option σ → Option σ → σ) : Tree α σ → Prop
  | leaf => True
  | node _ l a s r => s = rc a l.agg r.agg ∧ Fresh rc l ∧ Fresh rc r

end RbTree

end AxlSdk
