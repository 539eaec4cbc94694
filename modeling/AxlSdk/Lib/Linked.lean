import Mathlib

/-!
# Linked structures over a heap

Pointers as partial functions on an arbitrary type of addresses.

- `Seg prev next p l n`: the addresses `l` form a doubly linked segment between
  `p` and `n`.
- `Path next p l q`: from `p` the pointers run through `l` to `q`; `walk` collects
  the addresses of a path that ends.
- `Ranked parent`: a rank falls along every parent pointer, so that no address
  is above itself; `Ranked.link` adds a pointer that closes no cycle.
- `Above parent x l`: `l` is the path from `x` to its root.
-/

namespace AxlSdk

namespace Linked

open List

variable {ι : Type}

/-! ## Doubly linked segments -/

/-- The addresses `l` are linked to each other, to `p` before and to `n` behind. -/
def Seg (prev next : ι → Option ι) : Option ι → List ι → Option ι → Prop
  | _, [], _ => True
  | p, c :: cs, n => prev c = p ∧ next c = cs.head?.or n ∧ Seg prev next (some c) cs n

variable {prev next prev' next' : ι → Option ι}

variable {p n : Option ι} {l : List ι}

theorem Seg.congr (h : Seg prev next p l n) (hp : ∀ c ∈ l, prev' c = prev c)
    (hn : ∀ c ∈ l, next' c = next c) : Seg prev' next' p l n := by
  induction l generalizing p with
  | nil => trivial
  | cons c cs ih =>
    obtain ⟨h₁, h₂, h₃⟩ := h
    refine ⟨(hp c (by simp)).trans h₁, (hn c (by simp)).trans h₂, ih h₃ ?_ ?_⟩
    · exact fun c' hc' => hp c' (by simp [hc'])
    · exact fun c' hc' => hn c' (by simp [hc'])

variable {r : List ι}

theorem seg_append :
    Seg prev next p (l ++ r) n ↔
      Seg prev next p l (r.head?.or n) ∧ Seg prev next (l.getLast?.or p) r n := by
  induction l generalizing p with
  | nil => simp [Seg]
  | cons c cs ih =>
    simp only [cons_append, Seg, ih]
    have hhead : (cs ++ r).head?.or n = cs.head?.or (r.head?.or n) := by
      cases cs <;> simp
    have hlast : (c :: cs).getLast?.or p = cs.getLast?.or (some c) := by
      rw [getLast?_cons]
      cases cs.getLast? <;> rfl
    rw [hhead, hlast]
    tauto

/-- The first address of a segment gets another one before it. -/
theorem Seg.setPrev {p' : Option ι} (h : Seg prev next p l n) (hp : ∀ c ∈ l.tail, prev' c = prev c)
    (hhead : ∀ c, l.head? = some c → prev' c = p') (hn : ∀ c ∈ l, next' c = next c) :
    Seg prev' next' p' l n := by
  cases l with
  | nil => trivial
  | cons c cs =>
    obtain ⟨-, h₂, h₃⟩ := h
    refine ⟨hhead c rfl, (hn c (by simp)).trans h₂, h₃.congr hp ?_⟩
    exact fun c' hc' => hn c' (by simp [hc'])

/-- The links of an address in the middle of a segment. -/
theorem Seg.mid {s : ι} (h : Seg prev next p (l ++ s :: r) n) :
    prev s = l.getLast?.or p ∧ next s = r.head?.or n := by
  obtain ⟨-, h₁, h₂, -⟩ := seg_append.mp h
  exact ⟨h₁, h₂⟩

/-- The last address of a segment gets another one behind it. -/
theorem Seg.setNext {n' : Option ι} (h : Seg prev next p l n) (hl : l.Nodup)
    (hp : ∀ c ∈ l, prev' c = prev c) (hlast : ∀ c, l.getLast? = some c → next' c = n')
    (hn : ∀ c ∈ l, l.getLast? ≠ some c → next' c = next c) : Seg prev' next' p l n' := by
  rcases eq_nil_or_concat' l with rfl | ⟨l₀, b, rfl⟩
  · trivial
  · obtain ⟨h₀, hb, -, -⟩ := seg_append.mp h
    have hlb : (l₀ ++ [b]).getLast? = some b := by simp
    refine seg_append.mpr ⟨h₀.congr (fun c hc => hp c (by simp [hc])) ?_, ?_, ?_, trivial⟩
    · intro c hc
      refine hn c (by simp [hc]) ?_
      rw [hlb]
      rintro ⟨⟩
      exact (nodup_append.mp hl).2.2 b hc b (by simp) rfl
    · rw [hp b (by simp)]
      exact hb
    · rw [hlast b hlb]
      rfl

/-- Two segments get other links where they meet. -/
theorem Seg.meet [DecidableEq ι] {p₀ n₀ p' n' : Option ι} (hl : Seg prev next p l n₀)
    (hr : Seg prev next p₀ r n) (hnodup : (l ++ r).Nodup)
    (hprev : ∀ x ∈ l ++ r, prev' x = if r.head? = some x then p' else prev x)
    (hnext : ∀ x ∈ l ++ r, next' x = if l.getLast? = some x then n' else next x) :
    Seg prev' next' p l n' ∧ Seg prev' next' p' r n := by
  obtain ⟨hnl, hnr, -⟩ := nodup_append.mp hnodup
  have hdis := disjoint_of_nodup_append hnodup
  have hhead : ∀ {x}, r.head? = some x → x ∈ r := fun hx => mem_of_mem_head? hx
  have hlast : ∀ {x}, l.getLast? = some x → x ∈ l := fun hx => mem_of_getLast? hx
  refine ⟨hl.setNext hnl ?_ ?_ ?_, hr.setPrev ?_ ?_ ?_⟩
  · intro x hx
    rw [hprev x (by simp [hx]), if_neg fun hr => hdis hx (hhead hr)]
  · intro x hx
    rw [hnext x (by simp [hlast hx]), if_pos hx]
  · intro x hx hxl
    rw [hnext x (by simp [hx]), if_neg hxl]
  · intro x hx
    rw [hprev x (by simp [mem_of_mem_tail hx]), if_neg]
    cases r with
    | nil => simp at hx
    | cons y ys =>
      simp only [head?_cons, Option.some.injEq]
      exact fun hxy => (nodup_cons.mp hnr).1 (hxy ▸ hx)
  · intro x hx
    rw [hprev x (by simp [hhead hx]), if_pos hx]
  · intro x hx
    rw [hnext x (by simp [hx]), if_neg fun hl => hdis (hlast hl) hx]

/-- An address comes between two parts of a segment. -/
theorem Seg.insert [DecidableEq ι] {l r : List ι} {c : ι} (h : Seg prev next none (l ++ r) none)
    (hnodup : (l ++ r).Nodup) (hc : c ∉ l ++ r)
    (hprev : ∀ x, prev' x =
      if x = c then l.getLast? else if r.head? = some x then some c else prev x)
    (hnext : ∀ x, next' x =
      if x = c then r.head? else if l.getLast? = some x then some c else next x) :
    Seg prev' next' none (l ++ c :: r) none := by
  obtain ⟨hl, hr⟩ := seg_append.mp h
  have hne : ∀ x ∈ l ++ r, x ≠ c := fun x hx h => hc (h ▸ hx)
  obtain ⟨hl', hr'⟩ := hl.meet hr hnodup (fun x hx => (hprev x).trans (if_neg (hne x hx)))
    fun x hx => (hnext x).trans (if_neg (hne x hx))
  refine seg_append.mpr ⟨hl', ?_, ?_, hr'⟩
  · rw [hprev, if_pos rfl]
    simp
  · rw [hnext, if_pos rfl]
    simp

/-- An address leaves a segment. -/
theorem Seg.remove [DecidableEq ι] {c : ι} (h : Seg prev next none (l ++ c :: r) none)
    (hnodup : (l ++ c :: r).Nodup)
    (hprev : ∀ x, x ≠ c → prev' x = if r.head? = some x then l.getLast? else prev x)
    (hnext : ∀ x, x ≠ c → next' x = if l.getLast? = some x then r.head? else next x) :
    Seg prev' next' none (l ++ r) none := by
  obtain ⟨hl, -, -, hr⟩ := seg_append.mp h
  obtain ⟨hc, hnodup⟩ := nodup_cons.mp (nodup_middle.mp hnodup)
  have hne : ∀ x ∈ l ++ r, x ≠ c := fun x hx h => hc (h ▸ hx)
  have hmeet := hl.meet hr hnodup (fun x hx => hprev x (hne x hx)) fun x hx => hnext x (hne x hx)
  rw [seg_append, Option.or_none, Option.or_none]
  exact hmeet

/-! ## Singly linked paths -/

/-- From `p` the pointers run through the addresses `l` to `q`. -/
def Path (next : ι → Option ι) : Option ι → List ι → Option ι → Prop
  | p, [], q => p = q
  | p, c :: cs, q => p = some c ∧ Path next (next c) cs q

theorem Path.congr {q : Option ι} (h : Path next p l q) (hn : ∀ c ∈ l, next' c = next c) :
    Path next' p l q := by
  induction l generalizing p with
  | nil => exact h
  | cons c cs ih =>
    obtain ⟨h₁, h₂⟩ := h
    refine ⟨h₁, ih ?_ fun c' hc' => hn c' (by simp [hc'])⟩
    rw [hn c (by simp)]
    exact h₂

theorem path_append {q : Option ι} :
    Path next p (l ++ r) q ↔ ∃ m, Path next p l m ∧ Path next m r q := by
  induction l generalizing p with
  | nil => simp [Path]
  | cons c cs ih =>
    simp only [cons_append, Path, ih]
    constructor
    · rintro ⟨h, m, h₁, h₂⟩
      exact ⟨m, ⟨h, h₁⟩, h₂⟩
    · rintro ⟨m, ⟨h, h₁⟩, h₂⟩
      exact ⟨h, m, h₁, h₂⟩

/-- The last address of a path gets another one behind it. -/
theorem Path.setNext {q q' : Option ι} (h : Path next p l q) (hnodup : l.Nodup)
    (hlast : ∀ c, l.getLast? = some c → next' c = q')
    (hn : ∀ c ∈ l, l.getLast? ≠ some c → next' c = next c) (hnil : l = [] → p = q') :
    Path next' p l q' := by
  rcases eq_nil_or_concat' l with rfl | ⟨l₀, b, rfl⟩
  · exact hnil rfl
  · obtain ⟨m, h₁, h₂, -⟩ := path_append.mp h
    have hlb : (l₀ ++ [b]).getLast? = some b := by simp
    refine path_append.mpr ⟨m, h₁.congr ?_, h₂, hlast b hlb⟩
    intro c hc
    refine hn c (by simp [hc]) ?_
    rw [hlb]
    rintro ⟨⟩
    exact (nodup_append.mp hnodup).2.2 b hc b (by simp) rfl

/-- The addresses from `p` on. -/
def walk (next : ι → Option ι) : Nat → Option ι → List ι
  | 0, _ => []
  | _ + 1, none => []
  | fuel + 1, some c => c :: walk next fuel (next c)

theorem Path.walk_eq (h : Path next p l none) {fuel : Nat} (hfuel : l.length ≤ fuel) :
    walk next fuel p = l := by
  induction l generalizing p fuel with
  | nil =>
    obtain rfl : p = none := h
    cases fuel <;> rfl
  | cons c cs ih =>
    obtain ⟨rfl, h₂⟩ := h
    cases fuel with
    | zero => simp at hfuel
    | succ fuel =>
      rw [walk, ih h₂ (by simpa using hfuel)]

/-! ## Parents -/

/-- `y` is the parent of `x`. -/
def Up (parent : ι → Option ι) (x y : ι) : Prop := parent x = some y

/-- Ranks fall towards the roots. -/
def Ranked (parent : ι → Option ι) : Prop :=
  ∃ rank : ι → Nat, ∀ x y, parent x = some y → rank y < rank x

variable {parent parent' : ι → Option ι}

/-- No address is above itself. -/
theorem Ranked.acyclic (h : Ranked parent) (x : ι) : ¬ Relation.TransGen (Up parent) x x := by
  obtain ⟨rank, hrank⟩ := h
  have hlt : ∀ y, Relation.TransGen (Up parent) x y → rank y < rank x := by
    intro y hy
    induction hy with
    | single h => exact hrank _ _ h
    | tail _ h ih => exact Nat.lt_trans (hrank _ _ h) ih
  exact fun hx => absurd (hlt x hx) (Nat.lt_irrefl _)

/-- Parents may be forgotten. -/
theorem Ranked.mono (h : Ranked parent) (hle : ∀ x y, parent' x = some y → parent x = some y) :
    Ranked parent' := by
  obtain ⟨rank, hrank⟩ := h
  exact ⟨rank, fun x y hxy => hrank x y (hle x y hxy)⟩

/-- A root `c` that is not above `p` may become a child of `p`: everything below
`c` moves up by more than the rank of `p`. -/
theorem Ranked.link [DecidableEq ι] (h : Ranked parent) {c p : ι} (hroot : parent c = none)
    (hfree : ¬ Relation.ReflTransGen (Up parent) p c) :
    Ranked (Function.update parent c (some p)) := by
  classical
  obtain ⟨rank, hrank⟩ := h
  refine ⟨fun x => if Relation.ReflTransGen (Up parent) x c then rank x + rank p + 1 else rank x, ?_⟩
  intro x y hxy
  by_cases hx : x = c
  · subst hx
    rw [Function.update_self] at hxy
    obtain rfl := Option.some.inj hxy
    dsimp only
    rw [if_neg hfree, if_pos .refl]
    omega
  · rw [Function.update_of_ne hx] at hxy
    have hlt := hrank x y hxy
    dsimp only
    by_cases hyc : Relation.ReflTransGen (Up parent) y c
    · rw [if_pos hyc, if_pos (.head (show Up parent x y from hxy) hyc)]
      omega
    · have hxc : ¬ Relation.ReflTransGen (Up parent) x c := by
        intro hxc
        -- the first step up from `x` is the one to `y`
        rcases Relation.ReflTransGen.cases_head hxc with rfl | ⟨z, hz, hzc⟩
        · exact hx rfl
        · obtain rfl : z = y := Option.some.inj (hz.symm.trans hxy)
          exact hyc hzc
      rw [if_neg hyc, if_neg hxc]
      exact hlt

/-! ### Paths to the root -/

/-- `l` is the path from `x` to its root, `x` first. -/
def Above (parent : ι → Option ι) : ι → List ι → Prop
  | _, [] => False
  | x, y :: l => y = x ∧
    match parent x with
    | none => l = []
    | some z => Above parent z l

theorem Ranked.exists_above (h : Ranked parent) (x : ι) :
    ∃ l, Above parent x l ∧ l.Nodup ∧ ∀ y, y ∈ l ↔ Relation.ReflTransGen (Up parent) x y := by
  obtain ⟨rank, hrank⟩ := h
  -- by induction on the rank; the ranks above are smaller
  suffices hex : ∀ n x, rank x = n → ∃ l, Above parent x l ∧ l.Nodup ∧
      (∀ y ∈ l, rank y ≤ rank x) ∧ ∀ y, y ∈ l ↔ Relation.ReflTransGen (Up parent) x y by
    obtain ⟨l, h₁, h₂, -, h₄⟩ := hex _ x rfl
    exact ⟨l, h₁, h₂, h₄⟩
  intro n
  induction n using Nat.strongRecOn with
  | _ n ih =>
    intro x hx
    cases hp : parent x with
    | none =>
      refine ⟨[x], ⟨rfl, by rw [hp]⟩, by simp, by simp, fun y => ?_⟩
      rw [mem_singleton]
      constructor
      · rintro rfl
        exact .refl
      · intro hy
        rcases Relation.ReflTransGen.cases_head hy with rfl | ⟨z, hz, -⟩
        · rfl
        · rw [Up, hp] at hz
          cases hz
    | some z =>
      have hlt := hrank x z hp
      obtain ⟨l, h₁, h₂, h₃, h₄⟩ := ih (rank z) (by omega) z rfl
      refine ⟨x :: l, ⟨rfl, by rw [hp]; exact h₁⟩, ?_, ?_, fun y => ?_⟩
      · refine nodup_cons.mpr ⟨fun hmem => ?_, h₂⟩
        have := h₃ x hmem
        omega
      · intro y hy
        rcases mem_cons.mp hy with rfl | hy
        · exact Nat.le_refl _
        · exact Nat.le_trans (h₃ y hy) (Nat.le_of_lt hlt)
      · rw [mem_cons, h₄]
        constructor
        · rintro (rfl | hy)
          · exact .refl
          · exact .head (show Up parent x z from hp) hy
        · intro hy
          rcases Relation.ReflTransGen.cases_head hy with rfl | ⟨w, hw, hwy⟩
          · exact .inl rfl
          · obtain rfl : w = z := Option.some.inj (hw.symm.trans hp)
            exact .inr hwy

end Linked

end AxlSdk
