import Mathlib

/-!
# Sorted half-open intervals with values

A list of elements `p`, each with a value `val p` on `[lo p, hi p)`, over a linear
order. `Canon` is its canonical form: no interval is empty, the intervals follow
each other, and two that touch have different values. A canonical list is
determined by the values it gives (`Canon.ext`).

With one value only this is a set of separated intervals; with sets as values it is
a stack of bands.
-/

namespace AxlSdk

namespace Intervals

open List

variable {α β V : Type*} [LinearOrder α] (lo hi : β → α) (val : β → V)

/-- `a` comes before `b`, and they are not two halves of one interval. -/
def Before (a b : β) : Prop := hi a ≤ lo b ∧ (hi a = lo b → val a ≠ val b)

structure Canon (l : List β) : Prop where
  chain : l.IsChain (Before lo hi val)
  proper : ∀ p ∈ l, lo p < hi p

/-- The list gives `v` at `x`. -/
def Has (l : List β) (x : α) (v : V) : Prop := ∃ p ∈ l, lo p ≤ x ∧ x < hi p ∧ val p = v

variable {lo hi val}

theorem Canon.nil : Canon lo hi val [] := ⟨isChain_nil, by simp⟩

variable {p : β} {l : List β}

theorem Canon.tail (h : Canon lo hi val (p :: l)) : Canon lo hi val l :=
  ⟨h.chain.tail, fun q hq => h.proper q (mem_cons_of_mem _ hq)⟩

/-- The first element lies before all others. -/
theorem Canon.head_le (h : Canon lo hi val (p :: l)) :
    ∀ q ∈ l, hi p ≤ lo q := by
  induction l generalizing p with
  | nil => exact fun q hq => by cases hq
  | cons r l ih =>
    have hpr : hi p ≤ lo r := (isChain_cons_cons.mp h.chain).1.1
    intro q hq
    rcases mem_cons.mp hq with rfl | hq
    · exact hpr
    · have hr := h.proper r (by simp)
      exact le_trans hpr (le_trans hr.le (ih h.tail q hq))

/-- What is given from the end of the first element on. -/
theorem Canon.has_cons (h : Canon lo hi val (p :: l)) (x : α) (v : V) :
    Has lo hi val (p :: l) x v ↔
      (lo p ≤ x ∧ x < hi p ∧ val p = v) ∨ (hi p ≤ x ∧ Has lo hi val l x v) := by
  constructor
  · rintro ⟨q, hq, hq'⟩
    rcases mem_cons.mp hq with rfl | hq
    · exact .inl hq'
    · exact .inr ⟨le_trans (h.head_le q hq) hq'.1, q, hq, hq'⟩
  · rintro (hp | ⟨-, q, hq, hq'⟩)
    · exact ⟨p, mem_cons_self, hp⟩
    · exact ⟨q, mem_cons_of_mem _ hq, hq'⟩

theorem Canon.has_unique (h : Canon lo hi val l) {x : α} {v w : V} (hv : Has lo hi val l x v)
    (hw : Has lo hi val l x w) : v = w := by
  induction l with
  | nil =>
    obtain ⟨p, hp, -⟩ := hv
    cases hp
  | cons p l ih =>
    rw [h.has_cons] at hv hw
    rcases hv with ⟨-, hlt, rfl⟩ | ⟨hle, hv⟩
    · rcases hw with ⟨-, -, rfl⟩ | ⟨hle, -⟩
      · rfl
      · exact absurd hlt (not_lt_of_ge hle)
    · rcases hw with ⟨-, hlt, -⟩ | ⟨-, hw⟩
      · exact absurd hlt (not_lt_of_ge hle)
      · exact ih h.tail hv hw

/-- The first element starts where the list first gives a value. -/
theorem Canon.lo_le (h : Canon lo hi val (p :: l)) {x : α} {v : V} (hx : Has lo hi val (p :: l) x v)
    : lo p ≤ x := by
  rw [h.has_cons] at hx
  rcases hx with ⟨hle, -⟩ | ⟨hle, -⟩
  · exact hle
  · exact le_trans (h.proper p mem_cons_self).le hle

theorem Canon.has_lo (h : Canon lo hi val (p :: l)) :
    Has lo hi val (p :: l) (lo p) (val p) :=
  ⟨p, mem_cons_self, le_refl _, h.proper p mem_cons_self, rfl⟩

/-- The value of the first element ends with it. -/
theorem Canon.not_has_hi (h : Canon lo hi val (p :: l)) :
    ¬ Has lo hi val (p :: l) (hi p) (val p) := by
  rw [h.has_cons]
  rintro (⟨-, hlt, -⟩ | ⟨-, hx⟩)
  · exact lt_irrefl _ hlt
  · cases l with
    | nil =>
      obtain ⟨q, hq, -⟩ := hx
      cases hq
    | cons q l =>
      obtain ⟨hle, hne⟩ := (isChain_cons_cons.mp h.chain).1
      have hlo := h.tail.lo_le hx
      have heq : hi p = lo q := le_antisymm hle hlo
      rw [heq] at hx
      exact hne heq (h.tail.has_unique hx h.tail.has_lo)

theorem Canon.hi_le_of_has {q : β} {l' : List β} (h : Canon lo hi val (p :: l))
    (h' : Canon lo hi val (q :: l'))
    (hsame : ∀ x v, Has lo hi val (p :: l) x v ↔ Has lo hi val (q :: l') x v) (hlo : lo p = lo q)
    (hval : val p = val q) : hi q ≤ hi p := by
  by_contra hlt
  have hlt := lt_of_not_ge hlt
  apply h.not_has_hi
  rw [hsame, h'.has_cons]
  refine .inl ⟨?_, hlt, hval.symm⟩
  rw [← hlo]
  exact (h.proper p mem_cons_self).le

/-- A canonical list is determined by what it gives. -/
theorem Canon.ext (hinj : ∀ p q : β, lo p = lo q → hi p = hi q → val p = val q → p = q)
    {l' : List β} (h : Canon lo hi val l) (h' : Canon lo hi val l')
    (hsame : ∀ x v, Has lo hi val l x v ↔ Has lo hi val l' x v) : l = l' := by
  induction l generalizing l' with
  | nil =>
    cases l' with
    | nil => rfl
    | cons q l' =>
      obtain ⟨p, hp, -⟩ := (hsame _ _).mpr h'.has_lo
      cases hp
  | cons p l ih =>
    cases l' with
    | nil =>
      obtain ⟨q, hq, -⟩ := (hsame _ _).mp h.has_lo
      cases hq
    | cons q l' =>
      have hlo : lo p = lo q :=
        le_antisymm (h.lo_le ((hsame _ _).mpr h'.has_lo)) (h'.lo_le ((hsame _ _).mp h.has_lo))
      have hval : val p = val q := by
        have hp := (hsame _ _).mp h.has_lo
        rw [hlo] at hp
        exact h'.has_unique hp h'.has_lo
      have hhi : hi p = hi q :=
        le_antisymm (h'.hi_le_of_has h (fun x v => (hsame x v).symm) hlo.symm hval.symm)
          (h.hi_le_of_has h' hsame hlo hval)
      obtain rfl : p = q := hinj p q hlo hhi hval
      rw [ih h.tail h'.tail]
      intro x v
      have hx := hsame x v
      rw [h.has_cons, h'.has_cons] at hx
      have hlate : ∀ {k : List β}, Canon lo hi val (p :: k) → Has lo hi val k x v → hi p ≤ x := by
        rintro k hk ⟨r, hr, hle, -⟩
        exact le_trans (hk.head_le r hr) hle
      constructor
      · intro hl
        have hge := hlate h hl
        rcases hx.mp (.inr ⟨hge, hl⟩) with ⟨-, hlt, -⟩ | ⟨-, hl'⟩
        · exact absurd hlt (not_lt_of_ge hge)
        · exact hl'
      · intro hl'
        have hge := hlate h' hl'
        rcases hx.mpr (.inr ⟨hge, hl'⟩) with ⟨-, hlt, -⟩ | ⟨-, hl⟩
        · exact absurd hlt (not_lt_of_ge hge)
        · exact hl

/-- A further element behind all others. -/
theorem Canon.concat {q : β} (h : Canon lo hi val l) (hq : lo q < hi q)
    (hlast : ∀ p, l.getLast? = some p → Before lo hi val p q) : Canon lo hi val (l ++ [q]) := by
  refine ⟨?_, ?_⟩
  · rw [isChain_append]
    refine ⟨h.chain, isChain_singleton q, ?_⟩
    intro p hp r hr
    cases hr
    exact hlast p hp
  · intro p hp
    rcases mem_append.mp hp with hp | hp
    · exact h.proper p hp
    · rw [mem_singleton.mp hp]
      exact hq

end Intervals

end AxlSdk
