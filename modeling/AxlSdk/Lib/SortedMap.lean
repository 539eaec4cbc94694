import Mathlib

/-!
# Finite maps as sorted lists

A map over keys that a comparator `cmp` orders is the list of its entries in
ascending order. `put` and `del` change it; the `_append_cons` lemmas say what
they do to a list that a search tree has split at one of its entries.
-/

namespace AxlSdk

namespace SortedMap

open List

variable {K V : Type}

/-- A comparator of a total preorder, by the signs of its results. -/
structure IsOrder (cmp : K → K → Int) : Prop where
  swap : ∀ a b, cmp a b < 0 ↔ 0 < cmp b a
  trans : ∀ a b c, cmp a b ≤ 0 → cmp b c ≤ 0 → cmp a c ≤ 0

variable {cmp : K → K → Int}

theorem IsOrder.self (h : IsOrder cmp) (a : K) : cmp a a = 0 := by
  have := h.swap a a
  omega

theorem IsOrder.le_swap (h : IsOrder cmp) {a b : K} : cmp a b ≤ 0 ↔ 0 ≤ cmp b a := by
  have h₁ := h.swap a b
  have h₂ := h.swap b a
  omega

theorem IsOrder.lt_of_lt_of_le (h : IsOrder cmp) {a b c : K} (hab : cmp a b < 0)
    (hbc : cmp b c ≤ 0) : cmp a c < 0 := by
  by_contra hge
  have hca : cmp c a ≤ 0 := h.le_swap.mpr (by omega)
  have hba := h.trans b c a hbc hca
  have := h.swap a b
  omega

theorem IsOrder.lt_of_le_of_lt (h : IsOrder cmp) {a b c : K} (hab : cmp a b ≤ 0)
    (hbc : cmp b c < 0) : cmp a c < 0 := by
  by_contra hge
  have hca : cmp c a ≤ 0 := h.le_swap.mpr (by omega)
  have hcb := h.trans c a b hca hab
  have := h.swap b c
  omega

/-- The entries ascend and no two of them have equal keys. -/
def Sorted (cmp : K → K → Int) (l : List (K × V)) : Prop :=
  l.Pairwise fun a b => cmp a.1 b.1 < 0

theorem sorted_append_cons {l r : List (K × V)} {e : K × V} :
    Sorted cmp (l ++ e :: r) ↔ Sorted cmp l ∧ Sorted cmp r ∧ (∀ a ∈ l, cmp a.1 e.1 < 0) ∧
      (∀ b ∈ r, cmp e.1 b.1 < 0) ∧ ∀ a ∈ l, ∀ b ∈ r, cmp a.1 b.1 < 0 := by
  simp only [Sorted, pairwise_append, pairwise_cons, mem_cons, forall_eq_or_imp]
  constructor
  · rintro ⟨hl, ⟨her, hr⟩, hcross⟩
    exact ⟨hl, hr, fun a ha => (hcross a ha).1, her, fun a ha => (hcross a ha).2⟩
  · rintro ⟨hl, hr, hle, her, hcross⟩
    exact ⟨hl, ⟨her, hr⟩, fun a ha => ⟨hle a ha, hcross a ha⟩⟩

/-! ## Changing an entry -/

/-- The entry of `key` gets the value `value`, and the key itself when `replace`
says so; without such an entry a new one comes in. -/
def put (cmp : K → K → Int) (replace : Bool) (key : K) (value : V) : List (K × V) → List (K × V)
  | [] => [(key, value)]
  | (k, v) :: rest =>
    if cmp key k < 0 then (key, value) :: (k, v) :: rest
    else if cmp key k > 0 then (k, v) :: put cmp replace key value rest
    else (if replace then key else k, value) :: rest

/-- The entry of `key` leaves. -/
def del (cmp : K → K → Int) (key : K) (l : List (K × V)) : List (K × V) :=
  l.filter fun e => cmp key e.1 ≠ 0

variable {replace : Bool} {key : K} {value : V} {l r : List (K × V)} {e : K × V}

theorem put_append_cons_lt (h : cmp key e.1 < 0) :
    put cmp replace key value (l ++ e :: r) = put cmp replace key value l ++ e :: r := by
  induction l with
  | nil => simp [put, h]
  | cons a l ih =>
    rw [cons_append, put, put, ih]
    split
    · rfl
    · split <;> rfl

theorem put_append_of_gt (h : ∀ a ∈ l, 0 < cmp key a.1) :
    put cmp replace key value (l ++ r) = l ++ put cmp replace key value r := by
  induction l with
  | nil => rfl
  | cons a l ih =>
    have ha := h a (by simp)
    rw [cons_append, put, if_neg (by omega), if_pos ha, ih fun b hb => h b (by simp [hb]),
      cons_append]

theorem put_append_cons_gt (hl : ∀ a ∈ l, 0 < cmp key a.1) (h : 0 < cmp key e.1) :
    put cmp replace key value (l ++ e :: r) = l ++ e :: put cmp replace key value r := by
  rw [put_append_of_gt hl, put, if_neg (by omega), if_pos h]

theorem put_append_cons_eq (hl : ∀ a ∈ l, 0 < cmp key a.1) (h : cmp key e.1 = 0) :
    put cmp replace key value (l ++ e :: r)
      = l ++ (if replace then key else e.1, value) :: r := by
  rw [put_append_of_gt hl, put, if_neg (by omega), if_neg (by omega)]

theorem mem_put {x : K × V} (hx : x ∈ put cmp replace key value l) :
    x ∈ l ∨ cmp key x.1 = 0 ∨ x.1 = key := by
  induction l with
  | nil =>
    rw [put, mem_singleton] at hx
    exact .inr (.inr (by rw [hx]))
  | cons a l ih =>
    rw [put] at hx
    split at hx
    · rcases mem_cons.mp hx with rfl | hx
      · exact .inr (.inr rfl)
      · exact .inl hx
    · split at hx
      · rcases mem_cons.mp hx with rfl | hx
        · exact .inl (by simp)
        · rcases ih hx with hx | hx
          · exact .inl (by simp [hx])
          · exact .inr hx
      · rename_i h₁ h₂
        rcases mem_cons.mp hx with rfl | hx
        · cases replace with
          | true => exact .inr (.inr rfl)
          | false => exact .inr (.inl (by show cmp key a.1 = 0; omega))
        · exact .inl (by simp [hx])

theorem Sorted.put (ho : IsOrder cmp) (h : Sorted cmp l) :
    Sorted cmp (put cmp replace key value l) := by
  induction l with
  | nil => exact pairwise_singleton _ _
  | cons a l ih =>
    obtain ⟨ha, hl⟩ := pairwise_cons.mp h
    rw [SortedMap.put]
    split
    · rename_i hlt
      refine pairwise_cons.mpr ⟨fun b hb => ?_, h⟩
      rcases mem_cons.mp hb with rfl | hb
      · exact hlt
      · exact ho.lt_of_lt_of_le hlt (Int.le_of_lt (ha b hb))
    · split
      · rename_i hgt
        refine pairwise_cons.mpr ⟨fun b hb => ?_, ih hl⟩
        have hakey : cmp a.1 key < 0 := (ho.swap _ _).mpr hgt
        rcases mem_put hb with hb | hb | hb
        · exact ha b hb
        · exact ho.lt_of_lt_of_le hakey (by omega)
        · rw [hb]
          exact hakey
      · rename_i h₁ h₂
        refine pairwise_cons.mpr ⟨fun b hb => ?_, hl⟩
        cases replace with
        | false => exact ha b hb
        | true => exact ho.lt_of_le_of_lt (show cmp key a.1 ≤ 0 by omega) (ha b hb)

theorem Sorted.del (h : Sorted cmp l) : Sorted cmp (del cmp key l) := h.filter _

/-- Entries that all compare greater or all smaller than the key stay. -/
theorem del_eq_self (h : ∀ a ∈ l, cmp key a.1 ≠ 0) : del cmp key l = l := by
  rw [del, filter_eq_self]
  intro a ha
  simpa using h a ha

theorem del_append_cons : del cmp key (l ++ e :: r)
    = del cmp key l ++ (if cmp key e.1 = 0 then del cmp key r else e :: del cmp key r) := by
  rw [del, filter_append, filter_cons]
  by_cases h : cmp key e.1 = 0
  · simp [h, del]
  · simp [h, del]

end SortedMap

end AxlSdk
