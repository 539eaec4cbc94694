import Mathlib

/-!
# UTF-8

Unicode scalar values and their encodings, by arithmetic on code points.

- `encode cp` are the one to four bytes of `cp`. The first byte is ASCII or a
  lead byte, the others are continuation bytes (`Cont`).
- `WellFormed s` says that `s` is a sequence of encodings.
- `Repairs s t`: `t` is `s` with U+FFFD for each byte that starts no encoding.
- `CleanCut s m w`: `w` is the longest prefix of `s` of at most `m` bytes that
  ends inside no encoding.
-/

namespace AxlSdk

namespace Utf8

open List

/-- A Unicode scalar value: no surrogate, at most U+10FFFF. -/
def Scalar (cp : Nat) : Prop := cp < 0xD800 ∨ (0xE000 ≤ cp ∧ cp < 0x110000)

instance (cp : Nat) : Decidable (Scalar cp) := inferInstanceAs (Decidable (_ ∨ _))

/-- A continuation byte. -/
def Cont (b : UInt8) : Prop := 0x80 ≤ b.toNat ∧ b.toNat < 0xC0

instance (b : UInt8) : Decidable (Cont b) := inferInstanceAs (Decidable (_ ∧ _))

/-- The bytes of a code point. -/
def encode (cp : Nat) : List UInt8 :=
  if cp < 0x80 then [UInt8.ofNat cp]
  else if cp < 0x800 then [UInt8.ofNat (0xC0 + cp / 64), UInt8.ofNat (0x80 + cp % 64)]
  else if cp < 0x10000 then
    [UInt8.ofNat (0xE0 + cp / 4096), UInt8.ofNat (0x80 + cp / 64 % 64),
      UInt8.ofNat (0x80 + cp % 64)]
  else
    [UInt8.ofNat (0xF0 + cp / 262144), UInt8.ofNat (0x80 + cp / 4096 % 64),
      UInt8.ofNat (0x80 + cp / 64 % 64), UInt8.ofNat (0x80 + cp % 64)]

theorem toNat_ofNat_of_lt {n : Nat} (h : n < 256) : (UInt8.ofNat n).toNat = n := by
  simp only [UInt8.toNat_ofNat']
  omega

/-- The encoding of a code point above ASCII: a lead byte and continuations. -/
inductive Multi : Nat → List UInt8 → Prop where
  | two {b₀ b₁ : UInt8} (h₀ : 0xC0 ≤ b₀.toNat ∧ b₀.toNat < 0xE0) (h₁ : Cont b₁)
      (hmin : 0x80 ≤ (b₀.toNat - 0xC0) * 64 + (b₁.toNat - 0x80)) :
      Multi ((b₀.toNat - 0xC0) * 64 + (b₁.toNat - 0x80)) [b₀, b₁]
  | three {b₀ b₁ b₂ : UInt8} (h₀ : 0xE0 ≤ b₀.toNat ∧ b₀.toNat < 0xF0) (h₁ : Cont b₁)
      (h₂ : Cont b₂)
      (hmin : 0x800 ≤ (b₀.toNat - 0xE0) * 4096 + (b₁.toNat - 0x80) * 64 + (b₂.toNat - 0x80))
      (hs : Scalar ((b₀.toNat - 0xE0) * 4096 + (b₁.toNat - 0x80) * 64 + (b₂.toNat - 0x80))) :
      Multi ((b₀.toNat - 0xE0) * 4096 + (b₁.toNat - 0x80) * 64 + (b₂.toNat - 0x80)) [b₀, b₁, b₂]
  | four {b₀ b₁ b₂ b₃ : UInt8} (h₀ : 0xF0 ≤ b₀.toNat ∧ b₀.toNat < 0xF8) (h₁ : Cont b₁)
      (h₂ : Cont b₂) (h₃ : Cont b₃)
      (hmin : 0x10000 ≤ (b₀.toNat - 0xF0) * 262144 + (b₁.toNat - 0x80) * 4096 +
        (b₂.toNat - 0x80) * 64 + (b₃.toNat - 0x80))
      (hmax : (b₀.toNat - 0xF0) * 262144 + (b₁.toNat - 0x80) * 4096 +
        (b₂.toNat - 0x80) * 64 + (b₃.toNat - 0x80) < 0x110000) :
      Multi ((b₀.toNat - 0xF0) * 262144 + (b₁.toNat - 0x80) * 4096 +
        (b₂.toNat - 0x80) * 64 + (b₃.toNat - 0x80)) [b₀, b₁, b₂, b₃]

theorem ofNat_eq_of_toNat {n : Nat} {b : UInt8} (h : b.toNat = n) : UInt8.ofNat n = b := by
  subst h
  exact UInt8.ofNat_toNat

variable {cp : Nat} {u : List UInt8}

theorem Multi.encode (h : Multi cp u) :
    u = Utf8.encode cp ∧ Scalar cp ∧ 0x80 ≤ cp := by
  cases h with
  | @two b₀ b₁ h₀ h₁ hmin =>
    obtain ⟨h₁, h₁'⟩ := h₁
    refine ⟨?_, by unfold Scalar; omega, hmin⟩
    rw [Utf8.encode, if_neg (by omega), if_pos (by omega)]
    simp only [List.cons.injEq, and_true]
    exact ⟨(ofNat_eq_of_toNat (by omega)).symm, (ofNat_eq_of_toNat (by omega)).symm⟩
  | @three b₀ b₁ b₂ h₀ h₁ h₂ hmin hs =>
    obtain ⟨h₁, h₁'⟩ := h₁
    obtain ⟨h₂, h₂'⟩ := h₂
    refine ⟨?_, hs, by omega⟩
    rw [Utf8.encode, if_neg (by omega), if_neg (by omega), if_pos (by omega)]
    simp only [List.cons.injEq, and_true]
    exact ⟨(ofNat_eq_of_toNat (by omega)).symm, (ofNat_eq_of_toNat (by omega)).symm,
      (ofNat_eq_of_toNat (by omega)).symm⟩
  | @four b₀ b₁ b₂ b₃ h₀ h₁ h₂ h₃ hmin hmax =>
    obtain ⟨h₁, h₁'⟩ := h₁
    obtain ⟨h₂, h₂'⟩ := h₂
    obtain ⟨h₃, h₃'⟩ := h₃
    refine ⟨?_, by unfold Scalar; omega, by omega⟩
    rw [Utf8.encode, if_neg (by omega), if_neg (by omega), if_neg (by omega)]
    simp only [List.cons.injEq, and_true]
    exact ⟨(ofNat_eq_of_toNat (by omega)).symm, (ofNat_eq_of_toNat (by omega)).symm,
      (ofNat_eq_of_toNat (by omega)).symm, (ofNat_eq_of_toNat (by omega)).symm⟩

theorem encode_multi {cp : Nat} (hs : Scalar cp) (hlo : 0x80 ≤ cp) : Multi cp (encode cp) := by
  unfold Scalar at hs
  rw [encode, if_neg (by omega)]
  have hb : ∀ {n}, n < 256 → (UInt8.ofNat n).toNat = n := toNat_ofNat_of_lt
  split
  · have := @Multi.two (UInt8.ofNat (0xC0 + cp / 64)) (UInt8.ofNat (0x80 + cp % 64))
      (by rw [hb (by omega)]; omega) (by unfold Cont; rw [hb (by omega)]; omega)
    rw [hb (by omega), hb (by omega)] at this
    rw [show (0xC0 + cp / 64 - 0xC0) * 64 + (0x80 + cp % 64 - 0x80) = cp by omega] at this
    exact this hlo
  · split
    · have := @Multi.three (UInt8.ofNat (0xE0 + cp / 4096)) (UInt8.ofNat (0x80 + cp / 64 % 64))
        (UInt8.ofNat (0x80 + cp % 64)) (by rw [hb (by omega)]; omega)
        (by unfold Cont; rw [hb (by omega)]; omega) (by unfold Cont; rw [hb (by omega)]; omega)
      rw [hb (by omega), hb (by omega), hb (by omega)] at this
      rw [show (0xE0 + cp / 4096 - 0xE0) * 4096 + (0x80 + cp / 64 % 64 - 0x80) * 64 +
        (0x80 + cp % 64 - 0x80) = cp by omega] at this
      exact this (by omega) hs
    · have := @Multi.four (UInt8.ofNat (0xF0 + cp / 262144))
        (UInt8.ofNat (0x80 + cp / 4096 % 64)) (UInt8.ofNat (0x80 + cp / 64 % 64))
        (UInt8.ofNat (0x80 + cp % 64)) (by rw [hb (by omega)]; omega)
        (by unfold Cont; rw [hb (by omega)]; omega) (by unfold Cont; rw [hb (by omega)]; omega)
        (by unfold Cont; rw [hb (by omega)]; omega)
      rw [hb (by omega), hb (by omega), hb (by omega), hb (by omega)] at this
      rw [show (0xF0 + cp / 262144 - 0xF0) * 262144 + (0x80 + cp / 4096 % 64 - 0x80) * 4096 +
        (0x80 + cp / 64 % 64 - 0x80) * 64 + (0x80 + cp % 64 - 0x80) = cp by omega] at this
      exact this (by omega) (by omega)

/-- A sequence of encodings. -/
inductive WellFormed : List UInt8 → Prop where
  | nil : WellFormed []
  | ascii {b : UInt8} {s : List UInt8} (hb : b.toNat < 0x80) (hs : WellFormed s) :
      WellFormed (b :: s)
  | multi {cp : Nat} {u s : List UInt8} (hu : Multi cp u) (hs : WellFormed s) :
      WellFormed (u ++ s)

/-! ## The shape of an encoding -/

/-- A lead byte, and continuation bytes as many as it announces. -/
theorem Multi.shape (h : Multi cp u) :
    ∃ b t, u = b :: t ∧ 0xC0 ≤ b.toNat ∧ t ≠ [] ∧ ∀ c ∈ t, Cont c := by
  cases h with
  | two h₀ h₁ => exact ⟨_, _, rfl, h₀.1, by simp, by simpa using h₁⟩
  | three h₀ h₁ h₂ => exact ⟨_, _, rfl, by omega, by simp, by simpa using ⟨h₁, h₂⟩⟩
  | four h₀ h₁ h₂ h₃ => exact ⟨_, _, rfl, by omega, by simp, by simpa using ⟨h₁, h₂, h₃⟩⟩

variable {t t' : List UInt8}

/-- The lead byte decides the length, so an encoding is not a part of another one. -/
theorem Multi.length_eq {cp' : Nat} {b : UInt8} (h : Multi cp (b :: t)) (h' : Multi cp' (b :: t')) :
    t.length = t'.length := by
  cases h <;> cases h' <;> first | rfl | omega

theorem Multi.length_le (h : Multi cp u) : u.length ≤ 4 := by
  cases h <;> simp

variable {r : List UInt8}

theorem Multi.append_inj {cp' : Nat} {u' r' : List UInt8} (h : Multi cp u) (h' : Multi cp' u')
    (he : u ++ r = u' ++ r') : u = u' ∧ r = r' := by
  obtain ⟨b, t, rfl, -, -, -⟩ := h.shape
  obtain ⟨b', t', rfl, -, -, -⟩ := h'.shape
  obtain rfl : b = b' := by simpa using congrArg List.head? he
  exact List.append_inj he (by simp [h.length_eq h'])

/-! ## Replacing what is ill formed -/

/-- `Repairs s t`: every byte of `s` that starts no encoding is U+FFFD in `t`. -/
inductive Repairs : List UInt8 → List UInt8 → Prop where
  | nil : Repairs [] []
  | ascii {b : UInt8} {s t : List UInt8} (hb : b.toNat < 0x80) (hs : Repairs s t) :
      Repairs (b :: s) (b :: t)
  | multi {cp : Nat} {u s t : List UInt8} (hu : Multi cp u) (hs : Repairs s t) :
      Repairs (u ++ s) (u ++ t)
  | bad {b : UInt8} {s t : List UInt8} (hb : 0x80 ≤ b.toNat)
      (hbad : ∀ cp u r, b :: s = u ++ r → ¬ Multi cp u) (hs : Repairs s t) :
      Repairs (b :: s) (encode 0xFFFD ++ t)

variable {s : List UInt8}

theorem Repairs.wellFormed (h : Repairs s t) : WellFormed t := by
  induction h with
  | nil => exact .nil
  | ascii hb _ ih => exact .ascii hb ih
  | multi hu _ ih => exact .multi hu ih
  | bad _ _ _ ih => exact .multi (encode_multi (by decide) (by decide)) ih

/-- What is well formed needs no repair. -/
theorem WellFormed.repairs (h : WellFormed s) : Repairs s s := by
  induction h with
  | nil => exact .nil
  | ascii hb _ ih => exact .ascii hb ih
  | multi hu _ ih => exact .multi hu ih

theorem Repairs.unique (h : Repairs s t) (h' : Repairs s t') : t = t' := by
  induction h generalizing t' with
  | nil =>
    generalize hs : ([] : List UInt8) = s at h'
    cases h' with
    | nil => rfl
    | ascii => cases hs
    | multi hu =>
      obtain ⟨b, t, rfl, -, -, -⟩ := hu.shape
      cases hs
    | bad => cases hs
  | @ascii b s t hb _ ih =>
    generalize hs : b :: s = w at h'
    cases h' with
    | nil => cases hs
    | ascii _ h' =>
      cases hs
      rw [ih h']
    | multi hu =>
      obtain ⟨b', t, rfl, hlead, -, -⟩ := hu.shape
      cases hs
      omega
    | bad hb' =>
      cases hs
      omega
  | @multi cp u s t hu _ ih =>
    generalize hs : u ++ s = w at h'
    cases h' with
    | nil =>
      obtain ⟨b, t, rfl, -, -, -⟩ := hu.shape
      cases hs
    | ascii hb' =>
      obtain ⟨b', t, rfl, hlead, -, -⟩ := hu.shape
      cases hs
      omega
    | multi hu' h' =>
      obtain ⟨rfl, rfl⟩ := hu.append_inj hu' hs
      rw [ih h']
    | bad _ hbad => exact absurd hu (hbad _ _ _ hs.symm)
  | @bad b s t hb hbad _ ih =>
    generalize hs : b :: s = w at h'
    cases h' with
    | nil => cases hs
    | ascii hb' =>
      cases hs
      omega
    | multi hu => exact absurd hu (hbad _ _ _ hs)
    | bad _ _ h' =>
      cases hs
      rw [ih h']

/-- Repair grows a byte string, by two for each byte it replaces. -/
theorem Repairs.length_le (h : Repairs s t) : s.length ≤ t.length := by
  induction h with
  | nil => exact Nat.le_refl _
  | ascii _ _ ih => simpa using ih
  | multi _ _ ih => simpa using ih
  | bad _ _ _ ih =>
    have : (encode 0xFFFD).length = 3 := by decide
    simp only [length_cons, length_append]
    omega

/-- What repair leaves starts with no continuation byte. -/
theorem Repairs.head (h : Repairs s t) :
    t = [] ∨ ∃ b r, t = b :: r ∧ ¬ Cont b := by
  have hlead : ∀ {b : UInt8}, 0xC0 ≤ b.toNat → ¬ Cont b := fun hb hc => by
    have := hc.2
    omega
  cases h with
  | nil => exact .inl rfl
  | ascii hb =>
    refine .inr ⟨_, _, rfl, fun hc => ?_⟩
    have := hc.1
    omega
  | multi hu =>
    obtain ⟨b, v, rfl, hb, -, -⟩ := hu.shape
    exact .inr ⟨b, _, rfl, hlead hb⟩
  | bad =>
    obtain ⟨b, v, he, hb, -, -⟩ := (@encode_multi 0xFFFD (by decide) (by decide)).shape
    rw [he]
    exact .inr ⟨b, _, rfl, hlead hb⟩

theorem Repairs.of_length_eq (h : Repairs s t) (hlen : s.length = t.length) :
    s = t := by
  induction h with
  | nil => rfl
  | ascii _ _ ih => rw [ih (by simpa using hlen)]
  | multi _ _ ih => rw [ih (by simpa using hlen)]
  | bad _ _ hs =>
    have := hs.length_le
    have : (encode 0xFFFD).length = 3 := by decide
    simp only [length_cons, length_append] at hlen
    omega

/-- Repair of an ill-formed string grows it by two bytes or more. -/
theorem Repairs.grows (h : Repairs s t) (hbad : ¬ WellFormed s) :
    s.length + 2 ≤ t.length := by
  induction h with
  | nil => exact absurd .nil hbad
  | ascii hb _ ih =>
    have := ih fun hwf => hbad (.ascii hb hwf)
    simp only [length_cons]
    omega
  | multi hu _ ih =>
    have := ih fun hwf => hbad (.multi hu hwf)
    simp only [length_append]
    omega
  | bad _ _ hs =>
    have := hs.length_le
    have : (encode 0xFFFD).length = 3 := by decide
    simp only [length_cons, length_append]
    omega

/-- Continuation bytes that follow no lead are all replaced. -/
theorem Repairs.conts {v : List UInt8} (hv : ∀ b ∈ v, Cont b) (h : Repairs s t) :
    ∃ r, Repairs (v ++ s) r ∧ r.length = 3 * v.length + t.length := by
  induction v with
  | nil => exact ⟨t, h, by simp⟩
  | cons b v ih =>
    obtain ⟨r, hr, hlen⟩ := ih fun c hc => hv c (mem_cons_of_mem b hc)
    have hb := hv b mem_cons_self
    refine ⟨encode 0xFFFD ++ r, .bad hb.1 (fun cp u x he hu => ?_) hr, ?_⟩
    · obtain ⟨c, y, rfl, hc, -, -⟩ := hu.shape
      obtain ⟨rfl, -⟩ := List.cons.inj he
      have := hb.2
      omega
    · have : (encode 0xFFFD).length = 3 := by decide
      rw [length_append, length_cons]
      omega

/-- A byte in front adds no more than a replacement. -/
theorem Repairs.cons_le {b : UInt8} (h : Repairs (b :: s) t) (h' : Repairs s t') :
    t.length ≤ t'.length + 3 := by
  generalize hs : b :: s = w at h
  cases h with
  | nil => cases hs
  | ascii _ h =>
    cases hs
    rw [h.unique h', length_cons]
    omega
  | @multi cp u s₀ t₀ hu h =>
    -- without its lead byte the encoding falls to pieces
    obtain ⟨c, v, rfl, -, -, hv⟩ := hu.shape
    obtain ⟨rfl, rfl⟩ := List.cons.inj hs
    obtain ⟨r, hr, hlen⟩ := h.conts hv
    rw [h'.unique hr, hlen, length_append, length_cons]
    omega
  | bad _ _ h =>
    cases hs
    have : (encode 0xFFFD).length = 3 := by decide
    rw [h.unique h', length_append]
    omega

/-! ## Cutting a byte string -/

/-- The first `k` bytes of `s` end inside an encoding of `s`. -/
def Cuts (s : List UInt8) (k : Nat) : Prop :=
  ∃ cp x u y, s = x ++ u ++ y ∧ Multi cp u ∧ x.length < k ∧ k < x.length + u.length

theorem Cuts.cont {k : Nat} (h : Cuts s k) : ∃ b, s[k]? = some b ∧ Cont b := by
  obtain ⟨cp, x, u, y, rfl, hu, hlo, hhi⟩ := h
  obtain ⟨b, t, rfl, -, -, ht⟩ := hu.shape
  rw [length_cons] at hhi
  obtain ⟨i, rfl⟩ : ∃ i, k = x.length + (i + 1) := ⟨k - x.length - 1, by omega⟩
  have hi : i < t.length := by omega
  refine ⟨t[i], ?_, ht _ (getElem_mem hi)⟩
  rw [append_assoc, getElem?_append_right (by omega), Nat.add_sub_cancel_left,
    List.cons_append, getElem?_cons_succ, getElem?_append_left hi,
    getElem?_eq_getElem hi]

theorem not_cuts_of_head {w r : List UInt8} {b : UInt8} (hb : ¬ Cont b) :
    ¬ Cuts (w ++ b :: r) w.length := by
  intro h
  obtain ⟨c, hc, hcont⟩ := h.cont
  rw [getElem?_append_right (Nat.le_refl _), Nat.sub_self, getElem?_cons_zero] at hc
  cases hc
  exact hb hcont

theorem not_cuts_length (s : List UInt8) : ¬ Cuts s s.length := by
  intro h
  obtain ⟨b, hb, -⟩ := h.cont
  simp at hb

theorem Cuts.cons_append {a s : List UInt8} {k : Nat} (h : Cuts s k) :
    Cuts (a ++ s) (a.length + k) := by
  obtain ⟨cp, x, u, y, rfl, hu, hlo, hhi⟩ := h
  refine ⟨cp, a ++ x, u, y, by simp only [append_assoc], hu, ?_, ?_⟩
  · rw [length_append]
    omega
  · rw [length_append]
    omega

/-- Repair works on the two sides of a cut that splits no encoding. -/
theorem Repairs.append {a b r' : List UInt8} (ha : Repairs a r) (hb : Repairs b r')
    (h : ¬ Cuts (a ++ b) a.length) : Repairs (a ++ b) (r ++ r') := by
  induction ha with
  | nil => exact hb
  | @ascii c s t hc _ ih =>
    refine .ascii hc (ih fun hcut => h ?_)
    have := @Cuts.cons_append [c] _ _ hcut
    rwa [length_singleton, Nat.add_comm] at this
  | @multi cp u s t hu _ ih =>
    rw [append_assoc, append_assoc]
    refine .multi hu (ih fun hcut => h ?_)
    rw [append_assoc, length_append]
    exact hcut.cons_append
  | @bad c s t hc hbad _ ih =>
    rw [append_assoc]
    refine .bad hc (fun cp u v he hu => ?_) (ih fun hcut => h ?_)
    · by_cases hlen : u.length ≤ (c :: s).length
      · -- an encoding at the front of `a`
        have he : (c :: s) ++ b = u ++ v := he
        obtain ⟨v', hv⟩ := prefix_of_prefix_length_le (prefix_append u v)
          (he ▸ prefix_append (c :: s) b) hlen
        exact hbad cp u v' hv.symm hu
      · exact h ⟨cp, [], u, v, he, hu, by simp, by simpa using hlen⟩
    · have := @Cuts.cons_append [c] _ _ hcut
      rwa [length_singleton, Nat.add_comm] at this

/-- The longest prefix of at most `m` bytes that ends inside no encoding. -/
structure CleanCut (s : List UInt8) (m : Nat) (w : List UInt8) : Prop where
  front : w <+: s
  short : w.length ≤ m
  whole : ¬ Cuts s w.length
  longest : ∀ k ≤ m, k ≤ s.length → ¬ Cuts s k → k ≤ w.length

theorem CleanCut.unique {w w' : List UInt8} {m : Nat} (h : CleanCut s m w) (h' : CleanCut s m w') :
    w = w' := by
  have hle := h.longest _ h'.short h'.front.length_le h'.whole
  have hge := h'.longest _ h.short h.front.length_le h.whole
  obtain ⟨r, hr⟩ := h.front
  obtain ⟨r', hr'⟩ := h'.front
  exact (List.append_inj (hr.trans hr'.symm) (by omega)).1

theorem cleanCut_all {m : Nat} (h : s.length ≤ m) : CleanCut s m s :=
  ⟨prefix_refl s, h, not_cuts_length s, fun _ _ hk _ => hk⟩

theorem cleanCut_at {w : List UInt8} {m : Nat} (hw : w.length = m) (h : ¬ Cuts (w ++ r) w.length) :
    CleanCut (w ++ r) m w :=
  ⟨prefix_append w r, hw.le, h, fun _ hk _ _ => hw ▸ hk⟩

/-- The bound falls inside the encoding behind `w`. -/
theorem cleanCut_before {m : Nat} {w : List UInt8} (hu : Multi cp u) (hw : w.length ≤ m)
    (hm : m < w.length + u.length) : CleanCut (w ++ u ++ r) m w := by
  obtain ⟨b, t, hbt, hb, -, -⟩ := hu.shape
  refine ⟨⟨u ++ r, by rw [append_assoc]⟩, hw, ?_, fun k hk _ hcut => ?_⟩
  · rw [hbt, append_assoc, List.cons_append]
    refine not_cuts_of_head fun hc => ?_
    have := hc.2
    omega
  · by_contra hlt
    exact hcut ⟨cp, w, u, r, rfl, hu, by omega, by omega⟩

end Utf8

end AxlSdk
