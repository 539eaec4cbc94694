import AxlSdk.Lib.EditHistory

/-!
# Replacing many ranges, at once and one by one

A `Patch` takes a range of a sequence out and puts a text in where the range
starts. `replaceAll ps D` applies all patches of `ps` *at once*: their offsets
all speak about `D`, the elements that no patch deletes stay in order, and every
text stands at its own offset. `applyAll` applies them *one by one*, each to what
the ones before it left behind.

Applied from the highest offset down the two agree as long as no patch deletes
at a place where an earlier one has put its text (`Settled`): `applyAll_settled`.
This is also necessary: a text that is hit is not all there in the end, which
shows as soon as texts and sequence have no letter in common (`applyAll_loses`).
-/

namespace AxlSdk

namespace Replacement

open EditHistory List

variable {α : Type}

/-- Take `del` elements out at `offset`, and put `text` in there. -/
structure Patch (α : Type) where
  offset : Nat
  del : Nat
  text : List α

namespace Patch

/-- The effect of one patch on its own. -/
def apply (p : Patch α) (D : List α) : List α := splice (cut D p.offset p.del) p.offset p.text

theorem apply_append (p : Patch α) {A : List α} (hA : A.length = p.offset) (X : List α) :
    p.apply (A ++ X) = A ++ (p.text ++ X.drop p.del) := by
  have hcut : cut (A ++ X) p.offset p.del = A ++ X.drop p.del := by
    rw [cut, ← hA, take_left, ← drop_drop, drop_left]
  rw [apply, hcut, ← hA, splice_append]

/-- The position lies in the range that the patch takes out. -/
def Deletes (p : Patch α) (i : Nat) : Prop := p.offset ≤ i ∧ i < p.offset + p.del

instance (p : Patch α) (i : Nat) : Decidable (p.Deletes i) :=
  inferInstanceAs (Decidable (_ ∧ _))

/-- `p` deletes at the place where `q` puts its text. -/
def Hits (p q : Patch α) : Prop := q.text ≠ [] ∧ p.Deletes q.offset

instance (p q : Patch α) : Decidable (p.Hits q) :=
  decidable_of_iff (q.text.length ≠ 0 ∧ p.Deletes q.offset) (by simp [Hits])

end Patch

/-! ## All at once -/

/-- The sequence from position `i` on, with a text put in before each position
and the elements at the positions that are `gone` left out. -/
def weave (text : Nat → List α) (gone : Nat → Bool) : Nat → List α → List α
  | i, [] => text i
  | i, b :: bs => text i ++ ((if gone i then [] else [b]) ++ weave text gone (i + 1) bs)

/-- The texts at position `i`, in the order of the list. -/
def textAt (ps : List (Patch α)) (i : Nat) : List α :=
  ps.flatMap fun p => if p.offset = i then p.text else []

/-- Some patch takes position `i` out. -/
def gone (ps : List (Patch α)) (i : Nat) : Bool := ps.any fun p => decide (p.Deletes i)

/-- The part of the simultaneous replacement from position `i` on. -/
def replaceFrom (ps : List (Patch α)) (i : Nat) (D : List α) : List α :=
  weave (textAt ps) (gone ps) i D

/-- All patches at once. -/
def replaceAll (ps : List (Patch α)) (D : List α) : List α := replaceFrom ps 0 D

/-- `D'` is `D` with all patches applied at once. Which of several texts at one
offset comes first is left open. -/
def Replaced (ps : List (Patch α)) (D D' : List α) : Prop :=
  ∃ qs, qs.Perm ps ∧ D' = replaceAll qs D

/-- One by one, each on the result of the ones before it. -/
def applyAll (ps : List (Patch α)) (D : List α) : List α := ps.foldl (fun D p => p.apply D) D

theorem textAt_cons (p : Patch α) (ps : List (Patch α)) (i : Nat) :
    textAt (p :: ps) i = (if p.offset = i then p.text else []) ++ textAt ps i := rfl

theorem gone_cons (p : Patch α) (ps : List (Patch α)) (i : Nat) :
    gone (p :: ps) i = (decide (p.Deletes i) || gone ps i) := rfl

variable {ps : List (Patch α)} {i : Nat}

theorem gone_iff : gone ps i = true ↔ ∃ p ∈ ps, p.Deletes i := by
  simp [gone]

theorem textAt_eq_nil (h : ∀ p ∈ ps, p.offset = i → p.text = []) : textAt ps i = [] := by
  rw [textAt, flatMap_eq_nil_iff]
  intro p hp
  split
  case isTrue hi => exact h p hp hi
  case isFalse => rfl

variable {p : Patch α}

theorem text_eq_nil (h : textAt ps i = []) (hp : p ∈ ps) (hi : p.offset = i) : p.text = [] := by
  have := flatMap_eq_nil_iff.mp h p hp
  rwa [if_pos hi] at this

/-! ## Stretches of a weave -/

theorem weave_congr {text text' : Nat → List α} {gone gone' : Nat → Bool}
    (ht : ∀ j, i ≤ j → text j = text' j) (hg : ∀ j, i ≤ j → gone j = gone' j) (D : List α) :
    weave text gone i D = weave text' gone' i D := by
  induction D generalizing i with
  | nil => exact ht i (Nat.le_refl i)
  | cons b D ih =>
    rw [weave, weave, ht i (Nat.le_refl i), hg i (Nat.le_refl i),
      ih (fun j hj => ht j (by omega)) fun j hj => hg j (by omega)]

/-- Over positions with neither text nor deletion a weave copies. -/
theorem weave_copy (text : Nat → List α) (gone : Nat → Bool) (i : Nat) (A B : List α)
    (ht : ∀ j, i ≤ j → j < i + A.length → text j = [])
    (hg : ∀ j, i ≤ j → j < i + A.length → gone j = false) :
    weave text gone i (A ++ B) = A ++ weave text gone (i + A.length) B := by
  induction A generalizing i with
  | nil => rfl
  | cons a A ih =>
    have h := ih (i := i + 1) (fun j hj hlt => ht j (by omega) (by simp; omega))
      fun j hj hlt => hg j (by omega) (by simp; omega)
    rw [cons_append, weave, ht i (Nat.le_refl i) (by simp), hg i (Nat.le_refl i) (by simp), h,
      length_cons, Nat.add_right_comm, Nat.add_assoc]
    rfl

/-- Over positions that are gone and have no text a weave puts nothing out. -/
theorem weave_skip (text : Nat → List α) (gone : Nat → Bool) (i : Nat) (A B : List α)
    (ht : ∀ j, i ≤ j → j < i + A.length → text j = [])
    (hg : ∀ j, i ≤ j → j < i + A.length → gone j = true) :
    weave text gone i (A ++ B) = weave text gone (i + A.length) B := by
  induction A generalizing i with
  | nil => rfl
  | cons a A ih =>
    have h := ih (i := i + 1) (fun j hj hlt => ht j (by omega) (by simp; omega))
      fun j hj hlt => hg j (by omega) (by simp; omega)
    rw [cons_append, weave, ht i (Nat.le_refl i) (by simp), hg i (Nat.le_refl i) (by simp), h,
      length_cons, Nat.add_right_comm, Nat.add_assoc]
    rfl

/-- A text put in front of the first position goes in front of the weave. -/
theorem weave_text {text text' : Nat → List α} {gone : Nat → Bool} {xs : List α}
    (hi : text' i = xs ++ text i) (ht : ∀ j, i < j → text' j = text j) (D : List α) :
    weave text' gone i D = xs ++ weave text gone i D := by
  cases D with
  | nil => exact hi
  | cons b D =>
    rw [weave, weave, hi, weave_congr (fun j hj => ht j (by omega)) (fun _ _ => rfl),
      append_assoc]

theorem replaceAll_nil (D : List α) : replaceAll [] D = D := by
  have hw := weave_copy (textAt ([] : List (Patch α))) (gone ([] : List (Patch α))) 0 D []
    (fun _ _ _ => rfl) fun _ _ _ => rfl
  rw [append_nil] at hw
  exact hw.trans (append_nil D)

/-! ## One patch more -/

/-- What a list of patches for `D` has to satisfy before `p` is applied on top:
the patches reach no further down than `p`, delete nothing that `p` deletes, and
put their texts inside `D`. -/
structure Above (p : Patch α) (qs : List (Patch α)) (D : List α) : Prop where
  offset : ∀ q ∈ qs, p.offset ≤ q.offset
  apart : ∀ q ∈ qs, ∀ i, p.Deletes i → ¬ q.Deletes i
  inside : ∀ q ∈ qs, q.text ≠ [] → q.offset ≤ D.length

variable {qs : List (Patch α)} {D : List α}

theorem Above.textAt_below (h : Above p qs D) (hi : i < p.offset) : textAt qs i = [] := by
  refine textAt_eq_nil fun q hq he => ?_
  have := h.offset q hq
  omega

theorem Above.gone_below (h : Above p qs D) (hi : i < p.offset) : gone qs i = false := by
  rw [← Bool.not_eq_true, gone_iff]
  rintro ⟨q, hq, hd, -⟩
  have := h.offset q hq
  omega

theorem Above.gone_apart (h : Above p qs D) (hi : p.Deletes i) : gone qs i = false := by
  rw [← Bool.not_eq_true, gone_iff]
  rintro ⟨q, hq, hd⟩
  exact h.apart q hq i hi hd

/-- Below the offset of `p` nothing is changed. -/
theorem Above.replaceAll_eq (h : Above p qs D) (ho : p.offset ≤ D.length) :
    replaceAll qs D = D.take p.offset ++ replaceFrom qs p.offset (D.drop p.offset) := by
  have hlen : (D.take p.offset).length = p.offset := length_take_of_le ho
  have hw := weave_copy (textAt qs) (gone qs) 0 (D.take p.offset)
    (D.drop p.offset) (fun j _ hj => h.textAt_below (by omega))
    fun j _ hj => h.gone_below (by omega)
  rw [take_append_drop, hlen, Nat.zero_add] at hw
  exact hw

/-- Past the end of the sequence nothing has happened yet. -/
theorem Above.replaceAll_past (h : Above p qs D) (ho : D.length < p.offset) :
    replaceAll qs D = D := by
  have hw := weave_copy (textAt qs) (gone qs) 0 D []
    (fun j _ hj => h.textAt_below (by omega)) fun j _ hj => h.gone_below (by omega)
  rw [append_nil, Nat.zero_add] at hw
  refine hw.trans ?_
  rw [weave, textAt_eq_nil, append_nil]
  intro q hq hi
  have := h.offset q hq
  omega

/-- No patch of the list is hit: neither text nor deletion in the range of `p`. -/
theorem Above.textAt_range (hhit : ∀ q ∈ qs, ¬ p.Hits q) (hi : p.Deletes i) : textAt qs i = [] := by
  refine textAt_eq_nil fun q hq he => ?_
  by_contra hne
  exact hhit q hq ⟨hne, he ▸ hi⟩

/-- One patch more, seen from its offset. -/
theorem Above.replaceFrom_cons (h : Above p qs D) (hhit : ∀ q ∈ qs, ¬ p.Hits q) (B : List α) :
    replaceFrom (p :: qs) p.offset B
      = p.text ++ (replaceFrom qs p.offset B).drop p.del := by
  have htext : replaceFrom (p :: qs) p.offset B
      = p.text ++ weave (textAt qs) (gone (p :: qs)) p.offset B := by
    refine weave_text ?_ (fun j hj => ?_) B
    · rw [textAt_cons, if_pos rfl]
    · rw [textAt_cons, if_neg (by omega), nil_append]
  have hlen := length_take_le p.del B
  have hrange : ∀ j, p.offset ≤ j → j < p.offset + (B.take p.del).length → p.Deletes j :=
    fun j hj hlt => ⟨hj, by omega⟩
  have hskip := weave_skip (textAt qs) (gone (p :: qs)) p.offset
    (B.take p.del) (B.drop p.del)
    (fun j hj hlt => Above.textAt_range hhit (hrange j hj hlt))
    fun j hj hlt => gone_iff.mpr ⟨p, by simp, hrange j hj hlt⟩
  have hcopy := weave_copy (textAt qs) (gone qs) p.offset
    (B.take p.del) (B.drop p.del)
    (fun j hj hlt => Above.textAt_range hhit (hrange j hj hlt))
    fun j hj hlt => h.gone_apart (hrange j hj hlt)
  rw [take_append_drop] at hskip hcopy
  rw [htext, hskip, replaceFrom, hcopy]
  congr 1
  rcases Nat.lt_or_ge B.length p.del with hlt | hge
  · -- the sequence ends inside the range of `p`
    have hend : p.Deletes (p.offset + (B.take p.del).length) :=
      ⟨by omega, by rw [length_take]; omega⟩
    rw [drop_of_length_le (Nat.le_of_lt hlt), weave, weave,
      Above.textAt_range hhit hend, append_nil, drop_of_length_le hlen]
  · have hfull : (B.take p.del).length = p.del := length_take_of_le hge
    rw [hfull, drop_append_of_le_length (Nat.le_of_eq hfull.symm),
      drop_of_length_le (Nat.le_of_eq hfull), nil_append]
    refine weave_congr (fun _ _ => rfl) (fun j hj => ?_) _
    have hpast : ¬ p.Deletes j := fun hd => by have := hd.2; omega
    rw [gone_cons, decide_eq_false hpast, Bool.false_or]

/-- **One patch more**: applied on top of patches that reach no further down and
that it does not hit, it joins the simultaneous replacement. -/
theorem Above.step (h : Above p qs D) (hin : p.text ≠ [] → p.offset ≤ D.length)
    (hhit : ∀ q ∈ qs, ¬ p.Hits q) :
    p.apply (replaceAll qs D) = replaceAll (p :: qs) D := by
  have htext : ∀ j, j < p.offset → textAt (p :: qs) j = [] := by
    intro j hj
    rw [textAt_cons, if_neg (by omega), h.textAt_below hj, nil_append]
  have hgone : ∀ j, j < p.offset → gone (p :: qs) j = false := by
    intro j hj
    have hnot : ¬ p.Deletes j := fun hd => by have := hd.1; omega
    rw [gone_cons, decide_eq_false hnot, h.gone_below hj, Bool.false_or]
  rcases Nat.lt_or_ge D.length p.offset with hpast | ho
  · have hnil : p.text = [] := by
      by_contra hne
      have := hin hne
      omega
    have hw := weave_copy (textAt (p :: qs)) (gone (p :: qs)) 0 D []
      (fun j _ hj => htext j (by omega)) fun j _ hj => hgone j (by omega)
    rw [append_nil, Nat.zero_add, weave, htext _ hpast, append_nil] at hw
    rw [h.replaceAll_past hpast, Patch.apply, hnil, cut, drop_of_length_le (by omega),
      append_nil, take_of_length_le (by omega), splice_of_length_le (by omega),
      append_nil]
    exact hw.symm
  · have hlen : (D.take p.offset).length = p.offset := length_take_of_le ho
    have hw := weave_copy (textAt (p :: qs)) (gone (p :: qs)) 0
      (D.take p.offset) (D.drop p.offset) (fun j _ hj => htext j (by omega))
      fun j _ hj => hgone j (by omega)
    rw [take_append_drop, hlen, Nat.zero_add] at hw
    calc p.apply (replaceAll qs D)
        = p.apply (D.take p.offset ++ replaceFrom qs p.offset (D.drop p.offset)) := by
          rw [h.replaceAll_eq ho]
      _ = D.take p.offset
            ++ (p.text ++ (replaceFrom qs p.offset (D.drop p.offset)).drop p.del) :=
          p.apply_append hlen _
      _ = D.take p.offset ++ replaceFrom (p :: qs) p.offset (D.drop p.offset) := by
          rw [h.replaceFrom_cons hhit]
      _ = replaceAll (p :: qs) D := hw.symm

/-- What is applied above `p` does not decide whether `p` finds something to
delete. -/
theorem Above.length_le_iff (h : Above p qs D) (hhit : ∀ q ∈ qs, ¬ p.Hits q) (hdel : 0 < p.del) :
    (replaceAll qs D).length ≤ p.offset ↔ D.length ≤ p.offset := by
  have hat : p.Deletes p.offset := ⟨Nat.le_refl _, by omega⟩
  rcases Nat.lt_or_ge D.length p.offset with hpast | ho
  · rw [h.replaceAll_past hpast]
  · rw [h.replaceAll_eq ho, length_append, length_take_of_le ho]
    cases hD : D.drop p.offset with
    | nil =>
      have hlen := drop_eq_nil_iff.mp hD
      rw [replaceFrom, weave, Above.textAt_range hhit hat]
      simp [hlen]
    | cons b bs =>
      have hlt : p.offset < D.length := by
        by_contra hle
        rw [drop_of_length_le (by omega)] at hD
        cases hD
      rw [replaceFrom, weave, h.gone_apart hat]
      simp only [Bool.false_eq_true, if_false, length_append, length_cons]
      omega

/-! ## From the highest offset down -/

/-- Patches for `D` from the highest offset down: no two delete the same
element, and the texts go inside `D`. -/
structure Descending (ps : List (Patch α)) (D : List α) : Prop where
  sorted : ps.Pairwise fun q p => p.offset ≤ q.offset
  apart : ps.Pairwise fun q p => ∀ i, ¬ (q.Deletes i ∧ p.Deletes i)
  inside : ∀ p ∈ ps, p.text ≠ [] → p.offset ≤ D.length

/-- No patch deletes where an earlier one has put its text. -/
def Settled (ps : List (Patch α)) : Prop := ps.Pairwise fun q p => ¬ p.Hits q

theorem Descending.concat {l : List (Patch α)} (h : Descending (l ++ [p]) D) :
    Descending l D ∧ Above p l.reverse D := by
  obtain ⟨hs, -, hsp⟩ := pairwise_append.mp h.sorted
  obtain ⟨ha, -, hap⟩ := pairwise_append.mp h.apart
  refine ⟨⟨hs, ha, fun q hq => h.inside q (by simp [hq])⟩, ?_, ?_, ?_⟩
  · intro q hq
    exact hsp q (mem_reverse.mp hq) p (by simp)
  · intro q hq i hp hd
    exact hap q (mem_reverse.mp hq) p (by simp) i ⟨hd, hp⟩
  · intro q hq
    exact h.inside q (by simp [mem_reverse.mp hq])

theorem settled_concat {l : List (Patch α)} :
    Settled (l ++ [p]) ↔ Settled l ∧ ∀ q ∈ l.reverse, ¬ p.Hits q := by
  simp [Settled, pairwise_append]

theorem applyAll_concat (l : List (Patch α)) (p : Patch α) (D : List α) :
    applyAll (l ++ [p]) D = p.apply (applyAll l D) := by
  simp [applyAll]

/-- **One by one is all at once** when no text is hit; of the texts at one
offset the one applied last comes first. -/
theorem applyAll_settled (h : Descending ps D) (hset : Settled ps) :
    applyAll ps D = replaceAll ps.reverse D := by
  induction ps using List.reverseRecOn with
  | nil =>
    rw [reverse_nil, replaceAll_nil]
    rfl
  | append_singleton l p ih =>
    obtain ⟨hl, habove⟩ := h.concat
    obtain ⟨hsl, hhit⟩ := settled_concat.mp hset
    rw [applyAll_concat, ih hl hsl, habove.step (h.inside p (by simp)) hhit, reverse_append]
    rfl

/-! ## What a hit destroys -/

section Marked

variable (mark : α → Bool)

variable {D : List α}

/-- The marked letters of a simultaneous replacement are those of the texts. -/
theorem countP_replaceFrom (ps : List (Patch α)) (hD : ∀ b ∈ D, mark b = false) (i : Nat) :
    (replaceFrom ps i D).countP mark
      = (ps.map fun p =>
          if i ≤ p.offset ∧ p.offset ≤ i + D.length then p.text.countP mark else 0).sum := by
  have hat : ∀ i, (textAt ps i).countP mark
      = (ps.map fun p => if p.offset = i then p.text.countP mark else 0).sum := by
    intro i
    rw [textAt, countP_flatMap]
    congr 1
    refine map_congr_left fun p _ => ?_
    simp only [Function.comp]
    split <;> rfl
  induction D generalizing i with
  | nil =>
    rw [replaceFrom, weave, hat]
    congr 1
    refine map_congr_left fun p _ => ?_
    simp only [length_nil, Nat.add_zero]
    congr 1
    exact propext ⟨fun h => by omega, fun h => by omega⟩
  | cons b D ih =>
    have hb : (if gone ps i then [] else [b]).countP mark = 0 := by
      split
      · rfl
      · simp [hD b (by simp)]
    have ih := ih (fun c hc => hD c (mem_cons_of_mem b hc)) (i + 1)
    rw [replaceFrom] at ih
    rw [replaceFrom, weave, countP_append, countP_append, hb, ih, hat, Nat.zero_add,
      ← sum_map_add]
    congr 1
    refine map_congr_left fun p _ => ?_
    simp only [length_cons]
    split_ifs <;> omega

/-- How much text the patches put in. -/
def total (ps : List (Patch α)) : Nat := (ps.map fun p => p.text.countP mark).sum

theorem total_concat (l : List (Patch α)) (p : Patch α) :
    total mark (l ++ [p]) = total mark l + p.text.countP mark := by
  simp [total]


variable {ps : List (Patch α)}

theorem countP_replaceAll (hD : ∀ b ∈ D, mark b = false)
    (hin : ∀ p ∈ ps, p.text ≠ [] → p.offset ≤ D.length) :
    (replaceAll ps D).countP mark = total mark ps := by
  rw [replaceAll, countP_replaceFrom mark ps hD, total]
  congr 1
  refine map_congr_left fun p hp => ?_
  by_cases ht : p.text = []
  · simp [ht]
  · rw [if_pos ⟨Nat.zero_le _, by have := hin p hp ht; omega⟩]

/-- A patch adds no more than its text, and less if it takes a marked letter
out. -/
theorem Patch.countP_apply (p : Patch α) (D : List α) :
    (p.apply D).countP mark + ((D.drop p.offset).take p.del).countP mark
      = D.countP mark + p.text.countP mark := by
  have hcut : (p.apply D).countP mark
      = (cut D p.offset p.del).countP mark + p.text.countP mark := by
    rw [Patch.apply]
    conv_rhs => rw [← take_append_drop p.offset (cut D p.offset p.del)]
    rw [splice, countP_append, countP_append, countP_append]
    omega
  have hD : D.countP mark = (cut D p.offset p.del).countP mark
      + ((D.drop p.offset).take p.del).countP mark := by
    conv_lhs => rw [← take_append_drop p.offset D,
      ← take_append_drop p.del (D.drop p.offset), drop_drop]
    rw [cut, countP_append, countP_append, countP_append]
    omega
  omega

/-- Where a stretch of a replacement shows no marked letter, and nothing is
deleted, no text went. -/
theorem textAt_of_unmarked {n : Nat} {i : Nat} (hmark : ∀ p ∈ ps, ∀ b ∈ p.text, mark b = true)
    (hin : ∀ p ∈ ps, p.text ≠ [] → p.offset ≤ i + D.length)
    (hgone : ∀ j, i ≤ j → j < i + n → gone ps j = false)
    (hclear : ∀ b ∈ (replaceFrom ps i D).take n, mark b = false) :
    ∀ j, i ≤ j → j < i + n → textAt ps j = [] := by
  have hmarked : ∀ j, ∀ b ∈ textAt ps j, mark b = true := by
    intro j b hb
    obtain ⟨p, hp, hbp⟩ := mem_flatMap.mp hb
    split at hbp
    case isTrue => exact hmark p hp b hbp
    case isFalse => simp at hbp
  induction n generalizing i D with
  | zero =>
    intro j hj hlt
    omega
  | succ n ih =>
    have hhead : textAt ps i = [] := by
      cases ht : textAt ps i with
      | nil => rfl
      | cons b bs =>
        have hb : b ∈ (replaceFrom ps i D).take (n + 1) := by
          cases D <;> simp [replaceFrom, weave, ht]
        have hunmarked := hclear b hb
        rw [hmarked i b (by simp [ht])] at hunmarked
        cases hunmarked
    intro j hj hlt
    rcases Nat.eq_or_lt_of_le hj with rfl | hij
    · exact hhead
    cases D with
    | nil =>
      refine textAt_eq_nil fun p hp hp' => ?_
      by_contra hne
      have := hin p hp hne
      simp only [length_nil, Nat.add_zero] at this
      omega
    | cons b D =>
      have hcopy : replaceFrom ps i (b :: D) = b :: replaceFrom ps (i + 1) D := by
        rw [replaceFrom, weave, hhead, hgone i (Nat.le_refl i) (by omega)]
        rfl
      rw [hcopy, take_succ_cons] at hclear
      refine ih (i := i + 1) (D := D) (fun p hp hne => ?_) (fun j hj hlt => ?_)
        (fun c hc => hclear c (mem_cons_of_mem b hc)) j (by omega) (by omega)
      · have := hin p hp hne
        simp only [length_cons] at this
        omega
      · exact hgone j (by omega) (by omega)

/-- A patch that hits a text takes a marked letter out. -/
theorem Above.loses {p : Patch α} {qs : List (Patch α)} (h : Above p qs D)
    (hmark : ∀ q ∈ qs, ∀ b ∈ q.text, mark b = true) {q : Patch α} (hq : q ∈ qs) (hhit : p.Hits q) :
    0 < (((replaceAll qs D).drop p.offset).take p.del).countP mark := by
  have ho : p.offset ≤ D.length :=
    Nat.le_trans (h.offset q hq) (h.inside q hq hhit.1)
  have hlen : (D.take p.offset).length = p.offset := length_take_of_le ho
  have hdrop : (replaceAll qs D).drop p.offset = replaceFrom qs p.offset (D.drop p.offset) := by
    rw [h.replaceAll_eq ho]
    rw [drop_append_of_le_length (Nat.le_of_eq hlen.symm),
      drop_of_length_le (Nat.le_of_eq hlen), nil_append]
  rw [hdrop, countP_pos_iff]
  by_contra hnone
  have hclear : ∀ b ∈ (replaceFrom qs p.offset (D.drop p.offset)).take p.del,
      mark b = false := by
    intro b hb
    cases hm : mark b with
    | false => rfl
    | true => exact absurd ⟨b, hb, hm⟩ hnone
  have hnil := textAt_of_unmarked mark hmark
    (fun r hr hne => by
      have := h.inside r hr hne
      rw [length_drop]
      omega)
    (fun j hj hlt => h.gone_apart ⟨hj, hlt⟩) hclear q.offset hhit.2.1 hhit.2.2
  exact hhit.1 (text_eq_nil hnil hq rfl)

/-- One by one, no more text gets in than there is. -/
theorem countP_applyAll_le (ps : List (Patch α)) (hD : ∀ b ∈ D, mark b = false) :
    (applyAll ps D).countP mark ≤ total mark ps := by
  induction ps using List.reverseRecOn with
  | nil =>
    have : D.countP mark = 0 := countP_eq_zero.mpr fun b hb => by simp [hD b hb]
    exact Nat.le_of_eq this
  | append_singleton l p ih =>
    have := p.countP_apply mark (applyAll l D)
    rw [applyAll_concat, total_concat]
    omega

/-- **A hit loses text**: if some patch deletes where an earlier one has put its
text, not all of the text is there in the end. -/
theorem applyAll_loses (h : Descending ps D) (hD : ∀ b ∈ D, mark b = false)
    (hmark : ∀ p ∈ ps, ∀ b ∈ p.text, mark b = true) (hset : ¬ Settled ps) :
    (applyAll ps D).countP mark < total mark ps := by
  induction ps using List.reverseRecOn with
  | nil => exact absurd List.Pairwise.nil hset
  | append_singleton l p ih =>
    obtain ⟨hl, habove⟩ := h.concat
    have hml : ∀ q ∈ l, ∀ b ∈ q.text, mark b = true := fun q hq => hmark q (by simp [hq])
    have hcount := p.countP_apply mark (applyAll l D)
    rw [applyAll_concat, total_concat]
    by_cases hsl : Settled l
    · -- the first hit is by `p` itself
      have hex : ∃ q ∈ l.reverse, p.Hits q := by
        by_contra hno
        exact hset (settled_concat.mpr ⟨hsl, fun q hq hh => hno ⟨q, hq, hh⟩⟩)
      obtain ⟨q, hq, hh⟩ := hex
      have hlose := habove.loses mark (fun r hr => hml r (mem_reverse.mp hr)) hq hh
      rw [← applyAll_settled hl hsl] at hlose
      have hle := countP_applyAll_le mark l hD
      omega
    · have hlt := ih hl hml hsl
      omega

end Marked

/-- **When one by one is all at once.** Texts that share no letter with the
sequence are all there in the end exactly if none is hit on the way. -/
theorem replaced_applyAll_iff (h : Descending ps D) (hperm : ps.Perm qs)
    (hnew : ∀ p ∈ ps, ∀ b ∈ p.text, b ∉ D) :
    Replaced qs D (applyAll ps D) ↔ Settled ps := by
  constructor
  · rintro ⟨rs, hrs, heq⟩
    by_contra hset
    classical
    let mark : α → Bool := fun b => decide (b ∉ D)
    have hD : ∀ b ∈ D, mark b = false := fun b hb => by simp [mark, hb]
    have hlt := applyAll_loses mark h hD (fun p hp b hb => by simp [mark, hnew p hp b hb])
      hset
    have hperm' : rs.Perm ps := hrs.trans hperm.symm
    rw [heq, countP_replaceAll mark hD fun p hp => h.inside p (hperm'.mem_iff.mp hp)] at hlt
    have htot : total mark rs = total mark ps := (hperm'.map _).sum_eq
    omega
  · intro hset
    exact ⟨ps.reverse, (reverse_perm ps).trans hperm, applyAll_settled h hset⟩

end Replacement

end AxlSdk
