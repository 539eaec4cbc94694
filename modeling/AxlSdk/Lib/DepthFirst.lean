import Mathlib

/-!
# Depth-first walks

A walk over a graph given by its successor lists. A node is marked before its
successors are visited and finished after them; a predicate may keep nodes out.

- `Visits`: what a walk over a list of nodes does to the marked and the finished ones.
- `Visits.finished_new`, `Visits.sound`, `Visits.complete`: each new node once, only
  what can be reached, and all of it.
- `Visits.ordered`: without cycles, what a node needs is finished before it.
-/

namespace AxlSdk

namespace DepthFirst

open Relation List

variable {α : Type}

/-- The nodes marked, and those finished, in the order in which that happened. -/
structure Progress (α : Type) where
  marked : List α
  finished : List α

/-- A step along an edge to a node that is let in. -/
def Edge (succ : α → List α) (accept : α → Bool) (a b : α) : Prop :=
  b ∈ succ a ∧ accept b = true

/-- The walk over the nodes of a list, one after the other. -/
inductive Visits (succ : α → List α) (accept : α → Bool) :
    List α → Progress α → Progress α → Prop
  | nil (s : Progress α) : Visits succ accept [] s s
  | skip {d : α} {ds : List α} {s s' : Progress α}
      (hd : d ∈ s.marked ∨ accept d = false) (h : Visits succ accept ds s s') :
      Visits succ accept (d :: ds) s s'
  | enter {d : α} {ds : List α} {s s₁ s' : Progress α}
      (hd : d ∉ s.marked) (ha : accept d = true)
      (hsub : Visits succ accept (succ d) ⟨s.marked ++ [d], s.finished⟩ s₁)
      (h : Visits succ accept ds ⟨s₁.marked, s₁.finished ++ [d]⟩ s') :
      Visits succ accept (d :: ds) s s'

variable {succ : α → List α} {accept : α → Bool} {ds : List α} {s s' : Progress α}

/-- What a walk marks it also finishes, and each node is new. -/
theorem Visits.finished_new (h : Visits succ accept ds s s') :
    ∃ new fin, s'.marked = s.marked ++ new ∧ s'.finished = s.finished ++ fin ∧
      List.Perm fin new ∧ (∀ x ∈ new, x ∉ s.marked) ∧ new.Nodup := by
  induction h with
  | nil s => exact ⟨[], [], by simp, by simp, .nil, by simp, .nil⟩
  | skip _ _ ih => exact ih
  | @enter d ds s s₁ s' hd _ _ _ ih₁ ih₂ =>
    obtain ⟨n₁, f₁, hm₁, hf₁, hp₁, hnew₁, hnd₁⟩ := ih₁
    obtain ⟨n₂, f₂, hm₂, hf₂, hp₂, hnew₂, hnd₂⟩ := ih₂
    simp only [hm₁, hf₁] at hm₂ hf₂ hnew₂
    refine ⟨d :: n₁ ++ n₂, f₁ ++ [d] ++ f₂, by simp [hm₂], by simp [hf₂], ?_, ?_, ?_⟩
    · exact (perm_append_singleton d f₁ |>.trans (hp₁.cons d)).append hp₂
    · intro x hx
      rcases mem_append.mp hx with hx | hx
      · rcases mem_cons.mp hx with rfl | hx
        · exact hd
        · exact fun hs => hnew₁ x hx (by simp [hs])
      · exact fun hs => hnew₂ x hx (by simp [hs])
    · refine nodup_append.mpr ⟨nodup_cons.mpr ⟨?_, hnd₁⟩, hnd₂, ?_⟩
      · exact fun hx => hnew₁ d hx (by simp)
      · rintro x hx _ hy rfl
        refine hnew₂ x hy ?_
        rcases mem_cons.mp hx with rfl | hx
        · simp
        · simp [hx]

theorem Visits.marked_subset (h : Visits succ accept ds s s') : s.marked ⊆ s'.marked := by
  obtain ⟨new, fin, hm, -⟩ := h.finished_new
  simp [hm]

/-- The nodes marked but not finished are the same before and after. -/
theorem Visits.open_iff (h : Visits succ accept ds s s') (hs : s.finished ⊆ s.marked) {x : α} :
    x ∈ s'.marked ∧ x ∉ s'.finished ↔ x ∈ s.marked ∧ x ∉ s.finished := by
  obtain ⟨new, fin, hm, hf, hp, hnew, -⟩ := h.finished_new
  simp only [hm, hf, mem_append, hp.mem_iff, not_or]
  constructor
  · rintro ⟨hx | hx, hnf, hnn⟩
    · exact ⟨hx, hnf⟩
    · exact absurd hx hnn
  · rintro ⟨hx, hnf⟩
    exact ⟨.inl hx, hnf, fun hn => hnew x hn hx⟩

theorem Visits.finished_marked (h : Visits succ accept ds s s') (hs : s.finished ⊆ s.marked) :
    s'.finished ⊆ s'.marked := by
  obtain ⟨new, fin, hm, hf, hp, -⟩ := h.finished_new
  rw [hm, hf]
  exact append_subset.mpr ⟨fun x hx => by simp [hs hx], fun x hx => by simp [hp.mem_iff.mp hx]⟩

/-- Only nodes that are let in, along edges from the list, are marked. -/
theorem Visits.sound (h : Visits succ accept ds s s') {x : α} (hx : x ∈ s'.marked) :
    x ∈ s.marked ∨ ∃ d ∈ ds, accept d = true ∧ ReflTransGen (Edge succ accept) d x := by
  induction h with
  | nil s => exact .inl hx
  | skip _ _ ih =>
    rcases ih hx with h | ⟨d', hd', h⟩
    · exact .inl h
    · exact .inr ⟨d', mem_cons_of_mem _ hd', h⟩
  | @enter d ds s s₁ s' _ ha _ _ ih₁ ih₂ =>
    rcases ih₂ hx with h | ⟨d', hd', h⟩
    · rcases ih₁ h with h | ⟨d', hd', ha', hr⟩
      · rcases mem_append.mp h with h | h
        · exact .inl h
        · obtain rfl : x = d := by simpa using h
          exact .inr ⟨x, by simp, ha, .refl⟩
      · exact .inr ⟨d, by simp, ha, .head ⟨hd', ha'⟩ hr⟩
    · exact .inr ⟨d', mem_cons_of_mem _ hd', h⟩

/-- All nodes of the list that are let in are marked, and so is all that lies behind
what is newly marked. -/
theorem Visits.complete (h : Visits succ accept ds s s') :
    (∀ d ∈ ds, accept d = true → d ∈ s'.marked) ∧
      ∀ x ∈ s'.marked, x ∉ s.marked → ∀ y, Edge succ accept x y → y ∈ s'.marked := by
  induction h with
  | nil s => exact ⟨by simp, fun x hx hn => absurd hx hn⟩
  | @skip d ds s s' hd h ih =>
    refine ⟨fun d' hd' ha => ?_, ih.2⟩
    rcases mem_cons.mp hd' with rfl | hd'
    · exact h.marked_subset (hd.resolve_right (by simp [ha]))
    · exact ih.1 d' hd' ha
  | @enter d ds s s₁ s' _ _ h₁ h₂ ih₁ ih₂ =>
    have hsub : s₁.marked ⊆ s'.marked := h₂.marked_subset
    have hd : d ∈ s'.marked := hsub (h₁.marked_subset (by simp))
    refine ⟨fun d' hd' ha => ?_, fun x hx hn y hy => ?_⟩
    · rcases mem_cons.mp hd' with rfl | hd'
      · exact hd
      · exact ih₂.1 d' hd' ha
    · by_cases hx₁ : x ∈ s₁.marked
      · by_cases hxd : x = d
        · exact hsub (ih₁.1 y (hxd ▸ hy.1) hy.2)
        · exact hsub (ih₁.2 x hx₁ (by simp [hn, hxd]) y hy)
      · exact ih₂.2 x hx hx₁ y hy

/-- `y` comes before `x` in the list. -/
def Before (l : List α) (y x : α) : Prop := ∃ l₁ l₂, l = l₁ ++ x :: l₂ ∧ y ∈ l₁

theorem Before.append {l : List α} {x y : α} (h : Before l y x) (l' : List α) :
    Before (l ++ l') y x := by
  obtain ⟨l₁, l₂, rfl, hy⟩ := h
  exact ⟨l₁, l₂ ++ l', by simp, hy⟩

/-- Where nothing that is visited lies on a cycle, what a node needs is finished before
the node. The nodes still open all lead to those of the list: that is why none of them
can be needed. -/
theorem Visits.ordered (h : Visits succ accept ds s s') (hs : s.finished ⊆ s.marked)
    (hopen : ∀ g ∈ s.marked, g ∉ s.finished → ∀ d ∈ ds, accept d = true →
      TransGen (Edge succ accept) g d)
    (hacyc : ∀ d ∈ ds, accept d = true → ∀ x, ReflTransGen (Edge succ accept) d x →
      ¬ TransGen (Edge succ accept) x x) :
    ∀ x ∈ s'.finished, x ∉ s.finished → ∀ y, Edge succ accept x y →
      Before s'.finished y x := by
  induction h with
  | nil s => exact fun x hx hn => absurd hx hn
  | skip _ _ ih =>
    exact ih hs (fun g hg hf d hd => hopen g hg hf d (mem_cons_of_mem _ hd))
      fun d hd => hacyc d (mem_cons_of_mem _ hd)
  | @enter d ds s s₁ s' hd ha h₁ h₂ ih₁ ih₂ =>
    have hs₀ : s.finished ⊆ s.marked ++ [d] := fun x hx => by simp [hs hx]
    have hd₀ : d ∉ s.finished := fun hf => hd (hs hf)
    have hreach : ∀ {x}, x ∈ succ d → accept x = true → TransGen (Edge succ accept) d x :=
      fun hx hax => .single ⟨hx, hax⟩
    -- inside, the open nodes are those from before and the node itself
    have hopen₁ : ∀ g ∈ s.marked ++ [d], g ∉ s.finished → ∀ x ∈ succ d, accept x = true →
        TransGen (Edge succ accept) g x := by
      intro g hg hf x hx hax
      rcases mem_append.mp hg with hg | hg
      · exact (hopen g hg hf d (by simp) ha).trans (hreach hx hax)
      · obtain rfl : g = d := by simpa using hg
        exact hreach hx hax
    have hacyc₁ : ∀ x ∈ succ d, accept x = true → ∀ z, ReflTransGen (Edge succ accept) x z →
        ¬ TransGen (Edge succ accept) z z :=
      fun x hx hax z hz => hacyc d (by simp) ha z (.head ⟨hx, hax⟩ hz)
    have hin := ih₁ hs₀ hopen₁ hacyc₁
    have hs₁ : s₁.finished ⊆ s₁.marked := h₁.finished_marked hs₀
    have hd₁ : d ∈ s₁.marked := h₁.marked_subset (by simp)
    have hopen₂ : ∀ g ∈ s₁.marked, g ∉ s₁.finished ++ [d] → ∀ x ∈ ds, accept x = true →
        TransGen (Edge succ accept) g x := by
      intro g hg hf x hx hax
      simp only [mem_append, mem_singleton, not_or] at hf
      have hg₀ := (h₁.open_iff hs₀).mp ⟨hg, hf.1⟩
      have hgs : g ∈ s.marked := by simpa [hf.2] using hg₀.1
      exact hopen g hgs hg₀.2 x (mem_cons_of_mem _ hx) hax
    have hs₂ : s₁.finished ++ [d] ⊆ s₁.marked :=
      append_subset.mpr ⟨hs₁, by simpa using hd₁⟩
    have hout := ih₂ hs₂ hopen₂ fun x hx => hacyc x (mem_cons_of_mem _ hx)
    -- what the node itself needs is finished: an open one would close a cycle
    have hneed : ∀ y, Edge succ accept d y → y ∈ s₁.finished := by
      intro y hy
      by_contra hf
      have hm := h₁.complete.1 y hy.1 hy.2
      have hg := (h₁.open_iff hs₀).mp ⟨hm, hf⟩
      have hback : TransGen (Edge succ accept) y y := hopen₁ y hg.1 hg.2 y hy.1 hy.2
      exact hacyc₁ y hy.1 hy.2 y .refl hback
    intro x hx hn y hy
    by_cases hx₂ : x ∈ s₁.finished ++ [d]
    · obtain ⟨new, fin, -, hf, -⟩ := h₂.finished_new
      dsimp only at hf
      rw [hf]
      refine Before.append ?_ fin
      rcases mem_append.mp hx₂ with hx₁ | hx₁
      · exact (hin x hx₁ hn y hy).append [d]
      · obtain rfl : x = d := by simpa using hx₁
        exact ⟨s₁.finished, [], rfl, hneed y hy⟩
    · exact hout x hx hx₂ y hy

end DepthFirst

end AxlSdk
