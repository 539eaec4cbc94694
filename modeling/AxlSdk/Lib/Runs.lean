import Mathlib

/-!
# Runs of a machine

A run is a list of operations. What is to hold of all its steps is a relation between the
state before a step and the operation.

- `EveryStep exec P s ops`: each operation of the run meets `P` at the state it is given.
- `EveryState exec I s ops`: each state the run goes through meets `I`.
- `everyStep_iff`: where an invariant makes two step relations equivalent, and the second
  of them keeps the invariant, the runs whose steps meet the one are those whose steps
  meet the other.
-/

namespace AxlSdk

namespace Runs

variable {σ ι : Type} {exec : σ → ι → σ} {P Q : σ → ι → Prop} {I : σ → Prop} {s : σ}
  {ops : List ι}

/-- Each operation meets `P` at the state before it. -/
def EveryStep (exec : σ → ι → σ) (P : σ → ι → Prop) (s : σ) (ops : List ι) : Prop :=
  ∀ pre op post, ops = pre ++ op :: post → P (pre.foldl exec s) op

/-- Each state of the run meets `I`, the first and the last included. -/
def EveryState (exec : σ → ι → σ) (I : σ → Prop) (s : σ) (ops : List ι) : Prop :=
  ∀ pre post, ops = pre ++ post → I (pre.foldl exec s)

theorem everyStep_nil : EveryStep exec P s [] := by
  intro pre op post h
  cases pre <;> cases h

theorem everyStep_cons {op : ι} :
    EveryStep exec P s (op :: ops) ↔ P s op ∧ EveryStep exec P (exec s op) ops := by
  constructor
  · intro h
    exact ⟨h [] op ops rfl, fun pre o post heq => h (op :: pre) o post (by rw [heq]; rfl)⟩
  · rintro ⟨hop, h⟩ pre o post heq
    cases pre with
    | nil =>
      cases heq
      exact hop
    | cons p pre =>
      obtain ⟨rfl, rfl⟩ := List.cons_eq_cons.mp heq
      exact h pre o post rfl

theorem everyState_cons {op : ι} :
    EveryState exec I s (op :: ops) ↔ I s ∧ EveryState exec I (exec s op) ops := by
  constructor
  · intro h
    exact ⟨h [] (op :: ops) rfl, fun pre post heq => h (op :: pre) post (by rw [heq]; rfl)⟩
  · rintro ⟨hs, h⟩ pre post heq
    cases pre with
    | nil => exact hs
    | cons p pre =>
      obtain ⟨rfl, rfl⟩ := List.cons_eq_cons.mp heq
      exact h pre post rfl

/-- The invariant rule: it holds at the start, and a step that meets `P` keeps it. -/
theorem EveryStep.invariant (h : EveryStep exec P s ops) (hs : I s)
    (hkeep : ∀ s op, I s → P s op → I (exec s op)) : EveryState exec I s ops := by
  induction ops generalizing s with
  | nil =>
    intro pre post heq
    obtain ⟨rfl, -⟩ := List.append_eq_nil_iff.mp heq.symm
    exact hs
  | cons op ops ih =>
    obtain ⟨hop, hrest⟩ := everyStep_cons.mp h
    exact everyState_cons.mpr ⟨hs, ih hrest (hkeep s op hs hop)⟩

/-- Under an invariant that `Q` keeps, `P` and `Q` may be exchanged. -/
theorem everyStep_iff (hs : I s) (hiff : ∀ s op, I s → (P s op ↔ Q s op))
    (hkeep : ∀ s op, I s → Q s op → I (exec s op)) :
    EveryStep exec P s ops ↔ EveryStep exec Q s ops := by
  induction ops generalizing s with
  | nil => exact ⟨fun _ => everyStep_nil, fun _ => everyStep_nil⟩
  | cons op ops ih =>
    rw [everyStep_cons, everyStep_cons, hiff s op hs]
    exact and_congr_right fun hq => ih (hkeep s op hs hq)

end Runs

end AxlSdk
