import Mathlib

/-!
# Computations that may run out of memory

A computation in `AllocM` asks for memory now and then; an oracle says for each
request whether it is granted, and the first refusal ends the computation.

- `Returns m P`: whatever the oracle says, a result of `m` satisfies `P`.
- `Succeeds m`: when every request is granted there is a result.
-/

namespace AxlSdk

/-- The oracle says of the `i`-th request whether it is granted; the state counts
the requests. -/
abbrev AllocM : Type → Type := ReaderT (Nat → Bool) (StateT Nat Option)

namespace AllocM

variable {α β : Type}

/-- A request for memory. -/
def request : AllocM Unit := fun granted i => if granted i then some ((), i + 1) else none

def Returns (m : AllocM α) (P : α → Prop) : Prop := ∀ granted i a j, m granted i = some (a, j) → P a

def Succeeds (m : AllocM α) : Prop := ∀ i, ∃ a j, m (fun _ => true) i = some (a, j)

theorem bind_eq (m : AllocM α) (f : α → AllocM β) (granted : Nat → Bool) (i : Nat) :
    (m >>= f) granted i = (m granted i).bind fun p => f p.1 granted p.2 := by
  rfl

theorem Returns.pure {a : α} {P : α → Prop} (h : P a) : Returns (pure a) P := by
  intro granted i b j hb
  cases hb
  exact h

theorem Returns.bind {m : AllocM α} {f : α → AllocM β} {P : α → Prop} {Q : β → Prop}
    (hm : Returns m P) (hf : ∀ a, P a → Returns (f a) Q) : Returns (m >>= f) Q := by
  intro granted i b j hb
  rw [bind_eq] at hb
  obtain ⟨⟨a, k⟩, ha, hb⟩ := Option.bind_eq_some_iff.mp hb
  exact hf a (hm granted i a k ha) granted k b j hb

theorem Returns.mono {m : AllocM α} {P Q : α → Prop} (hm : Returns m P) (h : ∀ a, P a → Q a) :
    Returns m Q := fun granted i a j ha => h a (hm granted i a j ha)

theorem Returns.ite {c : Prop} [Decidable c] {m n : AllocM α} {P : α → Prop}
    (hm : c → Returns m P) (hn : ¬ c → Returns n P) : Returns (if c then m else n) P := by
  split
  · exact hm ‹_›
  · exact hn ‹_›

theorem Succeeds.pure (a : α) : Succeeds (pure a : AllocM α) := fun i => ⟨a, i, rfl⟩

theorem Succeeds.request : Succeeds request := fun i => ⟨(), i + 1, rfl⟩

theorem Succeeds.bind {m : AllocM α} {f : α → AllocM β} (hm : Succeeds m)
    (hf : ∀ a, Succeeds (f a)) : Succeeds (m >>= f) := by
  intro i
  obtain ⟨a, j, ha⟩ := hm i
  obtain ⟨b, k, hb⟩ := hf a j
  refine ⟨b, k, ?_⟩
  rw [bind_eq, ha]
  exact hb

theorem Succeeds.ite {c : Prop} [Decidable c] {m n : AllocM α} (hm : Succeeds m)
    (hn : Succeeds n) : Succeeds (if c then m else n) := by
  split
  · exact hm
  · exact hn

/-- A loop over a list keeps an invariant. -/
theorem Returns.foldlM {f : β → α → AllocM β} {P : β → List α → Prop}
    (hf : ∀ b a as, P b (a :: as) → Returns (f b a) fun b' => P b' as) {b : β} {l : List α}
    (h : P b l) : Returns (l.foldlM f b) fun b' => P b' [] := by
  induction l generalizing b with
  | nil => exact Returns.pure h
  | cons a l ih =>
    rw [List.foldlM_cons]
    exact (hf b a l h).bind fun b' hb' => ih hb'

theorem Succeeds.foldlM {f : β → α → AllocM β} (hf : ∀ b a, Succeeds (f b a)) (b : β)
    (as : List α) : Succeeds (as.foldlM f b) := by
  induction as generalizing b with
  | nil => exact Succeeds.pure b
  | cons a as ih =>
    rw [List.foldlM_cons]
    exact (hf b a).bind fun b' => ih b'

end AllocM

end AxlSdk
