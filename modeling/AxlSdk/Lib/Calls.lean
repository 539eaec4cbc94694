import Mathlib

/-!
# Programs that call an outside world

A program is a tree: it returns, or it calls an operation of the world and goes
on with the answer. The world is a function of a *choice*, so that an operation
may fail, and the choices of a run are a stream.

- `Prog ω ρ α`: programs over the operations `ω`, the operation `o` being answered
  by a `ρ o`, with a result in `α`.
- `Prog.run`, `Prog.trace`: the end of a run and all the states it goes through,
  where it may be cut.
- `Prog.Safe C Q p s`: from `s`, whatever is chosen, `p` stays within `C` and ends
  in `Q`. `Safe.run` and `Safe.trace` say that it means what it says, and
  `Safe.seq`, `Safe.mono` are the rules to compose it.
- `Prog.Gives p s Q`: from `s`, whatever is chosen, `p` ends in `Q`, with the rules of
  `Safe` less the invariant.
- `Prog.May Q p s`: from `s`, under some choices, `p` ends in `Q`.
-/

namespace AxlSdk

/-- A program over the operations `ω`. -/
inductive Prog (ω : Type) (ρ : ω → Type) (α : Type) where
  | pure (a : α)
  | call (o : ω) (next : ρ o → Prog ω ρ α)

namespace Prog

variable {ω : Type} {ρ : ω → Type} {α β σ φ : Type}

/-- `p`, then what `f` makes of its result. -/
def bind (p : Prog ω ρ α) (f : α → Prog ω ρ β) : Prog ω ρ β :=
  match p with
  | .pure a => f a
  | .call o next => .call o fun r => (next r).bind f

instance : Monad (Prog ω ρ) where
  pure := .pure
  bind := .bind

/-- One operation, its answer being the result. -/
def perform (o : ω) : Prog ω ρ (ρ o) := .call o .pure

variable (world : (o : ω) → φ → σ → ρ o × σ)

/-- The result of a run and the state it ends in. -/
def run (p : Prog ω ρ α) (choices : Stream' φ) (s : σ) : α × σ :=
  match p with
  | .pure a => (a, s)
  | .call o next =>
    let (r, t) := world o choices.head s
    (next r).run choices.tail t

/-- The states of a run, from the first to the last. -/
def trace (p : Prog ω ρ α) (choices : Stream' φ) (s : σ) : List σ :=
  match p with
  | .pure _ => [s]
  | .call o next =>
    let (r, t) := world o choices.head s
    s :: (next r).trace choices.tail t

/-- Whatever is chosen, the program stays within `C` and ends in `Q`. -/
def Safe (C : σ → Prop) (Q : α → σ → Prop) (p : Prog ω ρ α) (s : σ) : Prop :=
  match p with
  | .pure a => C s ∧ Q a s
  | .call o next => C s ∧ ∀ c, (next (world o c s).1).Safe C Q (world o c s).2

variable {world}

section Meaning

variable {C : σ → Prop} {Q : α → σ → Prop} {p : Prog ω ρ α} {s : σ}

theorem Safe.trace (h : p.Safe world C Q s) (choices : Stream' φ) :
    ∀ t ∈ p.trace world choices s, C t := by
  induction p generalizing choices s with
  | pure a =>
    intro t ht
    obtain rfl : t = s := by simpa [Prog.trace] using ht
    exact h.1
  | call o next ih =>
    intro t ht
    rcases List.mem_cons.1 ht with rfl | ht
    · exact h.1
    · exact ih _ (h.2 choices.head) choices.tail t ht

theorem Safe.run (h : p.Safe world C Q s) (choices : Stream' φ) :
    Q (p.run world choices s).1 (p.run world choices s).2 := by
  induction p generalizing choices s with
  | pure a => exact h.2
  | call o next ih => exact ih _ (h.2 choices.head) choices.tail

end Meaning

theorem Safe.mono {C D : σ → Prop} {Q R : α → σ → Prop} {p : Prog ω ρ α} {s : σ}
    (h : p.Safe world C Q s) (hC : ∀ t, C t → D t) (hQ : ∀ a t, Q a t → R a t) :
    p.Safe world D R s := by
  induction p generalizing s with
  | pure a => exact ⟨hC s h.1, hQ a s h.2⟩
  | call o next ih => exact ⟨hC s h.1, fun c => ih _ (h.2 c)⟩

variable {R : β → σ → Prop} {f : α → Prog ω ρ β}

/-- Sequential composition: the second program starts where the first one ends, and
the first one may keep to a narrower invariant. -/
theorem Safe.seq {C D : σ → Prop} {Q : α → σ → Prop} {p : Prog ω ρ α} {s : σ}
    (h : p.Safe world C Q s) (hC : ∀ t, C t → D t)
    (hf : ∀ a t, C t → Q a t → (f a).Safe world D R t) : (p >>= f).Safe world D R s := by
  show (Prog.bind p f).Safe world D R s
  induction p generalizing s with
  | pure a => exact hf a s h.1 h.2
  | call o next ih => exact ⟨hC s h.1, fun c => ih _ (h.2 c)⟩

theorem Safe.bind {C : σ → Prop} {Q : α → σ → Prop} {p : Prog ω ρ α} {s : σ}
    (h : p.Safe world C Q s) (hf : ∀ a t, C t → Q a t → (f a).Safe world C R t) :
    (p >>= f).Safe world C R s :=
  h.seq (fun _ => id) hf

theorem Safe.pure {C : σ → Prop} {Q : α → σ → Prop} {a : α} {s : σ} (hC : C s) (hQ : Q a s) :
    (Pure.pure a : Prog ω ρ α).Safe world C Q s :=
  ⟨hC, hQ⟩

/-- One operation, and the rest of the program from whatever it answers. -/
theorem Safe.call {C : σ → Prop} {o : ω} {f : ρ o → Prog ω ρ β} {Q : β → σ → Prop} {s : σ}
    (hC : C s) (h : ∀ c, (f (world o c s).1).Safe world C Q (world o c s).2) :
    (Prog.perform o >>= f).Safe world C Q s :=
  ⟨hC, h⟩

theorem Safe.perform {C : σ → Prop} {o : ω} {Q : ρ o → σ → Prop} {s : σ} (hC : C s)
    (h : ∀ c, C (world o c s).2 ∧ Q (world o c s).1 (world o c s).2) :
    (Prog.perform o : Prog ω ρ (ρ o)).Safe world C Q s :=
  ⟨hC, h⟩

/-- Whatever is chosen, the program ends in `Q`. -/
def Gives (world : (o : ω) → φ → σ → ρ o × σ) (p : Prog ω ρ α) (s : σ) (Q : α → σ → Prop) : Prop :=
  p.Safe world (fun _ => True) Q s

theorem Gives.done {a : α} {s : σ} {Q : α → σ → Prop} (h : Q a s) :
    Gives world (Pure.pure a : Prog ω ρ α) s Q :=
  Safe.pure trivial h

theorem Gives.bind {p : Prog ω ρ α} {s : σ} {Q : α → σ → Prop} (h : Gives world p s Q)
    (hf : ∀ a t, Q a t → Gives world (f a) t R) :
    Gives world (p >>= f) s R :=
  Safe.bind h fun a t _ => hf a t

theorem Gives.perform {o : ω} {s : σ} {Q : ρ o → σ → Prop}
    (h : ∀ c, Q (world o c s).1 (world o c s).2) :
    Gives world (Prog.perform o : Prog ω ρ (ρ o)) s Q :=
  Safe.perform trivial fun c => ⟨trivial, h c⟩

theorem Gives.mono {p : Prog ω ρ α} {s : σ} {Q R : α → σ → Prop} (h : Gives world p s Q)
    (hQ : ∀ a t, Q a t → R a t) : Gives world p s R :=
  Safe.mono h (fun _ => id) hQ

theorem Gives.run {p : Prog ω ρ α} {s : σ} {Q : α → σ → Prop} (h : Gives world p s Q)
    (choices : Stream' φ) : Q (p.run world choices s).1 (p.run world choices s).2 :=
  Safe.run h choices

/-- Under some choices the program ends in `Q`. -/
def May (world : (o : ω) → φ → σ → ρ o × σ) (Q : α → σ → Prop) (p : Prog ω ρ α) (s : σ) : Prop :=
  ∃ choices : Stream' φ, Q (p.run world choices s).1 (p.run world choices s).2

theorem May.pure [Inhabited φ] {Q : α → σ → Prop} {a : α} {s : σ} (h : Q a s) :
    (Pure.pure a : Prog ω ρ α).May world Q s :=
  ⟨Stream'.const default, h⟩

/-- The choices of two programs in sequence, one after the other. -/
theorem May.bind {Q : α → σ → Prop} {p : Prog ω ρ α} {s : σ} (h : p.May world Q s)
    (hf : ∀ a t, Q a t → (f a).May world R t) :
    (p >>= f).May world R s := by
  show (Prog.bind p f).May world R s
  obtain ⟨choices, hQ⟩ := h
  induction p generalizing choices s with
  | pure a => exact hf a s hQ
  | call o next ih =>
    obtain ⟨later, hR⟩ := ih (world o choices.head s).1 choices.tail hQ
    exact ⟨Stream'.cons choices.head later, hR⟩

end Prog

end AxlSdk
