import Mathlib

/-!
# Counted loops of checked steps

A step that may be undefined is a function to `Option`: none stands for an index out of
range or an overflow.

- `Ends o Q`: the step is defined, and what it gives has `Q`; with the rules for sequencing.
- `loop n body`, `loopFrom lo hi step body`: `for` loops, and their rules by an invariant.
- `store`, and what it does to the cells of an array.
-/

namespace AxlSdk

namespace Checked

variable {α β σ : Type}

/-- The step is defined and its result has `Q`. -/
def Ends (o : Option α) (Q : α → Prop) : Prop := ∃ a, o = some a ∧ Q a

theorem Ends.intro {a : α} {Q : α → Prop} (h : Q a) : Ends (some a) Q := ⟨a, rfl, h⟩

theorem Ends.of_eq {o : Option α} {a : α} {Q : α → Prop} (ho : o = some a) (h : Q a) : Ends o Q :=
  ⟨a, ho, h⟩

theorem Ends.mono {o : Option α} {P Q : α → Prop} (h : Ends o P) (hPQ : ∀ a, P a → Q a) :
    Ends o Q := by
  obtain ⟨a, ho, ha⟩ := h
  exact ⟨a, ho, hPQ a ha⟩

/-- Sequencing: the second step is entered with what the first one gives. -/
theorem Ends.bind {o : Option α} {f : α → Option β} {P : α → Prop} {Q : β → Prop}
    (h : Ends o P) (hf : ∀ a, P a → Ends (f a) Q) : Ends (o >>= f) Q := by
  obtain ⟨a, rfl, ha⟩ := h
  exact hf a ha

/-- Sequencing behind a step with a known result. -/
theorem Ends.bind_eq {o : Option α} {a : α} {f : α → Option β} {Q : β → Prop}
    (ho : o = some a) (hf : Ends (f a) Q) : Ends (o >>= f) Q := by
  subst ho
  exact hf

/-! ## Loops -/

/-- `for (i = 0; i < n; i++) s = body(i, s);` -/
def loop : Nat → (Nat → σ → Option σ) → σ → Option σ
  | 0, _, s => some s
  | n + 1, body, s => loop n body s >>= body n

/-- The invariant rule: `I i` holds before the turn `i`. -/
theorem loop_ends {body : Nat → σ → Option σ} {s : σ} (I : Nat → σ → Prop) (n : Nat)
    (h0 : I 0 s) (hbody : ∀ i < n, ∀ t, I i t → Ends (body i t) (I (i + 1))) :
    Ends (loop n body s) (I n) := by
  induction n with
  | zero => exact .intro h0
  | succ n ih =>
    have h := ih fun i hi => hbody i (by omega)
    exact h.bind (hbody n (by omega))

/-- `for (i = lo; i < hi; i += step) s = body(i, s);` -/
def loopFrom (lo hi step : Nat) (body : Nat → σ → Option σ) (s : σ) : Option σ :=
  loop ((hi - lo + (step - 1)) / step) (fun i => body (lo + i * step)) s

/-- The invariant rule: `I i` holds before the turn that has `i`, and the loop is left with the
first `i` that is not below `hi`. -/
theorem loopFrom_ends {lo hi step : Nat} {body : Nat → σ → Option σ} {s : σ} (I : Nat → σ → Prop)
    (hstep : 0 < step) (h0 : I lo s)
    (hbody : ∀ i, lo ≤ i → i < hi → ∀ t, I i t → Ends (body i t) (I (i + step))) :
    Ends (loopFrom lo hi step body s) fun t => ∃ i, hi ≤ i ∧ I i t := by
  refine (loop_ends (fun i t => I (lo + i * step) t) _ (by simpa using h0)
    fun i hi' t ht => ?_).mono fun t ht => ⟨_, ?_, ht⟩
  · have hlt : lo + i * step < hi := by
      have := (Nat.lt_div_iff_mul_lt hstep).mp hi'
      omega
    have := hbody (lo + i * step) (by omega) hlt t ht
    rwa [show lo + i * step + step = lo + (i + 1) * step by ring] at this
  · have := Nat.lt_div_mul_add (a := hi - lo + (step - 1)) hstep
    omega

/-! ## Arrays -/

/-- `cells[i] = a;` -/
def store (cells : Array α) (i : Nat) (a : α) : Option (Array α) :=
  if h : i < cells.size then some (cells.set i a) else none

theorem store_ends {cells : Array α} {i : Nat} (h : i < cells.size) (a : α) :
    Ends (store cells i a) fun cells' =>
      cells'.size = cells.size ∧ cells'[i]? = some a ∧ ∀ j, j ≠ i → cells'[j]? = cells[j]? := by
  refine .of_eq (dif_pos h) ⟨by simp, by simp [h], fun j hj => ?_⟩
  rw [Array.getElem?_set, if_neg (Ne.symm hj)]

end Checked

end AxlSdk
