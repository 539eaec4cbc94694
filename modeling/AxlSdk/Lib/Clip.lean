import Mathlib

/-!
# Writing into a buffer, piece by piece

Things are written one after the other, each as a piece of its own, until one does not
fit. Without a buffer the pieces are only measured.

- `write`: the loop.
- `Clipped`: the longest run of whole pieces that fits.
- `write_none`, `write_clipped`: what the loop does with and without a buffer.
-/

namespace AxlSdk

namespace Clip

variable {α β : Type}

/-- The loop, with `out` places taken: the places taken in the end, and what is written. -/
def write (piece : β → List α) (room : Option Nat) (out : Nat) : List β → Nat × List α
  | [] => (out, [])
  | b :: bs =>
    match room with
    | none => write piece room (out + (piece b).length) bs
    | some size =>
      if out + (piece b).length > size then (out, [])
      else
        let r := write piece room (out + (piece b).length) bs
        (r.1, piece b ++ r.2)

/-- `w` is the longest run of whole pieces, from the first on, in `size` places. -/
def Clipped (piece : β → List α) (bs : List β) (size : Nat) (w : List α) : Prop :=
  ∃ pre rest, bs = pre ++ rest ∧ w = pre.flatMap piece ∧ w.length ≤ size ∧
    ∀ b ∈ rest.head?, size < w.length + (piece b).length

variable {piece : β → List α} {bs : List β} {size out : Nat} {w : List α}

theorem write_none (piece : β → List α) (out : Nat) (bs : List β) :
    write piece none out bs = (out + (bs.flatMap piece).length, []) := by
  induction bs generalizing out with
  | nil => rfl
  | cons b bs ih => simp [write, ih, Nat.add_assoc]

theorem write_some (piece : β → List α) {out size : Nat} (hout : out ≤ size) (bs : List β) :
    ∃ w, write piece (some size) out bs = (out + w.length, w) ∧
      Clipped piece bs (size - out) w := by
  induction bs generalizing out with
  | nil => exact ⟨[], rfl, [], [], rfl, rfl, by simp, by simp⟩
  | cons b bs ih =>
    rw [write]
    by_cases hb : out + (piece b).length > size
    · rw [if_pos hb]
      exact ⟨[], rfl, [], b :: bs, rfl, rfl, by simp, by simp; omega⟩
    · rw [if_neg hb]
      have hfit : out + (piece b).length ≤ size := by omega
      obtain ⟨w, hw, pre, rest, rfl, rfl, hlen, hrest⟩ := ih hfit
      refine ⟨piece b ++ pre.flatMap piece, by simp [hw, Nat.add_assoc], b :: pre, rest, rfl,
        by simp, by simp only [List.length_append]; omega, fun c hc => ?_⟩
      have := hrest c hc
      simp only [List.length_append]
      omega

/-- The loop writes what is clipped to the size, and counts what it writes. -/
theorem write_clipped (piece : β → List α) (size : Nat) (bs : List β) :
    ∃ w, write piece (some size) 0 bs = (w.length, w) ∧ Clipped piece bs size w := by
  obtain ⟨w, hw, hc⟩ := write_some piece (Nat.zero_le size) bs
  exact ⟨w, by simpa using hw, hc⟩

theorem Clipped.unique {w' : List α} (h : Clipped piece bs size w) (h' : Clipped piece bs size w') :
    w = w' := by
  obtain ⟨pre, rest, rfl, rfl, hlen, hrest⟩ := h
  obtain ⟨pre', rest', hbs, rfl, hlen', hrest'⟩ := h'
  have step : ∀ {p r p' r' : List β}, p ++ r = p' ++ r' → p.length < p'.length →
      (p'.flatMap piece).length ≤ size →
      (∀ b ∈ r.head?, size < (p.flatMap piece).length + (piece b).length) → False := by
    intro p r p' r' he hlt hle hr
    obtain ⟨q, rfl⟩ : ∃ q, p' = p ++ q :=
      ((List.prefix_of_prefix_length_le (List.prefix_append p r) (he ▸ List.prefix_append p' r')
        hlt.le)).imp fun _ h => h.symm
    match q with
    | [] => simp at hlt
    | b :: q =>
      have hr0 : r = b :: q ++ r' := by simpa using he
      have := hr b (by simp [hr0])
      simp only [List.flatMap_append, List.flatMap_cons, List.length_append] at hle
      omega
  rcases Nat.lt_trichotomy pre.length pre'.length with h | h | h
  · exact (step hbs h hlen' hrest).elim
  · rw [(List.append_inj hbs h).1]
  · exact (step hbs.symm h hlen hrest').elim

/-- In a buffer that is large enough nothing is clipped. -/
theorem clipped_all (h : (bs.flatMap piece).length ≤ size) :
    Clipped piece bs size (bs.flatMap piece) :=
  ⟨bs, [], by simp, rfl, h, by simp⟩

theorem write_all (h : (bs.flatMap piece).length ≤ size) :
    write piece (some size) 0 bs = ((bs.flatMap piece).length, bs.flatMap piece) := by
  obtain ⟨w, hw, hc⟩ := write_clipped piece size bs
  rw [hw, hc.unique (clipped_all h)]

end Clip

end AxlSdk
