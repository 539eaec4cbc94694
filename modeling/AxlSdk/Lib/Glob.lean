import Mathlib

/-!
# Wildcard patterns

A pattern is a list of places. A place is a star, which stands for any text, or an
atom, which stands for one letter out of a set; which set an atom means is a
parameter (`f`, `g`).

- `glob`: the language of a pattern.
- `mem_glob_star_cons`, `mem_glob_atom_cons`: what a matcher may do at each place.
- `agree_iff`: when two meanings of the atoms give a pattern the same language.

The shortest texts of a pattern leave every star empty, so they spell out the sets of
its atoms. That is why the meanings must agree atom by atom.
-/

namespace AxlSdk

namespace Wildcard

open List

variable {α β : Type}

/-- The texts one place stands for; `none` is the star. -/
def place (f : β → Set α) : Option β → Language α
  | none => ⊤
  | some b => {x | ∃ c ∈ f b, x = [c]}

/-- The language of a pattern. -/
def glob (f : β → Set α) (ps : List (Option β)) : Language α := (ps.map (place f)).prod

/-- The atoms of a pattern, in order. -/
def atoms (ps : List (Option β)) : List β := ps.reduceOption

variable {f g : β → Set α} {ps : List (Option β)} {x : List α} {b : β}

theorem mem_glob_nil : x ∈ glob f [] ↔ x = [] := Iff.rfl

theorem mem_glob_star_cons : x ∈ glob f (none :: ps) ↔ ∃ y ∈ x.tails, y ∈ glob f ps := by
  simp only [glob, map_cons, prod_cons, Language.mem_mul, mem_tails]
  constructor
  · rintro ⟨a, -, y, hy, rfl⟩
    exact ⟨y, suffix_append a y, hy⟩
  · rintro ⟨y, ⟨a, rfl⟩, hy⟩
    exact ⟨a, trivial, y, hy, rfl⟩

theorem mem_glob_atom_cons :
    x ∈ glob f (some b :: ps) ↔ ∃ c y, x = c :: y ∧ c ∈ f b ∧ y ∈ glob f ps := by
  simp only [glob, map_cons, prod_cons, Language.mem_mul]
  constructor
  · rintro ⟨_, ⟨c, hc, rfl⟩, y, hy, rfl⟩
    exact ⟨c, y, rfl, hc, hy⟩
  · rintro ⟨c, y, rfl, hc, hy⟩
    exact ⟨[c], ⟨c, hc, rfl⟩, y, hy, rfl⟩

theorem nil_not_mem_glob_atom_cons : [] ∉ glob f (some b :: ps) := by
  simp [mem_glob_atom_cons]

theorem cons_mem_glob_atom_cons {c : α} :
    c :: x ∈ glob f (some b :: ps) ↔ c ∈ f b ∧ x ∈ glob f ps := by
  rw [mem_glob_atom_cons]
  constructor
  · rintro ⟨c', y, h, hc, hy⟩
    obtain ⟨rfl, rfl⟩ := List.cons.inj h
    exact ⟨hc, hy⟩
  · rintro ⟨hc, hy⟩
    exact ⟨c, x, rfl, hc, hy⟩

/-- A second star says nothing new. -/
theorem mem_glob_star_star : x ∈ glob f (none :: none :: ps) ↔ x ∈ glob f (none :: ps) := by
  rw [mem_glob_star_cons, mem_glob_star_cons]
  constructor
  · rintro ⟨y, hy, h⟩
    obtain ⟨z, hz, h⟩ := mem_glob_star_cons.mp h
    rw [mem_tails] at hy hz
    exact ⟨z, (mem_tails _ _).mpr (hz.trans hy), h⟩
  · rintro ⟨y, hy, h⟩
    exact ⟨y, hy, mem_glob_star_cons.mpr ⟨y, (mem_tails _ _).mpr (suffix_refl y), h⟩⟩

/-- A star at the end takes all that is left. -/
theorem mem_glob_star : x ∈ glob f [none] := by
  rw [mem_glob_star_cons]
  exact ⟨[], by simp [mem_tails], mem_glob_nil.mpr rfl⟩

/-! ## Two meanings of the atoms -/

@[simp] theorem atoms_nil : atoms ([] : List (Option β)) = [] := rfl

@[simp] theorem atoms_star_cons : atoms (none :: ps) = atoms ps := rfl

@[simp] theorem atoms_cons : atoms (some b :: ps) = b :: atoms ps := rfl

/-- A text with one letter for each atom is in the language. -/
theorem mem_glob_of_forall₂ (h : List.Forall₂ (fun c b => c ∈ f b) x (atoms ps)) :
    x ∈ glob f ps := by
  induction ps generalizing x with
  | nil => exact mem_glob_nil.mpr (forall₂_nil_right_iff.mp h)
  | cons p ps ih =>
    cases p with
    | none =>
      exact mem_glob_star_cons.mpr ⟨x, (mem_tails _ _).mpr (suffix_refl x), ih h⟩
    | some b =>
      cases h with
      | cons hc ht => exact cons_mem_glob_atom_cons.mpr ⟨hc, ih ht⟩

theorem length_atoms_le (h : x ∈ glob f ps) : (atoms ps).length ≤ x.length := by
  induction ps generalizing x with
  | nil => simp
  | cons p ps ih =>
    cases p with
    | none =>
      obtain ⟨y, hy, h⟩ := mem_glob_star_cons.mp h
      exact (ih h).trans ((mem_tails _ _).mp hy).length_le
    | some b =>
      obtain ⟨c, y, rfl, -, h⟩ := mem_glob_atom_cons.mp h
      simpa using ih h

/-- A shortest text of the pattern has one letter for each atom. -/
theorem forall₂_of_mem_glob (h : x ∈ glob f ps) (hl : x.length = (atoms ps).length) :
    List.Forall₂ (fun c b => c ∈ f b) x (atoms ps) := by
  induction ps generalizing x with
  | nil =>
    rw [mem_glob_nil.mp h]
    exact .nil
  | cons p ps ih =>
    cases p with
    | none =>
      obtain ⟨y, hy, hmem⟩ := mem_glob_star_cons.mp h
      have hs : y <:+ x := (mem_tails _ _).mp hy
      -- nothing is left for the star: what follows needs all the letters
      have hlen : y.length = x.length := by
        have := length_atoms_le hmem
        have := hs.length_le
        simp only [atoms_star_cons] at hl
        omega
      rw [hs.eq_of_length hlen] at hmem
      exact ih hmem hl
    | some b =>
      obtain ⟨c, y, rfl, hc, h⟩ := mem_glob_atom_cons.mp h
      exact .cons hc (ih h (by simpa using hl))

/-- A pattern has no texts once one of its atoms has no letters. -/
theorem not_mem_glob_of_empty (hb : b ∈ atoms ps) (he : f b = ∅) : x ∉ glob f ps := by
  induction ps generalizing x with
  | nil => simp at hb
  | cons p ps ih =>
    cases p with
    | none =>
      rw [mem_glob_star_cons]
      rintro ⟨y, -, h⟩
      exact ih hb h
    | some b' =>
      rw [mem_glob_atom_cons]
      rintro ⟨c, y, -, hc, h⟩
      rcases mem_cons.mp hb with rfl | hb
      · simp [he] at hc
      · exact ih hb h

theorem mem_glob_congr (h : ∀ b ∈ atoms ps, ∀ c ∈ x, c ∈ f b ↔ c ∈ g b) :
    x ∈ glob f ps ↔ x ∈ glob g ps := by
  induction ps generalizing x with
  | nil => rfl
  | cons p ps ih =>
    cases p with
    | none =>
      rw [mem_glob_star_cons, mem_glob_star_cons]
      refine exists_congr fun y => and_congr_right fun hy => ih fun b hb c hc => h b hb c ?_
      exact ((mem_tails _ _).mp hy).subset hc
    | some b =>
      rw [mem_glob_atom_cons, mem_glob_atom_cons]
      refine exists_congr fun c => exists_congr fun y => and_congr_right fun hx => ?_
      subst hx
      exact and_congr (h b (by simp) c (by simp))
        (ih fun b' hb c' hc => h b' (by simp [hb]) c' (by simp [hc]))

/-- The letters of a set that a text over `A` may use. -/
def within (A : Set α) (f : β → Set α) (b : β) : Set α := f b ∩ A

theorem mem_glob_within {A : Set α} (hx : ∀ c ∈ x, c ∈ A) :
    x ∈ glob (within A f) ps ↔ x ∈ glob f ps :=
  mem_glob_congr fun _ _ c hc => ⟨fun h => h.1, fun h => ⟨h, hx c hc⟩⟩

theorem letters_within {A : Set α} {bs : List β}
    (h : List.Forall₂ (fun c b => c ∈ within A f b) x bs) : ∀ c ∈ x, c ∈ A := by
  induction h with
  | nil => simp
  | cons hc _ ih =>
    intro d hd
    rcases mem_cons.mp hd with rfl | hd
    · exact hc.2
    · exact ih d hd

/-- An atom whose letters the one meaning has and the other has not shows in a shortest
text, if there is any text at all. -/
theorem atoms_agree {A : Set α} (hne : ∀ b ∈ atoms ps, (within A f b).Nonempty)
    (h : ∀ x : List α, (∀ c ∈ x, c ∈ A) → x ∈ glob f ps → x ∈ glob g ps) :
    ∀ b ∈ atoms ps, within A f b ⊆ within A g b := by
  intro b hb c hc
  obtain ⟨l₁, l₂, hl⟩ := mem_iff_append.mp hb
  -- one letter for every other atom, and `c` for this one
  have pick : ∀ l : List β, (∀ b ∈ l, (within A f b).Nonempty) →
      ∃ x, List.Forall₂ (fun c b => c ∈ within A f b) x l := by
    intro l hl
    induction l with
    | nil => exact ⟨[], .nil⟩
    | cons b l ih =>
      obtain ⟨c, hc⟩ := hl b (by simp)
      obtain ⟨x, hx⟩ := ih fun b' hb => hl b' (by simp [hb])
      exact ⟨c :: x, .cons hc hx⟩
  obtain ⟨x₁, h₁⟩ := pick l₁ fun b hb => hne b (by simp [hl, hb])
  obtain ⟨x₂, h₂⟩ := pick l₂ fun b hb => hne b (by simp [hl, hb])
  have hx : List.Forall₂ (fun c b => c ∈ within A f b) (x₁ ++ c :: x₂) (atoms ps) := by
    rw [hl]
    exact rel_append h₁ (.cons hc h₂)
  have hA : ∀ d ∈ x₁ ++ c :: x₂, d ∈ A := letters_within hx
  have hg := h _ hA ((mem_glob_within hA).mp (mem_glob_of_forall₂ hx))
  have hg := forall₂_of_mem_glob ((mem_glob_within hA).mpr hg) hx.length_eq
  rw [hl] at hg
  have hlen : x₁.length = l₁.length := h₁.length_eq
  have := forall₂_iff_get.mp hg |>.2 x₁.length (by simp) (by simp [hlen])
  simpa [hlen] using this

/-- Two meanings of the atoms give a pattern the same texts over `A` exactly if every
atom has the same letters under both, unless the pattern has no texts under either. -/
theorem agree_iff {A : Set α} :
    (∀ x : List α, (∀ c ∈ x, c ∈ A) → (x ∈ glob f ps ↔ x ∈ glob g ps)) ↔
      (∀ b ∈ atoms ps, within A f b = within A g b) ∨
        (∃ b ∈ atoms ps, within A f b = ∅) ∧ ∃ b ∈ atoms ps, within A g b = ∅ := by
  constructor
  · intro h
    have back : ∀ {f g : β → Set α},
        (∀ x : List α, (∀ c ∈ x, c ∈ A) → (x ∈ glob f ps ↔ x ∈ glob g ps)) →
        (∃ b ∈ atoms ps, within A g b = ∅) → ∃ b ∈ atoms ps, within A f b = ∅ := by
      intro f g h hg
      by_contra hf
      push Not at hf
      obtain ⟨b, hb, he⟩ := hg
      have := atoms_agree hf (fun x hx => (h x hx).mp) b hb
      rw [he, Set.subset_empty_iff] at this
      exact (hf b hb).ne_empty this
    by_cases hf : ∃ b ∈ atoms ps, within A f b = ∅
    · exact .inr ⟨hf, back (fun x hx => (h x hx).symm) hf⟩
    · have hg : ¬ ∃ b ∈ atoms ps, within A g b = ∅ := fun hg => hf (back h hg)
      push Not at hf hg
      exact .inl fun b hb => Set.Subset.antisymm
        (atoms_agree hf (fun x hx => (h x hx).mp) b hb)
        (atoms_agree hg (fun x hx => (h x hx).mpr) b hb)
  · rintro (h | ⟨⟨b, hb, he⟩, b', hb', he'⟩) x hx
    · rw [← mem_glob_within hx, ← mem_glob_within (f := g) hx]
      exact mem_glob_congr fun b hb c _ => by rw [h b hb]
    · rw [← mem_glob_within hx, ← mem_glob_within (f := g) hx]
      exact iff_of_false (not_mem_glob_of_empty hb he) (not_mem_glob_of_empty hb' he')

end Wildcard

end AxlSdk
