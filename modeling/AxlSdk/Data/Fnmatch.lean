import AxlSdk.Data.Ucs2
import AxlSdk.Lib.Glob

/-!
# Glob matching (`axl-str.c`)

`axl_fnmatch` reads the pattern as it goes: a star tries every suffix of the text, a
bracket expression has a parser of its own.

- `axlFnmatch`: the matcher, for a target whose `char` is signed or not.
- `tokens`, `denotation`: what a pattern is, and the texts it stands for.
- `fnmatch_iff`: on which patterns the matcher is right on every target.

The bytes of a range are compared as `char`, not as `unsigned char`; on x64 a byte from
`0x80` on is negative.
-/

namespace AxlSdk

namespace Fnmatch

open Wildcard Ucs2

/-- Whether `char` is signed on the target: it is on x64 and is not on aarch64. -/
inductive CharSign
  | signed
  | unsigned

/-- The value of a `char`. -/
def CharSign.value : CharSign → UInt8 → Int
  | .unsigned, b => b.toNat
  | .signed, b => if b.toNat < 0x80 then b.toNat else (b.toNat : Int) - 0x100

def STAR : UInt8 := 42
def QUESTION : UInt8 := 63
def OPEN : UInt8 := 91
def CLOSE : UInt8 := 93
def BANG : UInt8 := 33
def CARET : UInt8 := 94
def DASH : UInt8 := 45

/-- The loop over the items of a bracket expression: whether one of them is `c`, and the
pattern behind the expression. -/
def bracketLoop (sign : CharSign) (c : UInt8) (matched : Bool) :
    List UInt8 → Bool × List UInt8
  | [] => (matched, [])
  | lo :: p =>
    if lo = CLOSE then (matched, p)
    else
      match p with
      | dash :: hi :: p' =>
        if dash = DASH ∧ hi ≠ CLOSE then
          bracketLoop sign c
            (matched || decide (sign.value lo ≤ sign.value c ∧ sign.value c ≤ sign.value hi)) p'
        else bracketLoop sign c (matched || c == lo) (dash :: hi :: p')
      | p => bracketLoop sign c (matched || c == lo) p
termination_by p => p.length

/-- The optional `!` or `^` of a bracket expression. -/
def readInvert : List UInt8 → Bool × List UInt8
  | [] => (false, [])
  | b :: p => if b = BANG ∨ b = CARET then (true, p) else (false, b :: p)

theorem readInvert_length (p : List UInt8) : (readInvert p).2.length ≤ p.length := by
  unfold readInvert
  split
  · simp
  · split <;> simp

section

variable {sign : CharSign} {c lo hi : UInt8} {m : Bool} {p : List UInt8}

theorem bracketLoop_range (h : lo ≠ CLOSE) (hhi : hi ≠ CLOSE) :
    bracketLoop sign c m (lo :: DASH :: hi :: p) = bracketLoop sign c
      (m || decide (sign.value lo ≤ sign.value c ∧ sign.value c ≤ sign.value hi)) p := by
  rw [bracketLoop, if_neg h]
  exact if_pos ⟨rfl, hhi⟩

theorem bracketLoop_byte (h : lo ≠ CLOSE) (hp : ∀ hi w, p = DASH :: hi :: w → hi = CLOSE) :
    bracketLoop sign c m (lo :: p) = bracketLoop sign c (m || c == lo) p := by
  match p with
  | [] => simp [bracketLoop, h]
  | [_] => simp [bracketLoop, h]
  | dash :: hi :: w =>
    rw [bracketLoop, if_neg h]
    exact if_neg fun hand => hand.2 (hp hi w (by rw [hand.1]))

/-- The items of a bracket expression one after the other; a `-` before `]` is an item. -/
theorem bracket_induction {motive : List UInt8 → Prop} (nil : motive [])
    (close : ∀ p, motive (CLOSE :: p))
    (range : ∀ lo hi p, lo ≠ CLOSE → hi ≠ CLOSE → motive p → motive (lo :: DASH :: hi :: p))
    (byte : ∀ lo p, lo ≠ CLOSE → (∀ hi w, p = DASH :: hi :: w → hi = CLOSE) → motive p →
      motive (lo :: p)) : ∀ p, motive p
  | [] => nil
  | lo :: p => by
    by_cases h : lo = CLOSE
    · exact h ▸ close p
    · by_cases hp : ∃ hi w, p = DASH :: hi :: w ∧ hi ≠ CLOSE
      · obtain ⟨hi, w, rfl, hhi⟩ := hp
        exact range lo hi w h hhi (bracket_induction nil close range byte w)
      · exact byte lo p h (fun hi w he => by_contra fun hhi => hp ⟨hi, w, he, hhi⟩)
          (bracket_induction nil close range byte p)
termination_by p => p.length

/-- The loop leaves what follows the first `]`. -/
theorem bracketLoop_snd (sign : CharSign) (c : UInt8) (m : Bool) (p : List UInt8) :
    (bracketLoop sign c m p).2 = (p.dropWhile (· != CLOSE)).drop 1 := by
  induction p using bracket_induction generalizing m with
  | nil => simp [bracketLoop]
  | close p =>
    unfold bracketLoop
    simp
  | range lo hi p h hhi ih =>
    have hd : DASH ≠ CLOSE := by decide
    rw [bracketLoop_range h hhi, ih]
    simp [h, hd, hhi]
  | byte lo p h hp ih =>
    rw [bracketLoop_byte h hp, ih]
    simp [h]

end

theorem bracketLoop_length (sign : CharSign) (c : UInt8) (m : Bool) (p : List UInt8) :
    (bracketLoop sign c m p).2.length ≤ p.length := by
  rw [bracketLoop_snd, List.length_drop]
  have := (List.dropWhile_suffix (· != CLOSE) (l := p)).length_le
  omega

/-- `fnmatch_impl` -/
def fnmatchImpl (sign : CharSign) (p s : List UInt8) : Bool :=
  match p with
  | [] => s.isEmpty
  | b :: p =>
    if b = STAR then
      let p' := p.dropWhile (· == STAR)
      if p'.isEmpty then true else s.tails.any (fnmatchImpl sign p')
    else
      match s with
      | [] => false
      | c :: s =>
        if b = QUESTION then fnmatchImpl sign p s
        else if b = OPEN then
          let inv := readInvert p
          let r := bracketLoop sign c false inv.2
          if r.1 == inv.1 then false else fnmatchImpl sign r.2 s
        else if b ≠ c then false
        else fnmatchImpl sign p s
termination_by p.length
decreasing_by
  · have := (List.dropWhile_suffix (· == STAR) (l := p)).length_le
    simp only [List.length_cons]
    omega
  · simp
  · have := bracketLoop_length sign c false (readInvert p).2
    have := readInvert_length p
    simp only [List.length_cons]
    omega
  · simp

/-- `axl_fnmatch` -/
def axlFnmatch (sign : CharSign) (pattern string : Option CString) : Bool :=
  match pattern, string with
  | some p, some s => fnmatchImpl sign p.bytes s.bytes
  | _, _ => false

/-! ## What a pattern means -/

/-- What may stand in a bracket expression. -/
inductive Item
  | byte (b : UInt8)
  | range (lo hi : UInt8)

/-- The items between the brackets. -/
def itemsOf : List UInt8 → List Item
  | [] => []
  | [b] => [.byte b]
  | [b, b'] => [.byte b, .byte b']
  | lo :: dash :: hi :: rest =>
    if dash = DASH then .range lo hi :: itemsOf rest else .byte lo :: itemsOf (dash :: hi :: rest)
termination_by p => p.length

/-- What stands for one byte of the text. -/
inductive Atom
  | any
  | bracket (invert : Bool) (items : List Item)
  | byte (b : UInt8)

/-- The places of a pattern; `none` is the star. The items of a bracket expression run
to the first `]`, or to the end of the pattern. -/
def tokens (p : List UInt8) : List (Option Atom) :=
  match p with
  | [] => []
  | b :: p =>
    if b = STAR then none :: tokens p
    else if b = QUESTION then some .any :: tokens p
    else if b = OPEN then
      let inv := readInvert p
      some (.bracket inv.1 (itemsOf (inv.2.takeWhile (· != CLOSE)))) ::
        tokens ((inv.2.dropWhile (· != CLOSE)).drop 1)
    else some (.byte b) :: tokens p
termination_by p.length
decreasing_by
  · simp
  · simp
  · have := (List.dropWhile_suffix (· != CLOSE) (l := (readInvert p).2)).length_le
    have := readInvert_length p
    simp only [List.length_drop, List.length_cons]
    omega
  · simp

/-- The bytes of an item, where the ends of a range are compared by `value`. -/
def Item.bytes (value : UInt8 → Int) : Item → Set UInt8
  | .byte b => {b}
  | .range lo hi => {c | value lo ≤ value c ∧ value c ≤ value hi}

/-- The bytes an atom stands for. -/
def Atom.bytes (value : UInt8 → Int) : Atom → Set UInt8
  | .any => Set.univ
  | .byte b => {b}
  | .bracket false items => {c | ∃ i ∈ items, c ∈ i.bytes value}
  | .bracket true items => {c | ¬ ∃ i ∈ items, c ∈ i.bytes value}

/-- The texts a pattern stands for; bytes are ordered as unsigned values. -/
def denotation (p : List UInt8) : Language UInt8 :=
  glob (Atom.bytes CharSign.unsigned.value) (tokens p)

/-! ## The matcher -/

theorem itemsOf_range (lo hi : UInt8) (w : List UInt8) :
    itemsOf (lo :: DASH :: hi :: w) = .range lo hi :: itemsOf w := by
  rw [itemsOf, if_pos rfl]

theorem itemsOf_byte {lo : UInt8} {w : List UInt8} (h : ∀ hi w', w ≠ DASH :: hi :: w') :
    itemsOf (lo :: w) = .byte lo :: itemsOf w := by
  match w with
  | [] => simp [itemsOf]
  | [b] => simp [itemsOf]
  | dash :: hi :: rest =>
    have hd : dash ≠ DASH := fun hd => h hi rest (by rw [hd])
    rw [itemsOf, if_neg hd]

/-- The loop goes over the items up to the first `]`. -/
theorem bracketLoop_fst (sign : CharSign) (c : UInt8) (matched : Bool) (p : List UInt8) :
    (bracketLoop sign c matched p).1 = true ↔
      matched = true ∨ ∃ i ∈ itemsOf (p.takeWhile (· != CLOSE)), c ∈ i.bytes sign.value := by
  induction p using bracket_induction generalizing matched with
  | nil => simp [bracketLoop, itemsOf]
  | close p =>
    unfold bracketLoop
    simp [itemsOf]
  | range lo hi p h hhi ih =>
    have hw : (lo :: DASH :: hi :: p).takeWhile (· != CLOSE) =
        lo :: DASH :: hi :: p.takeWhile (· != CLOSE) := by
      have hd : DASH ≠ CLOSE := by decide
      simp [h, hd, hhi]
    rw [bracketLoop_range h hhi, hw, itemsOf_range, ih]
    simp [Item.bytes, or_assoc]
  | byte lo p h hp ih =>
    have hw : (lo :: p).takeWhile (· != CLOSE) = lo :: p.takeWhile (· != CLOSE) := by
      simp [h]
    rw [bracketLoop_byte h hp, hw, itemsOf_byte, ih]
    · simp [Item.bytes, or_assoc]
    · -- what is taken before `]` starts with `-` and a byte only if the text does
      intro hi' w' he
      obtain ⟨r, hr⟩ := List.takeWhile_prefix (· != CLOSE) (l := p)
      rw [he] at hr
      have hmem : hi' ∈ p.takeWhile (· != CLOSE) := by simp [he]
      simpa [hp hi' (w' ++ r) hr.symm] using List.mem_takeWhile_imp hmem

/-- A bracket expression lets a byte through exactly if it stands for it. -/
theorem bracket_admits (sign : CharSign) (c : UInt8) (invert : Bool) (p : List UInt8) :
    ((bracketLoop sign c false p).1 == invert) = false ↔
      c ∈ (Atom.bracket invert (itemsOf (p.takeWhile (· != CLOSE)))).bytes sign.value := by
  have h := bracketLoop_fst sign c false p
  cases invert with
  | false => simpa [Atom.bytes] using h
  | true =>
    simp only [Atom.bytes, Set.mem_ofPred_eq, beq_eq_false_iff_ne, ne_eq]
    rw [h]
    simp

theorem tokens_star (p : List UInt8) : tokens (STAR :: p) = none :: tokens p := by
  rw [tokens, if_pos rfl]

theorem tokens_question (p : List UInt8) : tokens (QUESTION :: p) = some .any :: tokens p := by
  rw [tokens, if_neg (by decide), if_pos rfl]

theorem tokens_open (p : List UInt8) :
    tokens (OPEN :: p) =
      some (.bracket (readInvert p).1 (itemsOf ((readInvert p).2.takeWhile (· != CLOSE)))) ::
        tokens (((readInvert p).2.dropWhile (· != CLOSE)).drop 1) := by
  rw [tokens, if_neg (by decide), if_neg (by decide), if_pos rfl]

theorem tokens_byte {b : UInt8} (h₁ : b ≠ STAR) (h₂ : b ≠ QUESTION) (h₃ : b ≠ OPEN)
    (p : List UInt8) : tokens (b :: p) = some (.byte b) :: tokens p := by
  rw [tokens, if_neg h₁, if_neg h₂, if_neg h₃]

/-- A text that has come to its end is turned away by all but a star. -/
theorem nil_not_mem_glob {f : Atom → Set UInt8} {b : UInt8} (hb : b ≠ STAR) (p : List UInt8) :
    [] ∉ glob f (tokens (b :: p)) := by
  by_cases h₂ : b = QUESTION
  · rw [h₂, tokens_question]
    exact nil_not_mem_glob_atom_cons
  by_cases h₃ : b = OPEN
  · rw [h₃, tokens_open]
    exact nil_not_mem_glob_atom_cons
  rw [tokens_byte hb h₂ h₃]
  exact nil_not_mem_glob_atom_cons

/-- A run of stars is one star. -/
theorem mem_glob_stars {f : Atom → Set UInt8} {x p : List UInt8} :
    x ∈ glob f (none :: tokens p) ↔
      x ∈ glob f (none :: tokens (p.dropWhile (· == STAR))) := by
  induction p with
  | nil => rfl
  | cons b p ih =>
    by_cases hb : b = STAR
    · subst hb
      rw [tokens_star, mem_glob_star_star, ih]
      simp
    · simp [hb]

/-- The matcher, against the language in which bytes have the order of the target. -/
theorem fnmatchImpl_iff (sign : CharSign) (p s : List UInt8) :
    fnmatchImpl sign p s = true ↔ s ∈ glob (Atom.bytes sign.value) (tokens p) := by
  fun_induction fnmatchImpl sign p s with
  | case1 s => simp [tokens, mem_glob_nil]
  | case2 s p p' hp =>
    have hp : p.dropWhile (· == STAR) = [] := List.isEmpty_iff.mp hp
    rw [tokens_star, mem_glob_stars, hp]
    simp [tokens, mem_glob_star]
  | case3 s p p' hp ih =>
    rw [tokens_star, mem_glob_stars, mem_glob_star_cons, List.any_eq_true]
    exact exists_congr fun y => and_congr_right fun _ => ih y
  | case4 b p hb => simp [nil_not_mem_glob hb]
  | case5 p c s hb ih =>
    rw [tokens_question, cons_mem_glob_atom_cons, ih]
    simp [Atom.bytes]
  | case6 p c s inv r h hb₁ hb₂ =>
    have hc := bracket_admits sign c inv.1 inv.2
    rw [tokens_open, cons_mem_glob_atom_cons, ← hc]
    simp [show (bracketLoop sign c false inv.2).1 == inv.1 from h]
  | case7 p c s inv r h hb₁ hb₂ ih =>
    have hc := bracket_admits sign c inv.1 inv.2
    have hr : r.2 = (inv.2.dropWhile (· != CLOSE)).drop 1 := bracketLoop_snd sign c false inv.2
    rw [tokens_open, cons_mem_glob_atom_cons, ← hc, ih, hr]
    simp only [Bool.not_eq_true] at h
    simp [show ((bracketLoop sign c false inv.2).1 == inv.1) = false from h, inv]
  | case8 b p hb c s h₂ h₃ hne =>
    rw [tokens_byte hb h₂ h₃, cons_mem_glob_atom_cons]
    simp [Atom.bytes, hne.symm]
  | case9 b p hb c s h₂ h₃ he ih =>
    rw [tokens_byte hb h₂ h₃, cons_mem_glob_atom_cons, ih]
    simp [Atom.bytes, not_not.mp he]

/-! ## The order of the target -/

/-- An atom that lets the same bytes through on every target. -/
def Atom.Even (a : Atom) : Prop :=
  ∀ c ≠ 0, c ∈ a.bytes CharSign.signed.value ↔ c ∈ a.bytes CharSign.unsigned.value

/-- An atom that lets no byte through. -/
def Atom.Void (sign : CharSign) (a : Atom) : Prop := ∀ c ≠ 0, c ∉ a.bytes sign.value

theorem within_eq_iff (a : Atom) :
    within {c | c ≠ 0} (Atom.bytes CharSign.signed.value) a =
      within {c | c ≠ 0} (Atom.bytes CharSign.unsigned.value) a ↔ a.Even := by
  rw [Set.ext_iff]
  refine forall_congr' fun c => ?_
  simp only [within, Set.mem_inter_iff, Set.mem_ofPred_eq]
  tauto

theorem within_eq_empty_iff (sign : CharSign) (a : Atom) :
    within {c | c ≠ 0} (Atom.bytes sign.value) a = ∅ ↔ a.Void sign := by
  rw [Set.eq_empty_iff_forall_notMem]
  refine forall_congr' fun c => ?_
  simp only [within, Set.mem_inter_iff, Set.mem_ofPred_eq]
  tauto

/-- The matcher gives every text the right answer, whatever `char` is, exactly for the
patterns whose bracket expressions do not depend on that, and for those that match
nothing either way. -/
theorem fnmatch_iff (pattern : CString) :
    (∀ (sign : CharSign) (string : CString),
        axlFnmatch sign (some pattern) (some string) = true ↔
          string.bytes ∈ denotation pattern.bytes) ↔
      (∀ a ∈ atoms (tokens pattern.bytes), a.Even) ∨
        (∃ a ∈ atoms (tokens pattern.bytes), a.Void .signed) ∧
          ∃ a ∈ atoms (tokens pattern.bytes), a.Void .unsigned := by
  have h := @agree_iff _ _ (Atom.bytes CharSign.signed.value)
    (Atom.bytes CharSign.unsigned.value) (tokens pattern.bytes) {c : UInt8 | c ≠ 0}
  simp only [within_eq_iff, within_eq_empty_iff] at h
  rw [← h]
  simp only [axlFnmatch, fnmatchImpl_iff]
  constructor
  · intro h x hx
    exact h .signed ⟨x, fun h0 => hx 0 h0 rfl⟩
  · intro h sign s
    cases sign with
    | signed => exact h s.bytes fun c hc h0 => s.noNul (h0 ▸ hc)
    | unsigned => rfl

/-- `[a-é]` in UTF-8, and `b`. -/
theorem range_to_accent_fails :
    ¬ ∀ (sign : CharSign) (pattern string : CString),
      axlFnmatch sign (some pattern) (some string) = true ↔
        string.bytes ∈ denotation pattern.bytes := by
  intro h
  have h := h .signed ⟨[OPEN, 0x61, DASH, 0xC3, 0xA9, CLOSE], by decide⟩ ⟨[0x62], by decide⟩
  rw [ denotation, ← fnmatchImpl_iff] at h
  simp [axlFnmatch, fnmatchImpl, bracketLoop, readInvert, CharSign.value, OPEN, STAR, QUESTION,
    DASH, CLOSE, BANG, CARET] at h

end Fnmatch

end AxlSdk
