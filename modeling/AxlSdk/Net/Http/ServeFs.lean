import AxlSdk.Util.Path

/-!
# Served paths (`src/net/axl-http-serve-fs.c`)

`fs_map` turns a request path into a path below the mount: `axl_path_resolve` normalizes it
against `/`, and what is left is put behind the root, with `\` for `/`. The two buffers hold
512 bytes each. The one that the path is read into cuts a longer path without a word.

- `normal`: the lexical normalization of a request path, without any buffer.
- `Contained root rel out`: `out` is the root followed by the components of `normal rel`.
- `serve_contained_iff`: when every answer of `fs_map` is contained.
-/

namespace AxlSdk

namespace ServeFs

open Paths List

/-! ## The functions -/

/-- `MAX_COMPONENTS` -/
def maxComponents : Nat := 64

/-- `sizeof(work)`, and `FS_PATH_MAX`, the size of `norm`. -/
def pathMax : Nat := 512

/-- The combined path in `work`. -/
def combine (base relative : Path) : Path :=
  if relative.head?.any isSep then relative.take (pathMax - 1)
  else
    let work := base.take (pathMax - 1)
    let work :=
      if 0 < work.length ∧ endsInSep work = false ∧ work.length < pathMax - 1 then work ++ [47]
      else work
    work ++ relative.take (pathMax - 1 - work.length)

/-- The loop of `axl_path_resolve` over the components; the stack has its top in front. A
turn reads at least one byte. -/
def resolveLoop (hasRoot : Bool) : Nat → Path → List Path → Option (List Path)
  | 0, _, stack => some stack
  | _ + 1, [], stack => some stack
  | fuel + 1, c :: src, stack =>
    if isSep c then resolveLoop hasRoot fuel src stack
    else
      let comp := c :: src.takeWhile fun d => !isSep d
      -- the separator behind the component is skipped with it
      let src := (src.dropWhile fun d => !isSep d).drop 1
      if comp = [46] then resolveLoop hasRoot fuel src stack
      else if comp = [46, 46] then
        match stack with
        | _ :: stack => resolveLoop hasRoot fuel src stack
        | [] => if hasRoot then none else resolveLoop hasRoot fuel src []
      else if stack.length ≥ maxComponents then none
      else resolveLoop hasRoot fuel src (comp :: stack)

/-- The loop that writes the components behind `out`, with a separator in front of all but
the first. -/
def rebuildLoop (size : Nat) : Bool → List Path → Path → Option Path
  | _, [], out => some out
  | first, comp :: comps, out =>
    if !first && decide (out.length ≥ size) then none
    else
      let out := if first then out else out ++ [47]
      if out.length + comp.length ≥ size then none
      else rebuildLoop size false comps (out ++ comp.map fun c => if isSep c then 47 else c)

/-- The normalized path in `out`. -/
def rebuild (size : Nat) (hasRoot : Bool) (comps : List Path) : Option Path :=
  if hasRoot && decide (0 ≥ size) then none
  else
    match rebuildLoop size true comps (if hasRoot then [47] else []) with
    | none => none
    | some [] => if size < 2 then none else some [46]
    | some out => if out.length ≥ size then none else some out

/-- `axl_path_resolve` -/
def axlPathResolve (base relative : Path) (size : Nat) : Option Path :=
  if size = 0 then none
  else
    let work := combine base relative
    let hasRoot := work.head?.any isSep
    match resolveLoop hasRoot work.length (if hasRoot then work.drop 1 else work) [] with
    | none => none
    | some stack => rebuild size hasRoot stack.reverse

/-- A loop of `fs_map` that copies behind `out`. -/
def copyLoop (size : Nat) : Path → Path → Option Path
  | [], out => some out
  | c :: p, out => if out.length + 1 ≥ size then none else copyLoop size p (out ++ [c])

/-- The second half of `fs_map`: the root and the normalized path, into a buffer of `size`
bytes. -/
def copyNorm (root norm : Path) (size : Nat) : Option Path :=
  match copyLoop size root [] with
  | none => none
  | some out =>
    -- the mount root itself appends nothing
    if norm = [47] then some out
    else copyLoop size (norm.map fun c => if c = 47 then 92 else c) out

/-- `fs_map` -/
def fsMap (root rel : Path) (size : Nat) : Option Path :=
  match axlPathResolve [47] rel pathMax with
  | none => none
  | some norm => copyNorm root norm size

/-! ## What is meant -/

/-- The names between the separators of a path. -/
def names (p : Path) : List Path := (p.splitOnP isSep).filter fun c => decide (c ≠ [])

/-- A stack of components, its top in front, after some names: `.` stays, `..` goes up. -/
def walk : List Path → List Path → Option (List Path)
  | [], stack => some stack
  | comp :: comps, stack =>
    if comp = [46] then walk comps stack
    else if comp = [46, 46] then
      match stack with
      | _ :: stack => walk comps stack
      | [] => none
    else walk comps (comp :: stack)

/-- The lexical normalization of a path rooted at `/`, if it does not leave it. -/
def normal (p : Path) : Option (List Path) := (walk (names p) []).map List.reverse

/-- The root followed by the components of the whole path, with `\` in front of each. -/
def Contained (root rel out : Path) : Prop :=
  ∃ comps, normal rel = some comps ∧ (∀ c ∈ comps, Component c) ∧
    out = root ++ (comps.map (92 :: ·)).flatten

/-- The deepest that the names of a path go, from a given depth. -/
def peak : List Path → Nat → Nat
  | [], depth => depth
  | comp :: comps, depth =>
    if comp = [46] then peak comps depth
    else if comp = [46, 46] then max depth (peak comps (depth - 1))
    else peak comps (depth + 1)

/-- A request path, rooted at `/`. -/
def rooted (rel : Path) : Path := if rel.head?.any isSep then rel else 47 :: rel

/-- What `work` holds of it. -/
def cut (rel : Path) : Path := (rooted rel).take (pathMax - 1)

/-- Components with a separator in front of all but the first. -/
def joined : Bool → List Path → Path
  | _, [] => []
  | first, comp :: comps => (if first then [] else [47]) ++ comp ++ joined false comps

/-- The components behind the root. -/
def behind (root : Path) (comps : List Path) : Path := root ++ (comps.map (92 :: ·)).flatten

/-- The path stays within `/`, within the component stack and within the buffers. -/
def Admitted (root p : Path) (size : Nat) : Prop :=
  ∃ comps, normal p = some comps ∧ peak (names p) 0 ≤ maxComponents ∧
    (joined true comps).length + 1 < pathMax ∧
    (behind root comps = [] ∨ (behind root comps).length < size)

/-! ## Names -/

variable {p : Path}

theorem names_sep {c : UInt8} (h : isSep c = true) : names (c :: p) = names p := by
  rw [names, splitOnP_cons, if_pos h, filter_cons_of_neg (by simp)]
  rfl

theorem names_word {word : Path} (hne : word ≠ []) (hword : ∀ c ∈ word, isSep c = false) :
    names word = [word] := by
  rw [names, splitOnP_eq_singleton hword, filter_cons_of_pos (by simpa using hne)]
  rfl

theorem names_word_sep {word : Path} {c : UInt8} (hne : word ≠ [])
    (hword : ∀ c ∈ word, isSep c = false) (hc : isSep c = true) :
    names (word ++ c :: p) = word :: names p := by
  rw [names, splitOnP_first hword c hc, filter_cons_of_pos (by simpa using hne)]
  rfl

/-- A path that starts with a name. -/
theorem names_cons {c : UInt8} (hc : isSep c = false) :
    names (c :: p) = (c :: p.takeWhile fun d => !isSep d) ::
      names ((p.dropWhile fun d => !isSep d).drop 1) := by
  have hword : ∀ d ∈ c :: p.takeWhile (fun d => !isSep d), isSep d = false := by
    intro d hd
    rcases mem_cons.mp hd with rfl | hd
    · exact hc
    · simpa using mem_takeWhile_imp hd
  have hsplit : c :: p = (c :: p.takeWhile fun d => !isSep d) ++ p.dropWhile fun d => !isSep d := by
    rw [cons_append, takeWhile_append_dropWhile]
  cases hrest : p.dropWhile fun d => !isSep d with
  | nil =>
    rw [hrest, append_nil] at hsplit
    rw [drop_nil, show names [] = [] from rfl, ← hsplit]
    exact names_word (cons_ne_nil _ _) (hsplit ▸ hword)
  | cons s q =>
    have hs : isSep s = true := by
      have hhead := head?_dropWhile_not (fun d => !isSep d) p
      rw [hrest] at hhead
      simpa using hhead
    rw [hrest] at hsplit
    rw [hsplit, names_word_sep (cons_ne_nil _ _) hword hs]
    rfl

theorem mem_names {c : Path} (h : c ∈ names p) : c ≠ [] ∧ ∀ d ∈ c, isSep d = false := by
  induction hn : p.length using Nat.strong_induction_on generalizing p with
  | _ n ih =>
    subst hn
    cases p with
    | nil => cases h
    | cons d p =>
      by_cases hd : isSep d = true
      · rw [names_sep hd] at h
        exact ih _ (Nat.lt_succ_self _) h rfl
      · have hd' : isSep d = false := by simpa using hd
        rw [names_cons hd'] at h
        rcases mem_cons.mp h with rfl | h
        · refine ⟨cons_ne_nil _ _, fun e he => ?_⟩
          rcases mem_cons.mp he with rfl | he
          · exact hd'
          · simpa using mem_takeWhile_imp he
        · refine ih _ ?_ h rfl
          have hle := (dropWhile_sublist (fun d => !isSep d) (l := p)).length_le
          rw [length_drop, length_cons]
          omega

/-! ## The component stack -/

theorem le_peak (comps : List Path) (depth : Nat) : depth ≤ peak comps depth := by
  induction comps generalizing depth with
  | nil => exact Nat.le_refl _
  | cons comp comps ih =>
    rw [peak]
    split
    · exact ih depth
    · split
      · exact Nat.le_max_left _ _
      · exact Nat.le_of_succ_le (ih (depth + 1))

/-- The loop walks over the names, as long as the stack does not overflow. -/
theorem resolveLoop_iff {fuel : Nat} {src : Path} {stack res : List Path}
    (hfuel : src.length ≤ fuel) (hstack : stack.length ≤ maxComponents) :
    resolveLoop true fuel src stack = some res ↔
      walk (names src) stack = some res ∧ peak (names src) stack.length ≤ maxComponents := by
  induction fuel generalizing src stack with
  | zero =>
    have hnil : src = [] := length_eq_zero_iff.mp (Nat.le_zero.mp hfuel)
    subst hnil
    exact (and_iff_left hstack).symm
  | succ fuel ih =>
    cases src with
    | nil => exact (and_iff_left hstack).symm
    | cons c src =>
      rw [length_cons] at hfuel
      rw [resolveLoop]
      by_cases hc : isSep c = true
      · rw [if_pos hc, names_sep hc]
        exact ih (by omega) hstack
      have hrest : ((src.dropWhile fun d => !isSep d).drop 1).length ≤ fuel := by
        have hle := (dropWhile_sublist (fun d => !isSep d) (l := src)).length_le
        rw [length_drop]
        omega
      rw [if_neg hc, names_cons (by simpa using hc)]
      generalize (c :: src.takeWhile fun d => !isSep d) = comp
      generalize (src.dropWhile fun d => !isSep d).drop 1 = src at hrest
      simp only [walk, peak]
      by_cases hdot : comp = [46]
      · simp only [hdot, if_true]
        exact ih hrest hstack
      by_cases hdotdot : comp = [46, 46]
      · -- a step up, that fails at the root
        rw [if_neg hdot, if_neg hdot, if_neg hdot, if_pos hdotdot, if_pos hdotdot, if_pos hdotdot]
        cases stack with
        | nil => simp
        | cons top stack =>
          rw [length_cons] at hstack ⊢
          have hback := ih hrest (show stack.length ≤ maxComponents by omega)
          rw [Nat.add_sub_cancel, Nat.max_le, and_iff_right hstack]
          exact hback
      · simp only [hdot, hdotdot, if_false]
        by_cases hfull : stack.length ≥ maxComponents
        · have hpeak := le_peak (names src) (stack.length + 1)
          rw [if_pos hfull]
          refine ⟨fun h => (by cases h), fun h => ?_⟩
          exact absurd h.2 (by omega)
        · rw [if_neg hfull, ih hrest (by rw [length_cons]; omega)]
          rfl

variable {comps : List Path}

/-- What is left on the stack are components. -/
theorem walk_components {stack res : List Path} (h : walk comps stack = some res)
    (hcomps : ∀ c ∈ comps, c ≠ [] ∧ ∀ d ∈ c, isSep d = false) (hstack : ∀ c ∈ stack, Component c) :
    ∀ c ∈ res, Component c := by
  induction comps generalizing stack with
  | nil =>
    cases h
    exact hstack
  | cons comp comps ih =>
    obtain ⟨⟨hne, hsep⟩, hrest⟩ := forall_mem_cons.mp hcomps
    unfold walk at h
    split at h
    · exact ih h hrest hstack
    next hdot =>
      split at h
      · cases stack with
        | nil => cases h
        | cons top stack => exact ih h hrest (forall_mem_cons.mp hstack).2
      next hdotdot =>
        exact ih h hrest (forall_mem_cons.mpr ⟨⟨hne, hdot, hdotdot, hsep⟩, hstack⟩)

theorem normal_components (h : normal p = some comps) :
    ∀ c ∈ comps, Component c := by
  obtain ⟨res, hres, rfl⟩ := Option.map_eq_some_iff.mp h
  intro c hc
  exact walk_components hres (fun c hc => mem_names hc) (fun c hc => by cases hc) c
    (mem_reverse.mp hc)

/-! ## The buffers -/

variable {size : Nat} {out : Path}

theorem rebuildLoop_eq {first : Bool} (h : ∀ c ∈ comps, Component c) :
    rebuildLoop size first comps out =
      if comps ≠ [] ∧ size ≤ (out ++ joined first comps).length then none
      else some (out ++ joined first comps) := by
  induction comps generalizing first out with
  | nil => simp [rebuildLoop, joined]
  | cons comp comps ih =>
    obtain ⟨hcomp, hrest⟩ := forall_mem_cons.mp h
    have hsame : (comp.map fun c => if isSep c then 47 else c) = comp := by
      refine (map_congr_left fun c hc => ?_).trans (map_id comp)
      rw [hcomp.noSep c hc]
      rfl
    have hlen : ∀ pre : Path, (pre ++ (comp ++ joined false comps)).length
        = pre.length + comp.length + (joined false comps).length := by
      intro pre
      rw [length_append, length_append, Nat.add_assoc]
    have hstep : ∀ pre : Path, (if pre.length + comp.length ≥ size then none
        else rebuildLoop size false comps (pre ++ comp)) =
          if size ≤ (pre ++ (comp ++ joined false comps)).length then none
          else some (pre ++ (comp ++ joined false comps)) := by
      intro pre
      rw [hlen]
      by_cases hover : pre.length + comp.length ≥ size
      · rw [if_pos hover, if_pos (by omega)]
      · rw [if_neg hover, ih hrest, append_assoc, hlen]
        cases comps with
        | nil =>
          rw [if_neg (by simp), if_neg (by simp [joined]; omega)]
        | cons next comps => simp only [ne_eq, reduceCtorEq, not_false_eq_true, true_and]
    simp only [rebuildLoop, joined, hsame, ne_eq, reduceCtorEq, not_false_eq_true, true_and]
    cases first with
    | true =>
      simp only [Bool.not_true, Bool.false_and, Bool.false_eq_true, if_false, if_true,
        nil_append]
      exact hstep out
    | false =>
      simp only [Bool.not_false, Bool.true_and, decide_eq_true_eq, Bool.false_eq_true, if_false]
      rw [append_assoc [47], ← append_assoc out, ← hstep (out ++ [47])]
      by_cases hfull : out.length ≥ size
      · rw [if_pos hfull, if_pos (by rw [length_append]; omega)]
      · rw [if_neg hfull]

theorem rebuild_iff {norm : Path} (h : ∀ c ∈ comps, Component c) :
    rebuild pathMax true comps = some norm ↔
      norm = 47 :: joined true comps ∧ (joined true comps).length + 1 < pathMax := by
  have hsize : pathMax = 512 := rfl
  have hout : ([47] ++ joined true comps : Path) = 47 :: joined true comps := rfl
  rw [rebuild, if_neg (by decide), if_pos rfl, rebuildLoop_eq h, hout, length_cons]
  by_cases hover : comps ≠ [] ∧ pathMax ≤ (joined true comps).length + 1
  · rw [if_pos hover]
    exact ⟨fun h => (by cases h), fun h => absurd hover.2 (Nat.not_le_of_lt h.2)⟩
  · rw [if_neg hover]
    show (if (47 :: joined true comps).length ≥ pathMax then none
      else some (47 :: joined true comps)) = some norm ↔ _
    rw [length_cons]
    by_cases hfull : (joined true comps).length + 1 ≥ pathMax
    · rw [if_pos hfull]
      exact ⟨fun h => (by cases h), fun h => absurd hfull (Nat.not_le_of_lt h.2)⟩
    · rw [if_neg hfull, Option.some.injEq, eq_comm, and_iff_left (by omega)]

theorem copyLoop_iff {res : Path} :
    copyLoop size p out = some res ↔ res = out ++ p ∧ (p = [] ∨ (out ++ p).length < size) := by
  induction p generalizing out with
  | nil =>
    rw [copyLoop, append_nil, Option.some.injEq, eq_comm]
    exact (and_iff_left (.inl rfl)).symm
  | cons c p ih =>
    have happ : out ++ [c] ++ p = out ++ c :: p := by rw [append_assoc, singleton_append]
    have hlen : (out ++ c :: p).length = out.length + 1 + p.length := by
      rw [length_append, length_cons]
      omega
    rw [copyLoop, hlen]
    by_cases hfull : out.length + 1 ≥ size
    · rw [if_pos hfull]
      refine ⟨fun h => (by cases h), fun h => ?_⟩
      rcases h.2 with hnil | hlt
      · cases hnil
      · omega
    · rw [if_neg hfull, ih, happ, hlen]
      refine and_congr_right fun _ => ⟨fun h => ?_, fun h => ?_⟩
      · rcases h with rfl | h
        · exact .inr (by rw [length_nil]; omega)
        · exact .inr h
      · exact .inr (h.resolve_left (cons_ne_nil _ _))

/-! ## The mapped path -/

theorem combine_root (rel : Path) : combine [47] rel = cut rel := by
  rw [combine, cut, rooted]
  split
  · rfl
  · show [47] ++ rel.take 510 = (47 :: rel).take 511
    rfl

theorem cut_cons (rel : Path) : ∃ c p, cut rel = c :: p ∧ isSep c = true := by
  rw [cut, rooted]
  split
  next h =>
    cases rel with
    | nil => cases h
    | cons c p => exact ⟨c, p.take 510, rfl, h⟩
  next => exact ⟨47, rel.take 510, rfl, by decide⟩

theorem axlPathResolve_iff {rel norm : Path} :
    axlPathResolve [47] rel pathMax = some norm ↔ ∃ comps, normal (cut rel) = some comps ∧
      peak (names (cut rel)) 0 ≤ maxComponents ∧ (joined true comps).length + 1 < pathMax ∧
      norm = 47 :: joined true comps := by
  obtain ⟨c, p, hcut, hc⟩ := cut_cons rel
  have hloop : ∀ res, resolveLoop true (c :: p).length p [] = some res ↔
      walk (names (cut rel)) [] = some res ∧ peak (names (cut rel)) 0 ≤ maxComponents := by
    intro res
    rw [hcut, names_sep hc]
    exact resolveLoop_iff (Nat.le_succ _) (Nat.zero_le _)
  rw [axlPathResolve, if_neg (by decide), combine_root, hcut]
  simp only [head?_cons, Option.any_some, hc, if_true, drop_succ_cons, drop_zero]
  rw [← hcut, normal]
  constructor
  · intro h
    split at h
    next => cases h
    next stack hstack =>
      obtain ⟨hwalk, hpeak⟩ := (hloop stack).mp (hcut ▸ hstack)
      have hcomps := normal_components (show normal (cut rel) = some stack.reverse by
        rw [normal, hwalk]
        rfl)
      obtain ⟨rfl, hlen⟩ := (rebuild_iff hcomps).mp h
      exact ⟨stack.reverse, by rw [hwalk]; rfl, hpeak, hlen, rfl⟩
  · rintro ⟨comps, hnormal, hpeak, hlen, rfl⟩
    obtain ⟨stack, hwalk, rfl⟩ := Option.map_eq_some_iff.mp hnormal
    have hcomps := normal_components (show normal (cut rel) = some stack.reverse by
      rw [normal, hwalk]
      rfl)
    rw [hcut, (hloop stack).mpr ⟨hwalk, hpeak⟩]
    exact (rebuild_iff hcomps).mpr ⟨rfl, hlen⟩

/-- The separators that `fs_map` rewrites. -/
theorem map_joined {first : Bool} (h : ∀ c ∈ comps, Component c) :
    (joined first comps).map (fun c => if c = 47 then 92 else c) =
      if first then ((comps.map (92 :: ·)).flatten).drop 1 else (comps.map (92 :: ·)).flatten := by
  induction comps generalizing first with
  | nil => cases first <;> rfl
  | cons comp comps ih =>
    obtain ⟨hcomp, hrest⟩ := forall_mem_cons.mp h
    have hsame : (comp.map fun c => if c = 47 then 92 else c) = comp := by
      refine (map_congr_left fun c hc => ?_).trans (map_id comp)
      refine if_neg ?_
      rintro rfl
      exact absurd (hcomp.noSep 47 hc) (by decide)
    rw [joined, map_append, map_append, hsame, ih hrest]
    cases first <;> rfl

theorem copyNorm_iff {root : Path} (h : ∀ c ∈ comps, Component c) :
    copyNorm root (47 :: joined true comps) size = some out ↔
      out = behind root comps ∧ (behind root comps = [] ∨ (behind root comps).length < size) := by
  have hroot : ∀ o, copyLoop size root [] = some o ↔ o = root ∧ (root = [] ∨ root.length < size) :=
    fun o => copyLoop_iff
  unfold copyNorm
  cases comps with
  | nil =>
    have hbehind : behind root [] = root := append_nil root
    rw [hbehind, ← hroot]
    cases copyLoop size root [] with
    | none => rfl
    | some o => rfl
  | cons comp comps =>
    have hcomp := (forall_mem_cons.mp h).1
    have hne : (47 :: joined true (comp :: comps) : Path) ≠ [47] := by
      have := hcomp.nonempty
      simp [joined, this]
    have hmap : ((47 :: joined true (comp :: comps) : Path).map fun c => if c = 47 then 92 else c)
        = ((comp :: comps).map (92 :: ·)).flatten := by
      rw [map_cons, map_joined h]
      rfl
    have hlong : root.length < (behind root (comp :: comps)).length := by
      rw [behind, length_append, map_cons, flatten_cons, cons_append,
        length_cons]
      omega
    rw [or_iff_right (ne_nil_of_length_pos (Nat.zero_lt_of_lt hlong))]
    cases hcopy : copyLoop size root [] with
    | none =>
      -- not even the root has room
      have hno : ¬ (root = [] ∨ root.length < size) := fun hfits => by
        rw [(hroot root).mpr ⟨rfl, hfits⟩] at hcopy
        cases hcopy
      rw [not_or] at hno
      exact ⟨fun h => (by cases h), fun h => absurd h.2 (by omega)⟩
    | some o =>
      obtain ⟨rfl, -⟩ := (hroot o).mp hcopy
      show (if _ then _ else _) = _ ↔ _
      rw [if_neg hne, hmap, copyLoop_iff, or_iff_right (by simp)]
      rfl

/-- What `fs_map` answers. -/
theorem fsMap_iff {root rel : Path} :
    fsMap root rel size = some out ↔ Admitted root (cut rel) size ∧
      ∃ comps, normal (cut rel) = some comps ∧ out = behind root comps := by
  unfold fsMap
  constructor
  · intro h
    split at h
    next => cases h
    next norm hnorm =>
      obtain ⟨comps, hnormal, hpeak, hlen, rfl⟩ := axlPathResolve_iff.mp hnorm
      obtain ⟨rfl, hfits⟩ := (copyNorm_iff (normal_components hnormal)).mp h
      exact ⟨⟨comps, hnormal, hpeak, hlen, hfits⟩, comps, hnormal, rfl⟩
  · rintro ⟨⟨comps, hnormal, hpeak, hlen, hfits⟩, comps', hnormal', rfl⟩
    cases hnormal.symm.trans hnormal'
    rw [axlPathResolve_iff.mpr ⟨comps, hnormal, hpeak, hlen, rfl⟩]
    exact (copyNorm_iff (normal_components hnormal)).mpr ⟨rfl, hfits⟩

/-! ## Containment -/

/-- The components can be read off a path that is put together from them. -/
theorem names_flatten (h : ∀ c ∈ comps, Component c) :
    names (comps.map (92 :: ·)).flatten = comps := by
  induction comps with
  | nil => rfl
  | cons comp comps ih =>
    obtain ⟨hcomp, hrest⟩ := forall_mem_cons.mp h
    rw [map_cons, flatten_cons, cons_append, names_sep (by decide)]
    cases comps with
    | nil => rw [map_nil, flatten_nil, append_nil,
        names_word hcomp.nonempty hcomp.noSep]
    | cons next comps =>
      rw [map_cons, flatten_cons, cons_append,
        names_word_sep hcomp.nonempty hcomp.noSep (by decide)]
      have hnext := ih hrest
      rw [map_cons, flatten_cons, cons_append, names_sep (by decide)] at hnext
      rw [hnext]

theorem behind_inj {root : Path} {comps' : List Path} (h : ∀ c ∈ comps, Component c)
    (h' : ∀ c ∈ comps', Component c) (heq : behind root comps = behind root comps') :
    comps = comps' := by
  have hflat := append_cancel_left heq
  rw [← names_flatten h, ← names_flatten h', hflat]

/-- **Containment.** What `fs_map` answers is the root with the normalized request path
behind it, exactly when the 511 bytes that are read of that path have the normalization of
all of it, or are refused. -/
theorem serve_contained_iff (root rel : Path) (size : Nat) :
    (∀ out, fsMap root rel size = some out → Contained root rel out) ↔
      (Admitted root (cut rel) size → normal (cut rel) = normal rel) := by
  constructor
  · intro h hadmitted
    obtain ⟨comps, hnormal, -⟩ := id hadmitted
    obtain ⟨comps', hnormal', hcomps', heq⟩ :=
      h (behind root comps) (fsMap_iff.mpr ⟨hadmitted, comps, hnormal, rfl⟩)
    rw [hnormal, hnormal', behind_inj (normal_components hnormal) hcomps' heq]
  · intro h out hout
    obtain ⟨hadmitted, comps, hnormal, rfl⟩ := fsMap_iff.mp hout
    exact ⟨comps, (h hadmitted) ▸ hnormal, normal_components hnormal, rfl⟩

/-- The root `fs0:`, and a path of 512 bytes that ends in `abc`. -/
def longRel : Path := 47 :: ((List.replicate 254 [46, 47]).flatten ++ [97, 98, 99])

/-- The file `ab` is served for it. -/
theorem long_path_cut : fsMap [102, 115, 48, 58] longRel pathMax = some [102, 115, 48, 58, 92, 97, 98]
    ∧ ¬ Contained [102, 115, 48, 58] longRel [102, 115, 48, 58, 92, 97, 98] := by
  have hnormal : normal longRel = some [[97, 98, 99]] := by decide +kernel
  refine ⟨by decide +kernel, ?_⟩
  rintro ⟨comps, hcomps, -, hout⟩
  cases hnormal.symm.trans hcomps
  revert hout
  decide

end ServeFs

end AxlSdk
