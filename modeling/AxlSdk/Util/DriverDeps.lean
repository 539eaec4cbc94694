import AxlSdk.Lib.DepthFirst

/-!
# The driver-dependency walk (`axl-driver-deps.c`)

- `axlDriverDepsLookup`, `depsWalkNode`, `axlDriverDepsWalk`: the table and the walk.
- `walk_visits`: the walk ends, its list never runs full, and it is the depth-first
  walk over the `needs` of the table.
- `deps_walk_iff`: for which targets it keeps all its promises.

The target itself is not marked, so a cycle that comes back to it loads it like any
other dependency.
-/

namespace AxlSdk

namespace DriverDeps

open DepthFirst Relation List

/-- A driver's basename: the bytes before the terminator. -/
abbrev Name := List UInt8

def AXL_DRIVER_DEPS_MAX : Nat := 32
def AXL_DRIVER_DEPS_PER_NODE : Nat := 4
def AXL_DRIVER_DEP_NAME_MAX : Nat := 64

/-- `DEPS_VISITED_MAX` -/
def DEPS_VISITED_MAX : Nat := AXL_DRIVER_DEPS_MAX * AXL_DRIVER_DEPS_PER_NODE

/-- `AxlDriverDepRow`: the names are held in arrays of a fixed size. -/
structure AxlDriverDepRow where
  name : Name
  needs : List Name
  n_needs : needs.length ≤ AXL_DRIVER_DEPS_PER_NODE
  terminated : ∀ n ∈ needs, n.length < AXL_DRIVER_DEP_NAME_MAX

/-- `AxlDriverDeps` -/
structure AxlDriverDeps where
  rows : List AxlDriverDepRow
  n_rows : rows.length ≤ AXL_DRIVER_DEPS_MAX

/-- `axl_driver_deps_lookup` -/
def axlDriverDepsLookup (deps : AxlDriverDeps) (name : Name) : Option AxlDriverDepRow :=
  deps.rows.find? fun row => row.name == name

/-- `AxlDriverDepVisitor`, its `enter` a fixed answer for each name. What `load` does is
the caller's; the walk leaves the list of its calls. -/
structure AxlDriverDepVisitor where
  enter : Option (Name → Bool)

/-- The answer of `enter`; without one, every dependency is brought in. -/
def AxlDriverDepVisitor.accepts (v : AxlDriverDepVisitor) (dep : Name) : Bool :=
  v.enter.elim true (· dep)

/-- The array `visited`, and the calls of `load` so far: the name and its parent. -/
structure WalkState where
  visited : List Name
  loads : List (Name × Name)
  deriving DecidableEq

/-- `axl_strlcpy` into an entry of `visited`. -/
def strlcpy (dep : Name) : Name := dep.take (AXL_DRIVER_DEP_NAME_MAX - 1)

/-- The entry that marks a dependency, if the array has room. -/
def mark (dep : Name) (st : WalkState) : WalkState :=
  if st.visited.length < DEPS_VISITED_MAX then { st with visited := st.visited ++ [strlcpy dep] }
  else st

/-- `deps_walk_node`, with a bound on the depth of the recursion. -/
def depsWalkNode (deps : AxlDriverDeps) (v : AxlDriverDepVisitor) :
    Nat → Name → WalkState → Option WalkState
  | 0, _, _ => none
  | fuel + 1, node, st =>
    match axlDriverDepsLookup deps node with
    | none => some st
    | some row =>
      row.needs.foldlM (fun st dep =>
        if st.visited.contains dep then some st
        else if !v.accepts dep then some st
        else do
          let st ← depsWalkNode deps v fuel dep (mark dep st)
          return { st with loads := st.loads ++ [(dep, node)] }) st

/-- `axl_driver_deps_walk`; no recursion goes deeper than the array is long. -/
def axlDriverDepsWalk (deps : AxlDriverDeps) (target : Name) (v : AxlDriverDepVisitor) :
    Option WalkState :=
  depsWalkNode deps v (DEPS_VISITED_MAX + 1) target ⟨[], []⟩

/-! ## The graph of a table -/

/-- What a driver needs, by the table. -/
def needsOf (deps : AxlDriverDeps) (name : Name) : List Name :=
  (axlDriverDepsLookup deps name).elim [] AxlDriverDepRow.needs

/-- All names that some row needs. -/
def allNeeds (deps : AxlDriverDeps) : List Name := deps.rows.flatMap AxlDriverDepRow.needs

/-- An edge of the walk: a dependency of the table that the visitor accepts. -/
abbrev Needs (deps : AxlDriverDeps) (v : AxlDriverDepVisitor) : Name → Name → Prop :=
  Edge (needsOf deps) v.accepts

variable {deps : AxlDriverDeps} {v : AxlDriverDepVisitor} {node target dep : Name}
  {st st' : WalkState}

theorem allNeeds_length (deps : AxlDriverDeps) : (allNeeds deps).length ≤ DEPS_VISITED_MAX := by
  have h : ∀ rows : List AxlDriverDepRow,
      (rows.flatMap AxlDriverDepRow.needs).length ≤ rows.length * AXL_DRIVER_DEPS_PER_NODE := by
    intro rows
    induction rows with
    | nil => simp
    | cons row rows ih =>
      have := row.n_needs
      simp only [flatMap_cons, length_append, length_cons, Nat.add_mul, Nat.one_mul]
      omega
  exact (h deps.rows).trans (Nat.mul_le_mul_right _ deps.n_rows)

theorem needsOf_subset (deps : AxlDriverDeps) (name : Name) :
    needsOf deps name ⊆ allNeeds deps := by
  intro n hn
  unfold needsOf axlDriverDepsLookup at hn
  cases hrow : deps.rows.find? fun row => row.name == name with
  | none => simp [hrow] at hn
  | some row =>
    rw [hrow] at hn
    exact mem_flatMap.mpr ⟨row, mem_of_find?_eq_some hrow, hn⟩

theorem strlcpy_of_mem (h : dep ∈ allNeeds deps) : strlcpy dep = dep := by
  obtain ⟨row, -, hdep⟩ := mem_flatMap.mp h
  have := row.terminated dep hdep
  exact take_of_length_le (by unfold AXL_DRIVER_DEP_NAME_MAX at *; omega)

/-- The array holds names of the table, each once. -/
structure Marks (deps : AxlDriverDeps) (visited : List Name) : Prop where
  known : visited ⊆ allNeeds deps
  nodup : visited.Nodup

/-- There is room for a name of the table that is not in the array yet. -/
theorem Marks.room (h : Marks deps st.visited) (hdep : dep ∈ allNeeds deps)
    (hnew : dep ∉ st.visited) : st.visited.length < DEPS_VISITED_MAX := by
  have hsub : dep :: st.visited ⊆ allNeeds deps := cons_subset.mpr ⟨hdep, h.known⟩
  have hnd : (dep :: st.visited).Nodup := nodup_cons.mpr ⟨hnew, h.nodup⟩
  have := (hnd.subperm hsub).length_le
  have := allNeeds_length deps
  simp only [length_cons] at *
  omega

theorem Marks.mark (h : Marks deps st.visited) (hdep : dep ∈ allNeeds deps)
    (hnew : dep ∉ st.visited) :
    DriverDeps.mark dep st = { st with visited := st.visited ++ [dep] } ∧
      Marks deps (st.visited ++ [dep]) := by
  refine ⟨by rw [DriverDeps.mark, if_pos (h.room hdep hnew), strlcpy_of_mem hdep], ?_, ?_⟩
  · exact append_subset.mpr ⟨h.known, by simpa using hdep⟩
  · refine nodup_append.mpr ⟨h.nodup, by simp, fun x hx y hy he => hnew ?_⟩
    obtain rfl : y = dep := by simpa using hy
    exact he ▸ hx

/-- The progress of a walk: what is marked, and what `load` has been called for. -/
def WalkState.progress (st : WalkState) : Progress Name := ⟨st.visited, st.loads.map Prod.fst⟩

/-- A walk over marks of the table leaves marks of the table. -/
theorem Marks.visits {ds : List Name} {s s' : Progress Name} (h : Marks deps s.marked)
    (hds : ds ⊆ allNeeds deps) (hv : Visits (needsOf deps) v.accepts ds s s') :
    Marks deps s'.marked := by
  obtain ⟨new, fin, hm, -, -, hnew, hnd⟩ := hv.finished_new
  refine ⟨fun x hx => ?_, ?_⟩
  · rcases hv.sound hx with hx | ⟨d, hd, -, hr⟩
    · exact h.known hx
    · cases hr.cases_tail with
      | inl he => exact he ▸ hds hd
      | inr hr =>
        obtain ⟨y, -, hy⟩ := hr
        exact needsOf_subset deps y hy.1
  · rw [hm]
    exact nodup_append.mpr ⟨h.nodup, hnd, fun x hx y hy he => hnew y hy (he ▸ hx)⟩

/-- The body of `deps_walk_node` is a depth-first walk, within the depth that the room
in the array allows. -/
theorem node_visits {fuel : Nat} (hm : Marks deps st.visited)
    (hfuel : DEPS_VISITED_MAX < fuel + st.visited.length) :
    ∃ st', depsWalkNode deps v fuel node st = some st' ∧
      Visits (needsOf deps) v.accepts (needsOf deps node) st.progress st'.progress := by
  induction fuel generalizing node st with
  | zero =>
    have := (hm.nodup.subperm hm.known).length_le
    have := allNeeds_length deps
    omega
  | succ fuel ih =>
    have hsub := needsOf_subset deps node
    unfold depsWalkNode
    unfold needsOf at hsub ⊢
    cases hrow : axlDriverDepsLookup deps node with
    | none => exact ⟨st, rfl, .nil _⟩
    | some row =>
      rw [hrow] at hsub
      simp only [Option.elim_some] at hsub ⊢
      -- over the dependencies that are left, with the state they are met in
      generalize row.needs = ds at hsub
      induction ds generalizing st with
      | nil => exact ⟨st, rfl, .nil _⟩
      | cons d ds ihds =>
        have hd : d ∈ allNeeds deps := hsub (by simp)
        have hds : ds ⊆ allNeeds deps := fun x hx => hsub (by simp [hx])
        rw [foldlM_cons]
        by_cases hseen : d ∈ st.visited
        · obtain ⟨st', he, hv⟩ := ihds hm hfuel hds
          exact ⟨st', by simpa [hseen] using he, .skip (.inl hseen) hv⟩
        by_cases hacc : v.accepts d = true
        · obtain ⟨hmark, hm₁⟩ := hm.mark hd hseen
          obtain ⟨st₁, he₁, hv₁⟩ := @ih
            d { st with visited := st.visited ++ [d] } hm₁ (by simp; omega)
          have hm₂ : Marks deps st₁.visited := hm₁.visits (needsOf_subset deps d) hv₁
          have hlen : st.visited.length ≤ st₁.visited.length := by
            obtain ⟨new, fin, hmk, -⟩ := hv₁.finished_new
            have := congrArg List.length hmk
            simp only [WalkState.progress, length_append] at this
            omega
          obtain ⟨st', he, hv⟩ := @ihds
            { st₁ with loads := st₁.loads ++ [(d, node)] } hm₂ (by dsimp only; omega) hds
          refine ⟨st', ?_, .enter hseen hacc hv₁ ?_⟩
          · simpa [hseen, hacc, hmark, he₁] using he
          · simpa [WalkState.progress] using hv
        · obtain ⟨st', he, hv⟩ := ihds hm hfuel hds
          exact ⟨st', by simpa [hseen, hacc] using he, .skip (.inr (by simpa using hacc)) hv⟩

/-- The walk ends, and is the depth-first walk over what the target needs. -/
theorem walk_visits (deps : AxlDriverDeps) (target : Name) (v : AxlDriverDepVisitor) :
    ∃ st, axlDriverDepsWalk deps target v = some st ∧ Marks deps st.visited ∧
      Visits (needsOf deps) v.accepts (needsOf deps target) ⟨[], []⟩ st.progress := by
  have hm : Marks deps (WalkState.mk [] []).visited := ⟨by simp, .nil⟩
  obtain ⟨st, he, hv⟩ : ∃ st, axlDriverDepsWalk deps target v = some st ∧
      Visits (needsOf deps) v.accepts (needsOf deps target) ⟨[], []⟩ st.progress :=
    node_visits hm (by simp)
  exact ⟨st, he, hm.visits (needsOf_subset deps target) hv, hv⟩

/-! ## What the walk promises -/

/-- A name that can be reached from the target along dependencies that are accepted. -/
def Reachable (deps : AxlDriverDeps) (v : AxlDriverDepVisitor) (target name : Name) : Prop :=
  TransGen (Needs deps v) target name

/-- The names that `load` has been called for. -/
def WalkState.loaded (st : WalkState) : List Name := st.loads.map Prod.fst

/-- What the walk from `target` should have done when it ends in `st`. -/
structure Walked (deps : AxlDriverDeps) (target : Name) (v : AxlDriverDepVisitor)
    (st : WalkState) : Prop where
  /-- Every name that was let in has its entry in the array. -/
  fits : st.visited.length ≤ DEPS_VISITED_MAX ∧ st.visited.Perm st.loaded
  once : st.loaded.Nodup
  spared : target ∉ st.loaded
  exact : ∀ name, name ∈ st.loaded ↔ Reachable deps v target name
  ordered : (∀ name, Reachable deps v target name → ¬ Reachable deps v name name) →
    ∀ name ∈ st.loaded, ∀ dep, Needs deps v name dep → Before st.loaded dep name

theorem loaded_iff {name : Name}
    (hv : Visits (needsOf deps) v.accepts (needsOf deps target) ⟨[], []⟩ st.progress) :
    name ∈ st.visited ↔ Reachable deps v target name := by
  constructor
  · intro h
    obtain ⟨d, hd, ha, hr⟩ := (hv.sound h).resolve_left (by simp)
    exact TransGen.head' ⟨hd, ha⟩ hr
  · intro h
    induction h with
    | single h => exact hv.complete.1 _ h.1 h.2
    | tail _ h ih => exact hv.complete.2 _ ih (by simp) _ h

/-- The walk keeps its promises exactly for the targets that no chain of accepted
dependencies leads back to. -/
theorem deps_walk_iff (deps : AxlDriverDeps) (target : Name) (v : AxlDriverDepVisitor) :
    (∃ st, axlDriverDepsWalk deps target v = some st ∧ Walked deps target v st) ↔
      ¬ Reachable deps v target target := by
  obtain ⟨st, he, hm, hv⟩ := walk_visits deps target v
  obtain ⟨new, fin, hmk, hfin, hperm, -, hnd⟩ := hv.finished_new
  simp only [WalkState.progress, nil_append] at hmk hfin
  have hloaded : st.visited.Perm st.loaded := by
    rw [WalkState.loaded, hfin, hmk]
    exact hperm.symm
  have hiff : ∀ name, name ∈ st.loaded ↔ Reachable deps v target name := fun name => by
    rw [← hloaded.mem_iff, loaded_iff hv]
  constructor
  · rintro ⟨st', he', hw⟩ hcycle
    obtain rfl : st = st' := Option.some.inj (he.symm.trans he')
    exact hw.spared ((hiff target).mpr hcycle)
  · intro hno
    refine ⟨st, he, ⟨?_, hloaded⟩, ?_, fun h => hno ((hiff target).mp h), hiff, ?_⟩
    · exact ((hm.nodup.subperm hm.known).length_le).trans (allNeeds_length deps)
    · exact hloaded.nodup (hmk ▸ hnd)
    · intro hacyc name hname dep hdep
      refine hv.ordered (by simp) (by simp) ?_ name hname (by simp) dep hdep
      intro d hd ha x hr
      exact hacyc x (TransGen.head' ⟨hd, ha⟩ hr)

/-- Two drivers that need each other. -/
def twoNeeding : AxlDriverDeps where
  rows := [⟨[0x41], [[0x42]], by decide, by decide⟩, ⟨[0x42], [[0x41]], by decide, by decide⟩]
  n_rows := by decide

/-- `A` needs `B` and `B` needs `A`: the walk from `A` loads `A`. -/
theorem target_on_cycle_loaded :
    ¬ ∀ (deps : AxlDriverDeps) (target : Name) (v : AxlDriverDepVisitor),
      ∃ st, axlDriverDepsWalk deps target v = some st ∧ Walked deps target v st := by
  intro h
  obtain ⟨st, he, hw⟩ := h twoNeeding [0x41] ⟨none⟩
  have hload : axlDriverDepsWalk twoNeeding [0x41] ⟨none⟩ =
      some ⟨[[0x42], [0x41]], [([0x41], [0x42]), ([0x42], [0x41])]⟩ := by decide
  obtain rfl := Option.some.inj (he.symm.trans hload)
  exact hw.spared (by decide)

end DriverDeps

end AxlSdk
