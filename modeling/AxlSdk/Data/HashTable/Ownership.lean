import AxlSdk.Data.HashTable.Sweep

/-!
# The hash table as a finite map that owns its entries

- `World`: the table, the finite map that its calls define, and a ledger of the
  pointers that it took over, gave to a destructor, or gave back.
- `run_finite_map`: in every run the table shows that map, the ledger balances,
  and a walk shows every entry once. A pointer that is given to a destructor is
  out of the table when the call returns; the removals unlink it before.
- `overwritten_value_in_table`: `axl_hash_table_insert` calls the destructor
  before it stores the new value.
-/

namespace AxlSdk

namespace HashTable

open Table List

variable {τ : Type}

/-! ## Entries without a table -/

/-- The keys are pairwise different, and so are the addresses of the keys and of the
values that the table owns. -/
structure Good (cfg : Config τ) (E : List (Key τ × Value)) : Prop where
  keys : E.Pairwise fun a b => cfg.equal a.1 b.1 = false
  addrs : (E.map fun e => e.1.addr).Nodup
  values : cfg.valueDestroy = true → (E.filterMap Prod.snd).Nodup

/-- The entries are the graph of the map. -/
def Represents (cfg : Config τ) (E : List (Key τ × Value)) (m : Key τ → Option Value) : Prop :=
  ∀ k v, m k = some v ↔ ∃ e ∈ E, cfg.equal e.1 k = true ∧ e.2 = v

/-- An entry has the pointer; NULL is no one's. -/
def Holds : Pointer → List (Key τ × Value) → Prop
  | .key addr, E => ∃ e ∈ E, e.1.addr = addr
  | .value none, _ => False
  | .value (some v), E => ∃ e ∈ E, e.2 = some v

/-- The pointers that the entries own. -/
def owned (cfg : Config τ) (E : List (Key τ × Value)) : List Pointer := E.flatMap (pointers cfg)

/-- The pointers that a stolen entry gives back to the caller. -/
def givenBack (cfg : Config τ) (e : Key τ × Value) : List Pointer :=
  (if !cfg.copyKeys && cfg.keyDestroy then [.key e.1.addr] else []) ++
    if cfg.valueDestroy then [.value e.2] else []

variable {cfg : Config τ} {E E' E₁ E₂ : List (Key τ × Value)} {e : Key τ × Value}
  {m : Key τ → Option Value}

theorem Good.perm (h : Good cfg E) (hcfg : Consistent cfg) (hp : E'.Perm E) : Good cfg E' := by
  refine ⟨?_, (hp.map _).nodup_iff.mpr h.addrs, fun hv => ?_⟩
  · refine (hp.pairwise_iff ?_).mpr h.keys
    intro a b hab
    by_contra hba
    rw [Bool.not_eq_false] at hba
    rw [hcfg.symm _ _ hba] at hab
    cases hab
  · exact (hp.filterMap _).nodup_iff.mpr (h.values hv)

theorem Good.sublist (h : Good cfg E) (hs : E'.Sublist E) : Good cfg E' :=
  ⟨h.keys.sublist hs, h.addrs.sublist (hs.map _), fun hv => (h.values hv).sublist (hs.filterMap _)⟩

theorem Good.remove (h : Good cfg (E₁ ++ e :: E₂)) : Good cfg (E₁ ++ E₂) :=
  h.sublist (List.Sublist.append (.refl _) (sublist_cons_self e E₂))

/-- An entry for a key that is not there, with pointers that are not there. -/
theorem Good.cons (h : Good cfg E) (hcfg : Consistent cfg) (hkey : Absent cfg E e.1)
    (haddr : ¬ Holds (.key e.1.addr) E) (hvalue : cfg.valueDestroy = true → ¬ Holds (.value e.2) E) :
    Good cfg (e :: E) := by
  refine ⟨pairwise_cons.mpr ⟨?_, h.keys⟩, ?_, ?_⟩
  · intro a ha
    by_contra hea
    rw [Bool.not_eq_false] at hea
    have := hkey a ha
    rw [hcfg.symm _ _ hea] at this
    cases this
  · rw [map_cons, nodup_cons]
    refine ⟨?_, h.addrs⟩
    intro hmem
    obtain ⟨a, ha, heq⟩ := mem_map.mp hmem
    exact haddr ⟨a, ha, heq⟩
  · intro hv
    cases hval : e.2 with
    | none =>
      rw [filterMap_cons_none hval]
      exact h.values hv
    | some v =>
      rw [filterMap_cons_some hval, nodup_cons]
      refine ⟨?_, h.values hv⟩
      intro hmem
      obtain ⟨a, ha, heq⟩ := mem_filterMap.mp hmem
      exact hvalue hv (by rw [hval]; exact ⟨a, ha, heq⟩)

/-- The key of an entry is in no other one. -/
theorem Good.absent (h : Good cfg (E₁ ++ e :: E₂)) (hcfg : Consistent cfg) :
    Absent cfg (E₁ ++ E₂) e.1 := by
  have hp := h.perm hcfg perm_middle.symm
  intro a ha
  have hea := (pairwise_cons.mp hp.keys).1 a ha
  by_contra hae
  rw [Bool.not_eq_false] at hae
  rw [hcfg.symm _ _ hae] at hea
  cases hea

/-- The key pointer of an entry is in no other one. -/
theorem Good.addr_alone (h : Good cfg (E₁ ++ e :: E₂)) : ¬ Holds (.key e.1.addr) (E₁ ++ E₂) := by
  have haddrs := h.addrs
  rw [map_append, map_cons, nodup_middle, nodup_cons, ← map_append] at haddrs
  rintro ⟨a, ha, heq⟩
  exact haddrs.1 (mem_map.mpr ⟨a, ha, heq⟩)

/-- The value pointer of an entry is in no other one. -/
theorem Good.value_alone (h : Good cfg (E₁ ++ e :: E₂)) (hv : cfg.valueDestroy = true) :
    ¬ Holds (.value e.2) (E₁ ++ E₂) := by
  cases hval : e.2 with
  | none => exact id
  | some v =>
    have hvalues := h.values hv
    rw [filterMap_append, filterMap_cons_some hval, nodup_middle, nodup_cons,
      ← filterMap_append] at hvalues
    rintro ⟨a, ha, heq⟩
    exact hvalues.1 (mem_filterMap.mpr ⟨a, ha, heq⟩)

/-- What an entry owns is in no other one. -/
theorem Good.pointer_alone (h : Good cfg (E₁ ++ e :: E₂)) {p : Pointer} (hp : p ∈ pointers cfg e) :
    ¬ Holds p (E₁ ++ E₂) := by
  simp only [pointers, release, map_append, mem_append] at hp
  rcases hp with hp | hp
  · split at hp
    · obtain rfl : p = .key e.1.addr := by simpa using hp
      exact h.addr_alone
    · simp at hp
  · split at hp
    · rename_i hv
      obtain rfl : p = .value e.2 := by simpa using hp
      exact h.value_alone hv
    · simp at hp

theorem Holds.mono {p : Pointer} (h : Holds p E) (hs : E ⊆ E') : Holds p E' := by
  cases p with
  | key addr =>
    obtain ⟨e, he, heq⟩ := h
    exact ⟨e, hs he, heq⟩
  | value v =>
    cases v with
    | none => exact h
    | some v =>
      obtain ⟨e, he, heq⟩ := h
      exact ⟨e, hs he, heq⟩

theorem holds_middle {p : Pointer} (h : Holds p (E₁ ++ e :: E₂)) :
    Holds p (E₁ ++ E₂) ∨ Holds p [e] := by
  have hmem : ∀ a ∈ E₁ ++ e :: E₂, a ∈ E₁ ++ E₂ ∨ a ∈ [e] := by
    intro a ha
    simp only [mem_append, mem_cons] at ha ⊢
    tauto
  cases p with
  | key addr =>
    obtain ⟨a, ha, heq⟩ := h
    exact (hmem a ha).imp (fun ha => ⟨a, ha, heq⟩) fun ha => ⟨a, ha, heq⟩
  | value v =>
    cases v with
    | none => exact .inl h
    | some v =>
      obtain ⟨a, ha, heq⟩ := h
      exact (hmem a ha).imp (fun ha => ⟨a, ha, heq⟩) fun ha => ⟨a, ha, heq⟩

theorem holds_value {v : Value} (h : Holds (.value v) [e]) : e.2 = v := by
  cases v with
  | none => exact h.elim
  | some v =>
    obtain ⟨a, ha, heq⟩ := h
    obtain rfl := mem_singleton.mp ha
    exact heq

/-! ### Maps -/

/-- The map with a value for `key`. -/
def Map.set (cfg : Config τ) (m : Key τ → Option Value) (key : Key τ) (value : Value) :
    Key τ → Option Value :=
  fun k => if cfg.equal key k then some value else m k

/-- The map without `key`. -/
def Map.erase (cfg : Config τ) (m : Key τ → Option Value) (key : Key τ) : Key τ → Option Value :=
  fun k => if cfg.equal key k then none else m k

theorem Represents.perm (h : Represents cfg E m) (hp : E'.Perm E) : Represents cfg E' m := by
  intro k v
  rw [h k v]
  simp only [hp.mem_iff]

theorem Represents.congr_key (h : Represents cfg E m) (hcfg : Consistent cfg) {a b : Key τ}
    (hab : cfg.equal a b = true) : m a = m b := by
  have hiff : ∀ v, m a = some v ↔ m b = some v := by
    intro v
    rw [h a v, h b v]
    constructor
    · rintro ⟨e, he, hea, hv⟩
      exact ⟨e, he, hcfg.trans _ _ _ hea hab, hv⟩
    · rintro ⟨e, he, heb, hv⟩
      exact ⟨e, he, hcfg.trans _ _ _ heb (hcfg.symm _ _ hab), hv⟩
  exact Option.ext hiff

theorem Represents.absent (h : Represents cfg E m) {key : Key τ} (ha : Absent cfg E key) :
    m key = none := by
  cases hm : m key with
  | none => rfl
  | some v =>
    obtain ⟨e, he, heq, -⟩ := (h key v).mp hm
    rw [ha e he] at heq
    cases heq

theorem Represents.mem (h : Represents cfg E m) {key : Key τ} (he : e ∈ E)
    (heq : cfg.equal e.1 key = true) : m key = some e.2 :=
  (h key e.2).mpr ⟨e, he, heq, rfl⟩

/-- An entry for `key` comes to entries without one. -/
theorem Represents.cons (h : Represents cfg E m) (hcfg : Consistent cfg) {key : Key τ}
    (hkey : cfg.equal e.1 key = true) (ha : Absent cfg E key) :
    Represents cfg (e :: E) (Map.set cfg m key e.2) := by
  intro k v
  simp only [Map.set]
  by_cases hk : cfg.equal key k = true
  · rw [if_pos hk, Option.some.injEq]
    constructor
    · rintro rfl
      exact ⟨e, by simp, hcfg.trans _ _ _ hkey hk, rfl⟩
    · rintro ⟨a, hae, hak, rfl⟩
      rcases mem_cons.mp hae with rfl | hae
      · rfl
      · have := ha a hae
        rw [hcfg.trans _ _ _ hak (hcfg.symm _ _ hk)] at this
        cases this
  · rw [if_neg hk, h k v]
    constructor
    · rintro ⟨a, hae, h₁, h₂⟩
      exact ⟨a, by simp [hae], h₁, h₂⟩
    · rintro ⟨a, hae, h₁, h₂⟩
      rcases mem_cons.mp hae with rfl | hae
      · exact absurd (hcfg.trans _ _ _ (hcfg.symm _ _ hkey) h₁) hk
      · exact ⟨a, hae, h₁, h₂⟩

/-- The entry of `key` leaves. -/
theorem Represents.remove (h : Represents cfg (E₁ ++ e :: E₂) m) (hcfg : Consistent cfg)
    (hgood : Good cfg (E₁ ++ e :: E₂)) {key : Key τ} (hkey : cfg.equal e.1 key = true) :
    Represents cfg (E₁ ++ E₂) (Map.erase cfg m key) := by
  have hother := hgood.absent hcfg
  have hp := h.perm perm_middle.symm
  intro k v
  simp only [Map.erase]
  by_cases hk : cfg.equal key k = true
  · rw [if_pos hk]
    constructor
    · intro h
      cases h
    · rintro ⟨a, ha, hak, -⟩
      have hae := hcfg.trans _ _ _ hak (hcfg.symm _ _ (hcfg.trans _ _ _ hkey hk))
      rw [hother a ha] at hae
      cases hae
  · rw [if_neg hk, hp k v]
    constructor
    · rintro ⟨a, ha, h₁, h₂⟩
      rcases mem_cons.mp ha with rfl | ha
      · exact absurd (hcfg.trans _ _ _ (hcfg.symm _ _ hkey) h₁) hk
      · exact ⟨a, ha, h₁, h₂⟩
    · rintro ⟨a, ha, h₁, h₂⟩
      exact ⟨a, mem_cons_of_mem e ha, h₁, h₂⟩

theorem erase_absent (hcfg : Consistent cfg) (h : Represents cfg E m) {key : Key τ}
    (ha : Absent cfg E key) : Map.erase cfg m key = m := by
  funext k
  simp only [Map.erase]
  split
  · rename_i hk
    rw [← h.congr_key hcfg hk, h.absent ha]
  · rfl

/-! ## Effects -/

/-- Entries `E` become `E'`, and the map `m` becomes `m'`: the pointers `taken` come
in, those of `calls` and `stolen` go out. -/
structure Effect (cfg : Config τ) (E E' : List (Key τ × Value)) (m m' : Key τ → Option Value)
    (taken : List Pointer) (calls : List (Call τ)) (stolen : List Pointer) : Prop where
  good : Good cfg E'
  map : Represents cfg E' m'
  ledger : (owned cfg E ++ taken).Perm (owned cfg E' ++ calls.map Call.pointer ++ stolen)
  gone : ∀ c ∈ calls, ¬ Holds c.pointer E'

theorem owned_perm (hp : E'.Perm E) : (owned cfg E').Perm (owned cfg E) :=
  hp.flatMap_right _

theorem owned_middle : (owned cfg (E₁ ++ e :: E₂)).Perm (owned cfg (E₁ ++ E₂) ++ pointers cfg e) := by
  refine (owned_perm perm_middle).trans ?_
  rw [owned, flatMap_cons]
  exact perm_append_comm

theorem mem_release {c : Call τ} {seen : List (Key τ × Value)} (h : c ∈ release cfg e seen) :
    c.pointer ∈ pointers cfg e ∧ c.seen = seen := by
  refine ⟨?_, ?_⟩
  · rw [← release_pointers e seen]
    exact mem_map_of_mem h
  · simp only [release, mem_append] at h
    rcases h with h | h
    · split at h
      · obtain rfl : c = _ := mem_singleton.mp h
        rfl
      · simp at h
    · split at h
      · obtain rfl : c = _ := mem_singleton.mp h
        rfl
      · simp at h

theorem mem_letGo {c : Call τ} {seen : List (Key τ × Value)} (h : c ∈ letGo cfg e seen) :
    c.pointer ∈ pointers cfg e ∧ c.seen = seen := by
  simp only [letGo] at h
  split at h
  · rename_i hcopy
    obtain rfl : c = _ := mem_singleton.mp h
    exact ⟨by simp [pointers, release, hcopy], rfl⟩
  · simp at h

/-- What a stolen entry owns is given back, but for the copy of the key. -/
theorem pointers_letGo (e : Key τ × Value) (seen : List (Key τ × Value)) :
    pointers cfg e = (letGo cfg e seen).map Call.pointer ++ givenBack cfg e := by
  simp only [pointers, release, letGo, givenBack]
  cases cfg.copyKeys <;> cases cfg.keyDestroy <;> cases cfg.valueDestroy <;> rfl

theorem effect_remove (hcfg : Consistent cfg) (hgood : Good cfg (E₁ ++ e :: E₂))
    (hmap : Represents cfg (E₁ ++ e :: E₂) m) {key : Key τ} (hkey : cfg.equal e.1 key = true) :
    Effect cfg (E₁ ++ e :: E₂) (E₁ ++ E₂) m (Map.erase cfg m key) []
      (release cfg e (E₁ ++ E₂)) [] := by
  refine ⟨hgood.remove, hmap.remove hcfg hgood hkey, ?_, ?_⟩
  · rw [release_pointers, append_nil, append_nil]
    exact owned_middle
  · intro c hc
    exact hgood.pointer_alone (mem_release hc).1

theorem effect_steal (hcfg : Consistent cfg) (hgood : Good cfg (E₁ ++ e :: E₂))
    (hmap : Represents cfg (E₁ ++ e :: E₂) m) {key : Key τ} (hkey : cfg.equal e.1 key = true) :
    Effect cfg (E₁ ++ e :: E₂) (E₁ ++ E₂) m (Map.erase cfg m key) []
      (letGo cfg e (E₁ ++ E₂)) (givenBack cfg e) := by
  refine ⟨hgood.remove, hmap.remove hcfg hgood hkey, ?_, ?_⟩
  · rw [append_nil, append_assoc, ← pointers_letGo]
    exact owned_middle
  · intro c hc
    exact hgood.pointer_alone (mem_letGo hc).1

theorem effect_none (hgood : Good cfg E) (hmap : Represents cfg E m) (hcfg : Consistent cfg)
    (hp : E'.Perm E) : Effect cfg E E' m m [] [] [] := by
  refine ⟨hgood.perm hcfg hp, hmap.perm hp, ?_, by simp⟩
  simp only [append_nil, map_nil]
  exact owned_perm hp.symm

theorem effect_clear {calls : List (Call τ)}
    (hcalls : calls.map Call.pointer = E.flatMap (pointers cfg)) :
    Effect cfg E [] m (fun _ => none) [] calls [] := by
  refine ⟨⟨.nil, .nil, fun _ => .nil⟩, fun k v => by simp, ?_, ?_⟩
  · rw [hcalls, append_nil, append_nil]
    exact .refl _
  · intro c _
    cases c.pointer with
    | key addr => simp [Holds]
    | value v => cases v <;> simp [Holds]

/-! ### Sweeps -/

/-- The entries of a sweep whose choice meets `p`. -/
def picked (d : Nat → Key τ × Value → Act) (p : Act → Bool) (shown : List (Key τ × Value)) :
    List (Key τ × Value) :=
  (shown.zipIdx.filter fun x => p (d x.2 x.1)).map Prod.fst

theorem picked_concat (d : Nat → Key τ × Value → Act) (p : Act → Bool)
    (shown : List (Key τ × Value)) (e : Key τ × Value) :
    picked d p (shown ++ [e])
      = picked d p shown ++ if p (d shown.length e) then [e] else [] := by
  rw [picked, zipIdx_append, filter_append, map_append]
  simp only [zipIdx_singleton, Nat.zero_add, filter_singleton]
  congr 1
  cases p (d shown.length e) <;> rfl

/-- The map without the keys of some entries. -/
def Map.eraseAll (cfg : Config τ) (m : Key τ → Option Value) (E : List (Key τ × Value)) :
    Key τ → Option Value :=
  E.foldl (fun m e => Map.erase cfg m e.1) m

/-- What a sweep over `E` has done so far. -/
structure SweepInv (cfg : Config τ) (d : Nat → Key τ × Value → Act) (E : List (Key τ × Value))
    (m : Key τ → Option Value) (s : Sweep τ) : Prop where
  shown : s.shown ++ s.todo = E
  effect : Effect cfg E (s.kept ++ s.todo) m (Map.eraseAll cfg m (picked d (· != .keep) s.shown)) []
    s.calls ((picked d (· == .steal) s.shown).flatMap (givenBack cfg))
  unseen : ∀ c ∈ s.calls, ¬ Holds c.pointer c.seen
  removed : s.removed = (picked d (· != .keep) s.shown).length

/-- An entry leaves during a sweep. -/
theorem SweepInv.drop {d : Nat → Key τ × Value → Act} {s : Sweep τ} {todo : List (Key τ × Value)}
    {calls : List (Call τ)} (h : SweepInv cfg d E m s) (stolen : List Pointer)
    (htodo : s.todo = e :: todo)
    (heff : Effect cfg (s.kept ++ e :: todo) (s.kept ++ todo)
      (Map.eraseAll cfg m (picked d (· != .keep) s.shown))
      (Map.eraseAll cfg m (picked d (· != .keep) (s.shown ++ [e]))) [] calls stolen)
    (hseen : ∀ c ∈ calls, c.seen = s.kept ++ todo)
    (hstolen : (picked d (· == .steal) (s.shown ++ [e])).flatMap (givenBack cfg)
      = (picked d (· == .steal) s.shown).flatMap (givenBack cfg) ++ stolen)
    (hremoved : (picked d (· != .keep) (s.shown ++ [e])).length
      = (picked d (· != .keep) s.shown).length + 1) :
    SweepInv cfg d E m { s with
      todo := todo
      shown := s.shown ++ [e]
      calls := s.calls ++ calls
      removed := s.removed + 1 } := by
  have hledger := h.effect.ledger
  rw [htodo] at hledger
  refine ⟨?_, ⟨heff.good, heff.map, ?_, ?_⟩, ?_, ?_⟩
  · rw [← h.shown, htodo]
    simp
  · have hnext := heff.ledger
    rw [append_nil] at hnext
    simp only [map_append, hstolen]
    refine hledger.trans ?_
    rw [append_assoc]
    refine (hnext.append_right _).trans ?_
    -- both sides are the same four parts
    generalize owned cfg (s.kept ++ todo) = A
    generalize calls.map Call.pointer = B
    generalize s.calls.map Call.pointer = C
    generalize (picked d (· == .steal) s.shown).flatMap (givenBack cfg) = D
    rw [perm_iff_count]
    intro x
    simp only [count_append]
    omega
  · intro c hc
    rcases mem_append.mp hc with hc | hc
    · intro hh
      refine h.effect.gone c hc (hh.mono ?_)
      rw [htodo]
      intro x hx
      simp only [mem_append, mem_cons] at hx ⊢
      tauto
    · exact heff.gone c hc
  · intro c hc
    rcases mem_append.mp hc with hc | hc
    · exact h.unseen c hc
    · rw [hseen c hc]
      exact heff.gone c hc
  · simp only [h.removed, hremoved]

theorem SweepInv.step {d : Nat → Key τ × Value → Act} {s : Sweep τ} (h : SweepInv cfg d E m s)
    (hcfg : Consistent cfg) : SweepInv cfg d E m (s.step cfg d) := by
  cases htodo : s.todo with
  | nil =>
    have hstep : s.step cfg d = s := by simp only [Sweep.step, htodo]
    rw [hstep]
    exact h
  | cons e todo =>
    have hgood : Good cfg (s.kept ++ e :: todo) := htodo ▸ h.effect.good
    have hmap : Represents cfg (s.kept ++ e :: todo)
        (Map.eraseAll cfg m (picked d (· != .keep) s.shown)) := htodo ▸ h.effect.map
    cases hd : d s.shown.length e with
    | keep =>
      have hstep : s.step cfg d
          = { s with kept := s.kept ++ [e], todo := todo, shown := s.shown ++ [e] } := by
        simp only [Sweep.step, htodo, hd]
      have hsame : s.kept ++ [e] ++ todo = s.kept ++ s.todo := by rw [htodo]; simp
      have hpick : ∀ p : Act → Bool, p .keep = false →
          picked d p (s.shown ++ [e]) = picked d p s.shown := by
        intro p hp
        rw [picked_concat, hd, hp]
        simp
      rw [hstep]
      refine ⟨?_, ?_, h.unseen, ?_⟩
      · rw [← h.shown, htodo]
        simp
      · simp only [hsame, hpick (· != .keep) rfl, hpick (· == .steal) rfl]
        exact h.effect
      · simp only [hpick (· != .keep) rfl]
        exact h.removed
    | remove =>
      have hstep : s.step cfg d = { s with
          todo := todo
          shown := s.shown ++ [e]
          calls := s.calls ++ release cfg e (s.kept ++ todo)
          removed := s.removed + 1 } := by
        simp only [Sweep.step, htodo, hd]
      have hpick : picked d (· != .keep) (s.shown ++ [e]) = picked d (· != .keep) s.shown ++ [e] := by
        rw [picked_concat, hd]
        rfl
      rw [hstep]
      refine h.drop [] htodo ?_ (fun c hc => (mem_release hc).2) ?_ ?_
      · rw [hpick, Map.eraseAll, Map.eraseAll, foldl_append]
        exact effect_remove hcfg hgood hmap (hcfg.refl e.1)
      · rw [picked_concat, hd]
        simp
      · simp [hpick]
    | steal =>
      have hstep : s.step cfg d = { s with
          todo := todo
          shown := s.shown ++ [e]
          calls := s.calls ++ letGo cfg e (s.kept ++ todo)
          removed := s.removed + 1 } := by
        simp only [Sweep.step, htodo, hd]
      have hpick : picked d (· != .keep) (s.shown ++ [e]) = picked d (· != .keep) s.shown ++ [e] := by
        rw [picked_concat, hd]
        rfl
      rw [hstep]
      refine h.drop (givenBack cfg e) htodo ?_ (fun c hc => (mem_letGo hc).2) ?_ ?_
      · rw [hpick, Map.eraseAll, Map.eraseAll, foldl_append]
        exact effect_steal hcfg hgood hmap (hcfg.refl e.1)
      · rw [picked_concat, hd]
        simp
      · simp [hpick]

theorem sweep_inv (hcfg : Consistent cfg) (hgood : Good cfg E) (hmap : Represents cfg E m)
    (d : Nat → Key τ × Value → Act) (n : Nat) : SweepInv cfg d E m (sweep cfg d n E) := by
  induction n with
  | zero => exact ⟨rfl, effect_none hgood hmap hcfg (.refl E), by simp [sweep], rfl⟩
  | succ n ih =>
    rw [sweep, Function.iterate_succ_apply']
    exact ih.step hcfg

theorem sweep_shown (hcfg : Consistent cfg) (hgood : Good cfg E) (hmap : Represents cfg E m)
    (d : Nat → Key τ × Value → Act) (n : Nat) : (sweep cfg d n E).shown = E.take n := by
  have hlength : (sweep cfg d n E).shown.length = min n E.length := by
    induction n with
    | zero => simp [sweep]
    | succ n ih =>
      have hshown := congrArg List.length (sweep_inv hcfg hgood hmap d n).shown
      rw [length_append] at hshown
      rw [sweep, Function.iterate_succ_apply']
      change (Sweep.step cfg d (sweep cfg d n E)).shown.length = _
      cases htodo : (sweep cfg d n E).todo with
      | nil =>
        rw [htodo, length_nil] at hshown
        simp only [Sweep.step, htodo]
        omega
      | cons e todo =>
        rw [htodo, length_cons] at hshown
        have hstep : ((sweep cfg d n E).step cfg d).shown = (sweep cfg d n E).shown ++ [e] := by
          simp only [Sweep.step, htodo]
          cases d (sweep cfg d n E).shown.length e <;> rfl
        rw [hstep, length_append, length_singleton]
        omega
  have hshown := (sweep_inv hcfg hgood hmap d n).shown
  rw [prefix_iff_eq_take.mp ⟨_, hshown⟩, hlength]
  rcases Nat.le_total n E.length with hn | hn
  · rw [Nat.min_eq_left hn]
  · rw [Nat.min_eq_right hn, take_length, take_of_length_le hn]

/-! ### Insertion -/

/-- What the caller of an insertion vouches for: the memory it gets from the allocator
is not in use, an address holds one key, and a value that the table is to own does not
belong to another entry already. -/
structure Hands (cfg : Config τ) (t : Table τ) (key : Key τ) (value : Value) (alloc : Alloc) :
    Prop where
  nodeFree : ∀ n ∈ alloc.node, n ∉ t.nodes
  copyFree : cfg.copyKeys = true → ∀ a ∈ alloc.copy, ¬ Holds (.key a) t.entries
  oneKey : cfg.copyKeys = false → ∀ e ∈ t.entries, e.1.addr = key.addr → e.1 = key
  oneOwner : cfg.valueDestroy = true → ∀ e ∈ t.entries, e.2 ≠ none → e.2 = value →
    cfg.equal e.1 key = true

/-- The pointers that an insertion takes over: a key or a value that the entry has
already is not taken over again. -/
def takenByInsert (cfg : Config τ) (t : Table τ) (key : Key τ) (value : Value) (alloc : Alloc) :
    InsertResult → List Pointer
  | .err => []
  | .new => (storedKey cfg key alloc).toList.flatMap fun k => pointers cfg (k, value)
  | .replaced =>
    (if !cfg.copyKeys && (cfg.keyDestroy && !t.entries.any fun e => e.1.addr == key.addr) then
      [.key key.addr] else []) ++
    if cfg.valueDestroy && lookup cfg t (some key) != value then [.value value] else []

/-- The map after an insertion. -/
def mapAfterInsert (cfg : Config τ) (m : Key τ → Option Value) (key : Key τ) (value : Value)
    (alloc : Alloc) : Key τ → Option Value :=
  if (m key).isSome || (alloc.node.isSome && (storedKey cfg key alloc).isSome) then
    Map.set cfg m key value
  else m

variable {t t' : Table τ} {key : Key τ} {value : Value} {alloc : Alloc}

/-- Equal keys are stored with equal keys. -/
theorem storedKey_equal (hcfg : Consistent cfg) {stored : Key τ}
    (h : storedKey cfg key alloc = some stored) : cfg.equal stored key = true := by
  rw [storedKey] at h
  split at h
  · rename_i hcopy
    obtain ⟨a, -, rfl⟩ := Option.map_eq_some_iff.mp h
    exact hcfg.copy hcopy _ _ _
  · obtain rfl := Option.some.inj h
    exact hcfg.refl _

/-- The stored key pointer is not in the table. -/
theorem storedKey_fresh (hcfg : Consistent cfg) (hands : Hands cfg t key value alloc)
    (habsent : Absent cfg t.entries key) {stored : Key τ}
    (h : storedKey cfg key alloc = some stored) : ¬ Holds (.key stored.addr) t.entries := by
  rw [storedKey] at h
  split at h
  · rename_i hcopy
    obtain ⟨a, ha, rfl⟩ := Option.map_eq_some_iff.mp h
    exact hands.copyFree hcopy a ha
  · rename_i hcopy
    obtain rfl := Option.some.inj h
    rintro ⟨e, he, haddr⟩
    have heq := hands.oneKey (by simpa using hcopy) e he haddr
    have := habsent e he
    rw [heq, hcfg.refl] at this
    cases this

theorem absent_congr (hcfg : Consistent cfg) {a b : Key τ} (hab : cfg.equal a b = true)
    (h : Absent cfg E b) : Absent cfg E a := by
  intro e he
  by_contra hea
  rw [Bool.not_eq_false] at hea
  have := h e he
  rw [hcfg.trans _ _ _ hea hab] at this
  cases this

theorem effect_new (hcfg : Consistent cfg) (hgood : Good cfg t.entries)
    (hmap : Represents cfg t.entries m) (hands : Hands cfg t key value alloc)
    (habsent : Absent cfg t.entries key) (hnode : alloc.node ≠ none) {stored : Key τ}
    (hcopy : storedKey cfg key alloc = some stored)
    (hafter : t'.entries.Perm ((stored, value) :: t.entries)) :
    Effect cfg t.entries t'.entries m (mapAfterInsert cfg m key value alloc)
      (takenByInsert cfg t key value alloc .new) [] [] := by
  have hequal := storedKey_equal hcfg hcopy
  have hvalue : cfg.valueDestroy = true → ¬ Holds (.value value) t.entries := by
    intro hv
    cases value with
    | none => exact id
    | some v =>
      rintro ⟨e, he, heq⟩
      have := habsent e he
      rw [hands.oneOwner hv e he (by simp [heq]) heq] at this
      cases this
  have hset : mapAfterInsert cfg m key value alloc = Map.set cfg m key value := by
    rw [mapAfterInsert, if_pos]
    simp [hcopy, Option.isSome_iff_ne_none.mpr hnode]
  rw [hset]
  refine ⟨?_, ?_, ?_, by simp⟩
  · refine (hgood.cons hcfg ?_ ?_ hvalue).perm hcfg hafter
    · exact absent_congr hcfg hequal habsent
    · exact storedKey_fresh hcfg hands habsent hcopy
  · exact (hmap.cons hcfg hequal habsent).perm hafter
  · simp only [takenByInsert, hcopy, Option.toList_some, flatMap_cons, flatMap_nil,
      append_nil, map_nil]
    refine perm_append_comm.trans ?_
    exact (owned_perm hafter).symm

theorem lookup_eq (hvalid : Valid cfg t) (hcfg : Consistent cfg) (hmap : Represents cfg t.entries m)
    (key : Key τ) :
    lookup cfg t (some key) = (m key).join ∧ contains cfg t (some key) = (m key).isSome := by
  obtain ⟨chain, h⟩ := hvalid
  rcases h.find_cases hcfg key with ⟨hfind, habsent⟩ | ⟨l, n, r, hc, heq, hfind⟩
  · rw [hmap.absent habsent]
    simp [lookup, contains, hfind]
  · have hmem : t.entry n ∈ t.entries := by
      rw [h.entries_split (index_lt cfg h.pos key) hc]
      simp
    rw [hmap.mem hmem heq]
    simp [lookup, contains, hfind, Table.entry]

theorem set_erase (key : Key τ) (value : Value) :
    Map.set cfg (Map.erase cfg m key) key value = Map.set cfg m key value := by
  funext k
  simp only [Map.set, Map.erase]
  split <;> rfl

theorem keptKey_equal (hcfg : Consistent cfg) {old : Key τ} (heq : cfg.equal old key = true)
    (keepOldKey : Bool) : cfg.equal (keptKey cfg old key keepOldKey) key = true := by
  rw [keptKey]
  split
  · exact heq
  · exact hcfg.refl key

/-- The key pointer that is handed over is in no other entry. -/
theorem Hands.key_alone (hcfg : Consistent cfg) (hands : Hands cfg t key value alloc)
    (hgood : Good cfg (E₁ ++ e :: E₂)) (hbefore : t.entries = E₁ ++ e :: E₂)
    (heq : cfg.equal e.1 key = true) (hcopy : cfg.copyKeys = false) :
    ¬ Holds (.key key.addr) (E₁ ++ E₂) := by
  rintro ⟨a, ha, haddr⟩
  have hmem : a ∈ t.entries := by
    rw [hbefore]
    simp only [mem_append, mem_cons] at ha ⊢
    tauto
  have hkey := hands.oneKey hcopy a hmem haddr
  have := hgood.absent hcfg a ha
  rw [hkey, hcfg.symm _ _ heq] at this
  cases this

/-- The value that is handed over is in no other entry. -/
theorem Hands.value_alone (hcfg : Consistent cfg) (hands : Hands cfg t key value alloc)
    (hgood : Good cfg (E₁ ++ e :: E₂)) (hbefore : t.entries = E₁ ++ e :: E₂)
    (heq : cfg.equal e.1 key = true) (hv : cfg.valueDestroy = true) :
    ¬ Holds (.value value) (E₁ ++ E₂) := by
  cases value with
  | none => exact id
  | some v =>
    rintro ⟨a, ha, hval⟩
    have hmem : a ∈ t.entries := by
      rw [hbefore]
      simp only [mem_append, mem_cons] at ha ⊢
      tauto
    have hkey := hands.oneOwner hv a hmem (by simp [hval]) hval
    have := hgood.absent hcfg a ha
    rw [hcfg.trans _ _ _ hkey (hcfg.symm _ _ heq)] at this
    cases this

/-- The old key pointer and the new one: one is kept, the other goes to the destructor. -/
theorem key_ledger (cfg : Config τ) (old key : Key τ) (keepOldKey : Bool) :
    ((if cfg.copyKeys || cfg.keyDestroy then [Pointer.key old.addr] else []) ++
      if !cfg.copyKeys && (cfg.keyDestroy && old.addr != key.addr) then [Pointer.key key.addr] else []).Perm
    ((if cfg.copyKeys || cfg.keyDestroy then [Pointer.key (keptKey cfg old key keepOldKey).addr] else []) ++
      if !cfg.copyKeys && (cfg.keyDestroy && old.addr != key.addr) then
        [Pointer.key (if keepOldKey then key.addr else old.addr)] else []) := by
  cases hcopy : cfg.copyKeys with
  | true => simp [keptKey, hcopy]
  | false =>
    cases hdestroy : cfg.keyDestroy with
    | false => simp
    | true =>
      by_cases haddr : old.addr = key.addr
      · cases keepOldKey <;> simp [keptKey, hcopy, haddr]
      · cases keepOldKey with
        | true => simp [keptKey, hcopy, haddr]
        | false => simpa [keptKey, hcopy, haddr] using List.Perm.swap _ _ []

theorem value_ledger (cfg : Config τ) (old value : Value) :
    ((if cfg.valueDestroy then [Pointer.value old] else []) ++
      if cfg.valueDestroy && old != value then [Pointer.value value] else []).Perm
    ((if cfg.valueDestroy then [Pointer.value value] else []) ++
      if cfg.valueDestroy && old != value then [Pointer.value old] else []) := by
  cases cfg.valueDestroy with
  | false => simp
  | true =>
    by_cases h : old = value
    · simp [h]
    · simpa [h] using List.Perm.swap _ _ []

/-- What an overwritten entry owned, and what is taken over for it, is in the entry or
goes to a destructor. -/
theorem overwrite_ledger (cfg : Config τ) (e : Key τ × Value) (key : Key τ) (value : Value) (keepOldKey : Bool)
    (E E' : List (Key τ × Value)) :
    (pointers cfg e ++
      ((if !cfg.copyKeys && (cfg.keyDestroy && e.1.addr != key.addr) then
          [Pointer.key key.addr] else []) ++
        if cfg.valueDestroy && e.2 != value then [Pointer.value value] else [])).Perm
      (pointers cfg (keptKey cfg e.1 key keepOldKey, value) ++
        (overwriteCalls cfg e key value keepOldKey E E').map Call.pointer) := by
  have hkey := (perm_iff_count.mp (key_ledger cfg e.1 key keepOldKey))
  have hvalue := (perm_iff_count.mp (value_ledger cfg e.2 value))
  rw [perm_iff_count]
  intro x
  have hkey := hkey x
  have hvalue := hvalue x
  simp only [pointers, release, overwriteCalls, map_append, apply_ite (List.map Call.pointer),
    map_cons, map_nil, count_append] at hkey hvalue ⊢
  omega

theorem effect_replaced (hcfg : Consistent cfg) (hvalid : Valid cfg t) (hgood : Good cfg t.entries)
    (hmap : Represents cfg t.entries m) (hands : Hands cfg t key value alloc) (keepOldKey : Bool)
    (hbefore : t.entries = E₁ ++ e :: E₂) (heq : cfg.equal e.1 key = true)
    (hafter : t'.entries = E₁ ++ (keptKey cfg e.1 key keepOldKey, value) :: E₂)
    (E' : List (Key τ × Value)) :
    Effect cfg t.entries t'.entries m (mapAfterInsert cfg m key value alloc)
      (takenByInsert cfg t key value alloc .replaced)
      (overwriteCalls cfg e key value keepOldKey t.entries E') [] := by
  have hmem : e ∈ t.entries := by rw [hbefore]; simp
  have hold : m key = some e.2 := hmap.mem hmem heq
  have hlookup : lookup cfg t (some key) = e.2 := by
    rw [(lookup_eq hvalid hcfg hmap key).1, hold]
    rfl
  rw [hbefore] at hgood hmap
  have habsent := hgood.absent hcfg
  have hset : mapAfterInsert cfg m key value alloc = Map.set cfg m key value := by
    rw [mapAfterInsert, if_pos]
    simp [hold]
  have hkept := keptKey_equal hcfg heq keepOldKey
  -- the key pointer that stays is in no other entry
  have haddr : ¬ Holds (.key (keptKey cfg e.1 key keepOldKey).addr) (E₁ ++ E₂) := by
    rw [keptKey]
    split
    · exact hgood.addr_alone
    · rename_i h
      simp only [Bool.or_eq_true, not_or, Bool.not_eq_true] at h
      exact hands.key_alone hcfg hgood hbefore heq h.1
  have hperm : t'.entries.Perm ((keptKey cfg e.1 key keepOldKey, value) :: (E₁ ++ E₂)) := by
    rw [hafter]
    exact perm_middle
  rw [hset]
  refine ⟨?_, ?_, ?_, ?_⟩
  · refine (hgood.remove.cons hcfg ?_ haddr ?_).perm hcfg hperm
    · exact absent_congr hcfg (hcfg.trans _ _ _ hkept (hcfg.symm _ _ heq)) habsent
    · exact hands.value_alone hcfg hgood hbefore heq
  · rw [← set_erase]
    refine ((hmap.remove hcfg hgood heq).cons hcfg hkept ?_).perm hperm
    exact absent_congr hcfg (hcfg.symm _ _ heq) habsent
  · have hany : cfg.copyKeys = false →
        (!t.entries.any fun e => e.1.addr == key.addr) = (e.1.addr != key.addr) := by
      intro hcopy
      have hother : ((E₁ ++ E₂).any fun e => e.1.addr == key.addr) = false := by
        rw [any_eq_false]
        intro a ha hak
        exact hands.key_alone hcfg hgood hbefore heq hcopy ⟨a, ha, by simpa using hak⟩
      rw [any_append, Bool.or_eq_false_iff] at hother
      rw [hbefore, any_append, any_cons, hother.1, hother.2]
      simp [bne]
    have htaken : takenByInsert cfg t key value alloc .replaced
        = (if !cfg.copyKeys && (cfg.keyDestroy && e.1.addr != key.addr) then
            [Pointer.key key.addr] else []) ++
          if cfg.valueDestroy && e.2 != value then [Pointer.value value] else [] := by
      simp only [takenByInsert, hlookup]
      cases hcopy : cfg.copyKeys with
      | true => rfl
      | false => rw [hany hcopy]
    rw [htaken, hbefore, hafter, append_nil]
    have hledger := overwrite_ledger cfg e key value keepOldKey t.entries E'
    refine ((owned_middle.append_right _).trans ?_).trans (owned_middle.symm.append_right _)
    rw [append_assoc, append_assoc]
    rw [hbefore] at hledger
    exact hledger.append_left _
  · intro c hc
    rw [hafter]
    simp only [overwriteCalls, mem_append] at hc
    rcases hc with hc | hc
    · split at hc
      · rename_i hcond
        simp only [Bool.and_eq_true, Bool.not_eq_true', bne_iff_ne, ne_eq] at hcond
        obtain ⟨hcopy, -, hne⟩ := hcond
        obtain rfl := mem_singleton.mp hc
        have hout : ¬ Holds (.key (if keepOldKey then key.addr else e.1.addr)) (E₁ ++ E₂) := by
          split
          · exact hands.key_alone hcfg hgood hbefore heq hcopy
          · exact hgood.addr_alone
        intro hholds
        rcases holds_middle hholds with h | ⟨a, ha, hak⟩
        · exact hout h
        · -- the entry itself has the other pointer
          obtain rfl := mem_singleton.mp ha
          cases keepOldKey with
          | true => exact hne (by simpa [keptKey] using hak)
          | false => exact hne (by simpa [keptKey, hcopy] using hak.symm)
      · simp at hc
    · split at hc
      · rename_i hcond
        simp only [Bool.and_eq_true, bne_iff_ne, ne_eq] at hcond
        obtain ⟨hv, hne⟩ := hcond
        obtain rfl := mem_singleton.mp hc
        intro hholds
        rcases holds_middle hholds with h | h
        · exact hgood.value_alone hv h
        · exact hne (holds_value h).symm
      · simp at hc

theorem insertOrReplace_effect (hcfg : Consistent cfg) (hvalid : Valid cfg t)
    (hgood : Good cfg t.entries) (hmap : Represents cfg t.entries m) (key : Key τ) (value : Value)
    (keepOldKey : Bool) (alloc : Alloc) (hands : Hands cfg t key value alloc) :
    let r := insertOrReplace cfg t (some key) value keepOldKey alloc
    Valid cfg r.2.1 ∧ Effect cfg t.entries r.2.1.entries m (mapAfterInsert cfg m key value alloc)
      (takenByInsert cfg t key value alloc r.1) r.2.2 [] := by
  intro r
  obtain ⟨hvalid', hins⟩ := insertOrReplace_spec hvalid hcfg key value keepOldKey alloc hands.nodeFree
  refine ⟨hvalid', ?_⟩
  change Inserted cfg t r.2.1 key value keepOldKey alloc r.1 r.2.2 at hins
  generalize r.1 = result at hins ⊢
  generalize r.2.1 = t' at hins ⊢
  generalize r.2.2 = calls at hins ⊢
  cases hins with
  | replaced E₁ e E₂ hbefore heq hafter =>
    exact effect_replaced hcfg hvalid hgood hmap hands keepOldKey hbefore heq hafter _
  | new stored habsent hnode hcopy hafter =>
    exact effect_new hcfg hgood hmap hands habsent hnode hcopy hafter
  | err habsent hfailed hafter =>
    have hsame : mapAfterInsert cfg m key value alloc = m := by
      rw [mapAfterInsert, if_neg]
      rw [hmap.absent habsent]
      rcases hfailed with h | h <;> simp [h]
    rw [hsame]
    exact effect_none hgood hmap hcfg hafter

/-! ## Runs -/

/-- The calls of a run. An iteration is left after some rounds, or when it ends. -/
inductive Op (τ : Type) where
  | insert (key : Option (Key τ)) (value : Value) (alloc : Alloc)
  | replace (key : Option (Key τ)) (value : Value) (alloc : Alloc)
  | add (key : Option (Key τ)) (alloc : Alloc)
  | remove (key : Option (Key τ))
  | steal (key : Option (Key τ))
  | foreachRemove (func : Predicate τ)
  | iterate (iter : Iter) (act : Nat → Act) (rounds : Nat)
  | removeAll

/-- What a call leaves: the table, the destructor calls, the entries it has shown. -/
structure Out (τ : Type) where
  table : Table τ
  calls : List (Call τ)
  shown : List (Key τ × Value)

/-- One call. -/
def exec (cfg : Config τ) (t : Table τ) : Op τ → Out τ
  | .insert key value alloc => let r := insert cfg t key value alloc; ⟨r.2.1, r.2.2, []⟩
  | .replace key value alloc => let r := replace cfg t key value alloc; ⟨r.2.1, r.2.2, []⟩
  | .add key alloc => let r := add cfg t key alloc; ⟨r.2.1, r.2.2, []⟩
  | .remove key => let r := remove cfg t key; ⟨r.2.1, r.2.2, []⟩
  | .steal key => let r := steal cfg t key; ⟨r.2.1, r.2.2, []⟩
  | .foreachRemove func => let w := foreachRemove cfg t func; ⟨w.table, w.calls, w.shown⟩
  | .iterate iter act rounds => let w := iterate cfg t iter act rounds; ⟨w.table, w.calls, w.shown⟩
  | .removeAll => let r := removeAll cfg t; ⟨r.1, r.2, []⟩

/-- The call inserts `key` with `value`. -/
def Op.inserts : Op τ → Option (Key τ × Value × Bool × Alloc)
  | .insert (some key) value alloc => some (key, value, true, alloc)
  | .replace (some key) value alloc => some (key, value, false, alloc)
  | .add (some key) alloc => some (key, some key.addr, false, alloc)
  | _ => none

/-- The finite map after a call; a walk says which entries it has shown. -/
def mapAfter (cfg : Config τ) (m : Key τ → Option Value) (shown : List (Key τ × Value)) (op : Op τ) :
    Key τ → Option Value :=
  match op.inserts, op with
  | some (key, value, _, alloc), _ => mapAfterInsert cfg m key value alloc
  | none, .remove (some key) => Map.erase cfg m key
  | none, .steal (some key) => Map.erase cfg m key
  | none, .foreachRemove func => Map.eraseAll cfg m (picked (choice func) (· != .keep) shown)
  | none, .iterate _ act _ => Map.eraseAll cfg m (picked (fun k _ => act k) (· != .keep) shown)
  | none, .removeAll => fun _ => none
  | none, _ => m

/-- The pointers that a call takes over. -/
def takenBy (cfg : Config τ) (t : Table τ) (op : Op τ) : List Pointer :=
  match op.inserts with
  | some (key, value, keepOldKey, alloc) =>
    takenByInsert cfg t key value alloc (insertOrReplace cfg t (some key) value keepOldKey alloc).1
  | none => []

/-- The pointers that a call gives back to the caller. -/
def stolenBy (cfg : Config τ) (t : Table τ) (shown : List (Key τ × Value)) : Op τ → List Pointer
  | .steal (some key) => (t.entries.filter fun e => cfg.equal e.1 key).flatMap (givenBack cfg)
  | .iterate _ act _ => (picked (fun k _ => act k) (· == .steal) shown).flatMap (givenBack cfg)
  | _ => []

/-- A table with the map that its calls define, and a ledger of its pointers. -/
structure World (τ : Type) where
  table : Table τ
  map : Key τ → Option Value
  taken : List Pointer
  destroyed : List Pointer
  stolen : List Pointer

/-- A new table. -/
def World.new (node : Nat → Node τ) : World τ := ⟨hashTableAlloc node, fun _ => none, [], [], []⟩

/-- One call, in the world. -/
def World.step (cfg : Config τ) (w : World τ) (op : Op τ) : World τ :=
  let o := exec cfg w.table op
  { table := o.table
    map := mapAfter cfg w.map o.shown op
    taken := w.taken ++ takenBy cfg w.table op
    destroyed := w.destroyed ++ o.calls.map Call.pointer
    stolen := w.stolen ++ stolenBy cfg w.table o.shown op }

/-- The world after a run. -/
def run (cfg : Config τ) (w : World τ) (ops : List (Op τ)) : World τ := ops.foldl (World.step cfg) w

/-- What the caller vouches for. -/
def Vouched (cfg : Config τ) (t : Table τ) (op : Op τ) : Prop :=
  ∀ key value keepOldKey alloc, op.inserts = some (key, value, keepOldKey, alloc) →
    Hands cfg t key value alloc

/-- Every call of a run is vouched for. -/
def AllVouched (cfg : Config τ) (w : World τ) : List (Op τ) → Prop
  | [] => True
  | op :: ops => Vouched cfg w.table op ∧ AllVouched cfg (w.step cfg op) ops

/-- The calls that unlink an entry before they give it to the destructors. -/
def Op.UnlinksFirst : Op τ → Prop
  | .remove _ => True
  | .steal _ => True
  | .foreachRemove _ => True
  | .iterate _ _ _ => True
  | _ => False

/-- The entries that a walk shows. -/
def Op.shows (t : Table τ) : Op τ → List (Key τ × Value)
  | .foreachRemove _ => t.entries
  | .iterate _ _ rounds => t.entries.take rounds
  | _ => []

/-- What is true of one call. -/
structure StepSpec (cfg : Config τ) (t : Table τ) (m : Key τ → Option Value) (op : Op τ)
    (o : Out τ) : Prop where
  valid : Valid cfg o.table
  effect : Effect cfg t.entries o.table.entries m (mapAfter cfg m o.shown op) (takenBy cfg t op)
    o.calls (stolenBy cfg t o.shown op)
  unseen : op.UnlinksFirst → ∀ c ∈ o.calls, ¬ Holds c.pointer c.seen
  shown : o.shown = op.shows t

theorem filter_one (hcfg : Consistent cfg) (hgood : Good cfg (E₁ ++ e :: E₂))
    (heq : cfg.equal e.1 key = true) :
    ((E₁ ++ e :: E₂).filter fun e => cfg.equal e.1 key) = [e] := by
  have hnone : ((E₁ ++ E₂).filter fun e => cfg.equal e.1 key) = [] := by
    rw [filter_eq_nil_iff]
    intro a ha hak
    have := hgood.absent hcfg a ha
    rw [hcfg.trans _ _ _ hak (hcfg.symm _ _ heq)] at this
    cases this
  rw [filter_append, append_eq_nil_iff] at hnone
  rw [filter_append, filter_cons_of_pos (by exact heq), hnone.1, hnone.2]
  rfl

section Step

variable (hcfg : Consistent cfg) (hvalid : Valid cfg t) (hgood : Good cfg t.entries)
  (hmap : Represents cfg t.entries m)

include hcfg hvalid hgood hmap

theorem remove_step (key : Key τ) :
    StepSpec cfg t m (.remove (some key)) (exec cfg t (.remove (some key))) := by
  rcases remove_spec hvalid hcfg key with ⟨hr, habsent⟩ | ⟨t', E₁, e, E₂, hu, heq, hr⟩
  · simp only [exec, hr]
    refine ⟨hvalid, ?_, by simp, rfl⟩
    show Effect cfg t.entries t.entries m (Map.erase cfg m key) [] [] []
    rw [erase_absent hcfg hmap habsent]
    exact effect_none hgood hmap hcfg (.refl _)
  · rw [hu.before] at hgood hmap
    simp only [exec, hr]
    refine ⟨hu.valid, ?_, ?_, rfl⟩
    · rw [hu.before, hu.after]
      exact effect_remove hcfg hgood hmap heq
    · intro _ c hc
      rw [(mem_release hc).2]
      exact hgood.pointer_alone (mem_release hc).1

theorem steal_step (key : Key τ) :
    StepSpec cfg t m (.steal (some key)) (exec cfg t (.steal (some key))) := by
  rcases steal_spec hvalid hcfg key with ⟨hr, habsent⟩ | ⟨t', E₁, e, E₂, hu, heq, hr⟩
  · have hnone : (t.entries.filter fun e => cfg.equal e.1 key) = [] := by
      rw [filter_eq_nil_iff]
      intro e he
      rw [habsent e he]
      exact Bool.false_ne_true
    simp only [exec, hr]
    refine ⟨hvalid, ?_, by simp, rfl⟩
    show Effect cfg t.entries t.entries m (Map.erase cfg m key) [] []
      ((t.entries.filter fun e => cfg.equal e.1 key).flatMap (givenBack cfg))
    rw [erase_absent hcfg hmap habsent, hnone]
    exact effect_none hgood hmap hcfg (.refl _)
  · rw [hu.before] at hgood hmap
    simp only [exec, hr]
    refine ⟨hu.valid, ?_, ?_, rfl⟩
    · show Effect cfg t.entries t'.entries m (Map.erase cfg m key) [] _
        ((t.entries.filter fun e => cfg.equal e.1 key).flatMap (givenBack cfg))
      rw [hu.before, hu.after, filter_one hcfg hgood heq, flatMap_singleton]
      exact effect_steal hcfg hgood hmap heq
    · intro _ c hc
      rw [(mem_letGo hc).2]
      exact hgood.pointer_alone (mem_letGo hc).1

theorem foreachRemove_step (func : Predicate τ) :
    StepSpec cfg t m (.foreachRemove func) (exec cfg t (.foreachRemove func)) := by
  obtain ⟨n, htodo, hs⟩ := foreachRemove_spec hvalid func
  have hinv := sweep_inv hcfg hgood hmap (choice func) n
  have hshown := hinv.shown
  rw [htodo, append_nil] at hshown
  have heffect := hinv.effect
  have hsteal : picked (choice func) (· == .steal) (sweep cfg (choice func) n t.entries).shown = [] := by
    rw [picked, map_eq_nil_iff, filter_eq_nil_iff]
    intro x _
    simp only [choice]
    split <;> simp
  rw [hsteal, ← hs.entries] at heffect
  simp only [exec]
  refine ⟨hs.valid, ?_, ?_, ?_⟩
  · show Effect cfg t.entries _ m (Map.eraseAll cfg m
      (picked (choice func) (· != .keep) (foreachRemove cfg t func).shown)) [] _ []
    rw [hs.shown, hs.calls]
    exact heffect
  · intro _
    show ∀ c ∈ (foreachRemove cfg t func).calls, _
    rw [hs.calls]
    exact hinv.unseen
  · exact hs.shown.trans hshown

theorem iterate_step (iter : Iter) (act : Nat → Act) (rounds : Nat) :
    StepSpec cfg t m (.iterate iter act rounds) (exec cfg t (.iterate iter act rounds)) := by
  have hs := iterate_spec hvalid iter act rounds
  have hinv := sweep_inv hcfg hgood hmap (fun k _ => act k) rounds
  have heffect := hinv.effect
  rw [← hs.entries] at heffect
  simp only [exec]
  refine ⟨hs.valid, ?_, ?_, ?_⟩
  · show Effect cfg t.entries _ m (Map.eraseAll cfg m
      (picked (fun k _ => act k) (· != .keep) (iterate cfg t iter act rounds).shown)) [] _
      ((picked (fun k _ => act k) (· == .steal) (iterate cfg t iter act rounds).shown).flatMap
        (givenBack cfg))
    rw [hs.shown, hs.calls]
    exact heffect
  · intro _
    show ∀ c ∈ (iterate cfg t iter act rounds).calls, _
    rw [hs.calls]
    exact hinv.unseen
  · exact hs.shown.trans (sweep_shown hcfg hgood hmap _ rounds)

/-- A call without a key does nothing. -/
theorem null_step {op : Op τ} (hexec : exec cfg t op = ⟨t, [], []⟩)
    (hmapAfter : mapAfter cfg m [] op = m) (htaken : takenBy cfg t op = [])
    (hstolen : stolenBy cfg t [] op = []) (hshows : op.shows t = []) :
    StepSpec cfg t m op (exec cfg t op) := by
  rw [hexec]
  refine ⟨hvalid, ?_, by simp, hshows.symm⟩
  show Effect cfg t.entries t.entries m (mapAfter cfg m [] op) (takenBy cfg t op) []
    (stolenBy cfg t [] op)
  rw [hmapAfter, htaken, hstolen]
  exact effect_none hgood hmap hcfg (.refl _)

theorem exec_spec (op : Op τ) (hv : Vouched cfg t op) : StepSpec cfg t m op (exec cfg t op) := by
  have hinsert : ∀ key value keepOldKey alloc, op.inserts = some (key, value, keepOldKey, alloc) →
      Valid cfg (insertOrReplace cfg t (some key) value keepOldKey alloc).2.1 ∧
      Effect cfg t.entries (insertOrReplace cfg t (some key) value keepOldKey alloc).2.1.entries m
        (mapAfterInsert cfg m key value alloc)
        (takenByInsert cfg t key value alloc
          (insertOrReplace cfg t (some key) value keepOldKey alloc).1)
        (insertOrReplace cfg t (some key) value keepOldKey alloc).2.2 [] := by
    intro key value keepOldKey alloc hop
    exact insertOrReplace_effect hcfg hvalid hgood hmap key value keepOldKey alloc
      (hv key value keepOldKey alloc hop)
  cases op with
  | insert key value alloc =>
    cases key with
    | none => exact null_step hcfg hvalid hgood hmap rfl rfl rfl rfl rfl
    | some key =>
      obtain ⟨h₁, h₂⟩ := hinsert key value true alloc rfl
      exact ⟨h₁, h₂, False.elim, rfl⟩
  | replace key value alloc =>
    cases key with
    | none => exact null_step hcfg hvalid hgood hmap rfl rfl rfl rfl rfl
    | some key =>
      obtain ⟨h₁, h₂⟩ := hinsert key value false alloc rfl
      exact ⟨h₁, h₂, False.elim, rfl⟩
  | add key alloc =>
    cases key with
    | none => exact null_step hcfg hvalid hgood hmap rfl rfl rfl rfl rfl
    | some key =>
      obtain ⟨h₁, h₂⟩ := hinsert key (some key.addr) false alloc rfl
      exact ⟨h₁, h₂, False.elim, rfl⟩
  | remove key =>
    cases key with
    | none => exact null_step hcfg hvalid hgood hmap rfl rfl rfl rfl rfl
    | some key => exact remove_step hcfg hvalid hgood hmap key
  | steal key =>
    cases key with
    | none => exact null_step hcfg hvalid hgood hmap rfl rfl rfl rfl rfl
    | some key => exact steal_step hcfg hvalid hgood hmap key
  | foreachRemove func => exact foreachRemove_step hcfg hvalid hgood hmap func
  | iterate iter act rounds => exact iterate_step hcfg hvalid hgood hmap iter act rounds
  | removeAll =>
    obtain ⟨h₁, h₂, h₃⟩ := removeAll_spec hvalid
    refine ⟨h₁, ?_, False.elim, rfl⟩
    show Effect cfg t.entries (removeAll cfg t).1.entries m (fun _ => none) [] _ []
    rw [h₂]
    exact effect_clear h₃

end Step

/-- The invariant of a run. -/
structure Inv (cfg : Config τ) (w : World τ) : Prop where
  valid : Valid cfg w.table
  good : Good cfg w.table.entries
  map : Represents cfg w.table.entries w.map
  ledger : w.taken.Perm (owned cfg w.table.entries ++ w.destroyed ++ w.stolen)

theorem inv_new (cfg : Config τ) (node : Nat → Node τ) : Inv cfg (World.new node) := by
  have hwf : Wf cfg (World.new node).table fun _ => [] := wf_alloc node
  have hentries : (World.new node).table.entries = [] := by
    rw [hwf.entries_eq]
    simp [before]
  refine ⟨⟨_, hwf⟩, ?_, ?_, ?_⟩
  · rw [hentries]
    exact ⟨.nil, .nil, fun _ => .nil⟩
  · rw [hentries]
    intro k v
    simp [World.new]
  · rw [hentries]
    exact .nil

theorem Inv.step {w : World τ} (h : Inv cfg w) (hcfg : Consistent cfg) {op : Op τ}
    (hv : Vouched cfg w.table op) : Inv cfg (w.step cfg op) := by
  have hspec := exec_spec hcfg h.valid h.good h.map op hv
  refine ⟨hspec.valid, hspec.effect.good, hspec.effect.map, ?_⟩
  have hledger := perm_iff_count.mp h.ledger
  have heffect := perm_iff_count.mp hspec.effect.ledger
  rw [perm_iff_count]
  intro p
  have h₁ := hledger p
  have h₂ := heffect p
  simp only [World.step, count_append] at h₁ h₂ ⊢
  omega

theorem Inv.run {w : World τ} (h : Inv cfg w) (hcfg : Consistent cfg) {ops : List (Op τ)}
    (hops : AllVouched cfg w ops) : Inv cfg (run cfg w ops) := by
  induction ops generalizing w with
  | nil => exact h
  | cons op ops ih => exact ih (h.step hcfg hops.1) hops.2

/-- The table shows the map. -/
structure Shows (cfg : Config τ) (t : Table τ) (m : Key τ → Option Value) : Prop where
  lookup : ∀ key, lookup cfg t (some key) = (m key).join
  contains : ∀ key, contains cfg t (some key) = (m key).isSome
  size : size t = t.entries.length
  distinct : t.entries.Pairwise fun a b => cfg.equal a.1 b.1 = false
  entries : ∀ key v, m key = some v ↔ ∃ e ∈ t.entries, cfg.equal e.1 key = true ∧ e.2 = v

theorem Inv.shows {w : World τ} (h : Inv cfg w) (hcfg : Consistent cfg) :
    Shows cfg w.table w.map := by
  obtain ⟨chain, hwf⟩ := h.valid
  exact ⟨fun key => (lookup_eq h.valid hcfg h.map key).1,
    fun key => (lookup_eq h.valid hcfg h.map key).2, hwf.size_eq, h.good.keys, h.map⟩

/-- In every run, the table shows the finite map that its calls define. Every pointer
it took over is in the table, or went to its destructor or back to the caller, once.
A walk shows each entry once. A pointer that went to a destructor is out of the table
when the call returns, and out of it already during the call if the entry is unlinked. -/
theorem run_finite_map (hcfg : Consistent cfg) (node : Nat → Node τ) (ops : List (Op τ))
    (hops : AllVouched cfg (World.new node) ops) :
    let w := run cfg (World.new node) ops
    Shows cfg w.table w.map ∧
    w.taken.Perm (owned cfg w.table.entries ++ w.destroyed ++ w.stolen) ∧
    ∀ op, Vouched cfg w.table op →
      let o := exec cfg w.table op
      o.shown = op.shows w.table ∧ (∀ c ∈ o.calls, ¬ Holds c.pointer o.table.entries) ∧
      (op.UnlinksFirst → ∀ c ∈ o.calls, ¬ Holds c.pointer c.seen) := by
  intro w
  have h := (inv_new cfg node).run hcfg hops
  refine ⟨h.shows hcfg, h.ledger, fun op hv => ?_⟩
  have hspec := exec_spec hcfg h.valid h.good h.map op hv
  exact ⟨hspec.shown, hspec.effect.gone, hspec.unseen⟩

/-- Keys are numbers, values are owned. -/
def numbers : Config Nat where
  hash k := k.text
  equal a b := a.text == b.text
  keyDestroy := false
  valueDestroy := true
  copyKeys := false

theorem numbers_consistent : Consistent numbers := by
  refine ⟨?_, ?_, ?_, ?_, ?_⟩ <;> simp +contextual [numbers]

/-- `axl_hash_table_insert` of the key 5, at address 1. -/
def insertFive (value : Nat) : Op Nat := .insert (some ⟨1, 5⟩) (some value) ⟨false, some 0, none⟩

theorem insertFive_vouched {t : Table Nat} (value : Nat) (hnodes : t.nodes = []) :
    Vouched numbers t (insertFive value) := by
  have hentries : t.entries = [] := by rw [Table.entries, hnodes]; rfl
  rintro key v keepOldKey alloc hop
  obtain ⟨rfl, rfl, rfl, rfl⟩ : key = ⟨1, 5⟩ ∧ v = some value ∧ keepOldKey = true ∧
      alloc = ⟨false, some 0, none⟩ := by
    simpa [insertFive, Op.inserts, eq_comm] using hop
  refine ⟨?_, ?_, ?_, ?_⟩ <;> simp [hnodes, hentries, numbers]

/-- The second insertion of a key gives the old value to its destructor while the
table still shows it. -/
theorem overwritten_value_in_table :
    let w := run numbers (World.new fun _ => ⟨⟨0, 0⟩, none, none⟩) [insertFive 7]
    Consistent numbers ∧
    AllVouched numbers (World.new fun _ => ⟨⟨0, 0⟩, none, none⟩) [insertFive 7] ∧
    ∃ c ∈ (exec numbers w.table (.insert (some ⟨1, 5⟩) (some 8) ⟨false, none, none⟩)).calls,
      Holds c.pointer c.seen := by
  intro w
  refine ⟨numbers_consistent, ⟨insertFive_vouched 7 (by decide), trivial⟩,
    ⟨.value (some 7), [(⟨1, 5⟩, some 7)]⟩, ?_, ⟨_, mem_singleton_self _, rfl⟩⟩
  have hcalls : (exec numbers w.table (.insert (some ⟨1, 5⟩) (some 8) ⟨false, none, none⟩)).calls
      = [⟨.value (some 7), [(⟨1, 5⟩, some 7)]⟩] := by decide +kernel
  rw [hcalls]
  exact mem_singleton_self _

theorem run_finite_map_five :
    AllVouched numbers (World.new fun _ => ⟨⟨0, 0⟩, none, none⟩) [insertFive 7] ∧
    Shows numbers (run numbers (World.new fun _ => ⟨⟨0, 0⟩, none, none⟩) [insertFive 7]).table
      (run numbers (World.new fun _ => ⟨⟨0, 0⟩, none, none⟩) [insertFive 7]).map := by
  have hops : AllVouched numbers (World.new fun _ => ⟨⟨0, 0⟩, none, none⟩) [insertFive 7] :=
    ⟨insertFive_vouched 7 (by decide), trivial⟩
  exact ⟨hops, (run_finite_map numbers_consistent _ _ hops).1⟩

end HashTable

end AxlSdk
