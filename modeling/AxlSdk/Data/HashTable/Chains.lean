import AxlSdk.Data.HashTable.Model

/-!
# The chains of the hash table

The buckets of a table are linked lists without a shared node, each key in the
bucket of its hash (`Wf`). Every call keeps that, and what it does to the heap is
a change of the list of entries:

- an unlinked node is one entry less, in the same order (`remove_spec`,
  `steal_spec`);
- a new node is one entry more (`insertOrReplace_spec`), a resize a permutation.
-/

namespace AxlSdk

namespace HashTable

open Linked Table List

variable {τ : Type}

/-! ## Buckets in order -/

/-- The nodes of the buckets from `i` on. -/
def rest (chain : Nat → List Nat) (count i : Nat) : List Nat :=
  (List.range' i (count - i)).flatMap chain

/-- The nodes of the buckets before `i`. -/
def before (chain : Nat → List Nat) (i : Nat) : List Nat := (List.range i).flatMap chain

variable {chain : Nat → List Nat} {count i : Nat}

theorem rest_zero : rest chain count 0 = before chain count := by
  rw [rest, before, Nat.sub_zero, range_eq_range']

theorem rest_succ (hi : i < count) : rest chain count i = chain i ++ rest chain count (i + 1) := by
  obtain ⟨k, rfl⟩ : ∃ k, count = i + 1 + k := ⟨count - (i + 1), by omega⟩
  have h₁ : i + 1 + k - i = k + 1 := by omega
  have h₂ : i + 1 + k - (i + 1) = k := by omega
  rw [rest, rest, h₁, h₂, range'_succ, flatMap_cons]

theorem rest_end (hi : count ≤ i) : rest chain count i = [] := by
  rw [rest, Nat.sub_eq_zero_of_le hi]
  rfl

theorem before_succ : before chain (i + 1) = before chain i ++ chain i := by
  rw [before, before, range_succ, flatMap_append, flatMap_cons, flatMap_nil,
    append_nil]

theorem before_rest (hi : i ≤ count) : before chain count = before chain i ++ rest chain count i := by
  rw [before, before, rest, ← flatMap_append]
  congr 1
  obtain ⟨k, rfl⟩ := Nat.exists_eq_add_of_le hi
  rw [Nat.add_sub_cancel_left, range_add, ← range'_eq_map_range]

/-- The nodes of all buckets, seen from bucket `i`. -/
theorem before_split (hi : i < count) :
    before chain count = before chain i ++ (chain i ++ rest chain count (i + 1)) := by
  rw [before_rest (Nat.le_of_lt hi), rest_succ hi]

theorem before_update {l : List Nat} : before (Function.update chain i l) i = before chain i := by
  refine flatMap_congr fun j hj => ?_
  rw [Function.update_of_ne (Nat.ne_of_lt (mem_range.mp hj))]

theorem rest_update {l : List Nat} {j : Nat} (hj : i < j) :
    rest (Function.update chain i l) count j = rest chain count j := by
  refine flatMap_congr fun k hk => ?_
  have := (List.mem_range'_1.mp hk).1
  rw [Function.update_of_ne (by omega)]

theorem before_update_split {l : List Nat} (hi : i < count) :
    before (Function.update chain i l) count
      = before chain i ++ (l ++ rest chain count (i + 1)) := by
  rw [before_split hi, before_update, Function.update_self, rest_update (Nat.lt_succ_self i)]

theorem mem_before {n : Nat} : n ∈ before chain count ↔ ∃ i < count, n ∈ chain i := by
  simp [before]

/-! ## The heap holds the chains -/

/-- The buckets are linked lists that share no node. -/
structure Rep (t : Table τ) (chain : Nat → List Nat) : Prop where
  path : ∀ i < t.bucketCount, Path t.next (t.buckets i) (chain i) none
  nodup : (before chain t.bucketCount).Nodup
  bound : (before chain t.bucketCount).length ≤ t.entryCount

variable {t : Table τ}

theorem Rep.length_le (h : Rep t chain) (hi : i < t.bucketCount) :
    (chain i).length ≤ t.entryCount := by
  have := h.bound
  rw [before_split hi] at this
  simp only [length_append] at this
  omega

theorem Rep.nodes_eq (h : Rep t chain) : t.nodes = before chain t.bucketCount := by
  refine flatMap_congr fun i hi => ?_
  have hi := mem_range.mp hi
  exact (h.path i hi).walk_eq (h.length_le hi)

theorem Rep.entries_eq (h : Rep t chain) :
    t.entries = (before chain t.bucketCount).map t.entry := by
  rw [Table.entries, h.nodes_eq]

/-- A node is in one bucket only. -/
theorem Rep.bucket_unique (h : Rep t chain) {j n : Nat} (hi : i < t.bucketCount)
    (hj : j < t.bucketCount) (hni : n ∈ chain i) (hnj : n ∈ chain j) : i = j := by
  have hp := (nodup_flatMap.mp h.nodup).2
  by_contra hne
  have hsymm : Std.Symm (Function.onFun List.Disjoint chain) := ⟨fun _ _ h _ ha hb => h hb ha⟩
  exact hp.forall (mem_range.mpr hi) (mem_range.mpr hj) hne hni hnj

theorem Rep.chain_nodup (h : Rep t chain) (hi : i < t.bucketCount) : (chain i).Nodup :=
  (nodup_flatMap.mp h.nodup).1 i (mem_range.mpr hi)

/-! ### Slots -/

/-- The slot behind the nodes `l` that follow the slot `prev`. -/
def slotFrom (prev : Slot) (l : List Nat) : Slot :=
  match l.getLast? with
  | none => prev
  | some n => .next n

@[simp] theorem slotFrom_nil (prev : Slot) : slotFrom prev [] = prev := rfl

@[simp] theorem slotFrom_concat (prev : Slot) (l : List Nat) (n : Nat) :
    slotFrom prev (l ++ [n]) = .next n := by
  simp [slotFrom]

theorem slotFrom_cons (prev : Slot) (n : Nat) (l : List Nat) :
    slotFrom prev (n :: l) = slotFrom (.next n) l := by
  rcases eq_nil_or_concat' l with rfl | ⟨l, b, rfl⟩
  · rfl
  · rw [slotFrom_concat, ← cons_append, slotFrom_concat]

section Store

variable {l : List Nat} {p : Option Nat}

@[simp] theorem store_bucketCount (prev : Slot) : (t.store prev p).bucketCount = t.bucketCount := by
  cases prev <;> rfl

@[simp] theorem store_entryCount (prev : Slot) : (t.store prev p).entryCount = t.entryCount := by
  cases prev <;> rfl

@[simp] theorem store_entry (prev : Slot) : (t.store prev p).entry = t.entry := by
  cases prev with
  | bucket i => rfl
  | next m =>
    funext n
    by_cases h : n = m
    · subst h
      simp [store, Table.entry]
    · simp [store, Table.entry, h]

theorem store_slotFrom_next (n : Nat) :
    (t.store (slotFrom (.bucket i) l) p).next n = if l.getLast? = some n then p else t.next n := by
  rcases eq_nil_or_concat' l with rfl | ⟨l, b, rfl⟩
  · simp [store, Table.next]
  · by_cases h : b = n
    · subst h
      simp [store, Table.next]
    · simp [store, Table.next, h, Ne.symm h]

theorem store_slotFrom_buckets (j : Nat) :
    (t.store (slotFrom (.bucket i) l) p).buckets j
      = if l = [] ∧ j = i then p else t.buckets j := by
  rcases eq_nil_or_concat' l with rfl | ⟨l, b, rfl⟩
  · by_cases h : j = i
    · subst h
      simp [store]
    · simp [store, h]
  · simp [store]

end Store

/-! ### Unlinking -/

/-- A node leaves its chain when the slot before it gets its `next`. -/
theorem Rep.unlink (h : Rep t chain) {l r : List Nat} {n : Nat} (hi : i < t.bucketCount)
    (hc : chain i = l ++ n :: r) :
    Rep (t.store (slotFrom (.bucket i) l) (t.next n)) (Function.update chain i (l ++ r)) := by
  have hnodup : (l ++ n :: r).Nodup := hc ▸ h.chain_nodup hi
  obtain ⟨hnl, hnr, hdis⟩ := nodup_append.mp hnodup
  have hsub : (before (Function.update chain i (l ++ r)) t.bucketCount).Sublist
      (before chain t.bucketCount) := by
    rw [before_update_split hi, before_split hi, hc]
    refine .append (.refl _) (.append (.append (.refl _) ?_) (.refl _))
    exact sublist_cons_self n r
  refine ⟨?_, ?_, ?_⟩
  · intro j hj
    rw [store_bucketCount] at hj
    by_cases hji : j = i
    · subst hji
      rw [Function.update_self, store_slotFrom_buckets]
      obtain ⟨m, hl, hm, hr⟩ := path_append.mp (hc ▸ h.path j hj)
      refine path_append.mpr ⟨t.next n, ?_, hr.congr ?_⟩
      · cases l with
        | nil => simp [Linked.Path]
        | cons a l =>
          rw [if_neg (by simp)]
          refine hl.setNext hnl ?_ ?_ (by simp)
          · intro c hc
            rw [store_slotFrom_next, if_pos hc]
          · intro c _ hc
            rw [store_slotFrom_next, if_neg hc]
      · intro c hcr
        rw [store_slotFrom_next, if_neg]
        intro hlast
        exact hdis c (mem_of_getLast? hlast) c (by simp [hcr]) rfl
    · rw [Function.update_of_ne hji, store_slotFrom_buckets, if_neg (by simp [hji])]
      refine (h.path j hj).congr fun c hcj => ?_
      rw [store_slotFrom_next, if_neg]
      -- the last node of `l` is in bucket `i`
      intro hlast
      refine hji (h.bucket_unique hj hi hcj ?_)
      rw [hc]
      exact mem_append_left _ (mem_of_getLast? hlast)
  · rw [store_bucketCount]
    exact h.nodup.sublist hsub
  · rw [store_bucketCount, store_entryCount]
    exact Nat.le_trans hsub.length_le h.bound

/-! ## Tables -/

/-- Hash and equality fit together: equality is an equivalence, equal keys have the
same hash, and where keys are copied a copy equals its original. -/
structure Consistent (cfg : Config τ) : Prop where
  refl : ∀ k, cfg.equal k k = true
  symm : ∀ a b, cfg.equal a b = true → cfg.equal b a = true
  trans : ∀ a b c, cfg.equal a b = true → cfg.equal b c = true → cfg.equal a c = true
  hash : ∀ a b, cfg.equal a b = true → cfg.hash a = cfg.hash b
  copy : cfg.copyKeys = true → ∀ a b x, cfg.equal ⟨a, x⟩ ⟨b, x⟩ = true

/-- The invariant of a table: every node is in the bucket of its key. -/
structure Wf (cfg : Config τ) (t : Table τ) (chain : Nat → List Nat) : Prop extends
    Rep t chain where
  place : ∀ i < t.bucketCount, ∀ n ∈ chain i, index cfg t.bucketCount (t.entry n).1 = i
  count : t.entryCount = (before chain t.bucketCount).length
  pos : 0 < t.bucketCount

variable {cfg : Config τ}

theorem index_lt (cfg : Config τ) (hpos : 0 < count) (key : Key τ) : index cfg count key < count := by
  have : index cfg count key ≤ count - 1 := Nat.and_le_right
  omega

theorem wf_alloc (node : Nat → Node τ) : Wf cfg (hashTableAlloc node) fun _ => [] := by
  have h : before (fun _ => []) initialBuckets = [] := by simp [before]
  refine ⟨⟨fun _ _ => rfl, ?_, ?_⟩, by simp, ?_, Nat.succ_pos 63⟩
  · exact h ▸ nodup_nil
  · exact h ▸ Nat.le_refl 0
  · exact h ▸ rfl

/-- The entries are as many as the table counts. -/
theorem Wf.size_eq (h : Wf cfg t chain) : t.entryCount = t.entries.length := by
  rw [h.entries_eq, length_map]
  exact h.count

/-- An unlinked node is one entry less. -/
theorem Wf.unlink (h : Wf cfg t chain) {l r : List Nat} {n : Nat} (hi : i < t.bucketCount)
    (hc : chain i = l ++ n :: r) :
    Wf cfg (t.store (slotFrom (.bucket i) l) (t.next n)).forget
      (Function.update chain i (l ++ r)) := by
  have hrep := h.toRep.unlink hi hc
  have hcount : t.entryCount - 1
      = (before (Function.update chain i (l ++ r)) t.bucketCount).length := by
    rw [h.count, before_split hi, before_update_split hi, hc]
    simp only [length_append, length_cons]
    omega
  refine ⟨⟨hrep.path, hrep.nodup, ?_⟩, ?_, ?_, ?_⟩
  · simpa [Table.forget] using Nat.le_of_eq hcount.symm
  · intro j hj m hm
    simp only [Table.forget, store_bucketCount] at hj ⊢
    have hentry : (t.store (slotFrom (.bucket i) l) (t.next n)).forget.entry m = t.entry m :=
      congrFun (store_entry (slotFrom (.bucket i) l)) m
    refine (congrArg (fun e => index cfg t.bucketCount e.1) hentry).trans (h.place j hj m ?_)
    by_cases hji : j = i
    · subst hji
      rw [Function.update_self] at hm
      rw [hc]
      simp only [mem_append, mem_cons] at hm ⊢
      tauto
    · rwa [Function.update_of_ne hji] at hm
  · simpa [Table.forget] using hcount
  · simpa [Table.forget] using h.pos

/-- The entries around a node. -/
theorem Rep.entries_split (h : Rep t chain) {l r : List Nat} {n : Nat} (hi : i < t.bucketCount)
    (hc : chain i = l ++ n :: r) :
    t.entries = (before chain i ++ l).map t.entry ++
      t.entry n :: (r ++ rest chain t.bucketCount (i + 1)).map t.entry := by
  rw [h.entries_eq, before_split hi, hc]
  simp

/-- The entries after a node is unlinked. -/
theorem Rep.entries_unlink (h : Rep t chain) {l r : List Nat} {n : Nat} (hi : i < t.bucketCount)
    (hc : chain i = l ++ n :: r) :
    (t.store (slotFrom (.bucket i) l) (t.next n)).entries = (before chain i ++ l).map t.entry ++
      (r ++ rest chain t.bucketCount (i + 1)).map t.entry := by
  rw [(h.unlink hi hc).entries_eq, store_bucketCount, before_update_split hi, store_entry]
  simp

/-- Fewer entries to count do not change the entries. -/
theorem Wf.entries_forget {t : Table τ} (h : Wf cfg t.forget chain) (hrep : Rep t chain) :
    t.forget.entries = t.entries := by
  rw [h.entries_eq, hrep.entries_eq]
  rfl

/-! ## Finding a key -/

/-- `E` has no entry for the key. -/
def Absent (cfg : Config τ) (E : List (Key τ × Value)) (key : Key τ) : Prop :=
  ∀ e ∈ E, cfg.equal e.1 key = false

theorem findLoop_eq {key : Key τ} {p : Option Nat} {l : List Nat} (h : Path t.next p l none)
    {fuel : Nat} (hfuel : l.length ≤ fuel) :
    findLoop cfg t key fuel p = l.find? fun n => cfg.equal (t.entry n).1 key := by
  induction l generalizing p fuel with
  | nil =>
    obtain rfl : p = none := h
    cases fuel <;> rfl
  | cons n l ih =>
    obtain ⟨rfl, h⟩ := h
    cases fuel with
    | zero => simp at hfuel
    | succ fuel =>
      rw [findLoop, find?_cons, ih h (by simpa using hfuel)]
      simp only [Table.entry]
      cases cfg.equal (t.node n).key key <;> rfl

theorem findSlotLoop_cases (cfg : Config τ) (key : Key τ) (prev : Slot) {l : List Nat}
    (h : Path t.next (t.load prev) l none) {fuel : Nat} (hfuel : l.length ≤ fuel) :
    (findSlotLoop cfg t key fuel prev = none ∧ ∀ n ∈ l, cfg.equal (t.entry n).1 key = false) ∨
    ∃ l₁ n l₂, l = l₁ ++ n :: l₂ ∧ cfg.equal (t.entry n).1 key = true ∧
      findSlotLoop cfg t key fuel prev = some (slotFrom prev l₁, n) := by
  induction l generalizing prev fuel with
  | nil =>
    have hload : t.load prev = none := h
    left
    cases fuel <;> simp [findSlotLoop, hload]
  | cons n l ih =>
    obtain ⟨hload, h⟩ := h
    cases fuel with
    | zero => simp at hfuel
    | succ fuel =>
      simp only [findSlotLoop, hload]
      cases heq : cfg.equal (t.node n).key key with
      | true => exact .inr ⟨[], n, l, rfl, heq, rfl⟩
      | false =>
        have hnext : t.load (.next n) = t.next n := rfl
        simp only [Bool.false_eq_true, if_false]
        rcases ih (.next n) (hnext ▸ h) (show l.length ≤ fuel by simpa using hfuel) with
          ⟨h₁, h₂⟩ | ⟨l₁, m, l₂, rfl, h₂, h₃⟩
        · refine .inl ⟨h₁, ?_⟩
          intro m hm
          rcases mem_cons.mp hm with rfl | hm
          · exact heq
          · exact h₂ m hm
        · exact .inr ⟨n :: l₁, m, l₂, rfl, h₂, by rw [slotFrom_cons]; exact h₃⟩

/-- A key that is not in its bucket is nowhere. -/
theorem Wf.absent (h : Wf cfg t chain) (hcfg : Consistent cfg) {key : Key τ}
    (hno : ∀ n ∈ chain (index cfg t.bucketCount key), cfg.equal (t.entry n).1 key = false) :
    Absent cfg t.entries key := by
  rw [h.entries_eq]
  intro e he
  obtain ⟨n, hn, rfl⟩ := mem_map.mp he
  obtain ⟨i, hi, hni⟩ := mem_before.mp hn
  by_contra heq
  rw [Bool.not_eq_false] at heq
  have hidx : i = index cfg t.bucketCount key := by
    rw [← h.place i hi n hni, index, index, hcfg.hash _ _ heq]
  rw [hno n (hidx ▸ hni)] at heq
  cases heq

theorem Wf.find_cases (h : Wf cfg t chain) (hcfg : Consistent cfg) (key : Key τ) :
    (find cfg t key = none ∧ Absent cfg t.entries key) ∨
    ∃ l n r, chain (index cfg t.bucketCount key) = l ++ n :: r ∧
      cfg.equal (t.entry n).1 key = true ∧ find cfg t key = some n := by
  have hi := index_lt cfg h.pos key
  have hfind : find cfg t key = _ := findLoop_eq (h.path _ hi) (h.length_le hi)
  cases hres : find cfg t key with
  | none =>
    refine .inl ⟨rfl, h.absent hcfg ?_⟩
    rw [hfind] at hres
    simpa using hres
  | some n =>
    rw [hfind] at hres
    obtain ⟨heq, l, r, hc, -⟩ := find?_eq_some_iff_append.mp hres
    exact .inr ⟨l, n, r, hc, heq, rfl⟩

theorem Wf.findSlot_cases (h : Wf cfg t chain) (hcfg : Consistent cfg) (key : Key τ) :
    (findSlot cfg t key = none ∧ Absent cfg t.entries key) ∨
    ∃ l n r, chain (index cfg t.bucketCount key) = l ++ n :: r ∧
      cfg.equal (t.entry n).1 key = true ∧
      findSlot cfg t key = some (slotFrom (.bucket (index cfg t.bucketCount key)) l, n) := by
  have hi := index_lt cfg h.pos key
  rcases findSlotLoop_cases cfg key (.bucket (index cfg t.bucketCount key))
    (h.path _ hi) (h.length_le hi) with ⟨h₁, h₂⟩ | ⟨l, n, r, h₁, h₂, h₃⟩
  · exact .inl ⟨h₁, h.absent hcfg h₂⟩
  · exact .inr ⟨l, n, r, h₁, h₂, h₃⟩

/-! ## Removing a key -/

/-- The table is well-formed. -/
def Valid (cfg : Config τ) (t : Table τ) : Prop := ∃ chain, Wf cfg t chain

/-- The calls that end an entry, when the table shows `seen`. -/
def release (cfg : Config τ) (e : Key τ × Value) (seen : List (Key τ × Value)) : List (Call τ) :=
  (if cfg.copyKeys || cfg.keyDestroy then [⟨.key e.1.addr, seen⟩] else []) ++
    if cfg.valueDestroy then [⟨.value e.2, seen⟩] else []

/-- The calls that go with a stolen entry. -/
def letGo (cfg : Config τ) (e : Key τ × Value) (seen : List (Key τ × Value)) : List (Call τ) :=
  if cfg.copyKeys then [⟨.key e.1.addr, seen⟩] else []

theorem freeEntry_eq (t : Table τ) (n : Nat) :
    freeEntry cfg t n = release cfg (t.entry n) t.entries := by
  simp only [freeEntry, freeKey, freeValue, release, Table.entry]
  cases cfg.copyKeys <;> cases cfg.keyDestroy <;> rfl

theorem freeCopy_eq (t : Table τ) (n : Nat) :
    freeCopy cfg t n = letGo cfg (t.entry n) t.entries := rfl

/-- The table without the entry `e`, in the same order. -/
structure Unlinked (cfg : Config τ) (t t' : Table τ) (E₁ : List (Key τ × Value))
    (e : Key τ × Value) (E₂ : List (Key τ × Value)) : Prop where
  valid : Valid cfg t'
  before : t.entries = E₁ ++ e :: E₂
  after : t'.entries = E₁ ++ E₂

theorem Wf.unlinked (h : Wf cfg t chain) {l r : List Nat} {n : Nat} (hi : i < t.bucketCount)
    (hc : chain i = l ++ n :: r) :
    Unlinked cfg t (t.store (slotFrom (.bucket i) l) (t.next n)).forget
      ((before chain i ++ l).map t.entry) (t.entry n)
      ((r ++ rest chain t.bucketCount (i + 1)).map t.entry) := by
  have hwf := h.unlink hi hc
  refine ⟨⟨_, hwf⟩, h.entries_split hi hc, ?_⟩
  rw [hwf.entries_forget (h.toRep.unlink hi hc)]
  exact h.entries_unlink hi hc

theorem remove_spec (h : Valid cfg t) (hcfg : Consistent cfg) (key : Key τ) :
    (remove cfg t (some key) = (false, t, []) ∧ Absent cfg t.entries key) ∨
    ∃ t' E₁ e E₂, Unlinked cfg t t' E₁ e E₂ ∧ cfg.equal e.1 key = true ∧
      remove cfg t (some key) = (true, t', release cfg e (E₁ ++ E₂)) := by
  obtain ⟨chain, h⟩ := h
  have hi := index_lt cfg h.pos key
  rcases h.findSlot_cases hcfg key with ⟨h₁, h₂⟩ | ⟨l, n, r, hc, heq, h₃⟩
  · exact .inl ⟨by simp only [remove, h₁], h₂⟩
  · refine .inr ⟨_, _, _, _, h.unlinked hi hc, heq, ?_⟩
    simp only [remove, h₃, freeEntry_eq, store_entry, h.entries_unlink hi hc]

theorem steal_spec (h : Valid cfg t) (hcfg : Consistent cfg) (key : Key τ) :
    (steal cfg t (some key) = (false, t, []) ∧ Absent cfg t.entries key) ∨
    ∃ t' E₁ e E₂, Unlinked cfg t t' E₁ e E₂ ∧ cfg.equal e.1 key = true ∧
      steal cfg t (some key) = (true, t', letGo cfg e (E₁ ++ E₂)) := by
  obtain ⟨chain, h⟩ := h
  have hi := index_lt cfg h.pos key
  rcases h.findSlot_cases hcfg key with ⟨h₁, h₂⟩ | ⟨l, n, r, hc, heq, h₃⟩
  · exact .inl ⟨by simp only [steal, h₁], h₂⟩
  · refine .inr ⟨_, _, _, _, h.unlinked hi hc, heq, ?_⟩
    simp only [steal, h₃, freeCopy_eq, store_entry, h.entries_unlink hi hc]

/-! ## Overwriting an entry -/

/-- Other keys and values in the same links. -/
theorem Rep.congr {t' : Table τ} (h : Rep t chain) (hnext : t'.next = t.next)
    (hbuckets : t'.buckets = t.buckets) (hcount : t'.bucketCount = t.bucketCount)
    (hentries : t'.entryCount = t.entryCount) : Rep t' chain := by
  refine ⟨?_, ?_, ?_⟩
  · rw [hcount, hnext, hbuckets]
    exact h.path
  · rw [hcount]
    exact h.nodup
  · rw [hcount, hentries]
    exact h.bound

/-- The node `n` gets another entry for the same bucket. -/
theorem Wf.setEntry {t' : Table τ} (h : Wf cfg t chain) {l r : List Nat} {n : Nat}
    {e : Key τ × Value} (hi : i < t.bucketCount) (hc : chain i = l ++ n :: r)
    (hnext : t'.next = t.next) (hbuckets : t'.buckets = t.buckets)
    (hcount : t'.bucketCount = t.bucketCount) (hentries : t'.entryCount = t.entryCount)
    (hentry : t'.entry = Function.update t.entry n e) (hindex : index cfg t.bucketCount e.1 = i) :
    Wf cfg t' chain ∧ t'.entries = (before chain i ++ l).map t.entry ++
      e :: (r ++ rest chain t.bucketCount (i + 1)).map t.entry := by
  have hrep : Rep t' chain := h.toRep.congr hnext hbuckets hcount hentries
  refine ⟨⟨hrep, ?_, ?_, hcount ▸ h.pos⟩, ?_⟩
  · intro j hj m hm
    rw [hcount] at hj ⊢
    rw [hentry]
    by_cases hmn : m = n
    · subst hmn
      rw [Function.update_self, hindex]
      exact h.bucket_unique hi hj (hc ▸ by simp) hm
    · rw [Function.update_of_ne hmn]
      exact h.place j hj m hm
  · rw [hentries, hcount]
    exact h.count
  · -- the node occurs once
    have hnodup := h.nodup
    rw [before_split hi, hc] at hnodup
    have hsplit : before chain i ++ (l ++ n :: r ++ rest chain t.bucketCount (i + 1))
        = (before chain i ++ l) ++ n :: (r ++ rest chain t.bucketCount (i + 1)) := by
      simp
    rw [hsplit] at hnodup
    obtain ⟨hn, -⟩ := nodup_cons.mp (nodup_middle.mp hnodup)
    rw [hrep.entries_eq, hcount, before_split hi, hc, hsplit, map_append, map_cons, hentry]
    have hother : ∀ m ∈ (before chain i ++ l) ++ (r ++ rest chain t.bucketCount (i + 1)),
        Function.update t.entry n e m = t.entry m := by
      intro m hm
      rw [Function.update_of_ne]
      rintro rfl
      exact hn hm
    rw [Function.update_self, map_congr_left fun m hm => hother m (mem_append_left _ hm),
      map_congr_left fun m hm => hother m (mem_append_right _ hm)]

/-- The calls of `overwrite` for an entry `e`: `E` is what the table shows at first,
`E'` what it shows after the key is written. -/
def overwriteCalls (cfg : Config τ) (e : Key τ × Value) (key : Key τ) (value : Value)
    (keepOldKey : Bool) (E E' : List (Key τ × Value)) : List (Call τ) :=
  (if !cfg.copyKeys && (cfg.keyDestroy && e.1.addr != key.addr) then
    [⟨.key (if keepOldKey then key.addr else e.1.addr), E⟩] else []) ++
  if cfg.valueDestroy && e.2 != value then [⟨.value e.2, E'⟩] else []

/-- The key that an overwritten entry has. -/
def keptKey (cfg : Config τ) (old key : Key τ) (keepOldKey : Bool) : Key τ :=
  if cfg.copyKeys || keepOldKey then old else key

theorem overwrite_spec (h : Wf cfg t chain) (hcfg : Consistent cfg) {l r : List Nat} {n : Nat}
    {key : Key τ} (hc : chain (index cfg t.bucketCount key) = l ++ n :: r)
    (heq : cfg.equal (t.entry n).1 key = true) (value : Value) (keepOldKey : Bool) :
    ∃ E₁ E₂, t.entries = E₁ ++ t.entry n :: E₂ ∧
      Valid cfg (overwrite cfg t n key value keepOldKey).1 ∧
      (overwrite cfg t n key value keepOldKey).1.entries
        = E₁ ++ (keptKey cfg (t.entry n).1 key keepOldKey, value) :: E₂ ∧
      (overwrite cfg t n key value keepOldKey).2
        = overwriteCalls cfg (t.entry n) key value keepOldKey t.entries
          (E₁ ++ (keptKey cfg (t.entry n).1 key keepOldKey, (t.entry n).2) :: E₂) := by
  have hi := index_lt cfg h.pos key
  have hindex : index cfg t.bucketCount (t.entry n).1 = index cfg t.bucketCount key := by
    rw [index, index, hcfg.hash _ _ heq]
  -- the table after the key is written
  let t₁ : Table τ := if cfg.copyKeys || keepOldKey then t else t.setKey n key
  have ht₁ : overwrite cfg t n key value keepOldKey = (t₁.setValue n value,
      (if !cfg.copyKeys && (cfg.keyDestroy && (t.entry n).1.addr != key.addr) then
        [⟨.key (if keepOldKey then key.addr else (t.entry n).1.addr), t.entries⟩] else []) ++
      if cfg.valueDestroy && (t₁.entry n).2 != value then
        [⟨.value (t₁.entry n).2, t₁.entries⟩] else []) := by
    cases hcopy : cfg.copyKeys <;> cases keepOldKey <;>
      simp [overwrite, Table.entry, t₁, hcopy]
  have hentry : t₁.entry = Function.update t.entry n
      (keptKey cfg (t.entry n).1 key keepOldKey, (t.entry n).2) := by
    funext m
    simp only [t₁, keptKey]
    cases cfg.copyKeys || keepOldKey <;> by_cases hm : m = n
    · subst hm
      simp [setKey, Table.entry]
    · simp [setKey, Table.entry, hm]
    · subst hm
      simp
    · simp [hm]
  have hnext : t₁.next = t.next := by
    simp only [t₁]
    cases cfg.copyKeys || keepOldKey
    · funext m
      by_cases hm : m = n
      · subst hm
        simp [setKey, Table.next]
      · simp [setKey, Table.next, hm]
    · rfl
  have hsame : t₁.buckets = t.buckets ∧ t₁.bucketCount = t.bucketCount ∧
      t₁.entryCount = t.entryCount := by
    simp only [t₁]
    cases cfg.copyKeys || keepOldKey <;> exact ⟨rfl, rfl, rfl⟩
  obtain ⟨hb, hbc, hec⟩ := hsame
  have hkept : index cfg t.bucketCount (keptKey cfg (t.entry n).1 key keepOldKey)
      = index cfg t.bucketCount key := by
    rw [keptKey]
    split
    · exact hindex
    · rfl
  obtain ⟨hwf₁, hE₁⟩ := h.setEntry hi hc hnext hb hbc hec hentry hkept
  have hnext₂ : (t₁.setValue n value).next = t.next := by
    rw [← hnext]
    funext m
    by_cases hm : m = n
    · subst hm
      simp [setValue, Table.next]
    · simp [setValue, Table.next, hm]
  have hentry₂ : (t₁.setValue n value).entry = Function.update t.entry n
      (keptKey cfg (t.entry n).1 key keepOldKey, value) := by
    funext m
    by_cases hm : m = n
    · subst hm
      have hkey : (t₁.entry m).1 = keptKey cfg (t.entry m).1 key keepOldKey := by
        rw [hentry, Function.update_self]
      rw [Function.update_self, ← hkey]
      simp [setValue, Table.entry]
    · have hold : t₁.entry m = t.entry m := by rw [hentry, Function.update_of_ne hm]
      rw [Function.update_of_ne hm, ← hold]
      simp [setValue, Table.entry, hm]
  obtain ⟨hwf₂, hE₂⟩ := h.setEntry hi hc hnext₂ hb hbc hec hentry₂ hkept
  refine ⟨_, _, h.entries_split hi hc, ?_, ?_, ?_⟩
  · rw [ht₁]
    exact ⟨_, hwf₂⟩
  · rw [ht₁]
    exact hE₂
  · have hval : (t₁.entry n).2 = (t.entry n).2 := by rw [hentry, Function.update_self]
    rw [ht₁]
    simp only [overwriteCalls, hval, hE₁]

/-! ## A new entry -/

theorem link_next (n : Nat) (key : Key τ) (value : Value) (m : Nat) (hm : m ≠ n) :
    (link cfg t n key value).next m = t.next m := by
  simp [link, Table.next, hm]

theorem link_entry (n : Nat) (key : Key τ) (value : Value) :
    (link cfg t n key value).entry = Function.update t.entry n (key, value) := by
  funext m
  by_cases hm : m = n
  · subst hm
    simp [link, Table.entry]
  · simp [link, Table.entry, hm]

/-- A node that is not in the table comes to the head of a chain. -/
theorem Wf.link (h : Wf cfg t chain) {n : Nat} (hn : n ∉ t.nodes) (key : Key τ) (value : Value) :
    Valid cfg (link cfg t n key value) ∧ ∃ E₁ E₂, t.entries = E₁ ++ E₂ ∧
      (link cfg t n key value).entries = E₁ ++ (key, value) :: E₂ := by
  let idx := index cfg t.bucketCount key
  have hi : idx < t.bucketCount := index_lt cfg h.pos key
  rw [h.nodes_eq] at hn
  have hmem : ∀ {j m}, j < t.bucketCount → m ∈ chain j → m ≠ n := by
    rintro j m hj hm rfl
    exact hn (mem_before.mpr ⟨j, hj, hm⟩)
  have hall : before (Function.update chain idx (n :: chain idx)) t.bucketCount
      = before chain idx ++ n :: (chain idx ++ rest chain t.bucketCount (idx + 1)) := by
    rw [before_update_split hi]
    rfl
  have hlength : t.entryCount + 1
      = (before (Function.update chain idx (n :: chain idx)) t.bucketCount).length := by
    rw [hall, h.count, before_split hi]
    simp only [length_append, length_cons]
    omega
  have hrep : Rep (HashTable.link cfg t n key value)
      (Function.update chain idx (n :: chain idx)) := by
    refine ⟨?_, ?_, Nat.le_of_eq hlength.symm⟩
    · intro j hj
      by_cases hji : j = idx
      · subst hji
        rw [Function.update_self]
        have hhead : (HashTable.link cfg t n key value).next n = t.buckets idx := by
          simp [HashTable.link, Table.next, idx]
        refine ⟨by simp [HashTable.link, idx], ?_⟩
        rw [hhead]
        refine (h.path idx hi).congr fun m hm => ?_
        exact link_next n key value m (hmem hi hm)
      · rw [Function.update_of_ne hji]
        have hbucket : (HashTable.link cfg t n key value).buckets j = t.buckets j := by
          simp only [HashTable.link]
          exact Function.update_of_ne hji _ _
        rw [hbucket]
        refine (h.path j hj).congr fun m hm => ?_
        exact link_next n key value m (hmem hj hm)
    · show (before _ t.bucketCount).Nodup
      rw [hall, nodup_middle, ← before_split hi]
      exact nodup_cons.mpr ⟨hn, h.nodup⟩
  refine ⟨⟨_, hrep, ?_, hlength, h.pos⟩, (before chain idx).map t.entry,
    (chain idx ++ rest chain t.bucketCount (idx + 1)).map t.entry, ?_, ?_⟩
  · intro j hj m hm
    rw [link_entry]
    by_cases hmn : m = n
    · subst hmn
      rw [Function.update_self]
      by_cases hji : j = idx
      · exact hji.symm
      · rw [Function.update_of_ne hji] at hm
        exact absurd rfl (hmem hj hm)
    · rw [Function.update_of_ne hmn]
      refine h.place j hj m ?_
      by_cases hji : j = idx
      · subst hji
        rw [Function.update_self] at hm
        exact (mem_cons.mp hm).resolve_left hmn
      · rwa [Function.update_of_ne hji] at hm
  · rw [h.entries_eq, before_split hi, map_append]
  · have hother : ∀ m ∈ before chain t.bucketCount,
        Function.update t.entry n (key, value) m = t.entry m := by
      intro m hm
      rw [Function.update_of_ne]
      rintro rfl
      exact hn hm
    rw [before_split hi] at hother
    rw [hrep.entries_eq]
    show (before _ t.bucketCount).map _ = _
    rw [hall, link_entry, map_append, map_cons, Function.update_self,
      map_congr_left fun m hm => hother m (mem_append_left _ hm),
      map_congr_left fun m hm => hother m (mem_append_right _ hm)]

/-! ## Resizing -/

/-- The nodes `done` of `t` are in the new chains `c`, the others as they were. -/
structure Spread (cfg : Config τ) (t : Table τ) (newCount : Nat)
    (s : (Nat → Node τ) × (Nat → Option Nat)) (c : Nat → List Nat) (done : List Nat) : Prop where
  path : ∀ j, Path (fun n => (s.1 n).next) (s.2 j) (c j) none
  mem : ∀ j n, n ∈ c j ↔ n ∈ done ∧ index cfg newCount (t.node n).key = j
  nodup : ∀ j, (c j).Nodup
  key : ∀ n, (s.1 n).key = (t.node n).key
  value : ∀ n, (s.1 n).value = (t.node n).value
  other : ∀ n, n ∉ done → (s.1 n).next = t.next n

/-- One round of the inner loop: the node `n` moves to the head of its new chain. -/
theorem Spread.move {newCount : Nat} {node : Nat → Node τ} {buckets : Nat → Option Nat}
    {c : Nat → List Nat} {done : List Nat} {n : Nat}
    (h : Spread cfg t newCount (node, buckets) c done) (hn : n ∉ done) :
    let idx := index cfg newCount (node n).key
    Spread cfg t newCount
      (Function.update node n { node n with next := buckets idx },
        Function.update buckets idx (some n))
      (Function.update c idx (n :: c idx)) (done ++ [n]) := by
  intro idx
  have hnc : ∀ j, n ∉ c j := fun j hj => hn ((h.mem j n).mp hj).1
  have hkey : index cfg newCount (t.node n).key = idx := by rw [← h.key n]
  have hnext : ∀ m, m ≠ n →
      (Function.update node n { node n with next := buckets idx } m).next = (node m).next := by
    intro m hm
    rw [Function.update_of_ne hm]
  have hold : ∀ j, Path (fun m => (Function.update node n
      { node n with next := buckets idx } m).next) (buckets j) (c j) none := by
    intro j
    refine (h.path j).congr fun m hm => hnext m ?_
    rintro rfl
    exact hnc j hm
  refine ⟨?_, ?_, ?_, ?_, ?_, ?_⟩
  · intro j
    by_cases hj : j = idx
    · subst hj
      simp only [Function.update_self]
      refine ⟨rfl, ?_⟩
      simp only [Function.update_self]
      exact hold idx
    · simp only [Function.update_of_ne hj]
      exact hold j
  · intro j m
    by_cases hj : j = idx
    · subst hj
      rw [Function.update_self, mem_cons, h.mem]
      simp only [mem_append, mem_singleton]
      constructor
      · rintro (rfl | ⟨h₁, h₂⟩)
        · exact ⟨.inr rfl, hkey⟩
        · exact ⟨.inl h₁, h₂⟩
      · rintro ⟨h₁ | h₁, h₂⟩
        · exact .inr ⟨h₁, h₂⟩
        · exact .inl h₁
    · rw [Function.update_of_ne hj, h.mem]
      simp only [mem_append, mem_singleton]
      constructor
      · rintro ⟨h₁, h₂⟩
        exact ⟨.inl h₁, h₂⟩
      · rintro ⟨h₁ | rfl, h₂⟩
        · exact ⟨h₁, h₂⟩
        · exact absurd (h₂.symm.trans hkey) hj
  · intro j
    by_cases hj : j = idx
    · subst hj
      rw [Function.update_self]
      exact nodup_cons.mpr ⟨hnc idx, h.nodup idx⟩
    · rw [Function.update_of_ne hj]
      exact h.nodup j
  · intro m
    rw [← h.key m]
    by_cases hm : m = n
    · subst hm
      simp
    · simp [hm]
  · intro m
    rw [← h.value m]
    by_cases hm : m = n
    · subst hm
      simp
    · simp [hm]
  · intro m hm
    simp only [mem_append, mem_singleton, not_or] at hm
    rw [hnext m hm.2]
    exact h.other m hm.1

theorem resizeChain_spec {newCount : Nat} {s : (Nat → Node τ) × (Nat → Option Nat)}
    {c : Nat → List Nat} {done l : List Nat} (h : Spread cfg t newCount s c done)
    {p : Option Nat} (hp : Path t.next p l none) (hnodup : (done ++ l).Nodup) {fuel : Nat}
    (hfuel : l.length ≤ fuel) :
    ∃ c', Spread cfg t newCount (resizeChain cfg newCount fuel p s) c' (done ++ l) := by
  induction l generalizing s c done p fuel with
  | nil =>
    obtain rfl : p = none := hp
    rw [append_nil]
    refine ⟨c, ?_⟩
    cases fuel <;> exact h
  | cons n l ih =>
    obtain ⟨rfl, hp⟩ := hp
    cases fuel with
    | zero => simp at hfuel
    | succ fuel =>
      obtain ⟨node, buckets⟩ := s
      have hn : n ∉ done := fun hmem =>
        (nodup_append.mp hnodup).2.2 n hmem n (by simp) rfl
      have hnext : (node n).next = t.next n := h.other n hn
      rw [append_cons]
      rw [append_cons] at hnodup
      rw [resizeChain, hnext]
      exact ih (h.move hn) hp hnodup (by simpa using hfuel)

theorem Wf.resize (h : Wf cfg t chain) (ok : Bool) :
    Valid cfg (resize cfg t ok) ∧ (resize cfg t ok).entries.Perm t.entries ∧
      (resize cfg t ok).nodes.Perm t.nodes := by
  cases ok with
  | false => exact ⟨⟨_, h⟩, .refl _, .refl _⟩
  | true =>
    let newCount := t.bucketCount <<< 1
    have hnew : newCount = t.bucketCount * 2 := by simp [newCount, Nat.shiftLeft_eq]
    have hpos := h.pos
    -- the buckets move one after the other
    have hloop : ∀ k ≤ t.bucketCount, ∃ c, Spread cfg t newCount ((List.range k).foldl
        (fun s i => resizeChain cfg newCount t.entryCount (t.buckets i) s)
        (t.node, fun _ => none)) c (before chain k) := by
      intro k hk
      induction k with
      | zero =>
        refine ⟨fun _ => [], fun _ => rfl, ?_, fun _ => nodup_nil, fun _ => rfl, fun _ => rfl,
          fun _ _ => rfl⟩
        simp [before]
      | succ k ih =>
        obtain ⟨c, hc⟩ := ih (by omega)
        have hnodup := h.nodup
        rw [before_rest hk] at hnodup
        rw [range_succ, foldl_append, before_succ]
        refine resizeChain_spec hc (h.path k hk) ?_ (h.length_le hk)
        exact before_succ ▸ (nodup_append.mp hnodup).1
    obtain ⟨c, hc⟩ := hloop t.bucketCount (Nat.le_refl _)
    have hidx : ∀ n, index cfg newCount (t.node n).key < newCount :=
      fun n => index_lt cfg (by omega) _
    have hmem : ∀ n, n ∈ before c newCount ↔ n ∈ before chain t.bucketCount := by
      intro n
      rw [mem_before]
      constructor
      · rintro ⟨j, -, hj⟩
        exact ((hc.mem j n).mp hj).1
      · intro hn
        exact ⟨_, hidx n, (hc.mem _ n).mpr ⟨hn, rfl⟩⟩
    have hnodup : (before c newCount).Nodup := by
      refine nodup_flatMap.mpr ⟨fun j _ => hc.nodup j, ?_⟩
      refine nodup_range.imp fun {i j} hij n hi hj => hij ?_
      exact ((hc.mem i n).mp hi).2.symm.trans ((hc.mem j n).mp hj).2
    have hperm : (before c newCount).Perm (before chain t.bucketCount) :=
      (perm_ext_iff_of_nodup hnodup h.nodup).mpr hmem
    have hrep : Rep (HashTable.resize cfg t true) c :=
      ⟨fun j _ => hc.path j, hnodup, Nat.le_of_eq (hperm.length_eq.trans h.count.symm)⟩
    have hentry : (HashTable.resize cfg t true).entry = t.entry := by
      funext n
      exact Prod.ext (hc.key n) (hc.value n)
    refine ⟨⟨c, hrep, ?_, ?_, ?_⟩, ?_, ?_⟩
    · intro j _ n hn
      rw [hentry]
      exact ((hc.mem j n).mp hn).2
    · exact h.count.trans hperm.length_eq.symm
    · show 0 < newCount
      omega
    · rw [hrep.entries_eq, h.entries_eq, hentry]
      exact hperm.map _
    · rw [hrep.nodes_eq, h.nodes_eq]
      exact hperm

/-! ## Insertion -/

/-- The key a new entry gets: where keys are copied, the copy. -/
def storedKey (cfg : Config τ) (key : Key τ) (alloc : Alloc) : Option (Key τ) :=
  if cfg.copyKeys then alloc.copy.map fun addr => ⟨addr, key.text⟩ else some key

/-- What `hash_table_insert_or_replace` does to the entries. -/
inductive Inserted (cfg : Config τ) (t t' : Table τ) (key : Key τ) (value : Value)
    (keepOldKey : Bool) (alloc : Alloc) : InsertResult → List (Call τ) → Prop where
  | replaced (E₁ : List (Key τ × Value)) (e : Key τ × Value) (E₂ : List (Key τ × Value))
      (before : t.entries = E₁ ++ e :: E₂) (equal : cfg.equal e.1 key = true)
      (after : t'.entries = E₁ ++ (keptKey cfg e.1 key keepOldKey, value) :: E₂) :
      Inserted cfg t t' key value keepOldKey alloc .replaced
        (overwriteCalls cfg e key value keepOldKey t.entries
          (E₁ ++ (keptKey cfg e.1 key keepOldKey, e.2) :: E₂))
  | new (stored : Key τ) (absent : Absent cfg t.entries key)
      (node : alloc.node ≠ none) (copy : storedKey cfg key alloc = some stored)
      (after : t'.entries.Perm ((stored, value) :: t.entries)) :
      Inserted cfg t t' key value keepOldKey alloc .new []
  | err (absent : Absent cfg t.entries key)
      (failed : alloc.node = none ∨ storedKey cfg key alloc = none)
      (after : t'.entries.Perm t.entries) :
      Inserted cfg t t' key value keepOldKey alloc .err []

theorem insertOrReplace_spec (h : Valid cfg t) (hcfg : Consistent cfg) (key : Key τ)
    (value : Value) (keepOldKey : Bool) (alloc : Alloc) (hnode : ∀ n ∈ alloc.node, n ∉ t.nodes) :
    let r := insertOrReplace cfg t (some key) value keepOldKey alloc
    Valid cfg r.2.1 ∧ Inserted cfg t r.2.1 key value keepOldKey alloc r.1 r.2.2 := by
  intro r
  obtain ⟨chain, h⟩ := h
  rcases h.find_cases hcfg key with ⟨hfind, habsent⟩ | ⟨l, n, rr, hc, heq, hfind⟩
  · let t₁ := if t.bucketCount * 3 ≤ t.entryCount * 4 then resize cfg t alloc.buckets else t
    obtain ⟨⟨chain₁, h₁⟩, hE, hN⟩ : Valid cfg t₁ ∧ t₁.entries.Perm t.entries ∧
        t₁.nodes.Perm t.nodes := by
      simp only [t₁]
      split
      · exact h.resize alloc.buckets
      · exact ⟨⟨_, h⟩, .refl _, .refl _⟩
    cases hn : alloc.node with
    | none =>
      have hr : r = (.err, t₁, []) := by simp only [r, t₁, insertOrReplace, hfind, hn]
      rw [hr]
      exact ⟨⟨_, h₁⟩, .err habsent (.inl hn) hE⟩
    | some n =>
      cases hs : storedKey cfg key alloc with
      | none =>
        have hr : r = (.err, t₁, []) := by
          rw [storedKey] at hs
          simp only [r, t₁, insertOrReplace, hfind, hn, hs]
        rw [hr]
        exact ⟨⟨_, h₁⟩, .err habsent (.inr hs) hE⟩
      | some stored =>
        have hfree : n ∉ t₁.nodes := fun hmem => hnode n hn (hN.mem_iff.mp hmem)
        obtain ⟨hvalid, E₁, E₂, hE₁, hE₂⟩ := h₁.link hfree stored value
        have hr : r = (.new, HashTable.link cfg t₁ n stored value, []) := by
          rw [storedKey] at hs
          simp only [r, t₁, insertOrReplace, hfind, hn, hs]
        rw [hr]
        refine ⟨hvalid, .new stored habsent (by simp [hn]) hs ?_⟩
        show (HashTable.link cfg t₁ n stored value).entries.Perm _
        rw [hE₂]
        refine perm_middle.trans (.cons _ ?_)
        rw [← hE₁]
        exact hE
  · obtain ⟨E₁, E₂, h₁, h₂, h₃, h₄⟩ := overwrite_spec h hcfg hc heq value keepOldKey
    have hr : r = (.replaced, overwrite cfg t n key value keepOldKey) := by
      simp only [r, insertOrReplace, hfind]
    simp only [hr]
    refine ⟨h₂, ?_⟩
    rw [h₄]
    exact .replaced E₁ (t.entry n) E₂ h₁ heq h₃

end HashTable

end AxlSdk
