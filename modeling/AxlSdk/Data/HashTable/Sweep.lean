import AxlSdk.Data.HashTable.Chains

/-!
# Walks that remove

`axl_hash_table_foreach_remove` and the loops over an iterator change the table
while they walk over it. On the list of entries they are all a `sweep`: one entry
after the other is shown, and kept, removed or stolen (`foreachRemove_spec`,
`iterate_spec`).
-/

namespace AxlSdk

namespace HashTable

open Linked Table List

variable {τ : Type} {cfg : Config τ} {t : Table τ} {chain : Nat → List Nat} {i : Nat}

/-! ## Sweeps over a list -/

/-- A walk over a list of entries: those passed and left in, those to come, and what
a `Walk` has. -/
structure Sweep (τ : Type) where
  kept : List (Key τ × Value)
  todo : List (Key τ × Value)
  shown : List (Key τ × Value)
  calls : List (Call τ)
  removed : Nat

/-- One entry is shown, and kept, removed or stolen as `d` says. -/
def Sweep.step (cfg : Config τ) (d : Nat → Key τ × Value → Act) (s : Sweep τ) : Sweep τ :=
  match s.todo with
  | [] => s
  | e :: todo =>
    match d s.shown.length e with
    | .keep => { s with kept := s.kept ++ [e], todo := todo, shown := s.shown ++ [e] }
    | .remove =>
      { s with
        todo := todo
        shown := s.shown ++ [e]
        calls := s.calls ++ release cfg e (s.kept ++ todo)
        removed := s.removed + 1 }
    | .steal =>
      { s with
        todo := todo
        shown := s.shown ++ [e]
        calls := s.calls ++ letGo cfg e (s.kept ++ todo)
        removed := s.removed + 1 }

/-- `n` rounds over the entries `E`. -/
def sweep (cfg : Config τ) (d : Nat → Key τ × Value → Act) (n : Nat) (E : List (Key τ × Value)) :
    Sweep τ :=
  (Sweep.step cfg d)^[n] ⟨[], E, [], [], 0⟩

/-- The walk over the table does what the sweep does; `K` are the nodes behind,
`T` those ahead. -/
structure Sim (cfg : Config τ) (w : Walk τ) (s : Sweep τ) (chain : Nat → List Nat)
    (K T : List Nat) : Prop where
  wf : Wf cfg w.table chain
  all : before chain w.table.bucketCount = K ++ T
  kept : s.kept = K.map w.table.entry
  todo : s.todo = T.map w.table.entry
  shown : w.shown = s.shown
  calls : w.calls = s.calls
  removed : w.removed = s.removed

variable {w : Walk τ} {s : Sweep τ} {K T : List Nat}

theorem Sim.entries (h : Sim cfg w s chain K T) :
    w.table.entries = s.kept ++ s.todo := by
  rw [h.wf.entries_eq, h.all, h.kept, h.todo, map_append]

variable {n : Nat} {d : Nat → Key τ × Value → Act}

/-- The next node is kept. -/
theorem Sim.keep (h : Sim cfg w s chain K (n :: T))
    (hd : d w.shown.length (w.table.entry n) = .keep) :
    Sim cfg { w with shown := w.shown ++ [w.table.entry n] } (s.step cfg d) chain (K ++ [n]) T := by
  have htodo : s.todo = w.table.entry n :: T.map w.table.entry := h.todo
  rw [h.shown] at hd
  have hstep : s.step cfg d = { s with
      kept := s.kept ++ [w.table.entry n]
      todo := T.map w.table.entry
      shown := s.shown ++ [w.table.entry n] } := by
    simp only [Sweep.step, htodo, hd]
  rw [hstep]
  refine ⟨h.wf, by rw [h.all]; simp, ?_, rfl, by rw [h.shown], h.calls, h.removed⟩
  show s.kept ++ [w.table.entry n] = (K ++ [n]).map w.table.entry
  rw [h.kept]
  simp

/-- The table after `*prev = node->next`, where `l` are the nodes before. -/
def unlinkAt (t : Table τ) (i : Nat) (l : List Nat) (n : Nat) : Table τ :=
  t.store (slotFrom (.bucket i) l) (t.next n)

@[simp] theorem unlinkAt_bucketCount (l : List Nat) (n : Nat) :
    (unlinkAt t i l n).forget.bucketCount = t.bucketCount := store_bucketCount _

@[simp] theorem unlinkAt_entry (l : List Nat) (n : Nat) :
    (unlinkAt t i l n).forget.entry = t.entry := store_entry _

theorem unlinkAt_entryCount_le (l : List Nat) (n : Nat) :
    (unlinkAt t i l n).forget.entryCount ≤ t.entryCount := by
  simp only [unlinkAt, Table.forget, store_entryCount]
  omega

variable {l r : List Nat}

/-- The next node is unlinked, with the calls that go with `d`. -/
theorem Sim.drop (hi : i < w.table.bucketCount) (hc : chain i = l ++ n :: r)
    (h : Sim cfg w s chain (before chain i ++ l) (n :: (r ++ rest chain w.table.bucketCount (i + 1))))
    {calls : List (Call τ)} (hd : d w.shown.length (w.table.entry n) = .remove ∧
        calls = freeEntry cfg (unlinkAt w.table i l n) n ∨
      d w.shown.length (w.table.entry n) = .steal ∧
        calls = freeCopy cfg (unlinkAt w.table i l n) n) :
    let w' : Walk τ := ⟨(unlinkAt w.table i l n).forget, w.shown ++ [w.table.entry n],
      w.calls ++ calls, w.removed + 1⟩
    let chain' := Function.update chain i (l ++ r)
    Sim cfg w' (s.step cfg d) chain' (before chain' i ++ l)
      (r ++ rest chain' w'.table.bucketCount (i + 1)) := by
  intro w' chain'
  have hbefore : before chain' i = before chain i := before_update
  have hrest : rest chain' w'.table.bucketCount (i + 1) = rest chain w.table.bucketCount (i + 1) := by
    simp only [w', unlinkAt_bucketCount]
    exact rest_update (Nat.lt_succ_self i)
  rw [hbefore, hrest]
  have htodo : s.todo = w.table.entry n ::
      (r ++ rest chain w.table.bucketCount (i + 1)).map w.table.entry := h.todo
  have hseen : (unlinkAt w.table i l n).entries
      = s.kept ++ (r ++ rest chain w.table.bucketCount (i + 1)).map w.table.entry := by
    rw [unlinkAt, h.wf.entries_unlink hi hc, h.kept]
  have hentry : (unlinkAt w.table i l n).entry = w.table.entry := store_entry _
  rw [freeEntry_eq, freeCopy_eq, hseen, hentry, h.shown] at hd
  have hstep : s.step cfg d = { s with
      todo := (r ++ rest chain w.table.bucketCount (i + 1)).map w.table.entry
      shown := s.shown ++ [w.table.entry n]
      calls := s.calls ++ calls
      removed := s.removed + 1 } := by
    rcases hd with ⟨hd, hcalls⟩ | ⟨hd, hcalls⟩
    · simp only [Sweep.step, htodo, hd, hcalls]
    · simp only [Sweep.step, htodo, hd, hcalls]
  rw [hstep]
  refine ⟨h.wf.unlink hi hc, ?_, ?_, ?_, ?_, ?_, ?_⟩
  · simp only [w', unlinkAt_bucketCount]
    rw [before_update_split hi]
    simp
  · simp only [w', unlinkAt_entry]
    exact h.kept
  · simp only [w', unlinkAt_entry]
  · simp only [w', h.shown]
  · simp only [w', h.calls]
  · simp only [w', h.removed]

/-! ## `axl_hash_table_foreach_remove` -/

/-- The callback as the choice of a sweep. -/
def choice (func : Predicate τ) (k : Nat) (e : Key τ × Value) : Act :=
  if func k e.1 e.2 then .remove else .keep

theorem path_head {next : Nat → Option Nat} {p : Option Nat} (h : Path next p l none) :
    p = l.head? := by
  cases l with
  | nil => exact h
  | cons n l => exact h.1

/-- The walk has come to the end of bucket `i`. -/
theorem foreachRemoveChain_sim (func : Predicate τ) (hi : i < w.table.bucketCount)
    (hc : chain i = l ++ r)
    (h : Sim cfg w s chain (before chain i ++ l) (r ++ rest chain w.table.bucketCount (i + 1)))
    {fuel : Nat} (hfuel : r.length ≤ fuel) :
    let w' := foreachRemoveChain cfg func fuel (slotFrom (.bucket i) l) r.head? w
    w'.table.bucketCount = w.table.bucketCount ∧ w'.table.entryCount ≤ w.table.entryCount ∧
    ∃ chain', Sim cfg w' ((Sweep.step cfg (choice func))^[r.length] s) chain'
      (before chain' (i + 1)) (rest chain' w.table.bucketCount (i + 1)) := by
  induction r generalizing w s chain l fuel with
  | nil =>
    have hw : foreachRemoveChain cfg func fuel (slotFrom (.bucket i) l) ([] : List Nat).head? w = w := by
      cases fuel <;> rfl
    rw [hw]
    refine ⟨rfl, Nat.le_refl _, chain, ?_⟩
    rw [before_succ, hc, append_nil]
    exact h
  | cons n r ih =>
    cases fuel with
    | zero => simp at hfuel
    | succ fuel =>
      have hfuel : r.length ≤ fuel := by simpa using hfuel
      have hnext : w.table.next n = r.head? := by
        obtain ⟨m, -, -, hr⟩ := path_append.mp (hc ▸ h.wf.path i hi)
        exact path_head hr
      rw [length_cons, Function.iterate_succ_apply, head?_cons]
      cases hf : func w.shown.length (w.table.entry n).1 (w.table.entry n).2 with
      | true =>
        have hrun : foreachRemoveChain cfg func (fuel + 1) (slotFrom (.bucket i) l) (some n) w
            = foreachRemoveChain cfg func fuel (slotFrom (.bucket i) l) r.head?
              ⟨(unlinkAt w.table i l n).forget, w.shown ++ [w.table.entry n],
                w.calls ++ freeEntry cfg (unlinkAt w.table i l n) n, w.removed + 1⟩ := by
          rw [← hnext]
          simp only [foreachRemoveChain, hf, if_true, unlinkAt]
        have hd : choice func w.shown.length (w.table.entry n) = .remove := by
          rw [choice, hf]
          rfl
        have hsim := h.drop hi hc (.inl ⟨hd, rfl⟩)
        obtain ⟨h₁, h₂, h₃⟩ :=
          ih (by simpa using hi) (Function.update_self i (l ++ r) chain) hsim hfuel
        simp only [unlinkAt_bucketCount] at h₁ h₃
        rw [hrun]
        exact ⟨h₁, Nat.le_trans h₂ (unlinkAt_entryCount_le l n), h₃⟩
      | false =>
        have hrun : foreachRemoveChain cfg func (fuel + 1) (slotFrom (.bucket i) l) (some n) w
            = foreachRemoveChain cfg func fuel (slotFrom (.bucket i) (l ++ [n])) r.head?
              { w with shown := w.shown ++ [w.table.entry n] } := by
          rw [← hnext, slotFrom_concat]
          simp only [foreachRemoveChain, hf, Bool.false_eq_true, if_false]
        have hd : choice func w.shown.length (w.table.entry n) = .keep := by
          rw [choice, hf]
          rfl
        have hsim := h.keep hd
        rw [append_assoc] at hsim
        rw [hrun]
        exact ih (w := { w with shown := w.shown ++ [w.table.entry n] }) hi (by rw [hc]; simp)
          hsim hfuel

/-- The walk is a sweep of `n` rounds. -/
structure Swept (cfg : Config τ) (w : Walk τ) (s : Sweep τ) : Prop where
  valid : Valid cfg w.table
  entries : w.table.entries = s.kept ++ s.todo
  shown : w.shown = s.shown
  calls : w.calls = s.calls
  removed : w.removed = s.removed

theorem Sim.swept (h : Sim cfg w s chain K T) :
    Swept cfg w s :=
  ⟨⟨chain, h.wf⟩, h.entries, h.shown, h.calls, h.removed⟩

theorem sim_init (h : Wf cfg t chain) :
    Sim cfg ⟨t, [], [], 0⟩ ⟨[], t.entries, [], [], 0⟩ chain [] (before chain t.bucketCount) :=
  ⟨h, rfl, rfl, h.entries_eq, rfl, rfl, rfl⟩

theorem foreachRemove_spec (h : Valid cfg t) (func : Predicate τ) :
    ∃ n, (sweep cfg (choice func) n t.entries).todo = [] ∧
      Swept cfg (foreachRemove cfg t func) (sweep cfg (choice func) n t.entries) := by
  obtain ⟨chain, h⟩ := h
  -- bucket after bucket
  have hloop : ∀ k ≤ t.bucketCount, ∃ n chain',
      let w := (List.range k).foldl
        (fun w i => foreachRemoveChain cfg func t.entryCount (.bucket i) (w.table.buckets i) w)
        (⟨t, [], [], 0⟩ : Walk τ)
      w.table.bucketCount = t.bucketCount ∧ w.table.entryCount ≤ t.entryCount ∧
      Sim cfg w (sweep cfg (choice func) n t.entries) chain' (before chain' k)
        (rest chain' t.bucketCount k) := by
    intro k hk
    induction k with
    | zero =>
      refine ⟨0, chain, rfl, Nat.le_refl _, ?_⟩
      rw [rest_zero]
      exact sim_init h
    | succ k ih =>
      obtain ⟨n, chain', hcount, hentries, hsim⟩ := ih (by omega)
      rw [range_succ, foldl_append]
      simp only [foldl_cons, foldl_nil]
      generalize (List.range k).foldl _ _ = w at hcount hentries hsim ⊢
      have hki : k < w.table.bucketCount := by omega
      have hhead : w.table.buckets k = (chain' k).head? := path_head (hsim.wf.path k hki)
      have hsim' : Sim cfg w (sweep cfg (choice func) n t.entries) chain' (before chain' k ++ [])
          (chain' k ++ rest chain' w.table.bucketCount (k + 1)) := by
        rw [append_nil, ← rest_succ hki, hcount]
        exact hsim
      obtain ⟨h₁, h₂, chain'', h₃⟩ := foreachRemoveChain_sim func hki rfl hsim'
        (Nat.le_trans (hsim.wf.length_le hki) hentries)
      rw [slotFrom_nil, ← hhead] at h₁ h₂ h₃
      refine ⟨n + (chain' k).length, chain'', h₁.trans hcount, Nat.le_trans h₂ hentries, ?_⟩
      rw [hcount] at h₃
      have hiter : sweep cfg (choice func) (n + (chain' k).length) t.entries
          = (Sweep.step cfg (choice func))^[(chain' k).length]
            (sweep cfg (choice func) n t.entries) := by
        rw [sweep, Nat.add_comm, Function.iterate_add_apply]
        rfl
      rw [hiter]
      exact h₃
  obtain ⟨n, chain', -, -, hsim⟩ := hloop t.bucketCount (Nat.le_refl _)
  refine ⟨n, ?_, hsim.swept⟩
  rw [hsim.todo, rest_end (Nat.le_refl _)]
  rfl

/-! ## Iterators -/

/-- The iterator stands before the nodes `T`, behind the nodes `K`. -/
def Stands (chain : Nat → List Nat) (count : Nat) (iter : Iter) (K T : List Nat) : Prop :=
  iter.next = T.head? ∧ ∀ n T', T = n :: T' → ∃ l r, iter.bucket < count ∧
    chain iter.bucket = l ++ n :: r ∧ K = before chain iter.bucket ++ l ∧
    T' = r ++ rest chain count (iter.bucket + 1)

/-- The buckets from `start` on hold the chains. -/
def HoldsFrom (t : Table τ) (chain : Nat → List Nat) (start : Nat) : Prop :=
  ∀ i, start ≤ i → i < t.bucketCount → Path t.next (t.buckets i) (chain i) none

theorem iterFindNext_cases {start left : Nat} (h : HoldsFrom t chain start)
    (hleft : start + left = t.bucketCount) :
    (iterFindNext t left start = none ∧ rest chain t.bucketCount start = []) ∨
    ∃ i n r, iterFindNext t left start = some (i, n) ∧ i < t.bucketCount ∧ chain i = n :: r ∧
      before chain start = before chain i ∧
      rest chain t.bucketCount start = n :: (r ++ rest chain t.bucketCount (i + 1)) := by
  induction left generalizing start with
  | zero => exact .inl ⟨rfl, rest_end (by omega)⟩
  | succ left ih =>
    have hstart : start < t.bucketCount := by omega
    have hpath := h start (Nat.le_refl _) hstart
    rw [iterFindNext, path_head hpath]
    cases hc : chain start with
    | nil =>
      have hrest : rest chain t.bucketCount start = rest chain t.bucketCount (start + 1) := by
        rw [rest_succ hstart, hc]
        rfl
      have hbefore : before chain start = before chain (start + 1) := by
        rw [before_succ, hc, append_nil]
      rw [hrest, hbefore]
      exact ih (fun i hi => h i (by omega)) (by omega)
    | cons n r =>
      refine .inr ⟨start, n, r, rfl, hstart, hc, rfl, ?_⟩
      rw [rest_succ hstart, hc]
      rfl

variable {iter : Iter}

theorem findNext_stands {start : Nat} (h : HoldsFrom t chain start) (hstart : start ≤ t.bucketCount)
    :
    Stands chain t.bucketCount (iter.findNext t start) (before chain start)
      (rest chain t.bucketCount start) := by
  rcases iterFindNext_cases h (Nat.add_sub_of_le hstart) with
    ⟨h₁, h₂⟩ | ⟨i, n, r, h₁, hi, hc, hbefore, hrest⟩
  · rw [h₂]
    refine ⟨by simp only [Iter.findNext, h₁, head?_nil], ?_⟩
    intro n T' hT
    cases hT
  · rw [hrest]
    have hiter : iter.findNext t start = { iter with bucket := i, next := some n } := by
      simp only [Iter.findNext, h₁]
    rw [hiter]
    refine ⟨rfl, ?_⟩
    intro n' T' hT
    obtain ⟨rfl, rfl⟩ := List.cons.inj hT
    exact ⟨[], r, hi, hc, by rw [hbefore, append_nil], rfl⟩

theorem iterInit_stands (h : Wf cfg t chain) :
    Stands chain t.bucketCount (iterInit iter t) [] (before chain t.bucketCount) := by
  rw [← rest_zero]
  exact findNext_stands (fun i _ hi => h.path i hi) (Nat.zero_le _)

/-- The iterator goes on behind the nodes `l'` of its bucket. -/
theorem advance_stands {chain' : Nat → List Nat} {l' : List Nat} (h : Wf cfg t chain)
    (hi : iter.bucket < t.bucketCount) (hc : chain iter.bucket = l ++ n :: r)
    (hn : iter.next = some n) (hc' : chain' iter.bucket = l' ++ r)
    (hlater : ∀ j, iter.bucket < j → chain' j = chain j) :
    Stands chain' t.bucketCount (iterNext iter t).2 (before chain' iter.bucket ++ l')
      (r ++ rest chain t.bucketCount (iter.bucket + 1)) := by
  have hnext : t.next n = r.head? := by
    obtain ⟨m, -, -, hr⟩ := path_append.mp (hc ▸ h.path _ hi)
    exact path_head hr
  have hrest : rest chain' t.bucketCount (iter.bucket + 1)
      = rest chain t.bucketCount (iter.bucket + 1) := by
    refine flatMap_congr fun j hj => hlater j ?_
    have := (List.mem_range'_1.mp hj).1
    omega
  cases r with
  | nil =>
    have hiter : (iterNext iter t).2 = Iter.findNext
        { iter with current := some n, curBucket := iter.bucket } t (iter.bucket + 1) := by
      simp only [iterNext, hn, hnext, head?_nil]
    rw [hiter, nil_append, ← hrest]
    rw [append_nil] at hc'
    rw [← hc', ← before_succ]
    refine findNext_stands (fun j hj hjc => ?_) hi
    rw [hlater j hj]
    exact h.path j hjc
  | cons m r =>
    have hiter : (iterNext iter t).2 = { iter with
        current := some n, curBucket := iter.bucket, next := some m } := by
      simp only [iterNext, hn, hnext, head?_cons]
    rw [hiter]
    refine ⟨rfl, ?_⟩
    intro m' T' hT
    obtain ⟨rfl, rfl⟩ := List.cons.inj hT
    exact ⟨l', r, hi, hc', rfl, congrArg (r ++ ·) hrest.symm⟩

theorem iterNext_current (hn : iter.next = some n) :
    (iterNext iter t).1 = some (t.entry n) ∧ (iterNext iter t).2.current = some n ∧
      (iterNext iter t).2.curBucket = iter.bucket := by
  cases hnext : t.next n with
  | some m => simp [iterNext, hn, hnext]
  | none =>
    simp only [iterNext, hn, hnext, Iter.findNext]
    cases iterFindNext t (t.bucketCount - (iter.bucket + 1)) (iter.bucket + 1) <;> simp

theorem unlinkLoop_eq {prev : Slot} (h : Path t.next (t.load prev) (l ++ n :: r) none) (hn : n ∉ l)
    {fuel : Nat} (hfuel : l.length < fuel) :
    unlinkLoop t n fuel prev = (t.store (slotFrom prev l) (t.next n)).forget := by
  induction l generalizing prev fuel with
  | nil =>
    cases fuel with
    | zero => simp at hfuel
    | succ fuel =>
      obtain ⟨hload, -⟩ := h
      simp only [unlinkLoop, hload, if_true, slotFrom_nil]
  | cons m l ih =>
    cases fuel with
    | zero => simp at hfuel
    | succ fuel =>
      obtain ⟨hload, h⟩ := h
      have hm : m ≠ n := fun heq => hn (by simp [heq])
      simp only [unlinkLoop, hload, if_neg hm, slotFrom_cons]
      have h : Path t.next (t.load (.next m)) (l ++ n :: r) none := h
      exact ih h (fun hmem => hn (by simp [hmem])) (by simpa using hfuel)

theorem unlinkNode_eq (h : Wf cfg t chain) (hi : i < t.bucketCount) (hc : chain i = l ++ n :: r) :
    unlinkNode t i n = (unlinkAt t i l n).forget := by
  have hnodup := hc ▸ h.chain_nodup hi
  refine unlinkLoop_eq (hc ▸ h.path i hi) ?_ ?_
  · intro hmem
    exact (nodup_append.mp hnodup).2.2 n hmem n (by simp) rfl
  · have := h.length_le hi
    rw [hc] at this
    simp only [length_append, length_cons] at this
    omega

/-- A sweep that is through changes nothing. -/
theorem step_done (h : s.todo = []) (n : Nat) :
    (Sweep.step cfg d)^[n] s = s := by
  refine Function.iterate_fixed ?_ n
  simp only [Sweep.step, h]

/-- An unlinked table shows the same entries with either count. -/
theorem unlinkAt_forget_entries (h : Wf cfg t chain) (hi : i < t.bucketCount)
    (hc : chain i = l ++ n :: r) :
    (unlinkAt t i l n).forget.entries = (unlinkAt t i l n).entries :=
  (h.unlink hi hc).entries_forget (h.toRep.unlink hi hc)

theorem iterateLoop_sim (act : Nat → Act) (h : Sim cfg w s chain K T)
    (hs : Stands chain w.table.bucketCount iter K T) :
    Swept cfg (iterateLoop cfg act n iter w) ((Sweep.step cfg fun k _ => act k)^[n] s) := by
  induction n generalizing iter w s chain K T with
  | zero => exact h.swept
  | succ n ih =>
    obtain ⟨hnext, hpos⟩ := hs
    cases T with
    | nil =>
      have hiter : iterNext iter w.table = (none, { iter with current := none }) := by
        simp only [iterNext, hnext, head?_nil]
      rw [step_done h.todo, iterateLoop, hiter]
      exact h.swept
    | cons m T =>
      obtain ⟨l, r, hi, hc, rfl, rfl⟩ := hpos m T rfl
      obtain ⟨h₁, h₂, h₃⟩ := iterNext_current (t := w.table) hnext
      have hpair : iterNext iter w.table
          = (some (w.table.entry m), (iterNext iter w.table).2) := by
        rw [← h₁]
      -- the chains after the body, and the iterator before them
      have hgone : Stands (Function.update chain iter.bucket (l ++ r)) w.table.bucketCount
          (iterNext iter w.table).2 (before (Function.update chain iter.bucket (l ++ r)) iter.bucket ++ l)
          (r ++ rest chain w.table.bucketCount (iter.bucket + 1)) := by
        refine advance_stands h.wf hi hc hnext (Function.update_self ..) fun j hj => ?_
        exact Function.update_of_ne (Nat.ne_of_gt hj) _ _
      have hunlink := unlinkNode_eq h.wf hi hc
      have hseen := unlinkAt_forget_entries h.wf hi hc
      rw [Function.iterate_succ_apply, iterateLoop, hpair]
      cases ha : act w.shown.length with
      | keep =>
        have hstands : Stands chain w.table.bucketCount (iterNext iter w.table).2
            (before chain iter.bucket ++ l ++ [m])
            (r ++ rest chain w.table.bucketCount (iter.bucket + 1)) := by
          rw [append_assoc]
          exact advance_stands h.wf hi hc hnext (by rw [hc]; simp) fun _ _ => rfl
        simp only [iterAct, if_true, append_nil, Nat.add_zero]
        exact ih (h.keep ha) hstands
      | remove =>
        have hcalls : freeEntry cfg (unlinkAt w.table iter.bucket l m).forget m
            = freeEntry cfg (unlinkAt w.table iter.bucket l m) m := by
          rw [freeEntry_eq, freeEntry_eq, hseen]
          rfl
        have hsim := h.drop (d := fun k _ => act k) hi hc (.inl ⟨ha, rfl⟩)
        simp only [iterAct, iterRemove, h₂, h₃, hunlink, hcalls, reduceCtorEq, if_false]
        refine ih hsim ?_
        simp only [unlinkAt_bucketCount]
        rw [rest_update (Nat.lt_succ_self _)]
        exact hgone
      | steal =>
        have hcalls : freeCopy cfg (unlinkAt w.table iter.bucket l m).forget m
            = freeCopy cfg (unlinkAt w.table iter.bucket l m) m := by
          rw [freeCopy_eq, freeCopy_eq, hseen]
          rfl
        have hsim := h.drop (d := fun k _ => act k) hi hc (.inr ⟨ha, rfl⟩)
        simp only [iterAct, iterSteal, h₂, h₃, hunlink, hcalls, reduceCtorEq, if_false]
        refine ih hsim ?_
        simp only [unlinkAt_bucketCount]
        rw [rest_update (Nat.lt_succ_self _)]
        exact hgone

theorem iterate_spec (h : Valid cfg t) (iter : Iter) (act : Nat → Act) (n : Nat) :
    Swept cfg (iterate cfg t iter act n) (sweep cfg (fun k _ => act k) n t.entries) := by
  obtain ⟨chain, h⟩ := h
  exact iterateLoop_sim act (sim_init h) (iterInit_stands h)

/-! ## `axl_hash_table_remove_all` -/

theorem freeChain_eq {p : Option Nat} (h : Path t.next p l none) {fuel : Nat}
    (hfuel : l.length ≤ fuel) :
    freeChain cfg t fuel p = l.flatMap fun n => release cfg (t.entry n) t.entries := by
  induction l generalizing p fuel with
  | nil =>
    obtain rfl : p = none := h
    cases fuel <;> rfl
  | cons n l ih =>
    obtain ⟨rfl, h⟩ := h
    cases fuel with
    | zero => simp at hfuel
    | succ fuel =>
      rw [freeChain, freeEntry_eq, ih h (by simpa using hfuel), flatMap_cons]

/-- The pointers that the end of an entry gives back. -/
def pointers (cfg : Config τ) (e : Key τ × Value) : List Pointer :=
  (release cfg e []).map Call.pointer

theorem release_pointers (e : Key τ × Value) (seen : List (Key τ × Value)) :
    (release cfg e seen).map Call.pointer = pointers cfg e := by
  simp only [pointers, release]
  split <;> split <;> rfl

theorem removeAll_spec (h : Valid cfg t) :
    Valid cfg (removeAll cfg t).1 ∧ (removeAll cfg t).1.entries = [] ∧
      (removeAll cfg t).2.map Call.pointer = t.entries.flatMap (pointers cfg) := by
  obtain ⟨chain, h⟩ := h
  have hloop : ∀ k ≤ t.bucketCount,
      let s := (List.range k).foldl
        (fun (s : Table τ × List (Call τ)) i =>
          (s.1.store (.bucket i) none, s.2 ++ freeChain cfg s.1 t.entryCount (s.1.buckets i)))
        (t, [])
      s.1.node = t.node ∧ s.1.bucketCount = t.bucketCount ∧
      (∀ j, s.1.buckets j = if j < k then none else t.buckets j) ∧
      s.2.map Call.pointer = ((before chain k).map t.entry).flatMap (pointers cfg) := by
    intro k hk
    induction k with
    | zero => exact ⟨rfl, rfl, fun j => rfl, rfl⟩
    | succ k ih =>
      obtain ⟨h₁, h₂, h₃, h₄⟩ := ih (by omega)
      rw [range_succ, foldl_append]
      simp only [foldl_cons, foldl_nil]
      generalize (List.range k).foldl _ _ = s at h₁ h₂ h₃ h₄ ⊢
      have hpath : Path s.1.next (s.1.buckets k) (chain k) none := by
        rw [h₃, if_neg (Nat.lt_irrefl k)]
        refine (h.path k hk).congr fun n _ => ?_
        rw [Table.next, h₁, Table.next]
      have hentry : s.1.entry = t.entry := by
        funext n
        rw [Table.entry, Table.entry, h₁]
      refine ⟨h₁, h₂, ?_, ?_⟩
      · intro j
        by_cases hj : j = k
        · subst hj
          rw [if_pos (Nat.lt_succ_self j)]
          exact Function.update_self ..
        · have hlt : j < k + 1 ↔ j < k := by omega
          simp only [hlt, ← h₃ j]
          exact Function.update_of_ne hj _ _
      · rw [map_append, h₄, freeChain_eq hpath (h.length_le hk), before_succ, hentry,
          map_append, flatMap_append, map_flatMap]
        simp only [release_pointers, flatMap_map]
  obtain ⟨-, h₂, h₃, h₄⟩ := hloop t.bucketCount (Nat.le_refl _)
  have hwf : Wf cfg (removeAll cfg t).1 fun _ => [] := by
    have hnil : ∀ k, before (fun _ => []) k = [] := by
      intro k
      simp [before]
    refine ⟨⟨?_, ?_, ?_⟩, by simp, ?_, ?_⟩
    · intro j hj
      have hj : j < t.bucketCount := h₂ ▸ hj
      exact (h₃ j).trans (if_pos hj)
    · exact (hnil _).symm ▸ nodup_nil
    · rw [hnil]
      exact Nat.le_refl 0
    · rw [hnil]
      rfl
    · exact h₂.symm ▸ h.pos
  refine ⟨⟨_, hwf⟩, ?_, ?_⟩
  · rw [hwf.entries_eq]
    simp [before]
  · rw [h.entries_eq]
    exact h₄

end HashTable

end AxlSdk
