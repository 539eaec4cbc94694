import AxlSdk.Lib.Runs

/-!
# The TTL cache (`src/data/axl-cache.c`)

A fixed number of slots, each with a key, a time stamp and a value of `entry_size` opaque
bytes. Strings are lists of bytes; the NUL behind them is left out. A slot has room for
`CACHE_KEY_MAX - 1` bytes of a key. The clock is read by the calls; a call is given what it
reads.

- `Ledger`: of each key, the value that was put last and the time it was last put or hit.
- `Answers ttl c l`: the cache answers as the ledger says.
- `run_answers`: it does so in every state of a run whose keys fit into a slot.
-/

namespace AxlSdk

namespace Cache

open Runs List

variable {Value : Type}

/-! ## The cache -/

/-- `CACHE_KEY_MAX` -/
def cacheKeyMax : Nat := 128

/-- `CacheSlot`, with its part of `values`. -/
structure CacheSlot (Value : Type) where
  key : List UInt8
  timestampMs : Nat
  valid : Bool
  value : Value

/-- `AxlCache`; `zero` is a value of zero bytes. -/
structure AxlCache (Value : Type) where
  slots : List (CacheSlot Value)
  ttlMs : Nat
  zero : Value

/-- A slot of zero bytes, as `axl_calloc` returns them. -/
def zeroSlot (zero : Value) : CacheSlot Value := ⟨[], 0, false, zero⟩

/-- `axl_cache_new` when its allocations succeed. -/
def new (maxSlots : Nat) (zero : Value) (ttlMs : Nat) : Option (AxlCache Value) :=
  if maxSlots = 0 then none
  else some ⟨List.replicate maxSlots (zeroSlot zero), ttlMs, zero⟩

/-- The place and the content of the first slot with `p`. -/
def firstSlot (p : CacheSlot Value → Bool) : List (CacheSlot Value) → Option (Nat × CacheSlot Value)
  | [] => none
  | s :: ss => if p s then some (0, s) else (firstSlot p ss).map fun r => (r.1 + 1, r.2)

/-- The test of `find_slot`. -/
def CacheSlot.holds (key : List UInt8) (s : CacheSlot Value) : Bool := s.valid && s.key == key

/-- `find_slot` -/
def findSlot (c : AxlCache Value) (key : List UInt8) : Option (Nat × CacheSlot Value) :=
  firstSlot (CacheSlot.holds key) c.slots

/-- `now - then` on `uint64_t`. -/
def elapsed (now past : Nat) : Nat := (now + 2 ^ 64 - past) % 2 ^ 64

/-- `is_expired` at the given time. -/
def isExpired (c : AxlCache Value) (s : CacheSlot Value) (now : Nat) : Bool :=
  elapsed now s.timestampMs > c.ttlMs

/-- The loop of `axl_cache_put` for the oldest slot. -/
def oldestLoop : List (CacheSlot Value) → Nat → Nat → Nat → Nat
  | [], _, _, oldestIdx => oldestIdx
  | s :: ss, i, oldestTs, oldestIdx =>
    if s.timestampMs < oldestTs then oldestLoop ss (i + 1) s.timestampMs i
    else oldestLoop ss (i + 1) oldestTs oldestIdx

/-- The slot that `axl_cache_put` fills for a new key: an empty one, or the oldest. -/
def slotToFill (c : AxlCache Value) : Nat :=
  match firstSlot (fun s => !s.valid) c.slots with
  | some (i, _) => i
  | none => oldestLoop c.slots 0 (2 ^ 64 - 1) 0

/-- `axl_strlcpy` into the key of a slot. -/
def storedKey (key : List UInt8) : List UInt8 := key.take (cacheKeyMax - 1)

/-- `axl_cache_put`, the clock reading `now`. -/
def put (c : AxlCache Value) (key : List UInt8) (value : Value) (now : Nat) : AxlCache Value :=
  match findSlot c key with
  | some (i, s) => { c with slots := c.slots.set i { s with value := value, timestampMs := now } }
  | none => { c with slots := c.slots.set (slotToFill c) ⟨storedKey key, now, true, value⟩ }

/-- `axl_cache_get`; the clock reads `now` in `is_expired`, and `now'` on a hit. -/
def get (c : AxlCache Value) (key : List UInt8) (now now' : Nat) :
    Option Value × AxlCache Value :=
  match findSlot c key with
  | none => (none, c)
  | some (i, s) =>
    if isExpired c s now then (none, { c with slots := c.slots.set i { s with valid := false } })
    else (some s.value, { c with slots := c.slots.set i { s with timestampMs := now' } })

/-- `axl_cache_invalidate` -/
def invalidate (c : AxlCache Value) (key : List UInt8) : AxlCache Value :=
  match findSlot c key with
  | some (i, s) => { c with slots := c.slots.set i { s with valid := false, value := c.zero } }
  | none => c

/-! ## Runs -/

/-- The calls of a run, with what the clock reads. -/
inductive Op (Value : Type) where
  | put (key : List UInt8) (value : Value) (now : Nat)
  | get (key : List UInt8) (now now' : Nat)
  | invalidate (key : List UInt8)

/-- Of each key, the value that was put last, and when it was last put or hit. -/
structure Ledger (Value : Type) where
  latest : List UInt8 → Option Value
  used : List UInt8 → Nat

/-- Nothing was put. -/
def Ledger.empty : Ledger Value := ⟨fun _ => none, fun _ => 0⟩

/-- A cache and its ledger, after a call. -/
def exec (p : AxlCache Value × Ledger Value) : Op Value → AxlCache Value × Ledger Value
  | .put key value now =>
    (put p.1 key value now,
      ⟨Function.update p.2.latest key (some value), Function.update p.2.used key now⟩)
  | .get key now now' =>
    let r := get p.1 key now now'
    (r.2, { p.2 with used := if r.1.isSome then Function.update p.2.used key now' else p.2.used })
  | .invalidate key => (invalidate p.1 key, p.2)

/-- The keys of the valid slots. -/
def validKeys (c : AxlCache Value) : List (List UInt8) :=
  (c.slots.filter CacheSlot.valid).map CacheSlot.key

/-- The key fits into a slot. -/
def KeyFits (key : List UInt8) : Prop := key.length < cacheKeyMax

/-- The keys that are put fit into a slot. -/
def OpFits (_ : AxlCache Value × Ledger Value) : Op Value → Prop
  | .put key _ _ => KeyFits key
  | _ => True

/-- A hit returns what was put last under that key, used no longer than the TTL ago; what
was just put is there; no key has two slots. -/
structure Answers (p : AxlCache Value × Ledger Value) : Prop where
  hit : ∀ key now now' value, (get p.1 key now now').1 = some value →
    p.2.latest key = some value ∧ elapsed now (p.2.used key) ≤ p.1.ttlMs
  putGet : ∀ key value now now₁ now₂, KeyFits key → elapsed now₁ now ≤ p.1.ttlMs →
    (get (put p.1 key value now) key now₁ now₂).1 = some value
  distinct : (validKeys p.1).Nodup

/-! ## Slots -/

variable {ss : List (CacheSlot Value)} {s : CacheSlot Value}

theorem firstSlot_some {p : CacheSlot Value → Bool} {i : Nat} (h : firstSlot p ss = some (i, s)) :
    ∃ before after, ss = before ++ s :: after ∧ before.length = i ∧ p s = true ∧
      ∀ x ∈ before, p x = false := by
  induction ss generalizing i with
  | nil => cases h
  | cons x ss ih =>
    rw [firstSlot] at h
    split at h
    case isTrue hx =>
      cases h
      exact ⟨[], ss, rfl, rfl, hx, fun y hy => by cases hy⟩
    case isFalse hx =>
      obtain ⟨r, hr, heq⟩ := Option.map_eq_some_iff.mp h
      cases heq
      obtain ⟨before, after, rfl, hlen, hs, hb⟩ := ih hr
      refine ⟨x :: before, after, rfl, by rw [length_cons, hlen], hs, ?_⟩
      exact forall_mem_cons.mpr ⟨by simpa using hx, hb⟩

theorem firstSlot_none {p : CacheSlot Value → Bool} (h : firstSlot p ss = none) :
    ∀ x ∈ ss, p x = false := by
  induction ss with
  | nil => exact fun x hx => by cases hx
  | cons x ss ih =>
    rw [firstSlot] at h
    split at h
    case isTrue => cases h
    case isFalse hx =>
      exact forall_mem_cons.mpr ⟨by simpa using hx, ih (Option.map_eq_none_iff.mp h)⟩

theorem oldestLoop_lt {i ts idx n : Nat} (hidx : idx < n) (hi : i + ss.length ≤ n) :
    oldestLoop ss i ts idx < n := by
  induction ss generalizing i ts idx with
  | nil => exact hidx
  | cons s ss ih =>
    rw [length_cons] at hi
    rw [oldestLoop]
    split
    · exact ih (by omega) (by omega)
    · exact ih hidx (by omega)

variable {c : AxlCache Value}

/-- There is a slot to fill. -/
theorem slotToFill_lt (hne : c.slots ≠ []) :
    slotToFill c < c.slots.length := by
  have hpos : 0 < c.slots.length := length_pos_iff.mpr hne
  unfold slotToFill
  split
  case h_1 i s hfirst =>
    obtain ⟨before, after, heq, rfl, -, -⟩ := firstSlot_some hfirst
    rw [heq, length_append, length_cons]
    omega
  case h_2 => exact oldestLoop_lt hpos (by omega)

/-! ## What the slots say -/

/-- The valid slots agree with the ledger, and no two of them have one key. -/
structure Stands (p : AxlCache Value × Ledger Value) : Prop where
  slots : p.1.slots ≠ []
  stored : ∀ s ∈ p.1.slots, s.valid = true →
    KeyFits s.key ∧ p.2.latest s.key = some s.value ∧ p.2.used s.key = s.timestampMs
  distinct : (validKeys p.1).Nodup

/-- The keys of the valid ones of some slots. -/
def keysOf (ss : List (CacheSlot Value)) : List (List UInt8) :=
  (ss.filter CacheSlot.valid).map CacheSlot.key

theorem keysOf_middle (before after : List (CacheSlot Value)) (s : CacheSlot Value) :
    keysOf (before ++ s :: after)
      = keysOf before ++ ((if s.valid then [s.key] else []) ++ keysOf after) := by
  rw [keysOf, filter_append, filter_cons, map_append]
  by_cases hv : s.valid = true
  · rw [if_pos hv, if_pos hv]
    rfl
  · rw [if_neg hv, if_neg hv]
    rfl

variable {key : List UInt8}

theorem mem_keysOf :
    key ∈ keysOf ss ↔ ∃ s ∈ ss, s.valid = true ∧ s.key = key := by
  simp only [keysOf, mem_map, mem_filter, and_assoc]

theorem holds_iff :
    s.holds key = true ↔ s.valid = true ∧ s.key = key := by
  rw [CacheSlot.holds, Bool.and_eq_true, beq_iff_eq]

theorem findSlot_none (h : findSlot c key = none) :
    key ∉ validKeys c := by
  intro hmem
  obtain ⟨s, hs, hvalid⟩ := mem_keysOf.mp hmem
  have hno := firstSlot_none h s hs
  rw [holds_iff.mpr hvalid] at hno
  cases hno

theorem set_middle {α : Type} (before after : List α) (s s' : α) :
    (before ++ s :: after).set before.length s' = before ++ s' :: after := by
  rw [set_append_right _ _ (Nat.le_refl _), Nat.sub_self, set_cons_zero]

/-- The key in the place of `s` may go, or become one that no other slot has. -/
theorem nodup_replace {before after : List (CacheSlot Value)} {s' : CacheSlot Value}
    (h : (keysOf (before ++ s :: after)).Nodup)
    (hnew : s'.valid = true → s'.key ∉ keysOf before ∧ s'.key ∉ keysOf after) :
    (keysOf (before ++ s' :: after)).Nodup := by
  rw [keysOf_middle] at h ⊢
  have hrest : (keysOf before ++ keysOf after).Nodup :=
    h.sublist ((List.Sublist.refl _).append (sublist_append_right _ _))
  by_cases hv : s'.valid = true
  · obtain ⟨hb, ha⟩ := hnew hv
    rw [if_pos hv, singleton_append]
    exact nodup_middle.mpr (nodup_cons.mpr ⟨by simp [hb, ha], hrest⟩)
  · rw [if_neg hv]
    exact hrest

theorem put_ttlMs (c : AxlCache Value) (key : List UInt8) (value : Value) (now : Nat) :
    (put c key value now).ttlMs = c.ttlMs := by
  unfold put
  split <;> rfl

/-- The three ways a lookup ends: no slot, one that has expired, or a hit. -/
theorem get_cases (c : AxlCache Value) (key : List UInt8) (now now' : Nat) :
    (findSlot c key = none ∧ get c key now now' = (none, c)) ∨
    (∃ i s, findSlot c key = some (i, s) ∧ isExpired c s now = true ∧
      get c key now now' = (none, { c with slots := c.slots.set i { s with valid := false } })) ∨
    ∃ i s, findSlot c key = some (i, s) ∧ isExpired c s now = false ∧ get c key now now' =
      (some s.value, { c with slots := c.slots.set i { s with timestampMs := now' } }) := by
  unfold get
  split
  case h_1 hfind => exact .inl ⟨hfind, rfl⟩
  case h_2 i s hfind =>
    by_cases hexp : isExpired c s now = true
    · exact .inr (.inl ⟨i, s, hfind, hexp, if_pos hexp⟩)
    · exact .inr (.inr ⟨i, s, hfind, by simpa using hexp, if_neg hexp⟩)

theorem exec_get (p : AxlCache Value × Ledger Value) (key : List UInt8) (now now' : Nat) :
    exec p (.get key now now') = ((get p.1 key now now').2, { p.2 with
      used := if (get p.1 key now now').1.isSome then Function.update p.2.used key now'
        else p.2.used }) := rfl

namespace Stands

variable {p : AxlCache Value × Ledger Value} (h : Stands p)

include h

variable {key : List UInt8}

/-- The slot of a key. -/
theorem find {i : Nat} {s : CacheSlot Value} (hfind : findSlot p.1 key = some (i, s)) :
    ∃ before after, p.1.slots = before ++ s :: after ∧ before.length = i ∧ s.valid = true ∧
      s.key = key ∧ KeyFits key ∧ p.2.latest key = some s.value ∧
      p.2.used key = s.timestampMs ∧ key ∉ keysOf before ∧ key ∉ keysOf after := by
  obtain ⟨before, after, heq, hlen, hs, -⟩ := firstSlot_some hfind
  obtain ⟨hvalid, hkey⟩ := holds_iff.mp hs
  have hmem : s ∈ p.1.slots := by
    rw [heq]
    exact mem_append_right _ mem_cons_self
  obtain ⟨hfits, hlatest, hused⟩ := h.stored s hmem hvalid
  have hnodup : (keysOf (before ++ s :: after)).Nodup := by
    rw [← heq]
    exact h.distinct
  rw [keysOf_middle, if_pos hvalid, singleton_append, nodup_middle,
    nodup_cons, mem_append, not_or] at hnodup
  rw [hkey] at hfits hlatest hused hnodup
  exact ⟨before, after, heq, hlen, hvalid, hkey, hfits, hlatest, hused, hnodup.1⟩

/-- One slot is written: the others still agree with a ledger that has changed for the key
of the new one only. -/
theorem replace {before after : List (CacheSlot Value)} {s s' : CacheSlot Value}
    (heq : p.1.slots = before ++ s :: after) {l : Ledger Value}
    (hnew : s'.valid = true → KeyFits s'.key ∧ l.latest s'.key = some s'.value ∧
      l.used s'.key = s'.timestampMs ∧ s'.key ∉ keysOf before ∧ s'.key ∉ keysOf after)
    (hother : ∀ x ∈ before ++ after, x.valid = true →
      l.latest x.key = p.2.latest x.key ∧ l.used x.key = p.2.used x.key) :
    Stands ({ p.1 with slots := before ++ s' :: after }, l) := by
  refine ⟨by simp, ?_, ?_⟩
  · intro x hx hv
    have hcases : x = s' ∨ x ∈ before ++ after := by
      rcases mem_append.mp hx with hx | hx
      · exact .inr (mem_append_left _ hx)
      · rcases mem_cons.mp hx with rfl | hx
        · exact .inl rfl
        · exact .inr (mem_append_right _ hx)
    rcases hcases with rfl | hold
    · obtain ⟨hfits, hlatest, hused, -⟩ := hnew hv
      exact ⟨hfits, hlatest, hused⟩
    · obtain ⟨hl, hu⟩ := hother x hold hv
      have hmem : x ∈ p.1.slots := by
        rw [heq]
        rcases mem_append.mp hold with hx | hx
        · exact mem_append_left _ hx
        · exact mem_append_right _ (mem_cons_of_mem _ hx)
      rw [hl, hu]
      exact h.stored x hmem hv
  · have hnodup : (keysOf (before ++ s :: after)).Nodup := by
      rw [← heq]
      exact h.distinct
    refine nodup_replace hnodup fun hv => ?_
    obtain ⟨-, -, -, hb, ha⟩ := hnew hv
    exact ⟨hb, ha⟩

/-- A key that is in no slot but the one written. -/
theorem other_key {before after : List (CacheSlot Value)} (hb : key ∉ keysOf before)
    (ha : key ∉ keysOf after) :
    ∀ x ∈ before ++ after, x.valid = true → x.key ≠ key := by
  rintro x hx hv rfl
  rcases mem_append.mp hx with hx | hx
  · exact hb (mem_keysOf.mpr ⟨x, hx, hv, rfl⟩)
  · exact ha (mem_keysOf.mpr ⟨x, hx, hv, rfl⟩)

theorem put (hfits : KeyFits key) (value : Value) (now : Nat) :
    Stands (exec p (.put key value now)) ∧ key ∈ validKeys (Cache.put p.1 key value now) := by
  simp only [exec, Cache.put]
  split
  case h_1 i s hfind =>
    -- the key has a slot
    obtain ⟨before, after, heq, rfl, hvalid, rfl, -, -, -, hb, ha⟩ := h.find hfind
    rw [heq, set_middle]
    refine ⟨h.replace heq (fun _ => ⟨hfits, by simp, by simp, hb, ha⟩) fun x hx hv => ?_,
      mem_keysOf.mpr ⟨_, mem_append_right _ mem_cons_self, hvalid, rfl⟩⟩
    have hne := h.other_key hb ha x hx hv
    simp [hne]
  case h_2 hfind =>
    -- a slot is filled
    have hnot := findSlot_none hfind
    have hlt := slotToFill_lt h.slots
    have hshort : key.length ≤ 127 := Nat.le_of_lt_succ hfits
    have hstored : storedKey key = key := take_of_length_le hshort
    obtain ⟨before, s, after, heq, hlen⟩ : ∃ before s after,
        p.1.slots = before ++ s :: after ∧ before.length = slotToFill p.1 := by
      refine ⟨p.1.slots.take (slotToFill p.1), p.1.slots[slotToFill p.1],
        p.1.slots.drop (slotToFill p.1 + 1), ?_, ?_⟩
      · rw [← drop_eq_getElem_cons hlt, take_append_drop]
      · rw [length_take, Nat.min_eq_left (Nat.le_of_lt hlt)]
    have hkeys : key ∉ keysOf before ∧ key ∉ keysOf after := by
      rw [validKeys, ← keysOf, heq, keysOf_middle, mem_append, mem_append, not_or,
        not_or] at hnot
      exact ⟨hnot.1, hnot.2.2⟩
    rw [← hlen, heq, set_middle, hstored]
    refine ⟨h.replace heq (fun _ => ⟨hfits, by simp, by simp, hkeys⟩) fun x hx hv => ?_,
      mem_keysOf.mpr ⟨_, mem_append_right _ mem_cons_self, rfl, rfl⟩⟩
    have hne := h.other_key hkeys.1 hkeys.2 x hx hv
    simp [hne]

theorem get (key : List UInt8) (now now' : Nat) : Stands (exec p (.get key now now')) := by
  rcases get_cases p.1 key now now' with ⟨-, heq⟩ | ⟨i, s, hfind, -, heq⟩ | ⟨i, s, hfind, -, heq⟩
  · -- there is no slot
    rw [exec_get, heq]
    exact h
  · -- the slot has expired
    obtain ⟨before, after, hslots, rfl, -⟩ := h.find hfind
    rw [exec_get, heq, hslots, set_middle]
    exact h.replace hslots (fun hv => by cases hv) fun x _ _ => ⟨rfl, rfl⟩
  · obtain ⟨before, after, hslots, rfl, hvalid, rfl, hfits, hlatest, hused, hb, ha⟩ :=
      h.find hfind
    rw [exec_get, heq, hslots, set_middle]
    refine h.replace hslots (fun _ => ⟨hfits, hlatest, by simp, hb, ha⟩) fun x hx hv => ?_
    have hne := h.other_key hb ha x hx hv
    simp [hne]

theorem invalidate (key : List UInt8) : Stands (exec p (.invalidate key)) := by
  simp only [exec, Cache.invalidate]
  split
  case h_1 i s hfind =>
    obtain ⟨before, after, heq, rfl, -⟩ := h.find hfind
    rw [heq, set_middle]
    exact h.replace heq (fun hv => by cases hv) fun x _ _ => ⟨rfl, rfl⟩
  case h_2 => exact h

theorem answers : Answers p := by
  refine ⟨fun key now now' value hget => ?_, fun key value now now₁ now₂ hfits htime => ?_,
    h.distinct⟩
  · rcases get_cases p.1 key now now' with ⟨-, heq⟩ | ⟨i, s, -, -, heq⟩ | ⟨i, s, hfind, hfresh, heq⟩
    · rw [heq] at hget
      cases hget
    · rw [heq] at hget
      cases hget
    · obtain ⟨-, -, -, -, -, -, -, hlatest, hused, -⟩ := h.find hfind
      rw [heq] at hget
      cases hget
      rw [isExpired, decide_eq_false_iff_not] at hfresh
      exact ⟨hlatest, by rw [hused]; exact Nat.le_of_not_lt hfresh⟩
  · obtain ⟨hput, hmem⟩ := h.put hfits value now
    rcases get_cases (Cache.put p.1 key value now) key now₁ now₂ with
      ⟨hfind, -⟩ | ⟨i, s, hfind, hexp, -⟩ | ⟨i, s, hfind, -, heq⟩
    · exact absurd hmem (findSlot_none hfind)
    · -- the slot carries the time of the call before
      obtain ⟨-, -, -, -, -, -, -, -, hused, -⟩ := hput.find hfind
      have hts : now = s.timestampMs := by simpa [exec] using hused
      rw [isExpired, decide_eq_true_eq, ← hts, put_ttlMs] at hexp
      exact absurd htime (Nat.not_le_of_lt hexp)
    · obtain ⟨-, -, -, -, -, -, -, hlatest, -⟩ := hput.find hfind
      rw [heq]
      simpa [exec] using hlatest.symm

theorem step (op : Op Value) (hop : OpFits p op) : Stands (exec p op) := by
  cases op with
  | put key value now => exact (h.put hop value now).1
  | get key now now' => exact h.get key now now'
  | invalidate key => exact h.invalidate key

end Stands

/-! ## Runs -/

theorem stands_new {maxSlots ttlMs : Nat} {zero : Value} (h : new maxSlots zero ttlMs = some c) :
    Stands (c, Ledger.empty) := by
  unfold new at h
  split at h
  case isTrue => cases h
  case isFalse hne =>
    cases h
    have hinvalid : ∀ s ∈ List.replicate maxSlots (zeroSlot zero), s.valid = false := by
      intro s hs
      rw [eq_of_mem_replicate hs]
      rfl
    refine ⟨by simpa using hne, fun s hs hv => ?_, ?_⟩
    · rw [hinvalid s hs] at hv
      cases hv
    · have hnone : (List.replicate maxSlots (zeroSlot zero)).filter CacheSlot.valid = [] :=
        filter_eq_nil_iff.mpr fun s hs => by simp [hinvalid s hs]
      rw [validKeys, hnone]
      exact nodup_nil

/-- **The cache returns what was put last**, along every run whose keys fit into a slot,
whatever the clock reads. -/
theorem run_answers {maxSlots ttlMs : Nat} {zero : Value} {c : AxlCache Value}
    (hnew : new maxSlots zero ttlMs = some c) (ops : List (Op Value))
    (hops : EveryStep exec OpFits (c, Ledger.empty) ops) :
    EveryState exec Answers (c, Ledger.empty) ops := by
  have hstates := hops.invariant (I := Stands) (stands_new hnew) fun p op hp => hp.step op
  exact fun pre post heq => (hstates pre post heq).answers

/-- One slot, and a key that pushes out another. -/
theorem run_answers_one_slot : ∃ c, new 1 0 10 = some c ∧
    EveryState exec Answers (c, Ledger.empty)
      [.put [97] 1 5, .get [97] 7 7, .put [98] 2 8, .get [97] 9 9] := by
  refine ⟨_, rfl, @run_answers Nat 1 10 0 _ rfl _ ?_⟩
  have hfits : ∀ b : UInt8, KeyFits [b] := fun b => by
    show 1 < 128
    decide
  refine everyStep_cons.mpr ⟨hfits 97, everyStep_cons.mpr ⟨trivial, everyStep_cons.mpr ⟨hfits 98,
    everyStep_cons.mpr ⟨trivial, everyStep_nil⟩⟩⟩⟩

/-- With a TTL of 10: a value put at time 0 and hit at time 8 is handed out at time 16. -/
theorem hit_outlives_ttl : ∃ c, new 1 0 10 = some c ∧
    let c₁ := put c [97] 1 0
    let c₂ := (get c₁ [97] 8 8).2
    (get c₂ [97] 16 16).1 = some 1 ∧ elapsed 16 0 > 10 :=
  ⟨_, rfl, by decide⟩

end Cache

end AxlSdk
