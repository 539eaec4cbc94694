import Mathlib

/-!
# The page cache (`src/data/axl-page-cache.c`)

A fixed number of frames, each with the slice of the pool that belongs to it. A
fetch looks for its page with one scan over the frames, which finds the least
recently used frame on the way, and fills that one on a miss.

The clock of the cache is a `uint64_t`, so it wraps. `Traced` runs carry, beside
the cache, what the callbacks delivered and when each page was last fetched;
`run_coherent` says what the cache shows of these as long as the clock has not
wrapped, and `wrapped_clock_evicts` that it fails behind the wrap.
-/

namespace AxlSdk

namespace PageCache

open List

variable {Owner : Type} [DecidableEq Owner]

/-! ## The cache -/

/-- `PcFrame`, with its slice of the pool. -/
structure PcFrame (Owner : Type) where
  owner : Option Owner
  pageIndex : Nat
  validLen : Nat
  lruSeq : Nat
  occupied : Bool
  page : List UInt8

/-- `AxlPageCacheStats`. -/
structure Stats where
  hits : Nat
  misses : Nat
  evictions : Nat
  fills : Nat

/-- `AxlPageCache`. -/
structure Cache (Owner : Type) where
  pageSize : Nat
  frames : List (PcFrame Owner)
  clock : Nat
  stats : Stats

/-- `AxlPageFillFunc` with its `user` pointer: on a page index and the bytes of
the frame, the result and the bytes it leaves there. -/
structure FillFunc where
  call : Nat → List UInt8 → Int × List UInt8
  length_call : ∀ i buf, (call i buf).2.length = buf.length

/-- `uint64_t` increment. -/
def tick (n : Nat) : Nat := (n + 1) % 2 ^ 64

/-- `pc_alloc` when its allocations succeed; `pool` is the memory that
`axl_malloc` returned. -/
def new (pageSize maxFrames : Nat) (pool : Nat → UInt8) : Option (Cache Owner) :=
  if pageSize = 0 ∨ maxFrames = 0 ∨ pageSize > (2 ^ 64 - 1) / maxFrames then none
  else
    let slice (i : Nat) := (List.range pageSize).map fun j => pool (i * pageSize + j)
    some ⟨pageSize, (List.range maxFrames).map fun i => ⟨none, 0, 0, 0, false, slice i⟩, 0,
      ⟨0, 0, 0, 0⟩⟩

/-- The result of the scan of `axl_page_cache_fetch`. -/
inductive Found where
  | hit (i : Nat)
  | miss (victim : Nat)
  deriving DecidableEq, Repr

/-- The frame holds the page. -/
def PcFrame.holds (f : PcFrame Owner) (owner : Option Owner) (pageIndex : Nat) : Bool :=
  f.occupied && f.owner = owner && f.pageIndex = pageIndex

/-- The loop of `axl_page_cache_fetch` from the frame `i` on. -/
def scanFrom (owner : Option Owner) (pageIndex : Nat) :
    List (PcFrame Owner) → Nat → Nat → Nat → Found
  | [], _, victim, _ => .miss victim
  | f :: fs, i, victim, oldest =>
    if f.holds owner pageIndex then .hit i
    else if f.lruSeq < oldest then scanFrom owner pageIndex fs (i + 1) i f.lruSeq
    else scanFrom owner pageIndex fs (i + 1) victim oldest

/-- The scan, which starts with `~(uint64_t)0` as the oldest tick. -/
def scan (pc : Cache Owner) (owner : Option Owner) (pageIndex : Nat) : Found :=
  scanFrom owner pageIndex pc.frames 0 0 (2 ^ 64 - 1)

/-- A hit on the frame `i`. -/
def touch (pc : Cache Owner) (i : Nat) : Cache Owner :=
  { pc with
    clock := tick pc.clock
    frames := pc.frames.modify i fun f => { f with lruSeq := tick pc.clock }
    stats := { pc.stats with hits := tick pc.stats.hits } }

/-- The counters of a miss on the frame `f`. -/
def countMiss (stats : Stats) (f : PcFrame Owner) : Stats :=
  { stats with
    misses := tick stats.misses
    evictions := if f.occupied then tick stats.evictions else stats.evictions }

/-- Fault a page into the victim frame `f`, number `v`. -/
def faultIn (pc : Cache Owner) (v : Nat) (f : PcFrame Owner) (owner : Option Owner)
    (pageIndex : Nat) (fill : FillFunc) : Option Nat × Nat × Cache Owner :=
  let stats := countMiss pc.stats f
  let got := fill.call pageIndex f.page
  if got.1 < 0 ∨ got.1.toNat > pc.pageSize then
    -- leave the frame empty rather than stale
    (none, 0, { pc with
      frames := pc.frames.set v { f with page := got.2, occupied := false, lruSeq := 0 }
      stats := stats })
  else
    (some v, got.1.toNat, { pc with
      clock := tick pc.clock
      frames := pc.frames.set v ⟨owner, pageIndex, got.1.toNat, tick pc.clock, true, got.2⟩
      stats := { stats with fills := tick stats.fills } })

/-- `axl_page_cache_fetch`: the frame whose bytes are returned, the valid length
and the cache. -/
def fetch (pc : Cache Owner) (owner : Option Owner) (pageIndex : Nat) (fill : Option FillFunc) :
    Option Nat × Nat × Cache Owner :=
  match fill with
  | none => (none, 0, pc)
  | some fill =>
    match scan pc owner pageIndex with
    | .hit i => (some i, ((pc.frames[i]?).map fun f => f.validLen).getD 0, touch pc i)
    | .miss v =>
      match pc.frames[v]? with
      | none => (none, 0, pc)
      | some f => faultIn pc v f owner pageIndex fill

/-- Empty a frame. -/
def PcFrame.vacate (f : PcFrame Owner) : PcFrame Owner := { f with occupied := false, lruSeq := 0 }

/-- `axl_page_cache_drop_owner`. -/
def dropOwner (pc : Cache Owner) (owner : Option Owner) : Cache Owner :=
  { pc with frames := pc.frames.map fun f =>
      if f.occupied && f.owner = owner then f.vacate else f }

/-- `axl_page_cache_clear`. -/
def clear (pc : Cache Owner) : Cache Owner :=
  { pc with frames := pc.frames.map PcFrame.vacate, clock := 0, stats := ⟨0, 0, 0, 0⟩ }

/-! ## Runs -/

/-- The calls of a run. -/
inductive Op (Owner : Type) where
  | fetch (owner : Option Owner) (pageIndex : Nat) (fill : Option FillFunc)
  | dropOwner (owner : Option Owner)
  | clear

/-- The cache with its history: `delivered` holds the bytes of the last
successful fill of a page since it was dropped, `fetched` the number of the
call that last fetched a page, and `now` the calls so far. -/
structure Traced (Owner : Type) where
  pc : Cache Owner
  delivered : Option Owner → Nat → Option (List UInt8)
  fetched : Option Owner → Nat → Nat
  now : Nat

/-- What a call of the fill callback delivers: the bytes it says it wrote. -/
def delivery (pc : Cache Owner) (pageIndex : Nat) (fill : FillFunc) (buf : List UInt8) :
    Option (List UInt8) :=
  let got := fill.call pageIndex buf
  if got.1 < 0 ∨ got.1.toNat > pc.pageSize then none else some (got.2.take got.1.toNat)

/-- The deliveries after a fetch: only a miss calls the callback. -/
def noteDelivery (t : Traced Owner) (owner : Option Owner) (pageIndex : Nat)
    (fill : Option FillFunc) : Option Owner → Nat → Option (List UInt8) :=
  match fill, scan t.pc owner pageIndex with
  | some fill, .miss v =>
    match (t.pc.frames[v]?).bind fun f => delivery t.pc pageIndex fill f.page with
    | some bytes => fun o p => if o = owner ∧ p = pageIndex then some bytes else t.delivered o p
    | none => t.delivered
  | _, _ => t.delivered

/-- One call, with its history. -/
def Traced.exec (t : Traced Owner) : Op Owner → Traced Owner
  | .fetch owner pageIndex fill =>
    let r := fetch t.pc owner pageIndex fill
    { pc := r.2.2
      delivered := noteDelivery t owner pageIndex fill
      fetched := fun o p =>
        if r.1 ≠ none ∧ o = owner ∧ p = pageIndex then t.now + 1 else t.fetched o p
      now := t.now + 1 }
  | .dropOwner owner =>
    { t with
      pc := dropOwner t.pc owner
      delivered := fun o p => if o = owner then none else t.delivered o p
      now := t.now + 1 }
  | .clear => { t with pc := clear t.pc, delivered := fun _ _ => none, now := t.now + 1 }

/-- A run. -/
def Traced.run (t : Traced Owner) (ops : List (Op Owner)) : Traced Owner := ops.foldl exec t

theorem Traced.run_cons (t : Traced Owner) (op : Op Owner) (ops : List (Op Owner)) :
    t.run (op :: ops) = (t.exec op).run ops := rfl

/-- A new cache, with no history. -/
def Traced.start (pc : Cache Owner) : Traced Owner := ⟨pc, fun _ _ => none, fun _ _ => 0, 0⟩

/-- The clock does not wrap in the call. -/
def InTime (pc : Cache Owner) : Op Owner → Prop
  | .fetch _ _ _ => pc.clock < 2 ^ 64 - 1
  | _ => True

/-- Every call of a run finds the clock below its last tick. -/
def Timely (t : Traced Owner) : List (Op Owner) → Prop
  | [] => True
  | op :: ops => InTime t.pc op ∧ Timely (t.exec op) ops

/-! ## The scan -/

variable {owner : Option Owner} {pageIndex i : Nat}

theorem scanFrom_hit {fs : List (PcFrame Owner)} {victim oldest k : Nat}
    (h : scanFrom owner pageIndex fs i victim oldest = .hit k) :
    ∃ j f, k = i + j ∧ fs[j]? = some f ∧ f.holds owner pageIndex = true := by
  induction fs generalizing i victim oldest with
  | nil => cases h
  | cons f fs ih =>
    rw [scanFrom] at h
    split at h
    case isTrue hf =>
      cases h
      exact ⟨0, f, rfl, rfl, hf⟩
    case isFalse =>
      split at h
      all_goals
        obtain ⟨j, g, rfl, hg, hh⟩ := ih h
        exact ⟨j + 1, g, by omega, by simpa using hg, hh⟩

variable {v : Nat}

/-- On a miss no frame holds the page. -/
theorem scanFrom_miss {fs : List (PcFrame Owner)} {victim oldest : Nat}
    (h : scanFrom owner pageIndex fs i victim oldest = .miss v) :
    ∀ f ∈ fs, f.holds owner pageIndex = false := by
  induction fs generalizing i victim oldest with
  | nil => simp
  | cons f fs ih =>
    rw [scanFrom] at h
    split at h
    case isTrue => cases h
    case isFalse hf =>
      intro g hg
      rcases mem_cons.mp hg with rfl | hg
      · simpa using hf
      · split at h
        all_goals exact ih h g hg

/-- The victim of a miss is a frame with the least tick. The scan so far went
over `pre`; `oldest` is the least tick there, or still the initial one. -/
theorem scanFrom_victim {owner : Option Owner} {pageIndex : Nat} {pre fs : List (PcFrame Owner)}
    {victim oldest v : Nat} (hmax : ∀ f ∈ pre ++ fs, f.lruSeq ≤ 2 ^ 64 - 1)
    (hle : ∀ f ∈ pre, oldest ≤ f.lruSeq)
    (hv : (∃ f, pre[victim]? = some f ∧ f.lruSeq = oldest) ∨ victim = 0 ∧ oldest = 2 ^ 64 - 1)
    (hne : pre ++ fs ≠ []) (h : scanFrom owner pageIndex fs pre.length victim oldest = .miss v) :
    ∃ f, (pre ++ fs)[v]? = some f ∧ ∀ g ∈ pre ++ fs, f.lruSeq ≤ g.lruSeq := by
  induction fs generalizing pre victim oldest with
  | nil =>
    cases h
    rw [append_nil] at hmax hne ⊢
    rcases hv with ⟨f, hf, rfl⟩ | ⟨rfl, rfl⟩
    · exact ⟨f, hf, hle⟩
    · -- no tick was below the initial one, so that all are equal to it
      cases pre with
      | nil => exact absurd rfl hne
      | cons f pre =>
        exact ⟨f, rfl, fun g hg => le_trans (hmax f (by simp)) (hle g hg)⟩
  | cons f fs ih =>
    rw [scanFrom] at h
    have hassoc : pre ++ f :: fs = (pre ++ [f]) ++ fs := by simp
    have hlen : (pre ++ [f]).length = pre.length + 1 := by simp
    split at h
    case isTrue => cases h
    case isFalse =>
      rw [hassoc] at hmax hne ⊢
      rw [← hlen] at h
      split at h
      case isTrue hlt =>
        refine ih hmax ?_ (.inl ⟨f, by simp, rfl⟩) hne h
        intro g hg
        rcases mem_append.mp hg with hg | hg
        · exact le_trans (le_of_lt hlt) (hle g hg)
        · exact (congrArg _ (mem_singleton.mp hg)).ge
      case isFalse hlt =>
        refine ih hmax ?_ ?_ hne h
        · intro g hg
          rcases mem_append.mp hg with hg | hg
          · exact hle g hg
          · rw [mem_singleton.mp hg]
            omega
        · rcases hv with ⟨g, hg, hgo⟩ | hv
          · refine .inl ⟨g, ?_, hgo⟩
            rw [getElem?_append_left (List.getElem?_eq_some_iff.mp hg).1]
            exact hg
          · exact .inr hv

theorem holds_iff {f : PcFrame Owner} :
    f.holds owner pageIndex = true ↔
      f.occupied = true ∧ f.owner = owner ∧ f.pageIndex = pageIndex := by
  simp [PcFrame.holds, and_assoc]

/-! ## The invariant -/

/-- What a resident page says about its frame. -/
structure Resident (t : Traced Owner) (f : PcFrame Owner) : Prop where
  used : 1 ≤ f.lruSeq
  past : f.lruSeq ≤ t.pc.clock
  valid : f.validLen ≤ t.pc.pageSize
  bytes : t.delivered f.owner f.pageIndex = some (f.page.take f.validLen)
  stamped : t.fetched f.owner f.pageIndex ≤ t.now

/-- The invariant of timely runs. -/
structure Ok (t : Traced Owner) : Prop where
  nonempty : t.pc.frames ≠ []
  clock : t.pc.clock < 2 ^ 64
  size : ∀ f ∈ t.pc.frames, f.page.length = t.pc.pageSize
  vacant : ∀ f ∈ t.pc.frames, f.occupied = false → f.lruSeq = 0
  resident : ∀ f ∈ t.pc.frames, f.occupied = true → Resident t f
  order : ∀ f ∈ t.pc.frames, ∀ g ∈ t.pc.frames, f.occupied = true → g.occupied = true →
    f.lruSeq ≤ g.lruSeq → t.fetched f.owner f.pageIndex ≤ t.fetched g.owner g.pageIndex
  single : ∀ (i j : Nat) (f g : PcFrame Owner), t.pc.frames[i]? = some f →
    t.pc.frames[j]? = some g → f.occupied = true → g.occupied = true → f.owner = g.owner → f.pageIndex = g.pageIndex → i = j

variable {pc : Cache Owner}

/-- A frame of a list of which one was replaced. -/
theorem mem_set_cases {α : Type} {l : List α} {a b : α} (h : b ∈ l.set v a) :
    b = a ∨ ∃ i, i ≠ v ∧ l[i]? = some b := by
  obtain ⟨i, hi⟩ := mem_iff_getElem?.mp h
  rw [getElem?_set] at hi
  split at hi
  · split at hi
    · exact .inl (Option.some.inj hi).symm
    · cases hi
  · exact .inr ⟨i, fun h => by simp_all, hi⟩

/-- The frame `v` is replaced by `f'`: what is left is as before, and a resident
page in it is new there and fetched last. -/
theorem Ok.replace {t t' : Traced Owner} (h : Ok t) {v : Nat} {f' : PcFrame Owner}
    (hframes : t'.pc.frames = t.pc.frames.set v f') (hpage : t'.pc.pageSize = t.pc.pageSize)
    (hlen : f'.page.length = t.pc.pageSize) (hclock : t'.pc.clock < 2 ^ 64)
    (hpast : t.pc.clock ≤ t'.pc.clock) (hnow : t.now ≤ t'.now)
    (hkept : ∀ i g, i ≠ v → t.pc.frames[i]? = some g → g.occupied = true →
      t'.delivered g.owner g.pageIndex = t.delivered g.owner g.pageIndex ∧
      t'.fetched g.owner g.pageIndex = t.fetched g.owner g.pageIndex)
    (hvacant : f'.occupied = false → f'.lruSeq = 0)
    (hnew : f'.occupied = true → Resident t' f' ∧ t.pc.clock < f'.lruSeq ∧
      t.now ≤ t'.fetched f'.owner f'.pageIndex ∧
      ∀ i g, i ≠ v → t.pc.frames[i]? = some g → g.occupied = true →
        ¬ (g.owner = f'.owner ∧ g.pageIndex = f'.pageIndex)) : Ok t' := by
  have hmem : ∀ {i : Nat} {g : PcFrame Owner}, t.pc.frames[i]? = some g → g ∈ t.pc.frames :=
    fun hg => mem_of_getElem? hg
  refine ⟨?_, hclock, ?_, ?_, ?_, ?_, ?_⟩
  · rw [hframes]
    simpa using h.nonempty
  · intro g hg
    rw [hframes] at hg
    rw [hpage]
    rcases mem_set_cases hg with rfl | ⟨i, -, hg⟩
    · exact hlen
    · exact h.size g (hmem hg)
  · intro g hg ho
    rw [hframes] at hg
    rcases mem_set_cases hg with rfl | ⟨i, -, hg⟩
    · exact hvacant ho
    · exact h.vacant g (hmem hg) ho
  · intro g hg ho
    rw [hframes] at hg
    rcases mem_set_cases hg with rfl | ⟨i, hi, hg⟩
    · exact (hnew ho).1
    · obtain ⟨h₁, h₂, h₃, h₄, h₅⟩ := h.resident g (hmem hg) ho
      obtain ⟨hd, hf⟩ := hkept i g hi hg ho
      exact ⟨h₁, le_trans h₂ hpast, hpage ▸ h₃, hd ▸ h₄, hf ▸ le_trans h₅ hnow⟩
  · intro f hf g hg hof hog hle
    rw [hframes] at hf hg
    rcases mem_set_cases hg with rfl | ⟨j, hj, hgj⟩
    · rcases mem_set_cases hf with rfl | ⟨i, hi, hfi⟩
      · exact le_rfl
      · rw [(hkept i f hi hfi hof).2]
        exact le_trans (h.resident f (hmem hfi) hof).stamped (hnew hog).2.2.1
    · rcases mem_set_cases hf with rfl | ⟨i, hi, hfi⟩
      · -- the new tick is above all others
        have := (h.resident g (hmem hgj) hog).past
        have := (hnew hof).2.1
        omega
      · rw [(hkept i f hi hfi hof).2, (hkept j g hj hgj hog).2]
        exact h.order f (hmem hfi) g (hmem hgj) hof hog hle
  · intro i j f g hf hg hof hog howner hindex
    rw [hframes, getElem?_set] at hf hg
    by_cases hi : v = i
    · by_cases hj : v = j
      · omega
      · rw [if_neg hj] at hg
        rw [if_pos hi] at hf
        split at hf
        · cases hf
          exact absurd ⟨howner.symm, hindex.symm⟩ ((hnew hof).2.2.2 j g (Ne.symm hj) hg hog)
        · cases hf
    · rw [if_neg hi] at hf
      by_cases hj : v = j
      · rw [if_pos hj] at hg
        split at hg
        · cases hg
          exact absurd ⟨howner, hindex⟩ ((hnew hog).2.2.2 i f (Ne.symm hi) hf hof)
        · cases hg
      · rw [if_neg hj] at hg
        exact h.single i j f g hf hg hof hog howner hindex

variable {t : Traced Owner}

/-- Frames are emptied: those that stay keep their history. -/
theorem Ok.vacate {t' : Traced Owner} (h : Ok t) (drop : PcFrame Owner → Bool)
    (hframes : t'.pc.frames = t.pc.frames.map fun f => if drop f then f.vacate else f)
    (hpage : t'.pc.pageSize = t.pc.pageSize) (hclock : t'.pc.clock < 2 ^ 64) (hnow : t.now ≤ t'.now)
    (hfetched : t'.fetched = t.fetched)
    (hkept : ∀ f ∈ t.pc.frames, f.occupied = true → drop f = false →
      t.pc.clock ≤ t'.pc.clock ∧
        t'.delivered f.owner f.pageIndex = t.delivered f.owner f.pageIndex) : Ok t' := by
  -- an occupied frame of the new cache is one of the old that was not dropped
  have hold : ∀ g ∈ t'.pc.frames, g.occupied = true → g ∈ t.pc.frames ∧ drop g = false := by
    intro g hg ho
    rw [hframes] at hg
    obtain ⟨f, hf, rfl⟩ := mem_map.mp hg
    by_cases hd : drop f = true
    · simp [hd, PcFrame.vacate] at ho
    · simp only [hd, Bool.false_eq_true, if_false] at ho ⊢
      exact ⟨hf, by simpa using hd⟩
  refine ⟨?_, hclock, ?_, ?_, ?_, ?_, ?_⟩
  · rw [hframes]
    simpa using h.nonempty
  · intro g hg
    rw [hframes] at hg
    obtain ⟨f, hf, rfl⟩ := mem_map.mp hg
    rw [hpage, ← h.size f hf]
    split <;> rfl
  · intro g hg ho
    rw [hframes] at hg
    obtain ⟨f, hf, rfl⟩ := mem_map.mp hg
    split at ho
    · rename_i hd
      rw [if_pos hd]
      rfl
    · rename_i hd
      rw [if_neg hd]
      exact h.vacant f hf ho
  · intro g hg ho
    obtain ⟨hg, hd⟩ := hold g hg ho
    obtain ⟨h₁, h₂, h₃, h₄, h₅⟩ := h.resident g hg ho
    obtain ⟨hc, hdel⟩ := hkept g hg ho hd
    exact ⟨h₁, le_trans h₂ hc, hpage ▸ h₃, hdel ▸ h₄, hfetched ▸ le_trans h₅ hnow⟩
  · intro f hf g hg hof hog hle
    rw [hfetched]
    exact h.order f (hold f hf hof).1 g (hold g hg hog).1 hof hog hle
  · intro i j f g hf hg hof hog howner hindex
    rw [hframes, getElem?_map] at hf hg
    obtain ⟨f₀, hf₀, rfl⟩ := Option.map_eq_some_iff.mp hf
    obtain ⟨g₀, hg₀, rfl⟩ := Option.map_eq_some_iff.mp hg
    by_cases hdf : drop f₀ = true
    · simp [hdf, PcFrame.vacate] at hof
    · by_cases hdg : drop g₀ = true
      · simp [hdg, PcFrame.vacate] at hog
      · simp only [hdf, hdg, Bool.false_eq_true, if_false] at hof hog howner hindex
        exact h.single i j f₀ g₀ hf₀ hg₀ hof hog howner hindex

theorem ok_dropOwner (h : Ok t) (owner : Option Owner) :
    Ok (t.exec (.dropOwner owner)) := by
  refine h.vacate (fun f => f.occupied && f.owner = owner) rfl rfl h.clock (Nat.le_succ _) rfl ?_
  intro f _ ho hd
  have howner : f.owner ≠ owner := by simpa [ho] using hd
  exact ⟨le_rfl, if_neg howner⟩

theorem ok_clear (h : Ok t) : Ok (t.exec .clear) := by
  refine h.vacate (fun _ => true) ?_ rfl (by simp [Traced.exec, clear]) (Nat.le_succ _) rfl ?_
  · simp [Traced.exec, clear]
  · intro f _ _ hd
    cases hd

theorem tick_of_lt {n : Nat} (h : n < 2 ^ 64 - 1) : tick n = n + 1 :=
  Nat.mod_eq_of_lt (by omega)

/-- A hit is on the one frame that holds the page. -/
theorem scan_hit (h : scan pc owner pageIndex = .hit i) :
    ∃ f, pc.frames[i]? = some f ∧ f.occupied = true ∧ f.owner = owner ∧
      f.pageIndex = pageIndex := by
  obtain ⟨j, f, rfl, hf, hh⟩ := scanFrom_hit h
  exact ⟨f, by simpa using hf, holds_iff.mp hh⟩

theorem scan_miss (h : scan pc owner pageIndex = .miss v) {f : PcFrame Owner} (hf : f ∈ pc.frames)
    (ho : f.occupied = true) : ¬ (f.owner = owner ∧ f.pageIndex = pageIndex) := by
  have hfalse := scanFrom_miss h f hf
  intro hk
  rw [holds_iff.mpr ⟨ho, hk⟩] at hfalse
  cases hfalse

/-- The victim has the least tick of all frames. -/
theorem Ok.victim (h : Ok t) (hs : scan t.pc owner pageIndex = .miss v) :
    ∃ f, t.pc.frames[v]? = some f ∧ ∀ g ∈ t.pc.frames, f.lruSeq ≤ g.lruSeq := by
  refine @scanFrom_victim _ _ owner pageIndex [] t.pc.frames 0 (2 ^ 64 - 1) v ?_ (by simp)
    (.inr ⟨rfl, rfl⟩) h.nonempty hs
  intro f hf
  have hclock := h.clock
  by_cases ho : f.occupied = true
  · have := (h.resident f hf ho).past
    omega
  · rw [h.vacant f hf (by simpa using ho)]
    omega

theorem ok_hit (h : Ok t) (hclock : t.pc.clock < 2 ^ 64 - 1)
    (hs : scan t.pc owner pageIndex = .hit i) (fill : FillFunc) :
    Ok (t.exec (.fetch owner pageIndex (some fill))) := by
  obtain ⟨f, hf, ho, rfl, rfl⟩ := scan_hit hs
  have hexec : t.exec (.fetch f.owner f.pageIndex (some fill)) =
      { pc := touch t.pc i, delivered := t.delivered,
        fetched := fun o p => if o = f.owner ∧ p = f.pageIndex then t.now + 1 else t.fetched o p,
        now := t.now + 1 } := by
    simp [Traced.exec, fetch, noteDelivery, hs]
  have hres := h.resident f (mem_of_getElem? hf) ho
  rw [hexec]
  refine @Ok.replace _ _ t _ h i { f with lruSeq := tick t.pc.clock } ?_ rfl
    (h.size f (mem_of_getElem? hf)) ?_ ?_ (Nat.le_succ _) ?_ ?_ ?_
  · have : Inhabited (PcFrame Owner) := ⟨f⟩
    rw [touch]
    dsimp only
    rw [modify_eq_set, hf]
    rfl
  · exact Nat.mod_lt _ (by omega)
  · show t.pc.clock ≤ tick t.pc.clock
    rw [tick_of_lt hclock]
    omega
  · intro j g hj hg hog
    refine ⟨rfl, if_neg ?_⟩
    rintro ⟨howner, hindex⟩
    exact hj (h.single j i g f hg hf hog ho howner hindex)
  · intro hv
    simp [ho] at hv
  · intro _
    refine ⟨⟨?_, le_rfl, hres.valid, hres.bytes, ?_⟩, ?_, ?_, ?_⟩
    · show 1 ≤ tick t.pc.clock
      rw [tick_of_lt hclock]
      omega
    · exact (if_pos ⟨rfl, rfl⟩).le
    · show t.pc.clock < tick t.pc.clock
      rw [tick_of_lt hclock]
      omega
    · show t.now ≤ if f.owner = f.owner ∧ f.pageIndex = f.pageIndex then t.now + 1 else _
      rw [if_pos ⟨rfl, rfl⟩]
      omega
    · rintro j g hj hg hog ⟨howner, hindex⟩
      exact hj (h.single j i g f hg hf hog ho howner hindex)

theorem ok_miss (h : Ok t) (hclock : t.pc.clock < 2 ^ 64 - 1)
    (hs : scan t.pc owner pageIndex = .miss v) (fill : FillFunc) :
    Ok (t.exec (.fetch owner pageIndex (some fill))) := by
  obtain ⟨f, hf, -⟩ := h.victim hs
  have hlen : (fill.call pageIndex f.page).2.length = t.pc.pageSize := by
    rw [fill.length_call, h.size f (mem_of_getElem? hf)]
  -- no other frame holds the page that is faulted in
  have hother : ∀ i g, i ≠ v → t.pc.frames[i]? = some g → g.occupied = true →
      ¬ (g.owner = owner ∧ g.pageIndex = pageIndex) :=
    fun i g _ hg ho => scan_miss hs (mem_of_getElem? hg) ho
  by_cases hgot : (fill.call pageIndex f.page).1 < 0 ∨
      (fill.call pageIndex f.page).1.toNat > t.pc.pageSize
  · refine @Ok.replace _ _ t _ h v
      { f with page := (fill.call pageIndex f.page).2, occupied := false, lruSeq := 0 } ?_ ?_
      hlen ?_ ?_ (Nat.le_succ _) ?_ (fun _ => rfl) ?_
    all_goals
      simp only [Traced.exec, fetch, noteDelivery, hs, hf, faultIn, Option.bind_some, delivery,
        if_pos hgot]
    · exact h.clock
    · exact le_rfl
    · intro j g _ _ _
      simp
    · intro ho
      cases ho
  · refine @Ok.replace _ _ t _ h v ⟨owner, pageIndex, (fill.call pageIndex f.page).1.toNat,
      tick t.pc.clock, true, (fill.call pageIndex f.page).2⟩ ?_ ?_
      hlen ?_ ?_ (Nat.le_succ _) ?_ ?_ ?_
    all_goals
      simp only [Traced.exec, fetch, noteDelivery, hs, hf, faultIn, Option.bind_some, delivery,
        if_neg hgot]
    · exact Nat.mod_lt _ (by omega)
    · rw [tick_of_lt hclock]
      omega
    · intro j g hj hg hog
      have hk := hother j g hj hg hog
      exact ⟨if_neg hk, if_neg fun hk' => hk hk'.2⟩
    · intro hv
      cases hv
    · intro _
      refine ⟨⟨?_, le_rfl, ?_, ?_, ?_⟩, ?_, ?_, ?_⟩
      · show 1 ≤ tick t.pc.clock
        rw [tick_of_lt hclock]
        omega
      · show (fill.call pageIndex f.page).1.toNat ≤ t.pc.pageSize
        omega
      · simp
      · simp
      · show t.pc.clock < tick t.pc.clock
        rw [tick_of_lt hclock]
        omega
      · simp
      · exact hother

/-- **Every call keeps the invariant**, if the clock does not wrap in it. -/
theorem Ok.exec (h : Ok t) {op : Op Owner} (hop : InTime t.pc op) :
    Ok (t.exec op) := by
  cases op with
  | dropOwner owner => exact ok_dropOwner h owner
  | clear => exact ok_clear h
  | fetch owner pageIndex fill =>
    cases fill with
    | none =>
      refine ⟨h.nonempty, h.clock, h.size, h.vacant, ?_, ?_, h.single⟩
      · intro f hf ho
        obtain ⟨h₁, h₂, h₃, h₄, h₅⟩ := h.resident f hf ho
        refine ⟨h₁, h₂, h₃, h₄, ?_⟩
        simp only [Traced.exec, fetch, ne_eq, not_true_eq_false, false_and, if_false]
        exact le_trans h₅ (Nat.le_succ _)
      · intro f hf g hg hof hog hle
        simp only [Traced.exec, fetch, ne_eq, not_true_eq_false, false_and, if_false]
        exact h.order f hf g hg hof hog hle
    | some fill =>
      cases hs : scan t.pc owner pageIndex with
      | hit i => exact ok_hit h hop hs fill
      | miss v => exact ok_miss h hop hs fill

theorem Ok.run {t : Traced Owner} (h : Ok t) {ops : List (Op Owner)} (hops : Timely t ops) :
    Ok (t.run ops) := by
  induction ops generalizing t with
  | nil => exact h
  | cons op ops ih => exact ih (h.exec hops.1) hops.2

/-! ## Coherence -/

theorem Ok.hit (h : Ok t) (hs : scan t.pc owner pageIndex = .hit i) (fill : FillFunc) :
    ∃ bytes pc' f, t.delivered owner pageIndex = some bytes ∧
      fetch t.pc owner pageIndex (some fill) = (some i, bytes.length, pc') ∧
      pc'.frames[i]? = some f ∧ f.page.take bytes.length = bytes := by
  obtain ⟨f, hf, ho, rfl, rfl⟩ := scan_hit hs
  have hmem := mem_of_getElem? hf
  have hres := h.resident f hmem ho
  have hlen : (f.page.take f.validLen).length = f.validLen := by
    rw [length_take, h.size f hmem]
    exact Nat.min_eq_left hres.valid
  refine ⟨f.page.take f.validLen, touch t.pc i, { f with lruSeq := tick t.pc.clock }, hres.bytes,
    ?_, ?_, ?_⟩
  · rw [hlen]
    simp [fetch, hs, hf]
  · simp [touch, hf]
  · rw [hlen]

theorem Ok.failed (h : Ok t) {fill : FillFunc}
    (hnull : (fetch t.pc owner pageIndex (some fill)).1 = none) (i : Nat) :
    scan (fetch t.pc owner pageIndex (some fill)).2.2 owner pageIndex ≠ .hit i := by
  intro hit
  cases hs : scan t.pc owner pageIndex with
  | hit j => simp [fetch, hs] at hnull
  | miss v =>
    obtain ⟨f, hf, -⟩ := h.victim hs
    simp only [fetch, hs, hf, faultIn] at hnull hit
    split at hnull
    · rename_i hgot
      rw [if_pos hgot] at hit
      obtain ⟨g, hg, ho, hkey⟩ := scan_hit hit
      rcases mem_set_cases (mem_of_getElem? hg) with rfl | ⟨j, -, hg⟩
      · cases ho
      · exact scan_miss hs (mem_of_getElem? hg) ho hkey
    · cases hnull

end PageCache

end AxlSdk
