import AxlSdk.NineP.Ledger

/-!
# The table of fids

- `handles`, `bindings`, `boundPath`: the handles a table holds and what it binds.
- `FidOk`, `Table`: the invariant of a fid and of the table. A fid that is not open
  holds no handle, one that is open holds an iterator or the handles of a file, and no
  number is bound twice.
- `Table.set`, `Table.bind`, `handles_focus`: one slot changes.
-/

namespace AxlSdk

namespace NineP

open Ucs2 (CString s9pCompIsSafe)
open Paths

/-- The handles of a table. -/
def handles (fids : List S9pFid) : Multiset Handle := (fids.map S9pFid.handles).sum

/-- What a slot binds. -/
def S9pFid.key (f : S9pFid) : Option (Nat × Path) := if f.used then some (f.fid, f.path) else none

/-- What every slot of the table binds. -/
def bindings (fids : List S9pFid) : List (Option (Nat × Path)) := fids.map S9pFid.key

/-- The path a number is bound to. -/
def boundPath (conn : S9pConn) (fid : Nat) : Option Path :=
  (s9pFidGet conn fid).map fun found => found.2.path

structure FidOk (srv : Axl9pServer) (P : Path → Prop) (f : S9pFid) : Prop where
  path : f.used = true → P f.path
  short : f.used = true → f.path.length < pathMax
  unused : f.used = false → f.isOpen = false
  closed : f.isOpen = false → f.view = none ∧ f.wstream = none ∧ f.dir = none
  opened : f.isOpen = true →
    f.dir.isSome = true ∧ f.view = none ∧ f.wstream = none ∨
      f.dir = none ∧ (f.view.isSome = true ∨ f.wstream.isSome = true)
  readOnly : srv.readOnly = true → f.wstream = none

structure Table (srv : Axl9pServer) (P : Path → Prop) (fids : List S9pFid) : Prop where
  each : ∀ f ∈ fids, FidOk srv P f
  distinct : ∀ (i j : Nat) (f g : S9pFid), fids[i]? = some f → fids[j]? = some g →
    f.used = true → g.used = true → f.fid = g.fid → i = j

variable {srv : Axl9pServer} {P : Path → Prop} {rest : Multiset Handle} {made : Finset Path}
  {w : Ledger} {conn : S9pConn} {fids : List S9pFid} {f g : S9pFid} {i : Nat}

/-! ## Slots -/

theorem findFid_some {fid k : Nat} (h : findFid fid k fids = some (i, f)) :
    ∃ j, i = k + j ∧ fids[j]? = some f ∧ f.used = true ∧ f.fid = fid := by
  induction fids generalizing k with
  | nil => exact absurd h (by simp [findFid])
  | cons g fids ih =>
    rw [findFid] at h
    split at h
    · next hg =>
      obtain ⟨rfl, rfl⟩ := Prod.mk.inj (Option.some.inj h)
      exact ⟨0, rfl, rfl, hg.1, hg.2⟩
    · obtain ⟨j, rfl, hj⟩ := ih h
      exact ⟨j + 1, by omega, hj⟩

theorem findFid_none {fid k : Nat} (h : findFid fid k fids = none) :
    ∀ f ∈ fids, f.used = true → f.fid ≠ fid := by
  induction fids generalizing k with
  | nil => simp
  | cons g fids ih =>
    rw [findFid] at h
    split at h
    · cases h
    · next hg =>
      intro f hf hused hfid
      rcases List.mem_cons.1 hf with rfl | hf
      · exact hg ⟨hused, hfid⟩
      · exact ih h f hf hused hfid

theorem findFid_replicate (fid n : Nat) : ∀ k, findFid fid k (List.replicate n .zero) = none := by
  induction n with
  | zero => exact fun _ => rfl
  | succ n ih =>
    intro k
    rw [List.replicate_succ, findFid, if_neg fun h => absurd h.1 Bool.false_ne_true]
    exact ih _

theorem findFree_some {k : Nat} (h : findFree k fids = some i) :
    ∃ j f, i = k + j ∧ fids[j]? = some f ∧ f.used = false := by
  induction fids generalizing k with
  | nil => exact absurd h (by simp [findFree])
  | cons g fids ih =>
    rw [findFree] at h
    split at h
    · obtain ⟨j, f, rfl, hj⟩ := ih h
      exact ⟨j + 1, f, by omega, hj⟩
    · next hg =>
      obtain rfl := Option.some.inj h
      exact ⟨0, g, rfl, rfl, by simpa using hg⟩

theorem fidGet_some {fid : Nat} (h : s9pFidGet conn fid = some (i, f)) :
    conn.fids[i]? = some f ∧ f.used = true ∧ f.fid = fid := by
  obtain ⟨j, rfl, hj⟩ := findFid_some h
  rw [Nat.zero_add]
  exact hj

theorem mem_of_slot (h : fids[i]? = some f) : f ∈ fids := List.mem_of_getElem? h

/-- The handles of the table, those of one slot apart. -/
theorem handles_focus (h : fids[i]? = some f) :
    ∃ others, handles fids = f.handles + others ∧
      ∀ g, handles (fids.set i g) = g.handles + others := by
  induction fids generalizing i with
  | nil => exact absurd h (by simp)
  | cons e fids ih =>
    cases i with
    | zero =>
      obtain rfl := Option.some.inj h
      exact ⟨handles fids, by simp [handles], fun g => by simp [handles]⟩
    | succ i =>
      obtain ⟨others, hall, hset⟩ := ih h
      refine ⟨e.handles + others, ?_, fun g => ?_⟩
      · show (e.handles + handles fids : Multiset Handle) = _
        rw [hall, add_left_comm]
      · show (e.handles + handles (fids.set i g) : Multiset Handle) = _
        rw [hset, add_left_comm]

theorem bindings_set (h : fids[i]? = some f) (hkey : g.key = f.key) :
    bindings (fids.set i g) = bindings fids := by
  apply List.ext_getElem?
  intro j
  rw [bindings, bindings, List.getElem?_map, List.getElem?_map, List.getElem?_set]
  split
  · next hij =>
    subst hij
    rw [h, if_pos (List.getElem?_eq_some_iff.mp h).1, Option.map_some, Option.map_some, hkey]
  · rfl

theorem FidOk.shut (h : FidOk srv P f) : FidOk srv P f.shut :=
  ⟨h.path, h.short, fun _ => rfl, fun _ => ⟨rfl, rfl, rfl⟩,
    fun hopen => absurd hopen Bool.false_ne_true, fun _ => rfl⟩

theorem FidOk.zero : FidOk srv P .zero :=
  ⟨fun h => absurd h Bool.false_ne_true, fun h => absurd h Bool.false_ne_true, fun _ => rfl,
    fun _ => ⟨rfl, rfl, rfl⟩, fun h => absurd h Bool.false_ne_true, fun _ => rfl⟩

/-- A slot changes, but not the number it is bound to. -/
theorem Table.set (h : Table srv P fids) (hi : fids[i]? = some f) (hg : FidOk srv P g)
    (hkey : g.used = true → f.used = true ∧ g.fid = f.fid) : Table srv P (fids.set i g) := by
  have hslot : ∀ (j : Nat) (e : S9pFid), (fids.set i g)[j]? = some e → e.used = true →
      ∃ d, fids[j]? = some d ∧ d.used = true ∧ d.fid = e.fid := by
    intro j e he hused
    rw [List.getElem?_set] at he
    split at he
    · next hij =>
      subst hij
      split at he
      · obtain rfl := Option.some.inj he
        exact ⟨f, hi, (hkey hused).1, (hkey hused).2.symm⟩
      · cases he
    · exact ⟨e, he, hused, rfl⟩
  constructor
  · intro e he
    rcases List.mem_or_eq_of_mem_set he with he | rfl
    · exact h.each e he
    · exact hg
  · intro j k e e' hj hk hu hu' hfid
    obtain ⟨d, hd, hdu, hdf⟩ := hslot j e hj hu
    obtain ⟨d', hd', hdu', hdf'⟩ := hslot k e' hk hu'
    exact h.distinct j k d d' hd hd' hdu hdu' (hdf.trans (hfid.trans hdf'.symm))

/-- A free slot is bound to a number that is not in use. -/
theorem Table.bind (h : Table srv P fids) (hfree : ∀ f ∈ fids, f.used = true → f.fid ≠ g.fid)
    (hg : FidOk srv P g) : Table srv P (fids.set i g) := by
  have hslot : ∀ (j : Nat) (e : S9pFid), (fids.set i g)[j]? = some e →
      (j = i ∧ e = g) ∨ (j ≠ i ∧ fids[j]? = some e) := by
    intro j e he
    rw [List.getElem?_set] at he
    split at he
    · next hij =>
      split at he
      · exact .inl ⟨hij.symm, (Option.some.inj he).symm⟩
      · cases he
    · next hij => exact .inr ⟨fun hji => hij hji.symm, he⟩
  constructor
  · intro e he
    rcases List.mem_or_eq_of_mem_set he with he | rfl
    · exact h.each e he
    · exact hg
  · intro j k e e' hj hk hu hu' hfid
    rcases hslot j e hj with ⟨hji, hej⟩ | ⟨-, hj⟩ <;>
      rcases hslot k e' hk with ⟨hki, hek⟩ | ⟨-, hk⟩
    · rw [hji, hki]
    · rw [hej] at hfid
      exact absurd hfid.symm (hfree e' (mem_of_slot hk) hu')
    · rw [hek] at hfid
      exact absurd hfid (hfree e (mem_of_slot hj) hu)
    · exact h.distinct j k e e' hj hk hu hu' hfid

theorem Table.replicate (n : Nat) : Table srv P (List.replicate n .zero) := by
  constructor
  · intro f hf
    rw [List.eq_of_mem_replicate hf]
    exact FidOk.zero
  · intro i j f g hf hg hu
    rw [List.eq_of_mem_replicate (mem_of_slot hf)] at hu
    exact absurd hu Bool.false_ne_true

theorem handles_replicate (n : Nat) : handles (List.replicate n .zero) = 0 := by
  simp [handles]

end NineP

end AxlSdk
