import Mathlib

/-!
# Paths (`axl-path.c`)

`axl_path_join` and `axl_path_get_dirname`, and the paths below a directory.

- `Component`: one name between separators.
- `Below root p`: `p` is `root`, or `root` followed by components with separators
  between them; a root that ends in a separator needs none of its own.
- `Tidy root`: the roots for which the two functions are inverse to each other on the
  paths below them: `Below.join` and `Below.dirname` stay below such a root, and
  `not_below_dirname` leaves any other.
-/

namespace AxlSdk

namespace Paths

open List

abbrev Path := List UInt8

/-- `is_sep` -/
def isSep (c : UInt8) : Bool := c == 47 || c == 92

/-- Whether the last byte is a separator. -/
def endsInSep (p : Path) : Bool := p.getLast?.any isSep

/-- `axl_path_join` -/
def axlPathJoin (dir name : Path) : Path :=
  let needSep := !dir.isEmpty && !endsInSep dir
  let sep : UInt8 := if dir.any fun c => c == 92 || c == 58 then 92 else 47
  dir ++ (if needSep then [sep] else []) ++ name

/-- The loop of `axl_path_get_dirname`: where the last separator is, `i` being the
position of the first byte left. -/
def lastSepLoop (i : Nat) (last : Option Nat) : Path → Option Nat
  | [] => last
  | c :: p => lastSepLoop (i + 1) (if isSep c then some i else last) p

/-- `axl_path_get_dirname` -/
def axlPathGetDirname (path : Path) : Path :=
  match lastSepLoop 0 none path with
  | none => [46]
  | some 0 => path.take 1
  | some (n + 1) => path.take (n + 1)

/-- A name that is neither empty nor `.` nor `..` and has no separator in it. -/
structure Component (name : Path) : Prop where
  nonempty : name ≠ []
  notDot : name ≠ [46]
  notDotDot : name ≠ [46, 46]
  noSep : ∀ c ∈ name, isSep c = false

/-- The root itself, or the root followed by components. -/
inductive Below (root : Path) : Path → Prop where
  | root : Below root root
  | child {dir sep name : Path} (hdir : Below root dir) (hname : Component name)
      (hsep : sep = [47] ∨ sep = [92] ∨ sep = [] ∧ dir = root ∧ endsInSep root = true) :
      Below root (dir ++ sep ++ name)

/-- A root that does not end in a separator, or is just one. -/
def Tidy (root : Path) : Prop := root ≠ [] ∧ (endsInSep root = true → root.length = 1)

/-! ## The last separator -/

theorem lastSepLoop_noSep {name : Path} (h : ∀ c ∈ name, isSep c = false) (i : Nat)
    (last : Option Nat) : lastSepLoop i last name = last := by
  induction name generalizing i with
  | nil => rfl
  | cons c name ih =>
    rw [lastSepLoop, h c mem_cons_self]
    exact ih (fun d hd => h d (mem_cons_of_mem c hd)) _

theorem lastSepLoop_append (a b : Path) (i : Nat) (last : Option Nat) :
    lastSepLoop i last (a ++ b) = lastSepLoop (i + a.length) (lastSepLoop i last a) b := by
  induction a generalizing i last with
  | nil => rfl
  | cons c a ih =>
    show lastSepLoop (i + 1) _ (a ++ b) = _
    rw [ih, length_cons, show i + (a.length + 1) = i + 1 + a.length by omega]
    rfl

theorem lastSepLoop_sep {dir name : Path} {c : UInt8} (hc : isSep c = true)
    (hname : ∀ d ∈ name, isSep d = false) :
    lastSepLoop 0 none (dir ++ [c] ++ name) = some dir.length := by
  rw [lastSepLoop_append, lastSepLoop_noSep hname, lastSepLoop_append]
  show (if isSep c then some (0 + dir.length) else _) = _
  rw [if_pos hc, Nat.zero_add]

/-- The directory of a path with a separator before its last component. -/
theorem dirname_sep {dir name : Path} {c : UInt8} (hdir : dir ≠ []) (hc : isSep c = true)
    (hname : ∀ d ∈ name, isSep d = false) : axlPathGetDirname (dir ++ [c] ++ name) = dir := by
  obtain ⟨n, hn⟩ : ∃ n, dir.length = n + 1 :=
    Nat.exists_eq_succ_of_ne_zero (length_pos_iff.mpr hdir).ne'
  rw [axlPathGetDirname, lastSepLoop_sep hc hname, hn]
  show (dir ++ [c] ++ name).take (n + 1) = dir
  rw [← hn, append_assoc]
  exact take_left

/-- The directory of a path right below a lone separator. -/
theorem dirname_single {name : Path} {c : UInt8} (hc : isSep c = true)
    (hname : ∀ d ∈ name, isSep d = false) : axlPathGetDirname ([c] ++ name) = [c] := by
  have hlast : lastSepLoop 0 none ([] ++ [c] ++ name) = some 0 := lastSepLoop_sep hc hname
  rw [axlPathGetDirname, show ([c] ++ name : Path) = [] ++ [c] ++ name from rfl, hlast]
  rfl

theorem endsInSep_iff {p : Path} : endsInSep p = true ↔ ∃ q c, p = q ++ [c] ∧ isSep c = true := by
  rw [endsInSep]
  cases h : p.getLast? with
  | none =>
    have hnil : p = [] := getLast?_eq_none_iff.mp h
    subst hnil
    simp
  | some c =>
    obtain ⟨q, rfl⟩ := getLast?_eq_some_iff.mp h
    simp

theorem length_dirname_le (p : Path) : (axlPathGetDirname p).length ≤ p.length + 1 := by
  rw [axlPathGetDirname]
  split
  · exact Nat.le_add_left 1 p.length
  · exact (length_take_le 1 p).trans (Nat.le_add_left 1 p.length)
  · exact (length_take_le' _ p).trans (Nat.le_succ p.length)

theorem length_join (dir name : Path) :
    dir.length + name.length ≤ (axlPathJoin dir name).length ∧
      (axlPathJoin dir name).length ≤ dir.length + name.length + 1 := by
  rw [axlPathJoin]
  simp only [length_append]
  constructor <;> split <;> simp <;> omega

/-! ## The paths below a tidy root -/

theorem Below.ne_nil {root p : Path} (hroot : root ≠ []) (h : Below root p) : p ≠ [] := by
  cases h with
  | root => exact hroot
  | child hdir hname hsep =>
    intro hnil
    exact hname.nonempty (append_eq_nil_iff.mp hnil).2

/-- A path below a root ends in a separator only if it is the root. -/
theorem Below.endsInSep {root p : Path} (h : Below root p) (hend : endsInSep p = true) :
    p = root := by
  cases h with
  | root => rfl
  | @child dir sep name hdir hname hsep =>
    obtain ⟨q, c, hq, hc⟩ := endsInSep_iff.mp hend
    -- the last byte is one of the last component
    obtain ⟨front, d, rfl⟩ : ∃ front d, name = front ++ [d] :=
      ⟨_, _, (dropLast_append_getLast hname.nonempty).symm⟩
    rw [← append_assoc] at hq
    obtain ⟨-, hcd⟩ := append_inj' hq rfl
    have hd : isSep d = false := hname.noSep d (by simp)
    rw [singleton_inj.mp hcd, hc] at hd
    exact absurd hd (by decide)

theorem Below.join {root p name : Path} (hroot : root ≠ []) (h : Below root p)
    (hname : Component name) : Below root (axlPathJoin p name) := by
  have hp : p.isEmpty = false := by simpa using h.ne_nil hroot
  rw [axlPathJoin]
  simp only [hp, Bool.not_false, Bool.true_and]
  cases hend : Paths.endsInSep p with
  | true =>
    obtain rfl := h.endsInSep hend
    exact .child h hname (.inr (.inr ⟨rfl, rfl, hend⟩))
  | false =>
    refine .child h hname ?_
    show (if true = true then [_] else []) = [47] ∨ _
    rw [if_pos rfl]
    split
    · exact .inr (.inl rfl)
    · exact .inl rfl

/-- One step up from a path below a tidy root, other than the root. -/
theorem Below.dirname {root p : Path} (hroot : Tidy root) (h : Below root p) (hne : p ≠ root) :
    Below root (axlPathGetDirname p) := by
  cases h with
  | root => exact absurd rfl hne
  | @child dir sep name hdir hname hsep =>
    rcases hsep with rfl | rfl | ⟨rfl, rfl, hend⟩
    · rwa [dirname_sep (hdir.ne_nil hroot.1) (by decide) hname.noSep]
    · rwa [dirname_sep (hdir.ne_nil hroot.1) (by decide) hname.noSep]
    · obtain ⟨q, c, hq, hc⟩ := endsInSep_iff.mp hend
      have hlen := hroot.2 hend
      rw [hq] at hlen
      obtain rfl : q = [] := by simpa using hlen
      rw [append_nil, hq, nil_append, dirname_single hc hname.noSep]
      rw [hq] at hdir
      exact hdir

theorem Below.length_le {root p : Path} (h : Below root p) : root.length ≤ p.length := by
  induction h with
  | root => exact Nat.le_refl _
  | child hdir hname hsep ih =>
    simp only [length_append]
    omega

/-- Up from a child of a root that is not tidy is out of it. -/
theorem not_below_dirname {root name : Path} (hroot : root ≠ []) (h : ¬ Tidy root)
    (hname : Component name) : ¬ Below root (axlPathGetDirname (axlPathJoin root name)) := by
  rw [Tidy, not_and, Classical.not_imp] at h
  obtain ⟨hend, hlen⟩ := h hroot
  obtain ⟨q, c, rfl, hc⟩ := endsInSep_iff.mp hend
  have hq : q ≠ [] := by
    rintro rfl
    exact hlen rfl
  have hjoin : axlPathJoin (q ++ [c]) name = q ++ [c] ++ name := by
    simp [axlPathJoin, hend]
  rw [hjoin, dirname_sep hq hc hname.noSep]
  intro hbelow
  have := hbelow.length_le
  simp at this

end Paths

end AxlSdk
