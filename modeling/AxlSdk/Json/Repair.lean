import AxlSdk.Json.Units
import AxlSdk.Lib.Memory

/-!
# Repair in place

`repair_decoded_utf8` grows the bytes of a buffer inside it: a first pass finds
how many of them have room once they are repaired, `axl_memmove` slides these to
the end of their final extent, and a second pass rewrites them from the front.

- `repairDecodedUtf8_eq`: the two passes leave what `repairLoop` computes on
  byte strings.
- `repair_wellFormed`: what `decode_json_string` writes in the REPAIR mode.
-/

namespace AxlSdk

namespace Json

open Utf8 List

/-! ## The two passes -/

/-- Pass 1 of `repair_decoded_utf8`: `keep`, `grown`, `bad`, and `*out_full`. -/
def repairSize (dst : List UInt8) (dstSize out : Nat) :
    Nat → Nat → Nat → Nat → Nat × Nat × Nat × Bool
  | 0, pos, outlen, bad => (pos, outlen, bad, false)
  | fuel + 1, pos, outlen, bad =>
    if pos < out then
      let b := dst.getD pos 0
      let step := utf8Step ((dst.take out).drop pos)
      let unitIn := if b < 0x80 then 1 else step.1
      let unitOut := if b < 0x80 then 1 else if step.2 then step.1 else replacement.length
      let isBad : Bool := !decide (b < 0x80) && !step.2
      -- a unit that does not fit is refused whole
      if outlen + unitOut > dstSize - 1 then (pos, outlen, bad, true)
      else repairSize dst dstSize out fuel (pos + unitIn) (outlen + unitOut)
        (if isBad then bad + 1 else bad)
    else (pos, outlen, bad, false)

/-- The loop `dst[wr++] = dst[rd++]` of pass 2, `k` times. -/
def copyDown : Nat → List UInt8 → Nat → Nat → List UInt8
  | 0, dst, _, _ => dst
  | k + 1, dst, wr, rd => copyDown k (dst.set wr (dst.getD rd 0)) (wr + 1) (rd + 1)

/-- Pass 2: `rd` and `wr` walk up to `grown`. -/
def rewriteForward (grown : Nat) : Nat → List UInt8 → Nat → Nat → List UInt8
  | 0, dst, _, _ => dst
  | fuel + 1, dst, rd, wr =>
    if rd < grown then
      let b := dst.getD rd 0
      if b < 0x80 then rewriteForward grown fuel (dst.set wr b) (rd + 1) (wr + 1)
      else
        let step := utf8Step ((dst.take grown).drop rd)
        if !step.2 then
          rewriteForward grown fuel (Memory.write dst wr replacement) (rd + step.1)
            (wr + replacement.length)
        else rewriteForward grown fuel (copyDown step.1 dst wr rd) (rd + step.1) (wr + step.1)
    else dst

/-- `repair_decoded_utf8` on the buffer `dst`: the buffer, `*out`, and `*out_full`. -/
def repairDecodedUtf8 (dst : List UInt8) (dstSize out : Nat) (outFull : Bool) :
    List UInt8 × Nat × Bool :=
  let sized := repairSize dst dstSize out out 0 0 0
  let keep := sized.1
  let grown := sized.2.1
  let full := outFull || sized.2.2.2
  if sized.2.2.1 = 0 then (dst, keep, full)
  else
    let slid := Memory.move dst (grown - keep) 0 keep
    (rewriteForward grown keep slid (grown - keep) 0, grown, full)

/-- `decode_json_string` on its buffer: the buffer with the terminator in it,
`out`, and `out_truncated`. -/
def decodeJsonStringInto (dst src : List UInt8) (utf8Mode : AxlJsonFlags) :
    Option (List UInt8 × Nat × Bool) :=
  if dst.length = 0 then none
  else
    let r := decodeLoop dst.length src.length src []
    let filled := Memory.write dst 0 r.2.1
    let out := if r.2.2 then r.2.1.length else (trimSplitTail r.1 r.2.1).length
    let rep :=
      if utf8Of utf8Mode = utf8Repair then repairDecodedUtf8 filled dst.length out r.2.2
      else (filled, out, r.2.2)
    some (rep.1.set rep.2.1 0, rep.2.1, rep.2.2 || !r.1.isEmpty)

/-! ## Units -/

/-- A unit of the repair: an ASCII byte, an encoding, or a byte that starts none. -/
theorem repairUnit_cases (b : UInt8) (s : List UInt8) :
    (b.toNat < 0x80 ∧ repairUnit (b :: s) = (1, [b])) ∨
    (0x80 ≤ b.toNat ∧ ∃ cp u r, b :: s = u ++ r ∧ Multi cp u ∧
      utf8Step (b :: s) = (u.length, true) ∧ repairUnit (b :: s) = (u.length, u)) ∨
    (0x80 ≤ b.toNat ∧ (∀ cp u r, b :: s = u ++ r → ¬ Multi cp u) ∧
      utf8Step (b :: s) = (1, false) ∧ repairUnit (b :: s) = (1, replacement)) := by
  by_cases hb : b < 0x80
  · refine .inl ⟨UInt8.lt_iff_toNat_lt.mp hb, ?_⟩
    rw [repairUnit, if_pos hb]
  · have hb' : 0x80 ≤ b.toNat := Nat.not_lt.mp fun h => hb (UInt8.lt_iff_toNat_lt.mpr h)
    rcases hstep : utf8Step (b :: s) with ⟨n, valid⟩
    cases valid with
    | true =>
      obtain ⟨cp, u, r, hs, hu, rfl⟩ := utf8Step_true hstep
      refine .inr (.inl ⟨hb', cp, u, r, hs, hu, rfl, ?_⟩)
      rw [repairUnit, if_neg hb]
      simp only [hstep, if_true]
      rw [hs, take_left]
    | false =>
      obtain rfl := utf8Step_false hstep
      refine .inr (.inr ⟨hb', fun cp u r hs hu => ?_, rfl, ?_⟩)
      · rw [hs, utf8Step_multi hu] at hstep
        exact absurd (congrArg Prod.snd hstep) (by simp)
      · rw [repairUnit, if_neg hb]
        simp [hstep]

theorem Repairs.total (s : List UInt8) : ∃ t, Repairs s t := by
  induction h : s.length using Nat.strong_induction_on generalizing s with
  | _ n ih =>
    cases s with
    | nil => exact ⟨_, .nil⟩
    | cons b s =>
      rw [length_cons] at h
      rcases repairUnit_cases b s with ⟨hb, -⟩ | ⟨-, cp, u, r, hs, hu, -⟩ | ⟨hb, hbad, -⟩
      · obtain ⟨t, ht⟩ := ih s.length (by omega) s rfl
        exact ⟨_, .ascii hb ht⟩
      · have hlen := congrArg List.length hs
        have htwo := Multi.two_le hu
        rw [length_cons, length_append] at hlen
        obtain ⟨t, ht⟩ := ih r.length (by omega) r rfl
        rw [hs]
        exact ⟨_, .multi hu ht⟩
      · obtain ⟨t, ht⟩ := ih s.length (by omega) s rfl
        exact ⟨_, .bad hb hbad ht⟩

/-- A unit at the front, and what its repair does to the repair of any bytes kept
behind it. Pass 2 judges a unit against these bytes only, not against all that
pass 1 saw. -/
theorem repairUnit_spec {todo : List UInt8} (h : todo ≠ []) :
    ∃ v todo', todo = v ++ todo' ∧ v ≠ [] ∧ (repairUnit todo).1 = v.length ∧
      ((repairUnit todo).2 = v ∨ (repairUnit todo).2.length = v.length + 2) ∧
      ∀ kept rest t, todo' = kept ++ rest → Repairs kept t →
        Repairs (v ++ kept) ((repairUnit todo).2 ++ t) := by
  obtain ⟨b, s, rfl⟩ := exists_cons_of_ne_nil h
  rcases repairUnit_cases b s with ⟨hb, hu⟩ | ⟨-, cp, u, r, hs, hu, -, hunit⟩ |
    ⟨hb, hbad, -, hu⟩
  · refine ⟨[b], s, rfl, by simp, by rw [hu]; rfl, .inl (by rw [hu]), fun kept rest t _ ht => ?_⟩
    rw [hu]
    exact .ascii hb ht
  · have hne : u ≠ [] := fun h => absurd (Multi.two_le hu) (by simp [h])
    refine ⟨u, r, hs, hne, by rw [hunit], .inl (by rw [hunit]), fun kept rest t _ ht => ?_⟩
    rw [hunit]
    exact .multi hu ht
  · refine ⟨[b], s, rfl, by simp, by rw [hu]; rfl, .inr (by rw [hu]; rfl),
      fun kept rest t hk ht => ?_⟩
    rw [hu, replacement_eq]
    refine .bad hb (fun cp v r hv hmulti => ?_) ht
    -- an encoding among the kept bytes is one among all of them
    refine hbad cp v (r ++ rest) ?_ hmulti
    rw [hk, ← append_assoc, ← hv]
    rfl

/-- The longest run of units, `kept`, whose repair `t` has room in `m` bytes; `rest`
is what it leaves. -/
structure Keeps (m : Nat) (kept rest t : List UInt8) (full : Bool) : Prop where
  repairs : Repairs kept t
  extend : ∀ r, Repairs rest r → Repairs (kept ++ rest) (t ++ r)
  fits : t.length ≤ m
  stop : if full then rest ≠ [] ∧ m < t.length + (repairUnit rest).2.length else rest = []

theorem Keeps.nil {m : Nat} : Keeps m [] [] [] false :=
  ⟨.nil, fun _ hr => hr, Nat.zero_le _, rfl⟩

theorem Keeps.refuse {m : Nat} {todo : List UInt8} (hne : todo ≠ [])
    (h : m < (repairUnit todo).2.length) : Keeps m [] todo [] true :=
  ⟨.nil, fun _ hr => hr, Nat.zero_le _, hne, by simpa using h⟩

theorem Keeps.unit {m k : Nat} {v w kept rest t : List UInt8} {full : Bool}
    (hunit : ∀ kept' rest' t', kept ++ rest = kept' ++ rest' → Repairs kept' t' →
      Repairs (v ++ kept') (w ++ t'))
    (hm : m = w.length + k) (h : Keeps k kept rest t full) :
    Keeps m (v ++ kept) rest (w ++ t) full := by
  subst hm
  constructor
  · exact hunit kept rest t rfl h.repairs
  · intro r hr
    have := hunit (kept ++ rest) [] (t ++ r) (append_nil _).symm (h.extend r hr)
    simpa only [append_assoc] using this
  · have := h.fits
    rw [length_append]
    omega
  · have hstop := h.stop
    cases full with
    | false => exact hstop
    | true =>
      refine ⟨hstop.1, ?_⟩
      have := hstop.2
      rw [length_append]
      omega

/-- One turn of pass 1 handles the unit that `repairUnit` names. -/
theorem repairSize_succ {dst todo : List UInt8} {dstSize n fuel pos outlen bad : Nat}
    (htodo : (dst.take n).drop pos = todo) (hne : todo ≠ []) :
    repairSize dst dstSize n (fuel + 1) pos outlen bad =
      if outlen + (repairUnit todo).2.length > dstSize - 1 then (pos, outlen, bad, true)
      else repairSize dst dstSize n fuel (pos + (repairUnit todo).1)
        (outlen + (repairUnit todo).2.length)
        (if (repairUnit todo).2 = todo.take (repairUnit todo).1 then bad else bad + 1) := by
  obtain ⟨b, s, rfl⟩ := exists_cons_of_ne_nil hne
  have hpos : pos < n := by
    by_contra hge
    rw [drop_of_length_le (by simp; omega)] at htodo
    cases htodo
  have hb : dst.getD pos 0 = b := by
    have hget : ((dst.take n).drop pos)[0]? = some b := by rw [htodo]; rfl
    rw [getElem?_drop, getElem?_take_of_lt (by omega), Nat.add_zero] at hget
    rw [getD_eq_getElem?_getD, hget]
    rfl
  rw [repairSize, if_pos hpos]
  simp only [htodo, hb]
  rcases repairUnit_cases b s with ⟨hlt, hu⟩ | ⟨hge, cp, u, r, hs, -, hstep, hu⟩ |
    ⟨hge, -, hstep, hu⟩
  · have hlt' : b < 0x80 := UInt8.lt_iff_toNat_lt.mpr hlt
    simp [hu, hlt']
  · have htake : (b :: s).take u.length = u := by rw [hs, take_left]
    simp [hu, hstep, byte_not_ascii hge, htake]
  · have hne' : replacement ≠ [b] := by simp [replacement]
    simp [hu, hstep, byte_not_ascii hge, hne']

/-- Both passes and `repairLoop` keep the longest run of units that has room. -/
theorem repair_keeps {dst todo out : List UInt8} {dstSize n fuel pos : Nat} (bad : Nat)
    (hfuel : todo.length ≤ fuel) (hout : out.length ≤ dstSize - 1) (hn : n ≤ dst.length)
    (htodo : (dst.take n).drop pos = todo) :
    ∃ kept rest t full k, todo = kept ++ rest ∧
      repairLoop dstSize fuel todo out = (out ++ t, full) ∧
      repairSize dst dstSize n fuel pos out.length bad =
        (pos + kept.length, out.length + t.length, bad + k, full) ∧
      (k = 0 → t = kept) ∧ t.length = kept.length + 2 * k ∧
      Keeps (dstSize - 1 - out.length) kept rest t full := by
  induction fuel generalizing todo out pos bad with
  | zero =>
    obtain rfl : todo = [] := eq_nil_of_length_eq_zero (by omega)
    exact ⟨[], [], [], false, 0, rfl, by simp [repairLoop], rfl, fun _ => rfl, rfl, .nil⟩
  | succ fuel ih =>
    by_cases hne : todo = []
    · subst hne
      have hend : ¬ pos < n := by
        have hlen := congrArg List.length htodo
        simp at hlen
        omega
      refine ⟨[], [], [], false, 0, rfl, by simp [repairLoop], ?_, fun _ => rfl, rfl, .nil⟩
      rw [repairSize, if_neg hend]
      rfl
    rw [repairLoop, if_neg hne, repairSize_succ htodo hne]
    dsimp only
    split
    case isTrue h =>
      exact ⟨[], todo, [], true, 0, rfl, by simp, rfl, fun _ => rfl, rfl,
        .refuse hne (by omega)⟩
    case isFalse h =>
      obtain ⟨v, todo', hsplit, hv, hlen, hgrowth, hunit⟩ := repairUnit_spec hne
      have hdrop : todo.drop (repairUnit todo).1 = todo' := by
        rw [hlen, hsplit, drop_left]
      have htake : todo.take (repairUnit todo).1 = v := by
        rw [hlen, hsplit, take_left]
      have hpos : 0 < v.length := length_pos_of_ne_nil hv
      have hsum : todo.length = v.length + todo'.length := by rw [hsplit, length_append]
      have hnext : (dst.take n).drop (pos + (repairUnit todo).1) = todo' := by
        rw [← drop_drop, htodo, hdrop]
      rw [hdrop, htake, ← length_append]
      obtain ⟨kept, rest, t, full, k, hk, hloop, hsize, hsame, hcount, hkeeps⟩ :=
        @ih todo' (out ++ (repairUnit todo).2) (pos + (repairUnit todo).1)
          (if (repairUnit todo).2 = v then bad else bad + 1) (by omega)
          (by rw [length_append]; omega) hnext
      rw [hk] at hunit
      refine ⟨v ++ kept, rest, (repairUnit todo).2 ++ t, full,
        (if (repairUnit todo).2 = v then 0 else 1) + k, ?_, ?_, ?_, ?_, ?_, ?_⟩
      · rw [hsplit, hk, append_assoc]
      · rw [hloop, append_assoc]
      · rw [hsize, hlen]
        split <;> simp only [length_append, Prod.mk.injEq, and_true] <;> omega
      · intro hzero
        have hv' : (repairUnit todo).2 = v := by
          by_contra hv'
          simp [hv'] at hzero
        rw [hv', hsame (by omega)]
      · simp only [length_append]
        rcases hgrowth with hv' | hlonger
        · rw [hv', if_pos rfl]
          omega
        · rw [if_neg fun he => by rw [he] at hlonger; omega]
          omega
      · refine .unit hunit ?_ hkeeps
        rw [length_append]
        omega

/-! ## Rewriting forward -/

theorem getD_middle (a : List UInt8) (b : UInt8) (c : List UInt8) :
    (a ++ b :: c).getD a.length 0 = b := by
  simp [getD_eq_getElem?_getD]

/-- A byte behind the gap `g` is copied to its front. -/
theorem set_gap (w g : List UInt8) (b : UInt8) (r : List UInt8) :
    ∃ g', (w ++ g ++ b :: r).set w.length b = w ++ [b] ++ g' ++ r ∧ g'.length = g.length := by
  obtain ⟨c, g', hg⟩ : ∃ c g', g ++ [b] = c :: g' := exists_cons_of_ne_nil (by simp)
  have hsplit : w ++ g ++ b :: r = w ++ c :: (g' ++ r) := by
    rw [← cons_append, ← hg]
    simp
  refine ⟨g', ?_, ?_⟩
  · rw [hsplit]
    simp
  · have := congrArg List.length hg
    simpa using this.symm

/-- The encoding `u` moves down over the gap `g`. -/
theorem copyDown_spec (w g u j : List UInt8) :
    ∃ g', copyDown u.length (w ++ g ++ u ++ j) w.length (w.length + g.length) =
      w ++ u ++ g' ++ j ∧ g'.length = g.length := by
  induction u generalizing w g with
  | nil => exact ⟨g, by simp [copyDown], rfl⟩
  | cons b u ih =>
    have hread : (w ++ g ++ b :: u ++ j).getD (w.length + g.length) 0 = b := by
      have := getD_middle (w ++ g) b (u ++ j)
      rwa [length_append, ← cons_append, ← append_assoc] at this
    obtain ⟨g₁, hset, hlen⟩ := set_gap w g b (u ++ j)
    rw [← cons_append, ← append_assoc, ← append_assoc] at hset
    obtain ⟨g', hrun, hg'⟩ := ih (w ++ [b]) g₁
    rw [length_cons, copyDown, hread, hset]
    refine ⟨g', ?_, hg'.trans hlen⟩
    rw [length_append, length_singleton, hlen] at hrun
    rw [show w.length + g.length + 1 = w.length + 1 + g.length by omega, hrun]
    simp

/-- One turn of pass 2 with `b` next, the bytes from it to the end being `todo`. -/
theorem rewriteForward_succ {d todo j : List UInt8} {b : UInt8} {fuel grown rd wr : Nat}
    (hrd : rd = d.length) (hgrown : grown = rd + todo.length) (hb : todo.head? = some b) :
    rewriteForward grown (fuel + 1) (d ++ todo ++ j) rd wr =
      if b < 0x80 then rewriteForward grown fuel ((d ++ todo ++ j).set wr b) (rd + 1) (wr + 1)
      else if !(utf8Step todo).2 then
        rewriteForward grown fuel (Memory.write (d ++ todo ++ j) wr replacement)
          (rd + (utf8Step todo).1) (wr + replacement.length)
      else rewriteForward grown fuel (copyDown (utf8Step todo).1 (d ++ todo ++ j) wr rd)
        (rd + (utf8Step todo).1) (wr + (utf8Step todo).1) := by
  obtain ⟨s, rfl⟩ : ∃ s, todo = b :: s := ⟨_, (cons_head?_tail hb).symm⟩
  have hlt : rd < grown := by
    rw [hgrown, length_cons]
    omega
  have hread : (d ++ b :: s ++ j).getD rd 0 = b := by
    rw [append_assoc, hrd]
    exact getD_middle d b (s ++ j)
  have hwindow : ((d ++ b :: s ++ j).take grown).drop rd = b :: s := by
    rw [hgrown, hrd, ← length_append, take_left, drop_left]
  rw [rewriteForward, if_pos hlt]
  simp only [hread, hwindow]

/-- Pass 2: the gap `g` behind the write cursor is what the repair of the bytes
still to read needs, so the cursor never overtakes. -/
theorem rewriteForward_spec {todo t : List UInt8} (h : Repairs todo t) {w g j : List UInt8}
    {fuel grown rd : Nat} (hfuel : todo.length ≤ fuel) (hgap : g.length + todo.length = t.length)
    (hrd : rd = w.length + g.length) (hgrown : grown = rd + todo.length) :
    rewriteForward grown fuel (w ++ g ++ todo ++ j) rd w.length = w ++ t ++ j := by
  induction h generalizing w g fuel rd with
  | nil =>
    obtain rfl : g = [] := eq_nil_of_length_eq_zero (by simpa using hgap)
    cases fuel with
    | zero => simp [rewriteForward]
    | succ fuel =>
      rw [rewriteForward, if_neg (by simp at hgrown; omega)]
      simp
  | @ascii b s t hb _ ih =>
    obtain ⟨fuel, rfl⟩ : ∃ k, fuel = k + 1 := Nat.exists_eq_succ_of_ne_zero (by
      rintro rfl
      simp at hfuel)
    rw [rewriteForward_succ (by simpa using hrd) hgrown rfl,
      if_pos (UInt8.lt_iff_toNat_lt.mpr hb)]
    obtain ⟨g', hset, hg'⟩ := set_gap w g b (s ++ j)
    rw [← cons_append, ← append_assoc, ← append_assoc] at hset
    rw [length_cons] at hfuel hgap hgrown
    rw [length_cons] at hgap
    have hrun := @ih (w ++ [b]) g' fuel (rd + 1) (by omega) (by omega) (by simp; omega) (by omega)
    rw [length_append, length_singleton] at hrun
    rw [hset, hrun]
    simp
  | @multi cp u s t hu _ ih =>
    have htwo := Multi.two_le hu
    obtain ⟨b, v, rfl, hlead, -, -⟩ := hu.shape
    obtain ⟨fuel, rfl⟩ : ∃ k, fuel = k + 1 := Nat.exists_eq_succ_of_ne_zero (by
      rintro rfl
      simp at hfuel)
    rw [rewriteForward_succ (by simpa using hrd) hgrown rfl,
      if_neg (byte_not_ascii (by omega)), utf8Step_multi hu, if_neg (by simp)]
    obtain ⟨g', hcopy, hg'⟩ := copyDown_spec w g (b :: v) (s ++ j)
    rw [← hrd] at hcopy
    have hbytes : w ++ g ++ (b :: v ++ s) ++ j = w ++ g ++ (b :: v) ++ (s ++ j) := by
      simp only [append_assoc]
    rw [length_append] at hfuel hgap hgrown
    rw [length_append] at hgap
    have hrun := @ih (w ++ b :: v) g' fuel (rd + (b :: v).length) (by omega) (by omega)
      (by rw [length_append]; omega) (by omega)
    rw [length_append] at hrun
    dsimp only
    rw [hbytes, hcopy, ← append_assoc, hrun]
    simp only [append_assoc]
  | @bad b s t hb hbad hs ih =>
    obtain ⟨fuel, rfl⟩ : ∃ k, fuel = k + 1 := Nat.exists_eq_succ_of_ne_zero (by
      rintro rfl
      simp at hfuel)
    have hstep : utf8Step (b :: s) = (1, false) := by
      rcases repairUnit_cases b s with ⟨hlt, -⟩ | ⟨-, cp, u, r, he, hu, -⟩ | ⟨-, -, hstep, -⟩
      · omega
      · exact absurd hu (hbad cp u r he)
      · exact hstep
    rw [rewriteForward_succ (by simpa using hrd) hgrown rfl,
      if_neg (byte_not_ascii hb), hstep, if_pos (by rfl), ← replacement_eq]
    have hgrow := hs.length_le
    rw [length_cons] at hfuel hgap hgrown
    rw [length_append, ← replacement_eq, show replacement.length = 3 from rfl] at hgap
    -- the replacement covers three bytes of the gap and of the byte it is for
    have hwrite : Memory.write (w ++ g ++ b :: s ++ j) w.length replacement =
        w ++ replacement ++ (g ++ [b]).drop 3 ++ s ++ j := by
      have hsplit : w ++ g ++ b :: s ++ j =
          w ++ (g ++ [b]).take 3 ++ ((g ++ [b]).drop 3 ++ s ++ j) := by
        have hmid := take_append_drop 3 (g ++ [b])
        calc w ++ g ++ b :: s ++ j = w ++ (g ++ [b]) ++ (s ++ j) := by simp
          _ = w ++ ((g ++ [b]).take 3 ++ (g ++ [b]).drop 3) ++ (s ++ j) := by rw [hmid]
          _ = _ := by simp only [append_assoc]
      rw [hsplit, Memory.write_append rfl (by simp [replacement]; omega)]
      simp only [append_assoc]
    have hrun := @ih (w ++ replacement) ((g ++ [b]).drop 3) fuel (rd + 1) (by omega)
      (by simp; omega) (by simp [replacement]; omega) (by omega)
    rw [length_append] at hrun
    rw [hwrite, hrun]
    simp

/-- On a buffer that holds `s`, `repair_decoded_utf8` leaves what `repairLoop` makes
of `s`, which is the repair of the longest run of units with room for it. -/
theorem repairDecodedUtf8_eq {s j : List UInt8} {dstSize : Nat} (hsize : 0 < dstSize)
    (hlen : (s ++ j).length = dstSize) (hs : s.length ≤ dstSize - 1) (outFull : Bool) :
    ∃ kept rest t full j', s = kept ++ rest ∧ repairLoop dstSize s.length s [] = (t, full) ∧
      repairDecodedUtf8 (s ++ j) dstSize s.length outFull =
        (t ++ j', t.length, outFull || full) ∧
      (t ++ j').length = dstSize ∧ (t = s → j' = j) ∧
      Keeps (dstSize - 1) kept rest t full := by
  have hwindow : ((s ++ j).take s.length).drop 0 = s := by simp
  obtain ⟨kept, rest, t, full, k, hk, hloop, hsized, hsame, hcount, hkeeps⟩ :=
    @repair_keeps (s ++ j) s [] dstSize s.length s.length 0 0 (Nat.le_refl _) (Nat.zero_le _)
      (by simp) hwindow
  simp only [nil_append, length_nil, Nat.zero_add, Nat.sub_zero] at hloop hsized hkeeps
  have hfits := hkeeps.fits
  have hgrow := hkeeps.repairs.length_le
  simp only [repairDecodedUtf8, hsized]
  split
  case isTrue hz =>
    obtain rfl := hsame hz
    refine ⟨t, rest, t, full, rest ++ j, hk, hloop, ?_, ?_, fun hts => ?_, hkeeps⟩
    · rw [hk, append_assoc]
    · rw [← append_assoc, ← hk, hlen]
    · rw [hts] at hk
      rw [self_eq_append_right.mp hk, nil_append]
  case isFalse hbad =>
    rw [hk] at hlen
    simp only [length_append] at hlen
    -- there is room to slide the survivors up by what their repair adds
    obtain ⟨g, hmove, hg⟩ := @Memory.move_up _ [] kept (rest ++ j) (t.length - kept.length) 0
      kept.length (t.length - kept.length) rfl rfl (by simp) (by rw [length_append]; omega)
    have hbytes : s ++ j = [] ++ kept ++ (rest ++ j) := by
      rw [hk, append_assoc]
      rfl
    have hrun := @rewriteForward_spec kept t hkeeps.repairs [] g
      ((rest ++ j).drop (t.length - kept.length)) kept.length t.length (t.length - kept.length)
      (Nat.le_refl _) (by omega) (by simp [hg]) (by omega)
    refine ⟨kept, rest, t, full, (rest ++ j).drop (t.length - kept.length), hk, hloop, ?_, ?_,
      fun hts => ?_, hkeeps⟩
    · rw [hbytes, hmove]
      simp only [length_nil, nil_append] at hrun ⊢
      rw [hrun]
    · simp only [length_append, length_drop]
      omega
    · -- a well-formed string is its own repair, so no byte of it was bad
      obtain ⟨r, hr⟩ := Repairs.total rest
      have hwf : WellFormed s := hts ▸ hkeeps.repairs.wellFormed
      have hself : t ++ r = s := by
        have h := hkeeps.extend r hr
        rw [← hk] at h
        exact h.unique hwf.repairs
      have hlr := congrArg List.length hself
      have hls := congrArg List.length hk
      rw [hts, length_append] at hlr
      rw [hts] at hcount
      rw [length_append] at hls
      have := hr.length_le
      omega

/-! ## The decoder -/

theorem Halts.out_le {m : Nat} {src : List UInt8} {r : List UInt8 × List UInt8 × Bool}
    (h : Halts m src r) : r.2.1.length ≤ m := by
  cases h with
  | done _ hout => exact hout
  | filled _ _ hout => exact hout.le
  | refused _ _ hout => exact hout.le

/-- What is left when nothing was truncated: the whole source was read. -/
theorem Halts.of_done {m : Nat} {src : List UInt8} {r : List UInt8 × List UInt8 × Bool}
    (h : Halts m src r) (hfull : r.2.2 = false) (hleft : r.1 = []) :
    r = ([], decodeAll src, false) := by
  cases h with
  | done h => rw [h.decodeAll, decodeAll_nil, append_nil]
  | filled hs => exact absurd hleft hs
  | refused => cases hfull

/-- The buffer holds what `decodeJsonString` gives, with the terminator behind it. -/
theorem decodeJsonStringInto_eq {dst : List UInt8} (hdst : dst ≠ []) (src : List UInt8)
    (utf8Mode : AxlJsonFlags) :
    ∃ out rest truncated,
      decodeJsonStringInto dst src utf8Mode = some (out ++ 0 :: rest, out.length, truncated) ∧
      (out ++ 0 :: rest).length = dst.length ∧
      decodeJsonString src dst.length utf8Mode = some (out, truncated) := by
  have hpos : 0 < dst.length := length_pos_of_ne_nil hdst
  have hhalts := decodeLoop_spec dst.length src
  generalize hr : decodeLoop dst.length src.length src [] = r at hhalts
  have hout := hhalts.out_le
  -- the bytes kept by the trim stand at the front of what the loop wrote
  obtain ⟨kept, hkept, hpre⟩ : ∃ kept, (if r.2.2 then r.2.1 else trimSplitTail r.1 r.2.1) = kept ∧
      kept <+: r.2.1 := by
    refine ⟨_, rfl, ?_⟩
    split
    case isTrue => exact prefix_refl _
    case isFalse => exact trimSplitTail_isPrefix _ _
  obtain ⟨cut, hcut⟩ := hpre
  have hlenOut : (if r.2.2 then r.2.1.length else (trimSplitTail r.1 r.2.1).length) =
      kept.length := by rw [← hkept]; split <;> rfl
  have hfilled : Memory.write dst 0 r.2.1 = kept ++ (cut ++ dst.drop r.2.1.length) := by
    rw [Memory.write, ← hcut]
    simp
  have hkeptLen : kept.length ≤ dst.length - 1 := by
    have := congrArg List.length hcut
    rw [length_append] at this
    omega
  have hbufLen : (kept ++ (cut ++ dst.drop r.2.1.length)).length = dst.length := by
    rw [← append_assoc, hcut]
    simp only [length_append, length_drop]
    omega
  have hset : ∀ (o j : List UInt8), (o ++ j).length = dst.length → o.length < dst.length →
      ∃ rest, (o ++ j).set o.length 0 = o ++ 0 :: rest ∧
        (o ++ 0 :: rest).length = dst.length := by
    intro o j hlen hlt
    obtain ⟨b, rest, rfl⟩ : ∃ b rest, j = b :: rest := exists_cons_of_ne_nil fun h => by
      simp [h] at hlen
      omega
    exact ⟨rest, by simp, by simpa using hlen⟩
  simp only [decodeJsonStringInto, decodeJsonString, if_neg hpos.ne', hr, hkept, hlenOut, hfilled]
  by_cases hmode : utf8Of utf8Mode = utf8Repair
  · obtain ⟨k, r', t, full, j', -, hloop, hrep, hlen, -, hkeeps⟩ :=
      repairDecodedUtf8_eq hpos hbufLen hkeptLen r.2.2
    have hfits := hkeeps.fits
    obtain ⟨rest, hterm, hterm'⟩ := hset t j' hlen (by omega)
    refine ⟨t, rest, r.2.2 || full || !r.1.isEmpty, ?_, hterm', ?_⟩
    · simp only [if_pos hmode, hrep, hterm]
    · simp only [if_pos hmode, hloop]
  · obtain ⟨rest, hterm, hterm'⟩ := hset kept _ hbufLen (by omega)
    refine ⟨kept, rest, r.2.2 || !r.1.isEmpty, ?_, hterm', ?_⟩
    · simp only [if_neg hmode, hterm]
    · simp only [if_neg hmode, Bool.or_false]

/-- In a mode that does not repair, a source with room for all of it gives its units. -/
theorem decodeJsonString_raw {src out : List UInt8} {n : Nat} {utf8Mode : AxlJsonFlags}
    (hn : n ≠ 0) (hmode : utf8Of utf8Mode ≠ utf8Repair)
    (h : decodeLoop n src.length src [] = ([], out, false)) :
    decodeJsonString src n utf8Mode = some (out, false) := by
  rw [decodeJsonString, if_neg hn]
  simp [h, hmode, trimSplitTail_nil]

/-- In the REPAIR mode, the result is well formed, and the repair of the units when
nothing was truncated. -/
theorem decodeJsonString_repair {n : Nat} (hn : n ≠ 0) (src : List UInt8)
    {utf8Mode : AxlJsonFlags} (hmode : utf8Of utf8Mode = utf8Repair) :
    ∃ t truncated, decodeJsonString src n utf8Mode = some (t, truncated) ∧ WellFormed t ∧
      (truncated = false → decodeLoop n src.length src [] = ([], decodeAll src, false) ∧
        Repairs (decodeAll src) t) := by
  have hhalts := decodeLoop_spec n src
  generalize hr : decodeLoop n src.length src [] = r at hhalts ⊢
  generalize hkept : (if r.2.2 then r.2.1 else trimSplitTail r.1 r.2.1) = kept
  obtain ⟨k, rest, t, full, -, hk, hloop, -, -, -, hkeeps⟩ :=
    @repair_keeps kept kept [] n kept.length kept.length 0 0 (Nat.le_refl _) (Nat.zero_le _)
      (Nat.le_refl _) (by simp)
  refine ⟨t, r.2.2 || full || !r.1.isEmpty, ?_, hkeeps.repairs.wellFormed, fun hno => ?_⟩
  · rw [decodeJsonString, if_neg hn]
    simp only [hr, hkept, if_pos hmode, hloop, nil_append]
  · simp only [Bool.or_eq_false_iff, Bool.not_eq_false', List.isEmpty_iff] at hno
    obtain ⟨⟨hfull, rfl⟩, hleft⟩ := hno
    obtain rfl := hhalts.of_done hfull hleft
    obtain rfl : rest = [] := hkeeps.stop
    refine ⟨rfl, ?_⟩
    have hall : decodeAll src = k := by
      rw [append_nil] at hk
      rw [← hk, ← hkept]
      simp [trimSplitTail_nil]
    rw [hall]
    exact hkeeps.repairs

/-- A well-formed string is left as it is. -/
theorem repairDecodedUtf8_wellFormed {s j : List UInt8} {dstSize : Nat} (hsize : 0 < dstSize)
    (hlen : (s ++ j).length = dstSize) (hs : s.length ≤ dstSize - 1) (hwf : WellFormed s)
    (outFull : Bool) :
    repairDecodedUtf8 (s ++ j) dstSize s.length outFull = (s ++ j, s.length, outFull) := by
  obtain ⟨kept, rest, t, full, j', hk, -, hrep, -, hj, hkeeps⟩ :=
    repairDecodedUtf8_eq hsize hlen hs outFull
  obtain ⟨r, hr⟩ := Repairs.total rest
  have hself : t ++ r = s := by
    have h := hkeeps.extend r hr
    rw [← hk] at h
    exact h.unique hwf.repairs
  cases full with
  | false =>
    obtain rfl : rest = [] := hkeeps.stop
    obtain rfl := hr.unique .nil
    rw [append_nil] at hself
    rw [hrep, hj hself, hself, Bool.or_false]
  | true =>
    -- the unit that has no room would be part of `s`, which has
    obtain ⟨hne, hroom⟩ := hkeeps.stop
    obtain ⟨v, rest', hsplit, -, -, -, hunit⟩ := repairUnit_spec hne
    obtain ⟨r', hr'⟩ := Repairs.total rest'
    have hfront := hunit rest' [] r' (append_nil _).symm hr'
    rw [← hsplit] at hfront
    obtain rfl := hr.unique hfront
    have := congrArg List.length hself
    simp only [length_append] at this
    omega

/-- In the REPAIR mode, `decode_json_string` leaves a well-formed string that has room in
the buffer. When it reports no truncation, this is the RAW decode, into this buffer or
any larger one, with U+FFFD for every byte that starts no encoding; and another repair
leaves the buffer as it is. -/
theorem repair_wellFormed (dst src : List UInt8) (hdst : dst ≠ []) (utf8Mode : AxlJsonFlags)
    (hmode : utf8Of utf8Mode = utf8Repair) :
    ∃ buf out truncated, decodeJsonStringInto dst src utf8Mode = some (buf, out, truncated) ∧
      buf.length = dst.length ∧ out ≤ dst.length - 1 ∧ buf[out]? = some 0 ∧
      WellFormed (buf.take out) ∧
      (truncated = false → ∃ raw,
        (∀ n ≥ dst.length, decodeJsonString src n utf8Raw = some (raw, false)) ∧
        Repairs raw (buf.take out)) ∧
      ∀ full, repairDecodedUtf8 buf dst.length out full = (buf, out, full) := by
  have hpos : 0 < dst.length := length_pos_of_ne_nil hdst
  obtain ⟨out, rest, truncated, hinto, hlen, hdec⟩ := decodeJsonStringInto_eq hdst src utf8Mode
  obtain ⟨t, truncated', hdec', hwf, hwhole⟩ := decodeJsonString_repair hpos.ne' src hmode
  obtain ⟨rfl, rfl⟩ := Prod.mk.inj (Option.some.inj (hdec.symm.trans hdec'))
  have hroom : out.length ≤ dst.length - 1 := by
    simp only [length_append, length_cons] at hlen
    omega
  have htake : (out ++ 0 :: rest).take out.length = out := take_left
  refine ⟨_, _, _, hinto, hlen, hroom, by simp, ?_, fun hno => ?_, fun full => ?_⟩
  · rw [htake]
    exact hwf
  · obtain ⟨hloop, hrep⟩ := hwhole hno
    refine ⟨decodeAll src, fun n hn => ?_, by rw [htake]; exact hrep⟩
    exact decodeJsonString_raw (by omega) (by decide) (decodeLoop_mono hn hloop)
  · exact repairDecodedUtf8_wellFormed hpos hlen hroom hwf full

/-- A lead byte without its continuation, in a buffer with room for its replacement. -/
theorem repair_wellFormed_lone_lead :
    ∃ buf out truncated,
      decodeJsonStringInto (List.replicate 6 0) [0x61, 0xC3, 0x62] utf8Repair =
        some (buf, out, truncated) ∧ WellFormed (buf.take out) ∧
      (buf, out, truncated) = ([0x61, 0xEF, 0xBF, 0xBD, 0x62, 0], 5, false) := by
  obtain ⟨buf, out, truncated, hinto, -, -, -, hwf, -, -⟩ :=
    repair_wellFormed (List.replicate 6 0) [0x61, 0xC3, 0x62] (by decide) utf8Repair (by decide)
  refine ⟨buf, out, truncated, hinto, hwf, ?_⟩
  have hval : decodeJsonStringInto (List.replicate 6 0) [0x61, 0xC3, 0x62] utf8Repair =
      some ([0x61, 0xEF, 0xBF, 0xBD, 0x62, 0], 5, false) := by decide +kernel
  exact Option.some.inj (hinto.symm.trans hval)

end Json

end AxlSdk
