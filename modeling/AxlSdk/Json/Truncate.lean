import AxlSdk.Json.Repair
import AxlSdk.Json.Parse

/-!
# Truncated strings

What `decode_json_string` writes into a buffer of a given size, against what it
writes into one that is large enough: the longest prefix that fits and ends
inside no encoding, and a report that says whether it is proper.

The bound is met by three mechanisms, an escape that is refused whole, the trim
behind a look-ahead and the repair. `decode_cut_iff` says exactly for which
sources and sizes they agree. They do not when the buffer is full at a point
where the source goes on (`CutsBadly`) and

- all that follows are line continuations, so nothing is missing,
- a line continuation stands inside the encoding that the bound splits, so that
  the look-ahead does not find the rest of it, or
- a lead and continuation bytes that are no encoding stand at the bound, and the
  look-ahead takes them for one.
-/

namespace AxlSdk

namespace Json

open Utf8 List

/-! ## Sources and sizes that are cut badly -/

/-- The bytes `c :: t` at the end of the buffer are part of an encoding whose other
bytes are the next ones the source `s` gives. -/
def Splits (c : UInt8) (t s : List UInt8) : Prop :=
  ∃ cp u v, decodeAll s = u ++ v ∧ u ≠ [] ∧ Multi cp (c :: t ++ u)

/-- The buffer holds `out`, the source goes on with `s`, and `s` is silent or the
look-ahead over it is wrong about the lead `c` at the end of `out`. Under REPAIR the
first shows for a well-formed string only, and the second where a replacement of
three bytes has room. -/
def BadRest (s out : List UInt8) (utf8Mode : AxlJsonFlags) : Prop :=
  (decodeAll s = [] ∧ (utf8Of utf8Mode = utf8Repair → WellFormed out)) ∨
    ∃ x c t, out = x ++ c :: t ∧ (∀ b ∈ t, Cont b) ∧
      ¬ (Splits c t s ↔ Coming c (t.length + 1) s) ∧
      (utf8Of utf8Mode = utf8Repair → t.length = 2 ∧ WellFormed x)

/-- The first `m` bytes of the decode fill the buffer and leave a bad rest. -/
def CutsBadly (src : List UInt8) (m : Nat) (utf8Mode : AxlJsonFlags) : Prop :=
  ∃ s out, Fills src s out ∧ s ≠ [] ∧ out.length = m ∧ BadRest s out utf8Mode

/-- `w` and `truncated` are what a buffer with room for `m` bytes is to give of `u`. -/
structure Truncates (u : List UInt8) (m : Nat) (w : List UInt8) (truncated : Bool) : Prop where
  cut : CleanCut u m w
  report : truncated = true ↔ w ≠ u

theorem leadNeed_cont {c : UInt8} (h : Cont c) : leadNeed c = 1 := by
  have hlo := h.1
  have hhi := h.2
  simp only [leadNeed, lead2_iff, lead3_iff, lead4_iff]
  rw [if_neg (by omega), if_neg (by omega), if_neg (by omega)]

theorem not_coming_cont {c : UInt8} (h : Cont c) (t s : List UInt8) :
    ¬ Coming c (t.length + 1) s := fun hcoming => by
  have := hcoming.1
  rw [leadNeed_cont h] at this
  omega

theorem Splits.lead {c : UInt8} {t s : List UInt8} (h : Splits c t s) : ¬ Cont c := by
  obtain ⟨cp, u, v, -, -, hu⟩ := h
  obtain ⟨b, r, he, hb, -, -⟩ := hu.shape
  obtain rfl : c = b := (List.cons.inj he).1
  intro hc
  have := hc.2
  omega

/-- Only a lead byte is looked at wrongly. -/
theorem lead_of_disagree {c : UInt8} {t s : List UInt8}
    (h : ¬ (Splits c t s ↔ Coming c (t.length + 1) s)) : ¬ Cont c := by
  intro hc
  exact h ⟨fun hsplit => absurd hc hsplit.lead, fun hcoming => absurd hcoming (not_coming_cont hc t s)⟩

/-- What is coming is there. -/
theorem Coming.decodeAll_eq {c : UInt8} {back : Nat} {s : List UInt8} (h : Coming c back s) :
    ∃ cs v, decodeAll s = cs ++ v ∧ cs.length = leadNeed c - back ∧ cs ≠ [] ∧
      ∀ b ∈ cs, Cont b := by
  obtain ⟨hlt, hpeek⟩ := h
  obtain ⟨cs, s', hlen, hcs, hreads⟩ := peekContinuations_reads hpeek
  refine ⟨cs, _, hreads.decodeAll, hlen, fun hnil => ?_, hcs⟩
  rw [hnil, length_nil] at hlen
  omega

/-- The trailing continuation bytes and the byte before them are found in one way. -/
theorem conts_unique {x x' t t' : List UInt8} {c c' : UInt8} (hc : ¬ Cont c) (hc' : ¬ Cont c')
    (ht : ∀ b ∈ t, Cont b) (ht' : ∀ b ∈ t', Cont b) (h : x ++ c :: t = x' ++ c' :: t') :
    x = x' ∧ c = c' ∧ t = t' := by
  rcases append_eq_append_iff.mp h with ⟨a, rfl, ha⟩ | ⟨a, rfl, ha⟩
  · cases a with
    | nil =>
      obtain ⟨rfl, rfl⟩ := List.cons.inj ha
      exact ⟨by simp, rfl, rfl⟩
    | cons b a =>
      obtain ⟨rfl, rfl⟩ := List.cons.inj ha
      exact absurd (ht c' (by simp)) hc'
  · cases a with
    | nil =>
      obtain ⟨rfl, rfl⟩ := List.cons.inj ha
      exact ⟨by simp, rfl, rfl⟩
    | cons b a =>
      obtain ⟨rfl, rfl⟩ := List.cons.inj ha
      exact absurd (ht' c (by simp)) hc

/-- A buffer full of continuation bytes splits nothing. -/
theorem not_cuts_orphans {t r : List UInt8} (ht : ∀ b ∈ t, Cont b) :
    ¬ Cuts (t ++ r) t.length := by
  rintro ⟨cp, x, u, y, he, hu, hlo, hhi⟩
  obtain ⟨b, v, rfl, hb, -, -⟩ := hu.shape
  have hget : (t ++ r)[x.length]? = some b := by
    rw [he, append_assoc, getElem?_append_right (Nat.le_refl _), Nat.sub_self]
    rfl
  rw [getElem?_append_left hlo, getElem?_eq_getElem hlo] at hget
  have hcont := ht _ (getElem_mem hlo)
  rw [Option.some.inj hget] at hcont
  have := hcont.2
  omega

/-- A buffer that is full with the lead `c` at its end splits an encoding of the
whole when that lead's encoding goes on behind it. -/
theorem cuts_iff_splits {x t s : List UInt8} {c : UInt8} (hc : ¬ Cont c)
    (ht : ∀ b ∈ t, Cont b) :
    Cuts (x ++ c :: t ++ decodeAll s) (x ++ c :: t).length ↔ Splits c t s := by
  have hassoc : x ++ c :: t ++ decodeAll s = x ++ (c :: t ++ decodeAll s) := append_assoc ..
  constructor
  · rintro ⟨cp, x', u, y, he, hu, hlo, hhi⟩
    have hx : x'.length = x.length := by
      rcases Nat.lt_trichotomy x'.length x.length with hlt | heq | hgt
      · -- the lead `c` would be a continuation byte of the encoding
        refine absurd ?_ (@not_cuts_of_head x (t ++ decodeAll s) c hc)
        refine ⟨cp, x', u, y, by rw [← he, hassoc]; rfl, hu, hlt, ?_⟩
        rw [length_append] at hhi
        omega
      · exact heq
      · -- the encoding would start at a continuation byte
        have hcut : Cuts (t ++ decodeAll s) t.length := by
          refine ⟨cp, x'.drop (x.length + 1), u, y, ?_, hu, ?_, ?_⟩
          · have hleft : (x ++ (c :: t ++ decodeAll s)).drop (x.length + 1) = t ++ decodeAll s := by
              rw [← drop_drop, drop_left]
              rfl
            rw [← hleft, ← hassoc, he, append_assoc, append_assoc]
            exact drop_append_of_le_length hgt
          · rw [length_drop]
            rw [length_append, length_cons] at hlo
            omega
          · rw [length_drop]
            rw [length_append, length_cons] at hhi
            omega
        exact absurd hcut (not_cuts_orphans ht)
    rw [hassoc, append_assoc] at he
    obtain ⟨rfl, hrest⟩ := append_inj he hx.symm
    rw [length_append] at hhi
    obtain ⟨u', rfl⟩ : c :: t <+: u :=
      prefix_of_prefix_length_le (hrest ▸ prefix_append _ _) (prefix_append u y)
        (by omega)
    refine ⟨cp, u', y, ?_, fun hnil => ?_, hu⟩
    · rw [append_assoc] at hrest
      exact append_cancel_left hrest
    · rw [hnil, append_nil] at hhi
      omega
  · rintro ⟨cp, u, v, hD, hne, hu⟩
    have hpos := length_pos_of_ne_nil hne
    refine ⟨cp, x, c :: t ++ u, v, ?_, hu, ?_, ?_⟩
    · rw [hD]
      simp only [append_assoc]
    · rw [length_append, length_cons]
      omega
    · rw [length_append, length_append]
      omega

/-! ## Where the loop stops -/

section Halts

variable {src s out : List UInt8} {m : Nat} {utf8Mode : AxlJsonFlags}

theorem cutsBadly_filled (h : Fills src s out) (hs : s ≠ []) (hout : out.length = m) :
    CutsBadly src m utf8Mode ↔ BadRest s out utf8Mode := by
  constructor
  · rintro ⟨s', out', h', -, hout', hbad⟩
    obtain ⟨rfl, rfl⟩ := h.unique h' (by omega)
    exact hbad
  · exact fun hbad => ⟨s, out, h, hs, hout, hbad⟩

theorem not_cutsBadly_done (h : Reads src [] out) (hout : out.length ≤ m)
    (hfirst : out.length = m → Fills src [] out) : ¬ CutsBadly src m utf8Mode := by
  rintro ⟨s, out', hfill, hs, hout', -⟩
  have hall := hfill.reads.decodeAll
  rw [h.decodeAll, decodeAll_nil, append_nil] at hall
  have hlen := congrArg List.length hall
  rw [length_append] at hlen
  have hm : out.length = m := by omega
  exact hs ((hfirst hm).unique hfill (by omega)).1.symm

theorem not_cutsBadly_refused (hs : s ≠ []) (h : Reads src s out) (hout : out.length < m)
    (hfull : m < out.length + (decodeUnit s).1.length) : ¬ CutsBadly src m utf8Mode := by
  rintro ⟨s', out', hfill, -, hout', -⟩
  rcases h.linear hfill.reads with ⟨z, hz, rfl⟩ | ⟨z, -, rfl⟩
  · -- whoever gets past the refused unit has more than `m` bytes
    rw [length_append] at hout'
    cases hz with
    | nil =>
      rw [length_nil] at hout'
      omega
    | unit =>
      rw [length_append] at hout'
      omega
  · rw [length_append] at hout
    omega

end Halts

theorem decodeUnit_multi {s : List UInt8} (hs : s ≠ []) (h : 2 ≤ (decodeUnit s).1.length) :
    ∃ cp, Multi cp (decodeUnit s).1 := by
  have hu := decodeUnit_isUnit hs
  generalize decodeUnit s = u at hu h ⊢
  cases hu with
  | continuation => simp at h
  | named _ hu =>
    obtain ⟨-, cp, hcp, -, he⟩ := hu
    refine ⟨cp, he ▸ encode_multi hcp (Nat.not_lt.mp fun hlt => ?_)⟩
    rw [he, encode, if_pos hlt] at h
    simp at h
  | escaped => simp at h
  | byte => simp at h

/-! ## The rest of the source -/

section Rest

variable {s out x t : List UInt8} {c : UInt8} {utf8Mode : AxlJsonFlags}

/-- A silent rest continues nothing. -/
theorem not_coming_silent (hs : decodeAll s = []) {back : Nat} : ¬ Coming c back s := by
  intro hcoming
  obtain ⟨cs, v, he, -, hne, -⟩ := hcoming.decodeAll_eq
  rw [hs] at he
  exact hne (append_eq_nil_iff.mp he.symm).1

theorem not_splits_silent (hs : decodeAll s = []) : ¬ Splits c t s := by
  rintro ⟨cp, u, v, he, hne, -⟩
  rw [hs] at he
  exact hne (append_eq_nil_iff.mp he.symm).1

theorem trimSplitTail_silent (hs : decodeAll s = []) (out : List UInt8) :
    trimSplitTail s out = out := by
  rcases conts_suffix out with hconts | ⟨x, c, t, rfl, hc, ht⟩
  · exact trimSplitTail_orphans hconts
  · rw [trimSplitTail_lead ht hc, if_neg (not_coming_silent hs)]

theorem badRest_silent (hs : decodeAll s = []) :
    BadRest s out utf8Mode ↔ (utf8Of utf8Mode = utf8Repair → WellFormed out) := by
  constructor
  · rintro (⟨-, hwf⟩ | ⟨x, c, t, -, -, hdis, -⟩)
    · exact hwf
    · exact absurd (iff_of_false (not_splits_silent hs) (not_coming_silent hs)) hdis
  · exact fun hwf => .inl ⟨hs, hwf⟩

theorem not_badRest_orphans (hs : decodeAll s ≠ []) (hout : ∀ b ∈ out, Cont b) :
    ¬ BadRest s out utf8Mode := by
  rintro (⟨hs', -⟩ | ⟨x, c, t, rfl, -, hdis, -⟩)
  · exact hs hs'
  · exact lead_of_disagree hdis (hout c (by simp))

theorem badRest_lead (hs : decodeAll s ≠ []) (hc : ¬ Cont c) (ht : ∀ b ∈ t, Cont b) :
    BadRest s (x ++ c :: t) utf8Mode ↔ ¬ (Splits c t s ↔ Coming c (t.length + 1) s) ∧
      (utf8Of utf8Mode = utf8Repair → t.length = 2 ∧ WellFormed x) := by
  constructor
  · rintro (⟨hs', -⟩ | ⟨x', c', t', he, ht', hdis, hrep⟩)
    · exact absurd hs' hs
    · obtain ⟨rfl, rfl, rfl⟩ := conts_unique hc (lead_of_disagree hdis) ht ht' he
      exact ⟨hdis, hrep⟩
  · exact fun h => .inr ⟨x, c, t, rfl, ht, h.1, h.2⟩

end Rest

/-- A proper prefix is reported as one. -/
theorem truncates_iff_cut {u w : List UInt8} {m : Nat} (h : w.length ≤ m) (hu : m < u.length) :
    Truncates u m w true ↔ CleanCut u m w := by
  refine ⟨fun h => h.cut, fun hcut => ⟨hcut, iff_of_true rfl ?_⟩⟩
  rintro rfl
  omega

/-! ## Without repair -/

theorem raw_filled {src s out : List UInt8} {m : Nat} {utf8Mode : AxlJsonFlags}
    (hmode : utf8Of utf8Mode ≠ utf8Repair) (h : Fills src s out) (hout : out.length = m) :
    Truncates (decodeAll src) m (trimSplitTail s out) true ↔ ¬ BadRest s out utf8Mode := by
  have hall : decodeAll src = out ++ decodeAll s := h.reads.decodeAll
  by_cases hs : decodeAll s = []
  · -- nothing is missing, and the report says that something is
    rw [badRest_silent hs, trimSplitTail_silent hs, hall, hs, append_nil]
    exact iff_of_false (fun ht => ht.report.mp rfl rfl) fun hno => hno fun h => absurd h hmode
  have hlen : m < (decodeAll src).length := by
    have := length_pos_of_ne_nil hs
    rw [hall, length_append]
    omega
  rw [truncates_iff_cut (hout ▸ (trimSplitTail_isPrefix s out).length_le) hlen, hall]
  rcases conts_suffix out with hconts | ⟨x, c, t, rfl, hc, ht⟩
  · rw [trimSplitTail_orphans hconts]
    exact iff_of_true (cleanCut_at hout (not_cuts_orphans hconts)) (not_badRest_orphans hs hconts)
  rw [badRest_lead hs hc ht, and_iff_left fun h => absurd h hmode, not_not,
    trimSplitTail_lead ht hc]
  split
  case isTrue hcoming =>
    rw [iff_true_right hcoming]
    constructor
    · intro hcut
      by_contra hno
      rw [← @cuts_iff_splits x t s c hc ht] at hno
      have := congrArg List.length (hcut.unique (cleanCut_at hout hno))
      simp at this
    · rintro ⟨cp, u, v, hD, hne, hu⟩
      have hpos := length_pos_of_ne_nil hne
      rw [hD, append_assoc, ← append_assoc (c :: t), ← append_assoc]
      refine cleanCut_before hu ?_ ?_
      · rw [← hout, length_append]
        omega
      · rw [← hout]
        simp only [length_append]
        omega
  case isFalse hcoming =>
    rw [iff_false_right hcoming, ← @cuts_iff_splits x t s c hc ht]
    exact ⟨fun hcut => hcut.whole, cleanCut_at hout⟩

/-! ## With repair -/

/-- Bytes that no clean cut parts: an encoding, or a byte that continues none. -/
def Atom (v : List UInt8) : Prop := (∃ cp, Multi cp v) ∨ ∃ b, v = [b] ∧ ¬ Cont b

theorem cleanCut_atom {w v r : List UInt8} {m : Nat} (hv : Atom v) (hw : w.length ≤ m)
    (hm : m < w.length + v.length) : CleanCut (w ++ v ++ r) m w := by
  rcases hv with ⟨cp, hv⟩ | ⟨b, rfl, hb⟩
  · exact cleanCut_before hv hw hm
  · rw [length_singleton] at hm
    rw [append_assoc]
    exact cleanCut_at (by omega) (not_cuts_of_head hb)

theorem atom_replacement : Atom replacement :=
  .inl ⟨0xFFFD, replacement_eq ▸ encode_multi (by decide) (by decide)⟩

theorem repairUnit_atom {s : List UInt8} (hs : s ≠ []) : Atom (repairUnit s).2 := by
  obtain ⟨b, s, rfl⟩ := exists_cons_of_ne_nil hs
  rcases repairUnit_cases b s with ⟨hb, hu⟩ | ⟨-, cp, u, r, -, hu, -, hunit⟩ | ⟨-, -, -, hu⟩
  · rw [hu]
    refine .inr ⟨b, rfl, fun hc => ?_⟩
    have := hc.1
    omega
  · rw [hunit]
    exact .inl ⟨cp, hu⟩
  · rw [hu]
    exact atom_replacement

section Keeps

variable {m : Nat} {kept rest t u : List UInt8} {full : Bool}

/-- A repair that is cut short leaves out an atom without room. -/
theorem Keeps.repair_eq (h : Keeps m kept rest t full) (hu : Repairs (kept ++ rest) u) :
    (full = false ∧ t = u) ∨
      (full = true ∧ ∃ v r, u = t ++ v ++ r ∧ Atom v ∧ m < t.length + v.length) := by
  cases full with
  | false =>
    obtain rfl : rest = [] := h.stop
    rw [append_nil] at hu
    exact .inl ⟨rfl, h.repairs.unique hu⟩
  | true =>
    obtain ⟨hne, hroom⟩ := h.stop
    obtain ⟨v, rest', hsplit, -, -, -, hunit⟩ := repairUnit_spec hne
    obtain ⟨r', hr'⟩ := Repairs.total rest'
    have hfront := hunit rest' [] r' (append_nil _).symm hr'
    rw [← hsplit] at hfront
    refine .inr ⟨rfl, (repairUnit rest).2, r', ?_, repairUnit_atom hne, hroom⟩
    rw [append_assoc]
    exact hu.unique (h.extend _ hfront)

/-- What is kept is the clean cut of the repair. -/
theorem Keeps.truncates (h : Keeps m kept rest t full) (hu : Repairs (kept ++ rest) u) :
    Truncates u m t full := by
  rcases h.repair_eq hu with ⟨rfl, rfl⟩ | ⟨rfl, v, r, rfl, hv, hm⟩
  · exact ⟨cleanCut_all h.fits, by simp⟩
  · refine ⟨cleanCut_atom hv h.fits hm, iff_of_true rfl fun he => ?_⟩
    have hfits := h.fits
    have := congrArg List.length he
    simp only [length_append] at this
    omega

/-- The same when more follows, from an atom on that has no room behind the repair. -/
theorem Keeps.cut_before (h : Keeps m kept rest t full) (hu : Repairs (kept ++ rest) u)
    {v r : List UInt8} (hv : Atom v) (hm : m < u.length + v.length) :
    CleanCut (u ++ v ++ r) m t := by
  rcases h.repair_eq hu with ⟨rfl, rfl⟩ | ⟨rfl, v', r', rfl, hv', hm'⟩
  · exact cleanCut_atom hv h.fits hm
  · simp only [append_assoc]
    rw [← append_assoc]
    exact cleanCut_atom hv' h.fits hm'

end Keeps

theorem keeps_exists (m : Nat) (a : List UInt8) :
    ∃ kept rest t full, a = kept ++ rest ∧ repairLoop (m + 1) a.length a [] = (t, full) ∧
      Keeps m kept rest t full := by
  obtain ⟨kept, rest, t, full, -, hk, hloop, -, -, -, hkeeps⟩ :=
    @repair_keeps a a [] (m + 1) a.length a.length 0 0 (Nat.le_refl _) (Nat.zero_le _)
      (Nat.le_refl _) (by simp)
  exact ⟨kept, rest, t, full, hk, hloop, hkeeps⟩

/-- What a source gives after `out` starts with an atom once it is repaired. -/
theorem repairs_atom {s t : List UInt8} (h : Repairs s t) (hs : s ≠ []) :
    ∃ v r, t = v ++ r ∧ Atom v := by
  obtain ⟨v, s', hsplit, -, -, -, hunit⟩ := repairUnit_spec hs
  obtain ⟨r, hr⟩ := Repairs.total s'
  have hfront := hunit s' [] r (append_nil _).symm hr
  rw [← hsplit] at hfront
  exact ⟨_, r, h.unique hfront, repairUnit_atom hs⟩

theorem Atom.length_pos {v : List UInt8} (h : Atom v) : 0 < v.length := by
  rcases h with ⟨cp, hv⟩ | ⟨b, rfl, -⟩
  · have := Multi.two_le hv
    omega
  · simp

section Filled

variable {s x t U : List UInt8} {c : UInt8}

/-- The repair of bytes in front of a byte that continues none. -/
theorem repairs_lead {a b r r' : List UInt8} (hc : ¬ Cont c) (ha : Repairs a r)
    (hb : Repairs (c :: b) r') : Repairs (a ++ c :: b) (r ++ r') :=
  ha.append hb (not_cuts_of_head hc)

theorem Splits.length_lt (h : Splits c t s) : t.length + 1 < leadNeed c := by
  obtain ⟨cp, u, v, -, hne, hu⟩ := h
  have hlen := leadNeed_multi hu []
  have hpos := length_pos_of_ne_nil hne
  simp only [append_nil, cons_append, getD_cons_zero, length_cons,
    length_append] at hlen
  omega

/-- A repair splits nothing where it starts. -/
theorem not_cuts_repaired {a b r : List UInt8} (h : Repairs b r) : ¬ Cuts (a ++ r) a.length := by
  rcases h.head with rfl | ⟨b, r, rfl, hb⟩
  · rw [append_nil]
    exact not_cuts_length a
  · exact not_cuts_of_head hb

/-- A lead that starts no encoding is replaced. -/
theorem repairs_bad_lead {b r : List UInt8} (hc : ¬ Cont c) (hneed : 1 < leadNeed c)
    (hbad : ∀ cp u r, c :: b = u ++ r → ¬ Multi cp u) (hb : Repairs b r) :
    Repairs (c :: b) (replacement ++ r) := by
  rw [replacement_eq]
  refine .bad (Nat.not_lt.mp fun hlt => ?_) hbad hb
  rw [leadNeed_ascii (UInt8.lt_iff_toNat_lt.mpr hlt)] at hneed
  omega

/-- The encoding that an announced length belongs to has it. -/
theorem multi_length {cp : Nat} {u r b : List UInt8} (hu : Multi cp u) (he : c :: b = u ++ r) :
    u.length = leadNeed c := by
  rw [← leadNeed_multi hu r, ← he]
  rfl

/-- A lead that is looked for and not found to be split starts no encoding. -/
theorem coming_not_multi (hcoming : Coming c (t.length + 1) s) (hno : ¬ Splits c t s) :
    ∀ cp u r, c :: (t ++ decodeAll s) = u ++ r → ¬ Multi cp u := by
  intro cp u r he hu
  obtain ⟨cs, v, hD, hlen, hne, -⟩ := hcoming.decodeAll_eq
  have hulen := multi_length hu he
  have hlt := hcoming.1
  rw [hD, ← append_assoc, ← cons_append] at he
  obtain ⟨rfl, -⟩ := append_inj he (by simp; omega)
  exact hno ⟨cp, cs, v, hD, hne, hu⟩

end Filled

/-! The bound falls with the buffer full of `out`; `w` is what the repair of the trimmed
bytes keeps. -/

section Filled

variable {s out x t kept rest w U : List UInt8} {c : UInt8} {m : Nat} {full : Bool}

/-- The two sides of a bound that splits nothing are repaired each for itself. -/
theorem repair_clean (hs : decodeAll s ≠ []) (hout : out.length = m)
    (hU : Repairs (out ++ decodeAll s) U) (hkept : out = kept ++ rest)
    (hkeeps : Keeps m kept rest w full) (hno : ¬ Cuts (out ++ decodeAll s) out.length) :
    CleanCut U m w := by
  obtain ⟨r, hr⟩ := Repairs.total out
  obtain ⟨D, hD⟩ := Repairs.total (decodeAll s)
  obtain ⟨v, y, rfl, hv⟩ := repairs_atom hD hs
  rw [hU.unique (hr.append hD hno), ← append_assoc]
  have := hr.length_le
  have := hv.length_pos
  rw [hkept] at hr
  exact hkeeps.cut_before hr hv (by omega)

/-- The repair of a whole whose encoding at the bound is split. -/
theorem Splits.repairs (h : Splits c t s) (hU : Repairs (x ++ c :: t ++ decodeAll s) U)
    {r : List UInt8} (hr : Repairs x r) :
    ∃ cp e y, U = r ++ e ++ y ∧ Multi cp e ∧ t.length + 1 < e.length := by
  have hc := h.lead
  obtain ⟨cp, u, v, hD, hne, hu⟩ := h
  have hpos := length_pos_of_ne_nil hne
  obtain ⟨y, hy⟩ := Repairs.total v
  refine ⟨cp, c :: t ++ u, y, ?_, hu, by simp only [length_append, length_cons]; omega⟩
  have hrest : Repairs (c :: (t ++ u ++ v)) (c :: t ++ u ++ y) := .multi hu hy
  have hsplit : x ++ c :: t ++ decodeAll s = x ++ c :: (t ++ u ++ v) := by
    rw [hD]
    simp only [append_assoc, cons_append]
  rw [hsplit] at hU
  rw [hU.unique (repairs_lead hc hr hrest)]
  simp only [append_assoc]

/-- The trim takes back what the bound splits. -/
theorem repair_trimmed (hsplits : Splits c t s) (hout : (x ++ c :: t).length = m)
    (hU : Repairs (x ++ c :: t ++ decodeAll s) U) (hkept : x = kept ++ rest)
    (hkeeps : Keeps m kept rest w full) : CleanCut U m w := by
  obtain ⟨r, hr⟩ := Repairs.total x
  obtain ⟨cp, e, y, rfl, he, hlen⟩ := hsplits.repairs hU hr
  have := hr.length_le
  rw [length_append, length_cons] at hout
  rw [hkept] at hr
  exact hkeeps.cut_before hr (.inl ⟨cp, he⟩) (by omega)

/-- The look-ahead misses the rest of the encoding, and its lead and continuation bytes
are replaced: this shows where one replacement has room. -/
theorem repair_missed (hsplits : Splits c t s) (ht : ∀ b ∈ t, Cont b)
    (hout : (x ++ c :: t).length = m) (hU : Repairs (x ++ c :: t ++ decodeAll s) U)
    (hkept : x ++ c :: t = kept ++ rest) (hkeeps : Keeps m kept rest w full) :
    CleanCut U m w ↔ ¬ (t.length = 2 ∧ WellFormed x) := by
  obtain ⟨r, hr⟩ := Repairs.total x
  obtain ⟨y, hy⟩ := Repairs.total t
  obtain ⟨cp, e, z, rfl, he, hlen⟩ := hsplits.repairs hU hr
  have hlt := hsplits.length_lt
  have hbad : Repairs (c :: t) (replacement ++ y) := by
    refine repairs_bad_lead hsplits.lead (by omega) (fun cp u v hsplit hu => ?_) hy
    have := multi_length hu hsplit
    have := congrArg List.length hsplit
    simp only [length_cons, length_append] at this
    omega
  have hwhole := repairs_lead hsplits.lead hr hbad
  rw [← append_assoc, hkept] at hwhole
  have hcut := (hkeeps.truncates hwhole).cut
  have hgrow := hr.length_le
  have hneed := leadNeed_le c
  rw [length_append, length_cons] at hout
  by_cases hroom : m < r.length + replacement.length
  · -- neither the replacement nor the encoding has room
    obtain ⟨k, rest', w', full', hk, -, hkeeps'⟩ := keeps_exists m x
    rw [hk] at hr
    have hw : w = w' := hcut.unique (hkeeps'.cut_before hr atom_replacement hroom)
    refine iff_of_true ?_ ?_
    · rw [hw]
      exact hkeeps'.cut_before hr (.inl ⟨cp, he⟩) (by omega)
    · rintro ⟨htwo, hwf⟩
      rw [← hk] at hr
      rw [hr.unique hwf.repairs, show replacement.length = 3 from rfl] at hroom
      omega
  · rw [show replacement.length = 3 from rfl] at hroom
    have htwo : t.length = 2 := by omega
    have hrx := hr.of_length_eq (by omega)
    subst hrx
    refine iff_of_false (fun hclean => ?_) fun hno => hno ⟨htwo, hr.wellFormed⟩
    -- the replacement fills the buffer, and the encoding goes on
    have hw : w.length = m := by
      refine Nat.le_antisymm hkeeps.fits (hcut.longest m (Nat.le_refl m) ?_ ?_)
      · simp only [length_append, show replacement.length = 3 from rfl]
        omega
      · have hm : m = (x ++ replacement).length := by
          rw [length_append, show replacement.length = 3 from rfl]
          omega
        rw [hm]
        exact not_cuts_repaired hy
    exact hclean.whole ⟨cp, x, e, z, rfl, he, by omega, by omega⟩

/-- The look-ahead takes bytes for an encoding that are none, and the trim takes them
back: this shows where the replacement of the lead has room. -/
theorem repair_mistaken (hcoming : Coming c (t.length + 1) s) (hno : ¬ Splits c t s)
    (hc : ¬ Cont c) (hout : (x ++ c :: t).length = m)
    (hU : Repairs (x ++ c :: t ++ decodeAll s) U) (hkept : x = kept ++ rest)
    (hkeeps : Keeps m kept rest w full) :
    CleanCut U m w ↔ ¬ (t.length = 2 ∧ WellFormed x) := by
  obtain ⟨r, hr⟩ := Repairs.total x
  obtain ⟨y, hy⟩ := Repairs.total (t ++ decodeAll s)
  have hlt := hcoming.1
  have hneed := leadNeed_le c
  have hrest := repairs_bad_lead hc (by omega) (coming_not_multi hcoming hno) hy
  have hsplit : x ++ c :: t ++ decodeAll s = x ++ c :: (t ++ decodeAll s) := by
    rw [append_assoc]
    rfl
  rw [hsplit] at hU
  obtain rfl := hU.unique (repairs_lead hc hr hrest)
  rw [← append_assoc]
  have hgrow := hr.length_le
  rw [length_append, length_cons] at hout
  by_cases hroom : m < r.length + replacement.length
  · refine iff_of_true ?_ ?_
    · rw [hkept] at hr
      exact hkeeps.cut_before hr atom_replacement hroom
    · rintro ⟨htwo, hwf⟩
      rw [hr.unique hwf.repairs, show replacement.length = 3 from rfl] at hroom
      omega
  · rw [show replacement.length = 3 from rfl] at hroom
    have htwo : t.length = 2 := by omega
    have hrx := hr.of_length_eq (by omega)
    subst hrx
    refine iff_of_false (fun hclean => ?_) fun hno => hno ⟨htwo, hr.wellFormed⟩
    -- all of `x` is kept, and the replacement behind it would fill the buffer
    have hm : m = (x ++ replacement).length := by
      rw [length_append, show replacement.length = 3 from rfl]
      omega
    have hw : w = x := by
      have hcut := (hkeeps.truncates (hkept ▸ hr)).cut
      rw [← hkept] at hcut
      exact hcut.unique (cleanCut_all (by omega))
    have hmore := hclean.longest m (Nat.le_refl m)
      (by rw [length_append, ← hm]; omega) (hm ▸ not_cuts_repaired hy)
    rw [hw] at hmore
    omega

end Filled

/-- With the buffer full, the repair of what the trim leaves is a clean cut of the whole
unless the rest is bad. -/
theorem repair_filled {src s out kept rest w U : List UInt8} {m : Nat} {full : Bool}
    {utf8Mode : AxlJsonFlags} (hmode : utf8Of utf8Mode = utf8Repair) (h : Fills src s out)
    (hout : out.length = m) (hU : Repairs (decodeAll src) U)
    (hkept : trimSplitTail s out = kept ++ rest) (hkeeps : Keeps m kept rest w full) :
    Truncates U m w true ↔ ¬ BadRest s out utf8Mode := by
  have hall : decodeAll src = out ++ decodeAll s := h.reads.decodeAll
  rw [hall] at hU
  by_cases hs : decodeAll s = []
  · -- all is there: the report is right when the repair has no room
    rw [trimSplitTail_silent hs] at hkept
    rw [hs, append_nil] at hU
    have hcut := (hkeeps.truncates (hkept ▸ hU)).cut
    rw [badRest_silent hs, imp_iff_right hmode]
    constructor
    · intro ht hwf
      obtain rfl := hU.unique hwf.repairs
      exact ht.report.mp rfl (hcut.unique (cleanCut_all hout.le))
    · intro hbad
      have hlonger := hU.grows hbad
      exact (truncates_iff_cut hkeeps.fits (by omega)).mpr hcut
  have hlen : m < U.length := by
    have hpos := length_pos_of_ne_nil hs
    have := hU.length_le
    rw [length_append] at this
    omega
  rw [truncates_iff_cut hkeeps.fits hlen]
  rcases conts_suffix out with hconts | ⟨x, c, t, rfl, hc, ht⟩
  · rw [trimSplitTail_orphans hconts] at hkept
    exact iff_of_true (repair_clean hs hout hU hkept hkeeps (not_cuts_orphans hconts))
      (not_badRest_orphans hs hconts)
  rw [trimSplitTail_lead ht hc] at hkept
  rw [badRest_lead hs hc ht, imp_iff_right hmode]
  by_cases hcoming : Coming c (t.length + 1) s
  · rw [if_pos hcoming] at hkept
    by_cases hsplits : Splits c t s
    · exact iff_of_true (repair_trimmed hsplits hout hU hkept hkeeps) fun hno =>
        hno.1 (iff_of_true hsplits hcoming)
    · rw [repair_mistaken hcoming hsplits hc hout hU hkept hkeeps,
        and_iff_right fun hiff => hsplits (hiff.mpr hcoming)]
  · rw [if_neg hcoming] at hkept
    by_cases hsplits : Splits c t s
    · rw [repair_missed hsplits ht hout hU hkept hkeeps,
        and_iff_right fun hiff => hcoming (hiff.mp hsplits)]
    · refine iff_of_true (repair_clean hs hout hU hkept hkeeps fun hcuts => ?_) fun hno =>
        hno.1 (iff_of_false hsplits hcoming)
      exact hsplits ((cuts_iff_splits hc ht).mp hcuts)

/-! ## The decoder -/

theorem raw_cut {src : List UInt8} {n : Nat} {utf8Mode : AxlJsonFlags} (hn : 1 ≤ n)
    (hmode : utf8Of utf8Mode ≠ utf8Repair) :
    ∃ w truncated, decodeJsonString src n utf8Mode = some (w, truncated) ∧
      (Truncates (decodeAll src) (n - 1) w truncated ↔ ¬ CutsBadly src (n - 1) utf8Mode) := by
  have hhalts := decodeLoop_spec n src
  rw [decodeJsonString, if_neg (by omega)]
  simp only [if_neg hmode, Bool.or_false]
  generalize decodeLoop n src.length src [] = r at hhalts ⊢
  refine ⟨_, _, rfl, ?_⟩
  cases hhalts with
  | @done out h hout hfirst =>
    have hall : decodeAll src = out := by rw [h.decodeAll, decodeAll_nil, append_nil]
    refine iff_of_true ?_ (not_cutsBadly_done h hout hfirst)
    rw [hall]
    exact ⟨by simpa [trimSplitTail_nil] using cleanCut_all hout, by simp [trimSplitTail_nil]⟩
  | @filled s out hs h hout =>
    have hleft : s.isEmpty = false := by simpa [List.isEmpty_iff] using hs
    rw [cutsBadly_filled h hs hout, ← raw_filled hmode h hout]
    simp [hleft]
  | @refused s out hs h hout hfull =>
    obtain ⟨cp, hu⟩ := decodeUnit_multi hs (by omega)
    have hall := h.decodeAll
    rw [decodeAll_unit hs, ← append_assoc] at hall
    refine iff_of_true ⟨?_, iff_of_true (by simp) fun he => ?_⟩
      (not_cutsBadly_refused hs h hout hfull)
    · rw [hall]
      exact cleanCut_before hu hout.le hfull
    · have := congrArg List.length he
      rw [hall] at this
      simp only [if_true, length_append] at this
      omega

theorem repair_cut {src U : List UInt8} {n : Nat} {utf8Mode : AxlJsonFlags} (hn : 1 ≤ n)
    (hmode : utf8Of utf8Mode = utf8Repair) (hU : Repairs (decodeAll src) U) :
    ∃ w truncated, decodeJsonString src n utf8Mode = some (w, truncated) ∧
      (Truncates U (n - 1) w truncated ↔ ¬ CutsBadly src (n - 1) utf8Mode) := by
  obtain ⟨m, rfl⟩ : ∃ m, n = m + 1 := ⟨n - 1, by omega⟩
  have hhalts := decodeLoop_spec (m + 1) src
  rw [decodeJsonString, if_neg (by omega)]
  simp only [if_pos hmode, Nat.add_sub_cancel] at hhalts ⊢
  generalize decodeLoop (m + 1) src.length src [] = r at hhalts ⊢
  refine ⟨_, _, rfl, ?_⟩
  cases hhalts with
  | @done out h hout hfirst =>
    have hall : decodeAll src = out := by rw [h.decodeAll, decodeAll_nil, append_nil]
    obtain ⟨kept, rest, w, full, hk, hloop, hkeeps⟩ := keeps_exists m out
    refine iff_of_true ?_ (not_cutsBadly_done h hout hfirst)
    rw [hall, hk] at hU
    simpa [trimSplitTail_nil, hloop] using hkeeps.truncates hU
  | @filled s out hs h hout =>
    obtain ⟨kept, rest, w, full, hk, hloop, hkeeps⟩ := keeps_exists m (trimSplitTail s out)
    have hleft : s.isEmpty = false := by simpa [List.isEmpty_iff] using hs
    rw [cutsBadly_filled h hs hout, ← repair_filled hmode h hout hU hk hkeeps]
    simp [hleft, hloop]
  | @refused s out hs h hout hfull =>
    obtain ⟨cp, hu⟩ := decodeUnit_multi hs (by omega)
    obtain ⟨kept, rest, w, full, hk, hloop, hkeeps⟩ := keeps_exists m out
    obtain ⟨r, hr⟩ := Repairs.total out
    obtain ⟨y, hy⟩ := Repairs.total (decodeAll (s.drop (decodeUnit s).2))
    -- the refused unit is an encoding, and repair leaves it alone
    have hwhole : U = r ++ (decodeUnit s).1 ++ y := by
      have hrest := Repairs.multi hu hy
      rw [h.decodeAll, decodeAll_unit hs] at hU
      obtain ⟨b, v, hbv, hb, -, -⟩ := hu.shape
      rw [hbv] at hU hrest ⊢
      rw [append_assoc]
      refine hU.unique (repairs_lead (fun hc => ?_) hr hrest)
      have := hc.2
      omega
    have hgrow := hr.length_le
    have hcut : CleanCut U m w := by
      rw [hk] at hr
      rw [hwhole]
      exact hkeeps.cut_before hr (.inl ⟨cp, hu⟩) (by omega)
    have hlen : m < U.length := by
      rw [hwhole]
      simp only [length_append]
      omega
    refine iff_of_true ?_ (not_cutsBadly_refused hs h hout hfull)
    simpa [hloop] using (truncates_iff_cut hkeeps.fits hlen).mpr hcut

/-- A buffer with more room than the units need is never cut badly. -/
theorem not_cutsBadly_long {src : List UInt8} {m : Nat} {utf8Mode : AxlJsonFlags}
    (h : (decodeAll src).length < m) : ¬ CutsBadly src m utf8Mode := by
  rintro ⟨s, out, hfill, -, hout, -⟩
  have := congrArg List.length hfill.reads.decodeAll
  rw [length_append] at this
  omega

/-- `whole` is what the decode of `src` is cut from. -/
structure IsWhole (src : List UInt8) (utf8Mode : AxlJsonFlags) (whole : List UInt8) : Prop where
  repaired : utf8Of utf8Mode = utf8Repair → Repairs (decodeAll src) whole
  plain : utf8Of utf8Mode ≠ utf8Repair → whole = decodeAll src

theorem isWhole_exists (src : List UInt8) (utf8Mode : AxlJsonFlags) :
    ∃ whole, IsWhole src utf8Mode whole := by
  by_cases hmode : utf8Of utf8Mode = utf8Repair
  · obtain ⟨U, hU⟩ := Repairs.total (decodeAll src)
    exact ⟨U, fun _ => hU, fun h => absurd hmode h⟩
  · exact ⟨_, fun h => absurd h hmode, fun _ => rfl⟩

section IsWhole

variable {src whole : List UInt8} {utf8Mode : AxlJsonFlags} {n : Nat}

theorem IsWhole.length_le (h : IsWhole src utf8Mode whole) :
    (decodeAll src).length ≤ whole.length := by
  by_cases hmode : utf8Of utf8Mode = utf8Repair
  · exact (h.repaired hmode).length_le
  · rw [h.plain hmode]

theorem IsWhole.cut (h : IsWhole src utf8Mode whole) (hn : 1 ≤ n) :
    ∃ w truncated, decodeJsonString src n utf8Mode = some (w, truncated) ∧
      (Truncates whole (n - 1) w truncated ↔ ¬ CutsBadly src (n - 1) utf8Mode) := by
  by_cases hmode : utf8Of utf8Mode = utf8Repair
  · exact repair_cut hn hmode (h.repaired hmode)
  · rw [h.plain hmode]
    exact raw_cut hn hmode

/-- A buffer that is large enough holds all of it. -/
theorem IsWhole.decode (h : IsWhole src utf8Mode whole) (hn : whole.length + 2 ≤ n) :
    decodeJsonString src n utf8Mode = some (whole, false) := by
  obtain ⟨w, truncated, hdec, hiff⟩ := h.cut (Nat.le_of_add_left_le hn)
  have hlen := h.length_le
  have ht := hiff.mpr (not_cutsBadly_long (by omega))
  obtain rfl := ht.cut.unique (cleanCut_all (by omega))
  rw [hdec, show truncated = false from Bool.eq_false_iff.mpr fun h => ht.report.mp h rfl]

end IsWhole

/-- `decode_json_string` writes the longest prefix of the unbounded decode that has room
and ends inside no encoding of it, and reports a truncation when this is proper, if and
only if the size does not cut the source badly. -/
theorem decode_cut_iff (src : List UInt8) (utf8Mode : AxlJsonFlags) :
    ∃ whole, (∃ N, ∀ n ≥ N, decodeJsonString src n utf8Mode = some (whole, false)) ∧
      ∀ n ≥ 1, ∃ w truncated, decodeJsonString src n utf8Mode = some (w, truncated) ∧
        (Truncates whole (n - 1) w truncated ↔ ¬ CutsBadly src (n - 1) utf8Mode) := by
  obtain ⟨whole, hwhole⟩ := isWhole_exists src utf8Mode
  exact ⟨whole, ⟨_, fun n hn => hwhole.decode hn⟩, fun n hn => hwhole.cut hn⟩

/-- The document `"a\` and a line feed and `"`: its one byte has room in a buffer of two,
and the decoder says that it was truncated. -/
theorem decode_cut_continuation :
    parse [0x22, 0x61, 0x5C, 0x0A, 0x22] (allowExtraEscapes ||| utf8Raw) =
      .ok ⟨[0x22, 0x61, 0x5C, 0x0A, 0x22], [⟨.string, 1, 4, 0⟩], utf8Raw⟩ ∧
    ¬ ∃ whole, (∃ N, ∀ n ≥ N,
        decodeJsonString [0x61, 0x5C, 0x0A] n utf8Raw = some (whole, false)) ∧
      ∀ n ≥ 1, ∃ w truncated, decodeJsonString [0x61, 0x5C, 0x0A] n utf8Raw = some (w, truncated) ∧
        Truncates whole (n - 1) w truncated := by
  constructor
  · rfl
  rintro ⟨whole, ⟨N, hN⟩, hcut⟩
  have hloop : decodeLoop 3 3 [0x61, 0x5C, 0x0A] [] = ([], [0x61], false) := by decide +kernel
  have hbig := @decodeJsonString_raw [0x61, 0x5C, 0x0A] [0x61] (N + 3) utf8Raw (by omega)
    (by decide) (decodeLoop_mono (by omega) hloop)
  have hwhole : [0x61] = whole := by
    have := hbig.symm.trans (hN (N + 3) (by omega))
    simpa using this
  obtain ⟨w, truncated, hdec, ht⟩ := hcut 2 (by decide)
  have hval : decodeJsonString [0x61, 0x5C, 0x0A] 2 utf8Raw = some ([0x61], true) := by
    decide +kernel
  obtain ⟨rfl, rfl⟩ := Prod.mk.inj (Option.some.inj (hdec.symm.trans hval))
  exact ht.report.mp rfl hwhole

end Json

end AxlSdk
