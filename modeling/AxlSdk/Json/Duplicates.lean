import AxlSdk.Json.Dialects
import AxlSdk.Json.Members

/-!
# Rejection of duplicate keys

`axl_json_check_duplicate_keys` walks the token array of a finished document. It
compares the keys of a small object linearly, borrowing the bytes of those that need
no decoding, and keeps those of a larger one in a set of decoded copies.

- `dupKeyName_named`: both name a key as a walk over the object does.
- `dupCheck_spec`: the walk finds the first key that repeats a name.
- `duplicates_exact`: so does the parser, under `AXL_JSON_REJECT_DUPLICATES`.
-/

namespace AxlSdk

namespace Json

open Utf8 JsonSyntax List

/-! ## Room for a name -/

/-- A unit adds no more than three bytes for each one it takes, repair included. -/
theorem unit_whole_le {s d t t' : List UInt8} (hs : s ≠ [])
    (h : Repairs ((decodeUnit s).1 ++ d) t) (h' : Repairs d t') :
    t.length + 3 * (s.drop (decodeUnit s).2).length ≤ t'.length + 3 * s.length := by
  have hunit := decodeUnit_isUnit hs
  generalize decodeUnit s = u at hunit h
  rw [length_drop]
  cases hunit with
  | continuation =>
    obtain rfl := h.unique h'
    omega
  | @named e es u he hu =>
    obtain ⟨hwidth, cp, hcp, hpos, hbytes⟩ := hu
    rw [hbytes] at h
    simp only [length_cons]
    by_cases hlow : cp < 0x80
    · rw [encode, if_pos hlow] at h
      have := h.cons_le h'
      omega
    · have hmulti := encode_multi hcp (Nat.not_lt.mp hlow)
      obtain rfl := h.unique (.multi hmulti h')
      have := hmulti.length_le
      rw [length_append]
      omega
  | escaped =>
    have := h.cons_le h'
    simp only [length_cons]
    omega
  | byte =>
    have := h.cons_le h'
    simp only [length_cons]
    omega

theorem reads_whole_le {s s' bs d t' : List UInt8} (h : Reads s s' bs) (hd : Repairs d t') :
    ∃ t, Repairs (bs ++ d) t ∧ t.length + 3 * s'.length ≤ t'.length + 3 * s.length := by
  induction h with
  | nil => exact ⟨t', hd, Nat.le_refl _⟩
  | @unit s s' bs hs _ ih =>
    obtain ⟨t₁, ht₁, hle⟩ := ih
    obtain ⟨t, ht⟩ := Repairs.total ((decodeUnit s).1 ++ (bs ++ d))
    have := unit_whole_le hs ht ht₁
    exact ⟨t, by rwa [append_assoc], by omega⟩

/-- `AXL_JSON_KEY_DECODE_BOUND` is room enough. -/
theorem IsWhole.decode_bound {src whole : List UInt8} {utf8Mode : AxlJsonFlags}
    (h : IsWhole src utf8Mode whole) :
    decodeJsonString src (keyDecodeBound src.length) utf8Mode = some (whole, false) := by
  obtain ⟨t, ht, hle⟩ := reads_whole_le (reads_decodeAll src) .nil
  rw [append_nil] at ht
  simp only [length_nil, Nat.mul_zero, Nat.zero_add, Nat.add_zero] at hle
  have hwhole : whole.length ≤ 3 * src.length := by
    by_cases hmode : utf8Of utf8Mode = utf8Repair
    · rwa [(h.repaired hmode).unique ht]
    · rw [h.plain hmode]
      exact Nat.le_trans ht.length_le hle
  obtain ⟨w, truncated, hdec, hiff⟩ :=
    h.cut (n := keyDecodeBound src.length) (Nat.le_add_left 1 _)
  have hroom : keyDecodeBound src.length - 1 = 3 * src.length := by
    rw [keyDecodeBound]
    omega
  -- a rest of the source has taken none of the room
  have hgood : ¬ CutsBadly src (keyDecodeBound src.length - 1) utf8Mode := by
    rintro ⟨s, out, hfill, hs, hout, -⟩
    obtain ⟨r, hr, hle⟩ := reads_whole_le hfill.reads .nil
    rw [append_nil] at hr
    have := hr.length_le
    have := length_pos_of_ne_nil hs
    simp only [length_nil, Nat.zero_add] at hle
    omega
  have ht := hiff.mpr hgood
  obtain rfl := ht.cut.unique (cleanCut_all (by omega))
  rw [hdec, show truncated = false from Bool.eq_false_iff.mpr fun h => ht.report.mp h rfl]

/-- A key has its name in both comparisons. -/
theorem dupKeyName_named {bytes : List UInt8} (hnul : 0 ∈ bytes → 0x5C ∈ bytes) (linear : Bool)
    (utf8Mode : AxlJsonFlags) :
    ∃ name, dupKeyName bytes linear utf8Mode = some name ∧ Named bytes utf8Mode name := by
  rw [dupKeyName]
  split
  case isTrue h =>
    have hbytes := (Bool.and_eq_true_iff.mp h).2
    have hplain := plain_of_bytes hbytes hnul
    exact ⟨bytes, rfl, named_iff.mpr ⟨bytes, isWhole_of_bytes hbytes, cString_eq_self hplain.1⟩⟩
  case isFalse =>
    obtain ⟨whole, hwhole⟩ := isWhole_exists bytes utf8Mode
    refine ⟨cString whole, ?_, named_iff.mpr ⟨whole, hwhole, rfl⟩⟩
    rw [decodeKeyName, hwhole.decode_bound]

/-! ## Repeated names -/

/-- The keys at `j` and `k` have one name. -/
def SameName (json : List UInt8) (toks : List Tok) (utf8Mode : AxlJsonFlags) (j k : Nat) : Prop :=
  ∃ jtok ktok name, toks[j]? = some jtok ∧ toks[k]? = some ktok ∧
    Named (jtok.text json) utf8Mode name ∧ Named (ktok.text json) utf8Mode name

variable {flags : AxlJsonFlags} {json : List UInt8} {toks : List Tok} {utf8Mode : AxlJsonFlags}

/-- The key at `k` repeats the name of an earlier key of the same object. -/
def RepeatIn (json : List UInt8) (toks : List Tok) (utf8Mode : AxlJsonFlags)
    (os : List (Nat × List Nat)) (k : Nat) : Prop :=
  ∃ o ∈ os, k ∈ o.2 ∧ ∃ j ∈ o.2, j < k ∧ SameName json toks utf8Mode j k

/-- The same with part of an object: its keys from here on are `ks`, the names of those
before are `seen`, and `os` are the objects in it. -/
def Again (json : List UInt8) (toks : List Tok) (utf8Mode : AxlJsonFlags)
    (seen : List (List UInt8)) (ks : List Nat) (os : List (Nat × List Nat)) (k : Nat) : Prop :=
  (k ∈ ks ∧ ((∃ tok, toks[k]? = some tok ∧ ∃ name ∈ seen, Named (tok.text json) utf8Mode name) ∨
    ∃ j ∈ ks, j < k ∧ SameName json toks utf8Mode j k)) ∨ RepeatIn json toks utf8Mode os k

/-- The walk goes on at `next`, or has found the first key with the property. -/
def Finds (toks : List Tok) (P : Nat → Prop) (next : Nat) : Except (ErrorCode × Nat) Nat → Prop
  | .ok n => n = next ∧ ∀ k, ¬ P k
  | .error e => e.1 = .duplicateKey ∧ ∃ k tok, P k ∧ (∀ k', P k' → k ≤ k') ∧
    toks[k]? = some tok ∧ e.2 = tok.start.toNat

theorem Finds.congr {P Q : Nat → Prop} {next : Nat} {r : Except (ErrorCode × Nat) Nat}
    (h : Finds toks P next r) (hpq : ∀ k, P k ↔ Q k) : Finds toks Q next r := by
  rwa [show Q = P from funext fun k => propext (hpq k).symm]

/-- Two walks behind one another. -/
theorem Finds.andThen {P Q : Nat → Prop} {next next' : Nat}
    {r r' : Except (ErrorCode × Nat) Nat} (h : Finds toks P next r) (hP : ∀ k, P k → k < next)
    (herr : ∀ e, r = .error e → r' = .error e) (hok : r = .ok next → Finds toks Q next' r')
    (hQ : ∀ k, Q k → next ≤ k) : Finds toks (fun k => P k ∨ Q k) next' r' := by
  cases r with
  | error e =>
    obtain ⟨hcode, k, tok, hk, hleast, htok, hoff⟩ := h
    rw [herr e rfl]
    refine ⟨hcode, k, tok, .inl hk, ?_, htok, hoff⟩
    rintro k' (hk' | hk')
    · exact hleast k' hk'
    · exact Nat.le_trans (hP k hk).le (hQ k' hk')
  | ok n =>
    obtain ⟨rfl, hnone⟩ := h
    exact (hok rfl).congr fun k => (or_iff_right (hnone k)).symm

/-! ### Ranges -/

theorem keysFrom_range {p : Part} (t : Syn p) (idx : Nat) :
    ∀ k ∈ keysFrom idx t, idx ≤ k ∧ k < idx + weight t := by
  induction t generalizing idx with
  | leaf | empty | node | stop | trail => simp [keysFrom]
  | @more a g h v r _ ih =>
    cases a with
    | true => simp [keysFrom]
    | false =>
      intro k hk
      rw [keysFrom, mem_cons] at hk
      have hw : weight (.more g h v r) = 1 + weight v + weight r := rfl
      rcases hk with rfl | hk
      · omega
      · have := ih _ k hk
        omega

theorem keysFrom_sorted {p : Part} (t : Syn p) (idx : Nat) :
    (keysFrom idx t).Pairwise (· < ·) := by
  induction t generalizing idx with
  | leaf | empty | node | stop | trail => simp [keysFrom]
  | @more a g h v r _ ih =>
    cases a with
    | true => exact .nil
    | false =>
      refine pairwise_cons.mpr ⟨fun k hk => ?_, ih _⟩
      have := (keysFrom_range r _ k hk).1
      omega

theorem objects_range {p : Part} (t : Syn p) (idx : Nat) :
    ∀ o ∈ objects idx t, o.2.Pairwise (· < ·) ∧ ∀ k ∈ o.2, idx ≤ k ∧ k < idx + weight t := by
  induction t generalizing idx with
  | leaf | stop | trail => simp [objects]
  | empty a g =>
    intro o ho
    cases a with
    | true => simp [objects] at ho
    | false =>
      obtain rfl : o = (idx, []) := by simpa [objects] using ho
      simp
  | node a h v r ihv ihr =>
    intro o ho
    have hw : weight (.node a h v r) = 1 + headWeight a + weight v + weight r := rfl
    rw [objects, mem_append, mem_append] at ho
    rcases ho with ho | ho | ho
    · cases a with
      | true => simp at ho
      | false =>
        obtain rfl : o = _ := by simpa using ho
        have hrange := keysFrom_range r (idx + 2 + weight v)
        have hhead : headWeight false = 1 := rfl
        constructor
        · refine pairwise_cons.mpr ⟨fun k hk => ?_, keysFrom_sorted r _⟩
          have := (hrange k hk).1
          omega
        · intro k hk
          rcases mem_cons.mp hk with rfl | hk
          · omega
          · have := hrange k hk
            omega
    · obtain ⟨hsorted, hrange⟩ := ihv _ o ho
      refine ⟨hsorted, fun k hk => ?_⟩
      have := hrange k hk
      omega
    · obtain ⟨hsorted, hrange⟩ := ihr _ o ho
      refine ⟨hsorted, fun k hk => ?_⟩
      have := hrange k hk
      omega
  | more g h v r ihv ihr =>
    intro o ho
    rename_i a
    have hw : weight (.more g h v r) = headWeight a + weight v + weight r := rfl
    rw [objects, mem_append] at ho
    rcases ho with ho | ho
    · obtain ⟨hsorted, hrange⟩ := ihv _ o ho
      refine ⟨hsorted, fun k hk => ?_⟩
      have := hrange k hk
      omega
    · obtain ⟨hsorted, hrange⟩ := ihr _ o ho
      refine ⟨hsorted, fun k hk => ?_⟩
      have := hrange k hk
      omega

theorem repeatIn_range {p : Part} {t : Syn p} {idx k : Nat}
    (h : RepeatIn json toks utf8Mode (objects idx t) k) : idx ≤ k ∧ k < idx + weight t := by
  obtain ⟨o, ho, hk, -⟩ := h
  exact (objects_range t idx o ho).2 k hk

theorem repeatIn_append {os os' : List (Nat × List Nat)} {k : Nat} :
    RepeatIn json toks utf8Mode (os ++ os') k ↔
      RepeatIn json toks utf8Mode os k ∨ RepeatIn json toks utf8Mode os' k := by
  simp only [RepeatIn, mem_append, or_and_right, exists_or]

theorem again_range {r : Syn (.rest false)} {seen : List (List UInt8)} {idx k : Nat}
    (h : Again json toks utf8Mode seen (keysFrom idx r) (objects idx r) k) : idx ≤ k := by
  rcases h with ⟨hk, -⟩ | h
  · exact (keysFrom_range r idx k hk).1
  · exact (repeatIn_range h).1

/-! ## The walk -/

/-- What the walk does with a tree whose tokens are those from `idx` on; twice their number
is fuel enough. -/
def Checked (json : List UInt8) (toks : List Tok) (utf8Mode : AxlJsonFlags) :
    {p : Part} → Nat → Syn p → Prop
  | .value, idx, v => ∀ fuel, 2 * weight v ≤ fuel + 1 →
    Finds toks (RepeatIn json toks utf8Mode (objects idx v)) (idx + weight v)
      (dupCheckSubtree json toks utf8Mode fuel idx)
  | .rest false, idx, r => ∀ fuel linear seen, 2 * weight r ≤ fuel →
    Finds toks (Again json toks utf8Mode seen (keysFrom idx r) (objects idx r)) (idx + weight r)
      (dupCheckMembers json toks utf8Mode linear fuel r.count idx seen)
  | .rest true, idx, r => ∀ fuel, 2 * weight r ≤ fuel →
    Finds toks (RepeatIn json toks utf8Mode (objects idx r)) (idx + weight r)
      (dupCheckItems json toks utf8Mode fuel r.count idx)

/-- One member, and those behind it. -/
theorem members_step {off idx fuel : Nat} {h : Head false} {v : Syn .value}
    {r : Syn (.rest false)} (he : Element flags json toks off idx h v r)
    (hv : Checked json toks utf8Mode (idx + 1) v)
    (hr : Checked json toks utf8Mode (idx + 1 + weight v) r) (linear : Bool)
    (seen : List (List UInt8)) (hfuel : 2 * weight v + 2 * weight r ≤ fuel) :
    Finds toks (Again json toks utf8Mode seen (idx :: keysFrom (idx + 1 + weight v) r)
        (objects (idx + 1) v ++ objects (idx + 1 + weight v) r)) (idx + 1 + weight v + weight r)
      (dupCheckMembers json toks utf8Mode linear (fuel + 1) (r.count + 1) idx seen) := by
  obtain ⟨tok, htok, hkey⟩ := he.key rfl
  obtain ⟨name, hname, hnamed⟩ := dupKeyName_named hkey.nul linear utf8Mode
  have hrange := keysFrom_range r (idx + 1 + weight v)
  have hfirst : ∀ k, Again json toks utf8Mode seen (idx :: keysFrom (idx + 1 + weight v) r)
      (objects (idx + 1) v ++ objects (idx + 1 + weight v) r) k → idx ≤ k := by
    rintro k (⟨hk, -⟩ | hk)
    · rcases mem_cons.mp hk with rfl | hk
      · exact Nat.le_refl _
      · have := (hrange k hk).1
        omega
    · rcases repeatIn_append.mp hk with hk | hk
      · have := (repeatIn_range hk).1
        omega
      · have := (repeatIn_range hk).1
        omega
  rw [dupCheckMembers, htok]
  dsimp only
  rw [if_neg (by simp [hkey.type]), hname]
  dsimp only
  by_cases hseen : name ∈ seen
  · rw [if_pos (by simpa using hseen)]
    exact ⟨rfl, idx, tok, .inl ⟨mem_cons_self, .inl ⟨tok, htok, name, hseen, hnamed⟩⟩,
      hfirst, htok, rfl⟩
  · rw [if_neg (by simpa using hseen)]
    have hrest := hr fuel linear (name :: seen) (by omega)
    refine Finds.congr (Finds.andThen (hv fuel (by omega)) (fun k hk => (repeatIn_range hk).2)
      (fun e hval => by rw [hval]) (fun hval => by rw [hval]; exact hrest)
      fun k hk => again_range hk) fun k => ?_
    -- the name of this key is among those seen by the next ones
    have hsame : ∀ {tok'}, toks[k]? = some tok' → (Named (tok'.text json) utf8Mode name ↔
        SameName json toks utf8Mode idx k) := by
      intro tok' htok'
      constructor
      · exact fun hn => ⟨tok, tok', name, htok, htok', hnamed, hn⟩
      · rintro ⟨jtok, ktok, name', hj, hk, hn, hn'⟩
        obtain rfl := Option.some.inj (htok.symm.trans hj)
        obtain rfl := Option.some.inj (htok'.symm.trans hk)
        rwa [named_unique hnamed hn]
    constructor
    · rintro (hk | ⟨hk, hor⟩ | hk)
      · exact .inr (repeatIn_append.mpr (.inl hk))
      · have hlt := (hrange k hk).1
        refine .inl ⟨mem_cons_of_mem _ hk, ?_⟩
        rcases hor with ⟨tok', htok', name', hmem, hn⟩ | ⟨j, hj, hlt, hs⟩
        · rcases mem_cons.mp hmem with rfl | hmem
          · exact .inr ⟨idx, mem_cons_self, by omega, (hsame htok').mp hn⟩
          · exact .inl ⟨tok', htok', name', hmem, hn⟩
        · exact .inr ⟨j, mem_cons_of_mem _ hj, hlt, hs⟩
      · exact .inr (repeatIn_append.mpr (.inr hk))
    · rintro (⟨hk, hor⟩ | hk)
      · refine .inr (.inl ?_)
        rcases mem_cons.mp hk with rfl | hk
        · -- the first key repeats nothing
          exfalso
          rcases hor with ⟨tok', htok', name', hmem, hn⟩ | ⟨j, hj, hlt, -⟩
          · obtain rfl := Option.some.inj (htok.symm.trans htok')
            exact hseen (named_unique hnamed hn ▸ hmem)
          · rcases mem_cons.mp hj with rfl | hj
            · exact absurd hlt (Nat.lt_irrefl _)
            · have := (hrange j hj).1
              omega
        · refine ⟨hk, ?_⟩
          rcases hor with ⟨tok', htok', name', hmem, hn⟩ | ⟨j, hj, hlt, hs⟩
          · exact .inl ⟨tok', htok', name', mem_cons_of_mem _ hmem, hn⟩
          · rcases mem_cons.mp hj with rfl | hj
            · obtain ⟨-, ktok, -, -, hktok, -⟩ := id hs
              exact .inl ⟨ktok, hktok, name, mem_cons_self, (hsame hktok).mpr hs⟩
            · exact .inr ⟨j, hj, hlt, hs⟩
      · rcases repeatIn_append.mp hk with hk | hk
        · exact .inl hk
        · exact .inr (.inr hk)

/-- One element of an array, and those behind it. -/
theorem items_step {idx fuel : Nat} {v : Syn .value} {r : Syn (.rest true)}
    (hv : Checked json toks utf8Mode idx v) (hr : Checked json toks utf8Mode (idx + weight v) r)
    (hfuel : 2 * weight v + 2 * weight r ≤ fuel + 1) :
    Finds toks (RepeatIn json toks utf8Mode (objects idx v ++ objects (idx + weight v) r))
      (idx + weight v + weight r)
      (dupCheckItems json toks utf8Mode (fuel + 1) (r.count + 1) idx) := by
  have hone := weight_pos v
  rw [dupCheckItems]
  have hrest := hr fuel (by omega)
  exact Finds.congr (Finds.andThen (hv fuel (by omega)) (fun k hk => (repeatIn_range hk).2)
    (fun e hval => by rw [hval]) (fun hval => by rw [hval]; exact hrest)
    fun k hk => (repeatIn_range hk).1) fun k => repeatIn_append.symm

/-- An object whose first key is the token behind its own. -/
theorem repeatIn_object {idx k : Nat} {ks : List Nat} {os : List (Nat × List Nat)} :
    RepeatIn json toks utf8Mode ((idx, ks) :: os) k ↔ Again json toks utf8Mode [] ks os k := by
  simp only [RepeatIn, Again, mem_cons, exists_eq_or_imp, not_mem_nil, false_and,
    exists_false, and_false, false_or]

/-- Nothing is left of the container. -/
theorem checked_nothing {a : Bool} {r : Syn (.rest a)} (idx : Nat) (hcount : r.count = 0)
    (hweight : weight r = 0) (hkeys : keysFrom idx r = []) (hobjects : objects idx r = []) :
    Checked json toks utf8Mode idx r := by
  cases a with
  | false =>
    intro fuel linear seen _
    rw [hcount, hweight, hkeys, hobjects, dupCheckMembers]
    exact ⟨rfl, by simp [Again, RepeatIn]⟩
  | true =>
    intro fuel _
    rw [hcount, hweight, hobjects, dupCheckItems]
    exact ⟨rfl, by simp [RepeatIn]⟩

/-- **The walk finds the first key that repeats a name.** -/
theorem dupCheck_spec {p : Part} (t : Syn p) (off idx : Nat)
    (hs : Stands flags json toks off idx t) : Checked json toks utf8Mode idx t := by
  induction t generalizing off idx with
  | leaf l =>
    intro fuel hfuel
    obtain ⟨f, rfl⟩ : ∃ f, fuel = f + 1 := ⟨fuel - 1, by rw [weight] at hfuel; omega⟩
    obtain ⟨tok, htok, hhead⟩ := hs.root
    obtain rfl := Option.some.inj hhead
    rw [dupCheckSubtree, htok]
    have hnone : ∀ k, ¬ RepeatIn json toks utf8Mode (objects idx (.leaf l)) k := by
      simp [RepeatIn, objects]
    cases l <;> exact ⟨rfl, hnone⟩
  | empty a g =>
    intro fuel hfuel
    obtain ⟨f, rfl⟩ : ∃ f, fuel = f + 1 := ⟨fuel - 1, by rw [weight] at hfuel; omega⟩
    obtain ⟨tok, htok, hhead⟩ := hs.root
    obtain rfl := Option.some.inj hhead
    rw [dupCheckSubtree, htok]
    have hnone : ∀ k, ¬ RepeatIn json toks utf8Mode (objects idx (.empty a g)) k := by
      cases a <;> simp [RepeatIn, objects]
    cases a with
    | false =>
      show Finds _ _ _ (dupCheckMembers _ _ _ _ f 0 _ _)
      rw [dupCheckMembers]
      exact ⟨rfl, hnone⟩
    | true =>
      show Finds _ _ _ (dupCheckItems _ _ _ f 0 _)
      rw [dupCheckItems]
      exact ⟨rfl, hnone⟩
  | @stop a g => exact checked_nothing idx rfl rfl (by simp [keysFrom]) rfl
  | @trail a g g' => exact checked_nothing idx rfl rfl (by simp [keysFrom]) rfl
  | node a h v r ihv ihr =>
    intro fuel hfuel
    have helem := hs.node
    have hw : weight (.node a h v r) = 1 + headWeight a + weight v + weight r := rfl
    have hone := weight_pos v
    obtain ⟨f, rfl⟩ : ∃ f, fuel = f + 2 := ⟨fuel - 2, by omega⟩
    obtain ⟨tok, htok, hhead⟩ := hs.root
    obtain rfl := Option.some.inj hhead
    rw [dupCheckSubtree, htok]
    cases a with
    | false =>
      have hhw : headWeight false = 1 := rfl
      have hstep := members_step helem (ihv _ _ helem.value) (ihr _ _ helem.rest)
        (r.count + 1 ≤ dupLinearMax) [] (show 2 * weight v + 2 * weight r ≤ f by omega)
      have hnext : idx + weight (.node false h v r) = idx + 1 + 1 + weight v + weight r := by omega
      rw [hnext]
      exact hstep.congr fun k => repeatIn_object.symm
    | true =>
      have hhw : headWeight true = 0 := rfl
      have hstep := items_step (ihv _ _ helem.value) (ihr _ _ helem.rest)
        (show 2 * weight v + 2 * weight r ≤ f + 1 by omega)
      have hnext : idx + weight (.node true h v r) = idx + 1 + weight v + weight r := by omega
      rw [hnext]
      exact hstep
  | @more a g h v r ihv ihr =>
    have helem := hs.more
    have hw : weight (.more g h v r) = headWeight a + weight v + weight r := rfl
    have hone := weight_pos v
    cases a with
    | false =>
      intro fuel linear seen hfuel
      have hhw : headWeight false = 1 := rfl
      obtain ⟨f, rfl⟩ : ∃ f, fuel = f + 1 := ⟨fuel - 1, by omega⟩
      have hstep := members_step helem (ihv _ _ helem.value) (ihr _ _ helem.rest) linear seen
        (show 2 * weight v + 2 * weight r ≤ f by omega)
      have hnext : idx + weight (.more g h v r) = idx + 1 + weight v + weight r := by omega
      rw [hnext]
      exact hstep
    | true =>
      intro fuel hfuel
      have hhw : headWeight true = 0 := rfl
      obtain ⟨f, rfl⟩ : ∃ f, fuel = f + 1 := ⟨fuel - 1, by omega⟩
      have hstep := items_step (ihv _ _ helem.value) (ihr _ _ helem.rest)
        (show 2 * weight v + 2 * weight r ≤ f + 1 by omega)
      have hnext : idx + weight (.more g h v r) = idx + weight v + weight r := by omega
      rw [hnext]
      exact hstep

/-! ## The parser -/

/-- The token of a key whose name repeats that of an earlier key of its object, as a walk
over the object gives them. -/
def Repeats (rd : Reader) (ktok : Tok) : Prop :=
  ∃ i t m m' name v v', rd.tokens[i]? = some t ∧ t.type = .object ∧ m < m' ∧
    YieldsNamed (rd.sub i) m name v ∧ YieldsNamed (rd.sub i) m' name v' ∧ KeyOf (rd.sub i) m' ktok

/-- A sorted list by its positions. -/
theorem lt_iff_of_sorted {l : List Nat} (h : l.Pairwise (· < ·)) {m m' j k : Nat}
    (hj : l[m]? = some j) (hk : l[m']? = some k) : m < m' ↔ j < k := by
  obtain ⟨hm, rfl⟩ := List.getElem?_eq_some_iff.mp hj
  obtain ⟨hm', rfl⟩ := List.getElem?_eq_some_iff.mp hk
  constructor
  · exact fun hlt => pairwise_iff_getElem.mp h m m' hm hm' hlt
  · intro hlt
    by_contra hge
    rcases Nat.lt_or_eq_of_le (Nat.not_lt.mp hge) with hgt | rfl
    · have := pairwise_iff_getElem.mp h m' m hm' hm hgt
      omega
    · omega

/-- The keys of a walk over the object at `i`, by their positions in the whole array. -/
theorem object_member {rd : Reader} {o : Nat × List Nat} (h : ObjectAt rd.json rd.tokens o) (m : Nat) :
    (∀ {ktok}, KeyOf (rd.sub o.1) m ktok ↔ ∃ k, o.2[m]? = some k ∧ rd.tokens[k]? = some ktok) ∧
      ∀ {name}, (∃ v, YieldsNamed (rd.sub o.1) m name v) ↔ ∃ k ktok, o.2[m]? = some k ∧
        rd.tokens[k]? = some ktok ∧ Named (ktok.text rd.json) rd.utf8Mode name := by
  obtain ⟨tok, htok, htype, hpos⟩ := h.object
  have hhead : (rd.sub o.1).tokens.head? = some tok := by
    rw [Reader.sub, head?_drop]
    exact htok
  have hshift := positions_drop rd.tokens o.1 tok.size 1
  rw [Nat.add_comm 1, hpos] at hshift
  -- a position of the walk and the position in the array
  have hindex : ∀ {p}, (positions (rd.sub o.1).tokens tok.size 1)[m]? = some p →
      o.2[m]? = some (p + o.1) := by
    intro p hp
    rw [← hshift, getElem?_map, show (positions (rd.tokens.drop o.1) tok.size 1)[m]? = _ from hp]
    rfl
  have hindex' : ∀ {k}, o.2[m]? = some k →
      ∃ p, (positions (rd.sub o.1).tokens tok.size 1)[m]? = some p ∧ k = p + o.1 := by
    intro k hk
    rw [← hshift, getElem?_map] at hk
    obtain ⟨p, hp, rfl⟩ := Option.map_eq_some_iff.mp hk
    exact ⟨p, hp, rfl⟩
  have hget : ∀ p, (rd.sub o.1).tokens[p]? = rd.tokens[p + o.1]? := by
    intro p
    rw [Reader.sub, getElem?_drop, Nat.add_comm]
  constructor
  · intro ktok
    rw [keyOf_iff hhead htype]
    constructor
    · rintro ⟨p, hp, hk⟩
      exact ⟨_, hindex hp, hget p ▸ hk⟩
    · rintro ⟨k, hk, hktok⟩
      obtain ⟨p, hp, rfl⟩ := hindex' hk
      exact ⟨p, hp, (hget p).trans hktok⟩
  · intro name
    constructor
    · rintro ⟨v, hv⟩
      obtain ⟨p, ktok, hp, hk, hn, -⟩ := (yieldsNamed_iff hhead htype).mp hv
      exact ⟨_, ktok, hindex hp, hget p ▸ hk, hn⟩
    · rintro ⟨k, ktok, hk, hktok, hn⟩
      obtain ⟨p, hp, rfl⟩ := hindex' hk
      exact ⟨_, (yieldsNamed_iff hhead htype).mpr ⟨p, ktok, hp, (hget p).trans hktok, hn, rfl⟩⟩

theorem repeats_iff {lead tail : List UInt8} {t : Syn .value} (h : IsText flags json lead t tail)
    {ktok : Tok} : Repeats ⟨json, tokens lead.length t, utf8Mode⟩ ktok ↔
      ∃ k, RepeatIn json (tokens lead.length t) utf8Mode (objects 0 t) k ∧
        (tokens lead.length t)[k]? = some ktok := by
  constructor
  · rintro ⟨i, tok, m, m', name, v, v', htok, htype, hlt, hm, hm', hkey⟩
    obtain ⟨ks, hmem, hobj⟩ := h.objectAt htok htype
    have hmember := @object_member ⟨json, tokens lead.length t, utf8Mode⟩ _ hobj
    obtain ⟨j, jtok, hj, hjtok, hnj⟩ := (hmember m).2.mp ⟨v, hm⟩
    obtain ⟨k, ktok', hk, hktok', hnk⟩ := (hmember m').2.mp ⟨v', hm'⟩
    obtain ⟨k', hk', hktok⟩ := (hmember m').1.mp hkey
    obtain rfl := Option.some.inj (hk.symm.trans hk')
    have hsorted := (objects_range t 0 _ hmem).1
    exact ⟨k, ⟨_, hmem, mem_of_getElem? hk, j, mem_of_getElem? hj,
      (lt_iff_of_sorted hsorted hj hk).mp hlt, jtok, ktok', name, hjtok, hktok', hnj, hnk⟩, hktok⟩
  · rintro ⟨k, ⟨o, hmem, hk, j, hj, hlt, jtok, ktok', name, hjtok, hktok', hnj, hnk⟩, hktok⟩
    have hobj := objects_sound t lead.length 0 h.stands o hmem
    have hmember := @object_member ⟨json, tokens lead.length t, utf8Mode⟩ _ hobj
    obtain ⟨m, hm⟩ := mem_iff_getElem?.mp hj
    obtain ⟨m', hm'⟩ := mem_iff_getElem?.mp hk
    obtain ⟨tok, htok, htype, -⟩ := hobj.object
    obtain ⟨v, hv⟩ := (hmember m).2.mpr ⟨j, jtok, hm, hjtok, hnj⟩
    obtain ⟨v', hv'⟩ := (hmember m').2.mpr ⟨k, ktok', hm', hktok', hnk⟩
    exact ⟨o.1, tok, m, m', name, v, v', htok, htype,
      (lt_iff_of_sorted (objects_range t 0 o hmem).1 hm hm').mpr hlt, hv, hv',
      (hmember m').1.mpr ⟨k, hm', hktok⟩⟩

/-- The tokens of a tree are in document order. -/
theorem tokens_start_le {p : Part} {t : Syn p} (ht : t.Valid (lexicon flags)) {off k k' : Nat}
    {tok tok' : Tok} (hk : (tokens off t)[k]? = some tok) (hk' : (tokens off t)[k']? = some tok')
    (hle : k ≤ k') : tok.start ≤ tok'.start := by
  rcases Nat.eq_or_lt_of_le hle with rfl | hlt
  · rw [Option.some.inj (hk.symm.trans hk')]
  · have hsorted : (tokens off t).Pairwise fun x y => x.start < y.start :=
      (listing_sorted ht off).map Tok.ofToken fun x y hxy => Int.ofNat_lt.mpr hxy
    obtain ⟨h, rfl⟩ := List.getElem?_eq_some_iff.mp hk
    obtain ⟨h', rfl⟩ := List.getElem?_eq_some_iff.mp hk'
    exact (pairwise_iff_getElem.mp hsorted k k' h h' hlt).le

/-- The policy over the tokens of an accepted text. -/
theorem checkDuplicateKeys_spec {lead tail : List UInt8} {t : Syn .value}
    (h : IsText flags json lead t tail) :
    (checkDuplicateKeys json (tokens lead.length t) utf8Mode = none ∧
        ¬ ∃ ktok, Repeats ⟨json, tokens lead.length t, utf8Mode⟩ ktok) ∨
      ∃ ktok, Repeats ⟨json, tokens lead.length t, utf8Mode⟩ ktok ∧
        checkDuplicateKeys json (tokens lead.length t) utf8Mode =
          some (.duplicateKey, ktok.start.toNat) ∧ 0 ≤ ktok.start ∧
        ∀ ktok', Repeats ⟨json, tokens lead.length t, utf8Mode⟩ ktok' →
          ktok.start ≤ ktok'.start := by
  have hweight := tokens_length t lead.length
  have hne : tokens lead.length t ≠ [] := by
    have := weight_pos t
    intro hnil
    rw [hnil, length_nil] at hweight
    omega
  have hchecked : Checked json (tokens lead.length t) utf8Mode 0 t :=
    dupCheck_spec t lead.length 0 h.stands
  have hspec := hchecked (2 * (tokens lead.length t).length + 2) (by omega)
  rw [checkDuplicateKeys, if_neg hne]
  generalize dupCheckSubtree _ _ _ _ _ = r at hspec ⊢
  cases r with
  | ok n =>
    refine .inl ⟨rfl, ?_⟩
    rintro ⟨ktok, hrep⟩
    obtain ⟨k, hk, -⟩ := (repeats_iff h).mp hrep
    exact hspec.2 k hk
  | error e =>
    obtain ⟨hcode, k, tok, hk, hleast, htok, hoff⟩ := hspec
    refine .inr ⟨tok, (repeats_iff h).mpr ⟨k, hk, htok⟩, ?_, ?_, ?_⟩
    · rw [← hcode, ← hoff]
    · obtain ⟨x, -, rfl⟩ := mem_map.mp (mem_of_getElem? htok)
      exact Int.natCast_nonneg x.start
    · intro ktok' hrep
      obtain ⟨k', hk', htok'⟩ := (repeats_iff h).mp hrep
      exact tokens_start_le h.valid htok htok' (hleast k' hk')

/-- The rejection of a document that is accepted without it: it fails over the first key
that repeats a name, if there is one. -/
theorem duplicates_exact {rd : Reader} (hlen : json.length < 2 ^ 31)
    (hparse : parse json flags = .ok rd) :
    ((∃ e, parse json (flags ||| rejectDuplicates) = .error e ∧ e.code = .duplicateKey) ↔
      ∃ ktok, Repeats rd ktok) ∧
    ((¬ ∃ ktok, Repeats rd ktok) → parse json (flags ||| rejectDuplicates) = .ok rd) ∧
    ∀ e, parse json (flags ||| rejectDuplicates) = .error e → e.code = .duplicateKey ∧
      ∃ ktok, Repeats rd ktok ∧ (e.offset : Int) = ktok.start ∧
        ∀ ktok', Repeats rd ktok' → ktok.start ≤ ktok'.start := by
  obtain ⟨hne, hmode⟩ := parse_ready hparse
  obtain ⟨hok, hpol, hrd⟩ := (parse_of_scan hne hmode rd).mp hparse
  obtain ⟨lead, t, tail, htext, rfl, -⟩ := (parse_ok_iff hmode hlen rd).mp hparse
  have htoks : (scan json flags).2 = tokens lead.length t := congrArg Reader.tokens hrd.symm
  -- the scan and the other policy are the same
  obtain ⟨hok', htoks'⟩ :=
    (scan_alongside (wider_or (F := flags) (m := rejectDuplicates) (by decide)) json).1 hok
  have hutf8 : utf8Of (flags ||| rejectDuplicates) = utf8Of flags :=
    and_or_of_disjoint (by decide)
  have hset : allows (flags ||| rejectDuplicates) rejectDuplicates = true := by
    rw [allows_or, show allows rejectDuplicates rejectDuplicates = true by decide, Bool.or_true]
  have hstrict : (if utf8Of flags = utf8Strict then checkUtf8Strict json else none) = none := by
    rw [policyCode] at hpol
    split at hpol
    · cases hpol
    · assumption
  have hrun := parse_scan hne (hutf8.symm ▸ hmode)
  dsimp only at hrun
  rw [if_pos hok', htoks', htoks, applyPolicies, hutf8, hstrict] at hrun
  dsimp only at hrun
  rw [if_pos hset] at hrun
  rcases @checkDuplicateKeys_spec flags json (utf8Of flags) lead tail t htext with
    ⟨hcheck, hnone⟩ | ⟨ktok, hrep, hcheck, hpos, hleast⟩
  · rw [hcheck] at hrun
    replace hrun : parse json (flags ||| rejectDuplicates) = .ok _ := hrun
    refine ⟨iff_of_false ?_ hnone, fun _ => hrun, fun e he => ?_⟩
    · rintro ⟨e, he, -⟩
      cases hrun.symm.trans he
    · cases hrun.symm.trans he
  · rw [hcheck] at hrun
    dsimp only at hrun
    rw [if_neg (by simp)] at hrun
    refine ⟨iff_of_true ⟨_, hrun, rfl⟩ ⟨ktok, hrep⟩, fun hnone => absurd ⟨ktok, hrep⟩ hnone, ?_⟩
    intro e he
    obtain rfl := Except.error.inj (hrun.symm.trans he)
    exact ⟨rfl, ktok, hrep, Int.toNat_of_nonneg hpos, hleast⟩

/-- The document `{"a":1,"a":2}`. -/
theorem duplicates_exact_twice :
    let json : List UInt8 :=
      [0x7B, 0x22, 0x61, 0x22, 0x3A, 0x31, 0x2C, 0x22, 0x61, 0x22, 0x3A, 0x32, 0x7D]
    let rd : Reader := ⟨json, [⟨.object, 0, 13, 2⟩, ⟨.string, 2, 3, 0⟩, ⟨.primitive, 5, 6, 0⟩,
      ⟨.string, 8, 9, 0⟩, ⟨.primitive, 11, 12, 0⟩], utf8Repair⟩
    parse json (strict ||| rejectDuplicates) = .error ⟨.duplicateKey, 8, 1, 9, 0⟩ ∧
      ∃ ktok, Repeats rd ktok ∧ ((8 : Nat) : Int) = ktok.start ∧
        ∀ ktok', Repeats rd ktok' → ktok.start ≤ ktok'.start := by
  intro json rd
  have hfail : parse json (strict ||| rejectDuplicates) = .error ⟨.duplicateKey, 8, 1, 9, 0⟩ := by
    decide +kernel
  have hparse : parse json strict = .ok rd := by decide +kernel
  exact ⟨hfail, ((duplicates_exact (by decide) hparse).2.2 _ hfail).2⟩

end Json

end AxlSdk
