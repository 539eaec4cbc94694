import AxlSdk.Json.Events
import AxlSdk.Json.Names

/-!
# Members of objects

A reader is a token array with its value at the front. `axl_json_object_next`
walks the members of an object and decodes their keys into a buffer of the caller;
`axl_json_get_value` looks a key up by name; `axl_json_event_equals` compares the
key of an event of the scanner.

- `tokenEquals_iff`: a lookup compares names, and misses a key that ends in a line
  continuation or holds a NUL.
- `key_identity`: when the three agree.
-/

namespace AxlSdk

namespace Json

open Utf8 JsonSyntax List

/-! ## Names of keys -/

/-- `axl_strncmp(a, b, n) == 0`. -/
def strncmpEq : List UInt8 → List UInt8 → Nat → Bool
  | _, _, 0 => true
  | a, b, n + 1 =>
    if a.headD 0 ≠ b.headD 0 then false
    else if a.headD 0 = 0 then true
    else strncmpEq a.tail b.tail n

/-- `JSON_KEY_CMP_MAX`. -/
def jsonKeyCmpMax : Nat := 256

/-- `token_equals`; `key` is a C string, without its terminator. -/
def tokenEquals (json : List UInt8) (tok : Tok) (key : List UInt8) (utf8Mode : AxlJsonFlags) :
    Bool :=
  if tok.type ≠ .string then false
  else
    let bytes := tok.text json
    if keyBytesAreName bytes utf8Mode then
      bytes.length = key.length && strncmpEq bytes key bytes.length
    else if key.length + 1 > jsonKeyCmpMax then false
    else
      match decodeJsonString bytes (key.length + 1) utf8Mode with
      | none => false
      | some (dec, truncated) => !truncated && cString dec == key

/-- `axl_json_decode_string`: the buffer and the length returned, none for -1. -/
def axlJsonDecodeString (src : List UInt8) (size : Nat) : Option (List UInt8 × Nat) :=
  match decodeJsonString src size utf8Raw with
  | some (out, false) => some (out, (cString out).length)
  | _ => none

/-- `EVENT_CMP_MAX`. -/
def eventCmpMax : Nat := 256

/-- `axl_json_event_equals`. -/
def eventEquals (ev : Event) (str : List UInt8) : Bool :=
  match ev.text with
  | .bytes text =>
    if str.length + 1 > eventCmpMax then false
    else
      match axlJsonDecodeString text (str.length + 1) with
      | none => false
      | some (tmp, got) => got = str.length && tmp.take str.length == str
  | .null | .wild => false

/-! ## Walks over an object -/

/-- `borrow_sub_reader`. -/
def Reader.sub (rd : Reader) (idx : Nat) : Reader :=
  ⟨rd.json, rd.tokens.drop idx, rd.utf8Mode⟩

/-- The loop of `find_value_token` over the `pairs` members left. -/
def findValueLoop (json : List UInt8) (toks : List Tok) (key : List UInt8)
    (utf8Mode : AxlJsonFlags) : Nat → Nat → Option Nat
  | 0, _ => none
  | pairs + 1, idx =>
    match toks[idx]?, toks[idx + 1]? with
    | some kt, some _ =>
      if tokenEquals json kt key utf8Mode then some (idx + 1)
      else findValueLoop json toks key utf8Mode pairs (skipValue toks (idx + 1))
    | _, _ => none

/-- `find_value_token`. -/
def findValueToken (rd : Reader) (key : List UInt8) : Option Nat :=
  match rd.tokens.head? with
  | none => none
  | some t =>
    if t.type ≠ .object then none
    else findValueLoop rd.json rd.tokens key rd.utf8Mode t.size 1

/-- `axl_json_get_value`. -/
def getValue (rd : Reader) (key : List UInt8) : Option Reader :=
  (findValueToken rd key).map rd.sub

/-- `AxlJsonObjectIter`; `truncated` is its `AXL_JSON_ERR_TRUNCATED`. -/
structure ObjectIter where
  rd : Reader
  pos : Nat
  remaining : Nat
  truncated : Bool

/-- `axl_json_value_object_begin`. -/
def valueObjectBegin (rd : Reader) : Option ObjectIter :=
  match rd.tokens.head? with
  | none => none
  | some t => if t.type ≠ .object then none else some ⟨rd, 1, t.size, false⟩

/-- `axl_json_object_next` with a key buffer of `keySize` bytes: what the buffer holds,
the value, and the iterator behind the member. -/
def objectNext (it : ObjectIter) (keySize : Nat) : Option (List UInt8 × Reader × ObjectIter) :=
  if it.remaining = 0 then none
  else
    match it.rd.tokens[it.pos]?, it.rd.tokens[it.pos + 1]? with
    | some ktok, some _ =>
      -- a buffer without a byte is left alone and reported as too short
      let key := (decodeJsonString (ktok.text it.rd.json) keySize it.rd.utf8Mode).getD ([], true)
      some (key.1, it.rd.sub (it.pos + 1),
        { it with
          pos := skipValue it.rd.tokens (it.pos + 1)
          remaining := it.remaining - 1
          truncated := key.2 })
    | _, _ => none

/-- The iterator in front of the member `n` of an object. -/
def iterAt (rd : Reader) : Nat → Option ObjectIter
  | 0 => valueObjectBegin rd
  | n + 1 => (iterAt rd n).bind fun it => (objectNext it 0).map fun r => r.2.2

/-! ## Keys that a lookup finds -/

/-- The source ends in line continuations. -/
def EndsSilently (bytes : List UInt8) : Prop := ∃ s, s ≠ [] ∧ Reads bytes s (decodeAll bytes)

/-- A key that a lookup by its name finds: without NUL, and without line continuations
at its end unless repair makes the name longer than the bytes before them. -/
def Plain (bytes : List UInt8) (utf8Mode : AxlJsonFlags) : Prop :=
  0 ∉ bytes ∧ ¬ (EndsSilently bytes ∧ (utf8Of utf8Mode = utf8Repair → WellFormed (decodeAll bytes)))

/-- The first point at which the bytes read so far have been given. -/
theorem fills_exists {src s out : List UInt8} (h : Reads src s out) :
    ∃ s₀, Fills src s₀ out ∧ Reads s₀ s [] := by
  induction h with
  | nil => exact ⟨_, .nil, .nil⟩
  | @unit src s bs hs h ih =>
    obtain ⟨s₀, hfill, hreads⟩ := ih
    by_cases hne : (decodeUnit src).1 ++ bs = []
    · refine ⟨src, ⟨hne ▸ .nil, fun s' hs' => hne ▸ hs'⟩, ?_⟩
      rw [← hne]
      exact .unit hs h
    · exact ⟨s₀, hfill.unit hs hne, hreads⟩

variable {bytes : List UInt8} {utf8Mode : AxlJsonFlags}

/-- A buffer with room for the whole and no more is cut badly by silent units at the end. -/
theorem IsWhole.cutsBadly_iff {whole : List UInt8} (h : IsWhole bytes utf8Mode whole) :
    CutsBadly bytes whole.length utf8Mode ↔
      EndsSilently bytes ∧ (utf8Of utf8Mode = utf8Repair → WellFormed (decodeAll bytes)) := by
  have hle := h.length_le
  constructor
  · rintro ⟨s, out, hfill, hs, hout, hbad⟩
    have hall := hfill.reads.decodeAll
    have hlen := congrArg List.length hall
    rw [length_append] at hlen
    have hsilent : decodeAll s = [] := eq_nil_of_length_eq_zero (by omega)
    rw [hsilent, append_nil] at hall
    rw [badRest_silent hsilent] at hbad
    rw [hall]
    exact ⟨⟨s, hs, hall ▸ hfill.reads⟩, hbad⟩
  · rintro ⟨⟨s, hs, hreads⟩, hwf⟩
    obtain ⟨s₀, hfill, hto⟩ := fills_exists hreads
    have hs₀ : s₀ ≠ [] := by
      rintro rfl
      exact hs (reads_nil hto).1
    have hwhole : whole = decodeAll bytes := by
      by_cases hmode : utf8Of utf8Mode = utf8Repair
      · exact (h.repaired hmode).unique (hwf hmode).repairs
      · exact h.plain hmode
    have hsilent : decodeAll s₀ = [] := by
      have hlen := congrArg List.length hfill.reads.decodeAll
      rw [length_append] at hlen
      exact eq_nil_of_length_eq_zero (by omega)
    refine ⟨s₀, decodeAll bytes, hfill, hs₀, by rw [hwhole], ?_⟩
    rwa [badRest_silent hsilent]

variable {name : List UInt8}

/-- The comparison that decodes into a buffer of the size of the name finds the plain keys
of that name. -/
theorem decode_name_iff (hname : 0 ∉ name) :
    decodeJsonString bytes (name.length + 1) utf8Mode = some (name, false) ↔
      Named bytes utf8Mode name ∧ Plain bytes utf8Mode := by
  constructor
  · intro h
    have hwhole := isWhole_of_decode h
    refine ⟨named_iff.mpr ⟨name, hwhole, cString_eq_self hname⟩, ?_, ?_⟩
    · exact fun hmem => hname (hwhole.mem_zero.mpr hmem)
    · rw [← hwhole.cutsBadly_iff]
      obtain ⟨w, truncated, hdec, hiff⟩ := hwhole.cut (Nat.le_add_left 1 name.length)
      obtain ⟨rfl, rfl⟩ := Prod.mk.inj (Option.some.inj (h.symm.trans hdec))
      exact hiff.mp ⟨cleanCut_all (Nat.le_refl _), by simp⟩
  · rintro ⟨hnamed, hnul, hends⟩
    obtain ⟨whole, hwhole, hcstr⟩ := named_iff.mp hnamed
    obtain rfl : whole = name := by
      rwa [cString_eq_self fun hmem => hnul (hwhole.mem_zero.mp hmem)] at hcstr
    rw [← hwhole.cutsBadly_iff] at hends
    obtain ⟨w, truncated, hdec, hiff⟩ := hwhole.cut (Nat.le_add_left 1 whole.length)
    have ht := hiff.mpr hends
    obtain rfl := ht.cut.unique (cleanCut_all (Nat.le_refl _))
    rw [hdec, show truncated = false from Bool.eq_false_iff.mpr fun h => ht.report.mp h rfl]

/-- A decode as long as its buffer allows holds no NUL that would cut it short. -/
theorem decode_cString {w : List UInt8} {truncated : Bool}
    (h : decodeJsonString bytes (name.length + 1) utf8Mode = some (w, truncated))
    (hw : (cString w).length = name.length) : cString w = w := by
  have hfit : w.length ≤ name.length := (decodeJsonString_front h).1
  have hpre : cString w <+: w := takeWhile_prefix _
  exact hpre.eq_of_length (Nat.le_antisymm hpre.length_le (hw ▸ hfit))

/-! ### Names that need no decoding -/

theorem decodeAll_bytes (h : 0x5C ∉ bytes) :
    decodeAll bytes = bytes ∧ ¬ EndsSilently bytes := by
  -- without a backslash every unit is a byte
  have hreads : ∀ {s s' out : List UInt8}, 0x5C ∉ s → Reads s s' out → s = out ++ s' := by
    intro s s' out hs hr
    induction hr with
    | nil => rfl
    | @unit s s' bs hne _ ih =>
      obtain ⟨c, cs, rfl⟩ := exists_cons_of_ne_nil hne
      rw [mem_cons, not_or] at hs
      have hunit := @decodeUnit_byte c cs (.inl (Ne.symm hs.1))
      rw [hunit] at ih ⊢
      rw [append_assoc, ← ih hs.2]
      rfl
  have hall := hreads h (reads_decodeAll bytes)
  rw [append_nil] at hall
  refine ⟨hall.symm, ?_⟩
  rintro ⟨s, hs, hsilent⟩
  have hlen := congrArg List.length (hreads h hsilent)
  rw [← hall, length_append] at hlen
  exact hs (eq_nil_of_length_eq_zero (by omega))

theorem wellFormed_ascii (h : ∀ b ∈ bytes, b < 0x80) : WellFormed bytes := by
  induction bytes with
  | nil => exact .nil
  | cons b bytes ih =>
    exact .ascii (UInt8.lt_iff_toNat_lt.mp (h b (by simp)))
      (ih fun b hb => h b (mem_cons_of_mem _ hb))

/-- `key_bytes_are_name` is right: decoding changes nothing. -/
theorem isWhole_of_bytes (h : keyBytesAreName bytes utf8Mode = true) :
    IsWhole bytes utf8Mode bytes := by
  simp only [keyBytesAreName, Bool.and_eq_true, Bool.not_eq_true', contains_eq_mem,
    decide_eq_false_iff_not, Bool.or_eq_true, bne_iff_ne, ne_eq, all_eq_true,
    decide_eq_true_eq] at h
  obtain ⟨hall, -⟩ := decodeAll_bytes h.1
  constructor
  · intro hmode
    rw [hall]
    exact (wellFormed_ascii (h.2.resolve_left (not_not.mpr hmode))).repairs
  · exact fun _ => hall.symm

theorem plain_of_bytes (h : keyBytesAreName bytes utf8Mode = true) (hnul : 0 ∈ bytes → 0x5C ∈ bytes)
    :
    Plain bytes utf8Mode := by
  have hbs : 0x5C ∉ bytes := by
    simp only [keyBytesAreName, Bool.and_eq_true, Bool.not_eq_true', contains_eq_mem,
      decide_eq_false_iff_not] at h
    exact h.1
  exact ⟨fun hmem => hbs (hnul hmem), fun hends => (decodeAll_bytes hbs).2 hends.1⟩

theorem strncmpEq_iff {a b : List UInt8} (hlen : a.length = b.length) (hb : 0 ∉ b) :
    strncmpEq a b a.length = true ↔ a = b := by
  induction a generalizing b with
  | nil =>
    obtain rfl := eq_nil_of_length_eq_zero hlen.symm
    simp [strncmpEq]
  | cons x a ih =>
    cases b with
    | nil => simp at hlen
    | cons y b =>
      rw [mem_cons, not_or] at hb
      have hstep : strncmpEq (x :: a) (y :: b) (a.length + 1) =
          if x ≠ y then false else if x = 0 then true else strncmpEq a b a.length := rfl
      rw [length_cons, hstep, List.cons.injEq]
      by_cases hxy : x = y
      · subst hxy
        have hx : x ≠ 0 := Ne.symm hb.1
        simpa [hx] using ih (by simpa using hlen) hb.2
      · simp [hxy]

/-! ### Comparisons -/

/-- A lookup takes a key for `name` when it is a plain key of that name. -/
theorem tokenEquals_iff {json : List UInt8} {tok : Tok} (htok : tok.type = .string)
    (hnul : 0 ∈ tok.text json → 0x5C ∈ tok.text json) (hname : 0 ∉ name) (hlen : name.length ≤ 255)
    :
    tokenEquals json tok name utf8Mode = true ↔
      Named (tok.text json) utf8Mode name ∧ Plain (tok.text json) utf8Mode := by
  rw [tokenEquals, if_neg (by simp [htok])]
  dsimp only
  generalize tok.text json = bytes at hnul ⊢
  split
  case isTrue hbytes =>
    have hwhole := isWhole_of_bytes hbytes
    have hplain := plain_of_bytes hbytes hnul
    rw [and_iff_left hplain, named_iff]
    constructor
    · intro h
      simp only [Bool.and_eq_true, decide_eq_true_eq] at h
      obtain rfl := (strncmpEq_iff h.1 hname).mp h.2
      exact ⟨bytes, hwhole, cString_eq_self hname⟩
    · rintro ⟨whole, hwhole', rfl⟩
      obtain rfl := hwhole.unique hwhole'
      rw [cString_eq_self hplain.1]
      simpa using (strncmpEq_iff rfl hplain.1).mpr rfl
  case isFalse =>
    rw [if_neg (by simp only [jsonKeyCmpMax]; omega), ← decode_name_iff hname]
    cases hdec : decodeJsonString bytes (name.length + 1) utf8Mode with
    | none => simp
    | some r =>
      obtain ⟨dec, truncated⟩ := r
      simp only [Bool.and_eq_true, Bool.not_eq_true', beq_iff_eq, Option.some.injEq, Prod.mk.injEq]
      constructor
      · rintro ⟨rfl, hdec'⟩
        exact ⟨by rw [← decode_cString hdec (by rw [hdec']), hdec'], rfl⟩
      · rintro ⟨rfl, rfl⟩
        exact ⟨rfl, cString_eq_self hname⟩

/-- The same for the key of an event. -/
theorem eventEquals_iff {ev : Event} (htext : ev.text = .bytes bytes) (hname : 0 ∉ name)
    (hlen : name.length ≤ 255) :
    eventEquals ev name = true ↔ Named bytes utf8Raw name ∧ Plain bytes utf8Raw := by
  rw [eventEquals, htext]
  dsimp only
  rw [if_neg (by simp only [eventCmpMax]; omega), ← decode_name_iff hname, axlJsonDecodeString]
  cases hdec : decodeJsonString bytes (name.length + 1) utf8Raw with
  | none => simp
  | some r =>
    obtain ⟨dec, truncated⟩ := r
    cases truncated with
    | true => simp
    | false =>
      simp only [Bool.and_eq_true, decide_eq_true_eq, beq_iff_eq, Option.some.injEq, Prod.mk.injEq,
        and_true]
      constructor
      · rintro ⟨hgot, htmp⟩
        have hself := decode_cString hdec hgot
        rw [hself] at hgot
        rwa [← hgot, take_length] at htmp
      · rintro rfl
        exact ⟨by rw [cString_eq_self hname], take_length⟩

/-! ## Members -/

/-- The call `n` of `axl_json_object_next`, with some buffer that is not too short, gives
the key `name` and the value. -/
def YieldsNamed (obj : Reader) (n : Nat) (name : List UInt8) (value : Reader) : Prop :=
  ∃ it size w it', iterAt obj n = some it ∧ objectNext it size = some (w, value, it') ∧
    it'.truncated = false ∧ cString w = name

/-- The token of the key that the call `n` reads. -/
def KeyOf (obj : Reader) (n : Nat) (ktok : Tok) : Prop :=
  ∃ it r, iterAt obj n = some it ∧ objectNext it 0 = some r ∧ obj.tokens[it.pos]? = some ktok

/-- The first member of that name. -/
def IsFirst (obj : Reader) (name : List UInt8) (n : Nat) (value : Reader) : Prop :=
  YieldsNamed obj n name value ∧ ∀ k < n, ∀ v, ¬ YieldsNamed obj k name v

/-- The KEY event of the member `n`: the scanner gives it where the key stands. -/
def KeyEvent (flags : AxlJsonFlags) (obj : Reader) (n : Nat) (ev : Event) : Prop :=
  Emits (startScanner obj.json flags) ev ∧ ev.kind = .key ∧
    ∃ ktok, KeyOf obj n ktok ∧ ev.start = ktok.start

section Object

variable {obj : Reader} {t : Tok}

variable {it : ObjectIter}

theorem objectNext_some {it' : ObjectIter} {size : Nat} {w : List UInt8} {value : Reader}
    (h : objectNext it size = some (w, value, it')) :
    ∃ ktok, it.rd.tokens[it.pos]? = some ktok ∧ value = it.rd.sub (it.pos + 1) ∧
      (w, it'.truncated) =
        (decodeJsonString (ktok.text it.rd.json) size it.rd.utf8Mode).getD ([], true) ∧
      it'.rd = it.rd ∧ it.remaining = it'.remaining + 1 ∧
      positions it.rd.tokens it.remaining it.pos =
        it.pos :: positions it.rd.tokens it'.remaining it'.pos := by
  unfold objectNext at h
  split at h
  case isTrue => cases h
  case isFalse hrem =>
    split at h
    case h_1 ktok vtok hk hv =>
      simp only [Option.some.injEq, Prod.mk.injEq] at h
      obtain ⟨hw, rfl, rfl⟩ := h
      have hlt := (List.getElem?_eq_some_iff.mp hv).1
      obtain ⟨k, hrem'⟩ : ∃ k, it.remaining = k + 1 := Nat.exists_eq_succ_of_ne_zero hrem
      refine ⟨ktok, hk, rfl, by rw [← hw], rfl, by simp [hrem'], ?_⟩
      rw [hrem', positions, if_pos hlt]
      rfl
    case h_2 => cases h

theorem objectNext_exists {p : Nat} {ps : List Nat} (size : Nat)
    (h : positions it.rd.tokens it.remaining it.pos = p :: ps) :
    p = it.pos ∧ ∃ w value it', objectNext it size = some (w, value, it') := by
  cases hrem : it.remaining with
  | zero => simp [hrem, positions] at h
  | succ k =>
    rw [hrem, positions] at h
    split at h
    case isTrue hlt =>
      refine ⟨(List.cons.inj h).1.symm, ?_⟩
      have hk := getElem?_eq_getElem (Nat.lt_of_succ_lt hlt)
      have hv := getElem?_eq_getElem hlt
      rw [objectNext, if_neg (by omega), hk, hv]
      exact ⟨_, _, _, rfl⟩
    case isFalse => cases h

variable (hhead : obj.tokens.head? = some t) (htype : t.type = .object)

variable {n : Nat}

include hhead htype in
/-- The iterator in front of a member has its key and all behind it still to visit. -/
theorem iterAt_spec (h : iterAt obj n = some it) :
    it.rd = obj ∧ positions obj.tokens it.remaining it.pos =
      (positions obj.tokens t.size 1).drop n := by
  induction n generalizing it with
  | zero =>
    rw [iterAt, valueObjectBegin, hhead] at h
    dsimp only at h
    rw [if_neg (by simp [htype])] at h
    cases h
    exact ⟨rfl, rfl⟩
  | succ n ih =>
    obtain ⟨it₀, hit₀, hnext⟩ := Option.bind_eq_some_iff.mp h
    obtain ⟨⟨w, value, it'⟩, hcall, rfl⟩ := Option.map_eq_some_iff.mp hnext
    obtain ⟨hrd, hpos⟩ := ih hit₀
    obtain ⟨-, -, -, -, hrd', -, hstep⟩ := objectNext_some hcall
    rw [hrd] at hrd' hstep
    refine ⟨hrd', ?_⟩
    rw [← drop_drop, ← hpos, hstep]
    rfl

include hhead htype in
theorem iterAt_exists {p : Nat} (h : (positions obj.tokens t.size 1)[n]? = some p) :
    ∃ it, iterAt obj n = some it ∧ it.pos = p ∧ ∀ size, ∃ w value it',
      objectNext it size = some (w, value, it') := by
  have hnext : ∀ {it : ObjectIter}, iterAt obj n = some it → it.pos = p ∧ ∀ size, ∃ w value it',
      objectNext it size = some (w, value, it') := by
    intro it hit
    obtain ⟨hrd, hpos⟩ := iterAt_spec hhead htype hit
    obtain ⟨hlt, hget⟩ := List.getElem?_eq_some_iff.mp h
    rw [drop_eq_getElem_cons hlt, hget, ← hrd] at hpos
    exact ⟨(objectNext_exists 0 hpos).1.symm, fun size => (objectNext_exists size hpos).2⟩
  have hit : ∃ it, iterAt obj n = some it := by
    clear hnext
    induction n generalizing p with
    | zero =>
      rw [iterAt, valueObjectBegin, hhead]
      dsimp only
      rw [if_neg (by simp [htype])]
      exact ⟨_, rfl⟩
    | succ n ih =>
      obtain ⟨hlt, -⟩ := List.getElem?_eq_some_iff.mp h
      obtain ⟨it, hit⟩ := ih (getElem?_eq_getElem (Nat.lt_of_succ_lt hlt))
      obtain ⟨rfl, hpos⟩ := iterAt_spec hhead htype hit
      rw [drop_eq_getElem_cons (Nat.lt_of_succ_lt hlt)] at hpos
      obtain ⟨-, w, value, it', hcall⟩ := objectNext_exists 0 hpos
      exact ⟨it', by rw [iterAt, hit, Option.bind_some, hcall]; rfl⟩
  obtain ⟨it, hit⟩ := hit
  exact ⟨it, hit, hnext hit⟩

include hhead htype in
/-- A call that gives a member reads the key that the walk meets there. -/
theorem position_of_next {size : Nat} {r : List UInt8 × Reader × ObjectIter}
    (hit : iterAt obj n = some it) (hcall : objectNext it size = some r) :
    it.rd = obj ∧ (positions obj.tokens t.size 1)[n]? = some it.pos := by
  obtain ⟨w, value, it'⟩ := r
  obtain ⟨rfl, hpos⟩ := iterAt_spec hhead htype hit
  obtain ⟨-, -, -, -, -, -, hstep⟩ := objectNext_some hcall
  rw [hstep] at hpos
  refine ⟨rfl, ?_⟩
  have hget := congrArg (fun l => l[0]?) hpos
  simpa using hget.symm

include hhead htype in
theorem keyOf_iff {ktok : Tok} :
    KeyOf obj n ktok ↔ ∃ p, (positions obj.tokens t.size 1)[n]? = some p ∧
      obj.tokens[p]? = some ktok := by
  constructor
  · rintro ⟨it, r, hit, hcall, hk⟩
    exact ⟨it.pos, (position_of_next hhead htype hit hcall).2, hk⟩
  · rintro ⟨p, hp, hk⟩
    obtain ⟨it, hit, rfl, hcall⟩ := iterAt_exists hhead htype hp
    obtain ⟨w, value, it', hcall⟩ := hcall 0
    exact ⟨it, _, hit, hcall, hk⟩

include hhead htype in
theorem yieldsNamed_iff {name : List UInt8} {value : Reader} :
    YieldsNamed obj n name value ↔ ∃ p ktok, (positions obj.tokens t.size 1)[n]? = some p ∧
      obj.tokens[p]? = some ktok ∧ Named (ktok.text obj.json) obj.utf8Mode name ∧
      value = obj.sub (p + 1) := by
  constructor
  · rintro ⟨it, size, w, it', hit, hcall, hwhole, hname⟩
    obtain ⟨rfl, hp⟩ := position_of_next hhead htype hit hcall
    obtain ⟨ktok, hk, hvalue, hdec, -⟩ := objectNext_some hcall
    refine ⟨it.pos, ktok, hp, hk, ⟨size, w, ?_, hname⟩, hvalue⟩
    rw [hwhole] at hdec
    cases h : decodeJsonString (ktok.text it.rd.json) size it.rd.utf8Mode with
    | none => simp [h] at hdec
    | some r => rw [hdec, h, Option.getD_some]
  · rintro ⟨p, ktok, hp, hk, ⟨size, w, hdec, hname⟩, hvalue⟩
    obtain ⟨it, hit, hpos, hcall⟩ := iterAt_exists hhead htype hp
    obtain ⟨w', value', it', hcall⟩ := hcall size
    obtain ⟨rfl, -⟩ := position_of_next hhead htype hit hcall
    obtain ⟨ktok', hk', hvalue', hdec', -⟩ := objectNext_some hcall
    rw [hpos] at hk' hvalue'
    obtain rfl := Option.some.inj (hk.symm.trans hk')
    rw [hdec, Option.getD_some] at hdec'
    obtain ⟨rfl, htrunc⟩ := Prod.mk.inj hdec'
    exact ⟨it, size, w', it', hit, by rw [hcall, hvalue', hvalue], htrunc, hname⟩

/-- `find_value_token` takes the first key of the walk that it holds equal to the name. -/
theorem findValueLoop_eq (json : List UInt8) (toks : List Tok) (name : List UInt8)
    (utf8Mode : AxlJsonFlags) (pairs pos : Nat) :
    findValueLoop json toks name utf8Mode pairs pos =
      ((positions toks pairs pos).find? fun p =>
        (toks[p]?).any fun kt => tokenEquals json kt name utf8Mode).map (· + 1) := by
  induction pairs generalizing pos with
  | zero => rfl
  | succ pairs ih =>
    rw [findValueLoop, positions]
    by_cases hlt : pos + 1 < toks.length
    · have hk := getElem?_eq_getElem (Nat.lt_of_succ_lt hlt)
      have hv := getElem?_eq_getElem hlt
      rw [if_pos hlt, find?_cons, hk, hv, ih]
      dsimp only [Option.any_some]
      cases tokenEquals json toks[pos] name utf8Mode <;> rfl
    · rw [if_neg hlt, getElem?_eq_none (by omega : toks.length ≤ pos + 1)]
      split
      case h_1 hv => cases hv
      case h_2 => rfl

include hhead htype in
theorem getValue_eq (name : List UInt8) :
    getValue obj name = ((positions obj.tokens t.size 1).find? fun p =>
      (obj.tokens[p]?).any fun kt => tokenEquals obj.json kt name obj.utf8Mode).map
        fun p => obj.sub (p + 1) := by
  rw [getValue, findValueToken, hhead]
  dsimp only
  rw [if_neg (by simp [htype]), findValueLoop_eq, Option.map_map]
  rfl

end Object

/-! ## Identity of keys -/

/-- The lookup of `name` gives the value of the first member of that name. -/
def FirstFound (obj : Reader) (name : List UInt8) : Prop :=
  ∃ n value, IsFirst obj name n value ∧ getValue obj name = some value

/-- The key of the first member of that name is plain. -/
def PlainFirst (obj : Reader) (name : List UInt8) : Prop :=
  ∀ n value ktok, IsFirst obj name n value → KeyOf obj n ktok →
    Plain (ktok.text obj.json) obj.utf8Mode

theorem IsFirst.unique {obj : Reader} {n n' : Nat} {v v' : Reader} (h : IsFirst obj name n v)
    (h' : IsFirst obj name n' v') : n = n' := by
  rcases Nat.lt_trichotomy n n' with hlt | heq | hgt
  · exact absurd h.1 (h'.2 n hlt v)
  · exact heq
  · exact absurd h'.1 (h.2 n' hgt v')

theorem isFirst_exists {obj : Reader} {m : Nat} {v : Reader} (h : YieldsNamed obj m name v) :
    ∃ n value, IsFirst obj name n value := by
  classical
  have hex : ∃ n, ∃ v, YieldsNamed obj n name v := ⟨m, v, h⟩
  obtain ⟨value, hvalue⟩ := Nat.find_spec hex
  exact ⟨Nat.find hex, value, hvalue, fun k hk v hv => Nat.find_min hex hk ⟨v, hv⟩⟩

/-- The first element with a property, by its position. -/
theorem find?_of_first {α : Type} {l : List α} {q : α → Bool} {n : Nat} {p : α}
    (hp : l[n]? = some p) (hq : q p = true) (hbefore : ∀ k < n, ∀ x, l[k]? = some x → q x = false) :
    l.find? q = some p := by
  induction l generalizing n with
  | nil => simp at hp
  | cons x l ih =>
    cases n with
    | zero =>
      cases hp
      rw [find?_cons, hq]
    | succ n =>
      rw [find?_cons, hbefore 0 (Nat.succ_pos n) x rfl]
      exact ih hp fun k hk y hy => hbefore (k + 1) (Nat.succ_lt_succ hk) y hy

theorem sub_inj {obj : Reader} {p p' : Nat} (h : p < obj.tokens.length)
    (h' : p' < obj.tokens.length) (he : obj.sub (p + 1) = obj.sub (p' + 1)) : p = p' := by
  have hlen := congrArg (fun r => r.tokens.length) he
  simp only [Reader.sub, length_drop] at hlen
  omega

/-- A lookup by a name that the walk gave finds its first member exactly when the key of
that member is plain. -/
theorem firstFound_iff {obj : Reader} {t : Tok} (hhead : obj.tokens.head? = some t)
    (htype : t.type = .object) (hkeys : AllKeys obj.json obj.tokens (positions obj.tokens t.size 1))
    (hname : 0 ∉ name) (hlen : name.length ≤ 255) {m : Nat} {v : Reader}
    (hm : YieldsNamed obj m name v) : FirstFound obj name ↔ PlainFirst obj name := by
  have hequals : ∀ {p : Nat} {ktok : Tok}, p ∈ positions obj.tokens t.size 1 →
      obj.tokens[p]? = some ktok →
      (((obj.tokens[p]?).any fun kt => tokenEquals obj.json kt name obj.utf8Mode) = true ↔
        Named (ktok.text obj.json) obj.utf8Mode name ∧ Plain (ktok.text obj.json) obj.utf8Mode) := by
    intro p ktok hp hk
    obtain ⟨tok, htok, hkt⟩ := hkeys p hp
    obtain rfl := Option.some.inj (htok.symm.trans hk)
    rw [hk, Option.any_some]
    exact tokenEquals_iff hkt.type hkt.nul hname hlen
  obtain ⟨n, value, hfirst⟩ := isFirst_exists hm
  obtain ⟨p, ktok, hp, hk, hnamed, hvalue⟩ := (yieldsNamed_iff hhead htype).mp hfirst.1
  have hmem := mem_of_getElem? hp
  have hlt := (List.getElem?_eq_some_iff.mp hk).1
  constructor
  · rintro ⟨n', value', hfirst', hget⟩ n'' value'' ktok'' hfirst'' hkey
    obtain rfl := hfirst.unique hfirst'
    obtain rfl := hfirst.unique hfirst''
    obtain ⟨p'', hp'', hk''⟩ := (keyOf_iff hhead htype).mp hkey
    obtain rfl := Option.some.inj (hp.symm.trans hp'')
    obtain rfl := Option.some.inj (hk.symm.trans hk'')
    obtain ⟨p', ktok', hp', hk', -, hvalue'⟩ := (yieldsNamed_iff hhead htype).mp hfirst'.1
    obtain rfl := Option.some.inj (hp.symm.trans hp')
    -- the key that the lookup took is the one in front of this value
    rw [getValue_eq hhead htype] at hget
    obtain ⟨q, hfind, hsub⟩ := Option.map_eq_some_iff.mp hget
    have hq := find?_some hfind
    obtain ⟨qtok, hqtok, -⟩ := hkeys q (mem_of_find?_eq_some hfind)
    obtain rfl := sub_inj (List.getElem?_eq_some_iff.mp hqtok).1 hlt (hsub.trans hvalue')
    exact ((hequals hmem hk).mp hq).2
  · intro hplain
    refine ⟨n, value, hfirst, ?_⟩
    have hpl := hplain n value ktok hfirst ((keyOf_iff hhead htype).mpr ⟨p, hp, hk⟩)
    rw [getValue_eq hhead htype, find?_of_first hp ((hequals hmem hk).mpr ⟨hnamed, hpl⟩) ?_, hvalue]
    · rfl
    · intro k hkn x hx
      obtain ⟨xtok, hxtok, -⟩ := hkeys x (mem_of_getElem? hx)
      refine Bool.eq_false_iff.mpr fun htrue => ?_
      have hnamed' := ((hequals (mem_of_getElem? hx) hxtok).mp htrue).1
      exact hfirst.2 k hkn _ ((yieldsNamed_iff hhead htype).mpr ⟨x, xtok, hx, hxtok, hnamed', rfl⟩)

/-! ## Accepted documents -/

variable {flags : AxlJsonFlags}

/-- The keys that a walk over an object of an accepted document visits, and their events. -/
theorem object_keys {json : List UInt8} {rd : Reader} (hlen : json.length < 2 ^ 31)
    (hparse : parse json flags = .ok rd) {i : Nat} {t : Tok} (hobj : rd.tokens[i]? = some t)
    (htype : t.type = .object) :
    rd.json = json ∧ rd.utf8Mode = utf8Of flags ∧ (rd.sub i).tokens.head? = some t ∧
      AllKeys json (rd.sub i).tokens (positions (rd.sub i).tokens t.size 1) ∧
      ∀ {tok ev}, tok ∈ (rd.sub i).tokens → KeyTok json tok → Emits (startScanner json flags) ev →
        ev.kind = .key → ev.start = tok.start → ev.text = .bytes (tok.text json) := by
  obtain ⟨lead, tree, tail, htext, rfl, -⟩ :=
    (parse_ok_iff (parse_ready hparse).2 hlen rd).mp hparse
  obtain ⟨ks, -, ⟨tok, htok, -, hpos⟩, hkeys⟩ := htext.objectAt hobj htype
  obtain rfl := Option.some.inj (hobj.symm.trans htok)
  refine ⟨rfl, rfl, ?_, fun k hk => ?_,
    fun htok hkt hev => htext.key_event hlen (mem_of_mem_drop htok) hkt hev⟩
  · rw [Reader.sub, head?_drop]
    exact hobj
  · have hshift := positions_drop (tokens lead.length tree) i t.size 1
    rw [Nat.add_comm 1 i, hpos] at hshift
    obtain ⟨ktok, hktok, hkt⟩ := hkeys (k + i) (by
      rw [← hshift]
      exact mem_map_of_mem hk)
    refine ⟨ktok, ?_, hkt⟩
    rw [Reader.sub, getElem?_drop, Nat.add_comm]
    exact hktok

/-- For a member of an object of an accepted document, the lookup by its name finds the
first member of that name, and under RAW its KEY event equals the name, if and only if
the key of the first one is plain, and so is its own under RAW. -/
theorem key_identity {json : List UInt8} {rd : Reader} (hlen : json.length < 2 ^ 31)
    (hparse : parse json flags = .ok rd) {i : Nat} {t : Tok} (hobj : rd.tokens[i]? = some t)
    (htype : t.type = .object) {m : Nat} {name : List UInt8} {v : Reader}
    (hm : YieldsNamed (rd.sub i) m name v) (hname : name.length ≤ 255) {ev : Event}
    (hev : KeyEvent flags (rd.sub i) m ev) :
    (FirstFound (rd.sub i) name ∧ (utf8Of flags = utf8Raw → eventEquals ev name = true)) ↔
    (PlainFirst (rd.sub i) name ∧ (utf8Of flags = utf8Raw → ∀ ktok, KeyOf (rd.sub i) m ktok →
      Plain (ktok.text json) utf8Raw)) := by
  obtain ⟨hjson, hmode, hhead, hkeys, htext⟩ := object_keys hlen hparse hobj htype
  have hnul : 0 ∉ name := by
    obtain ⟨-, -, w, -, -, -, -, rfl⟩ := hm
    exact cString_no_nul w
  have hjson' : (rd.sub i).json = json := hjson
  have hmode' : (rd.sub i).utf8Mode = utf8Of flags := hmode
  rw [← hjson'] at hkeys htext ⊢
  refine and_congr (firstFound_iff hhead htype hkeys hnul hname hm) ?_
  refine imp_congr_right fun hraw => ?_
  obtain ⟨hemits, hkind, ktok, hk, hstart⟩ := hev
  -- the event, the member and the walk meet at one token
  obtain ⟨p, hp, hptok⟩ := (keyOf_iff hhead htype).mp hk
  have hunique : ∀ {ktok'}, KeyOf (rd.sub i) m ktok' → ktok' = ktok := by
    intro ktok' hk'
    obtain ⟨p', hp', hptok'⟩ := (keyOf_iff hhead htype).mp hk'
    obtain rfl := Option.some.inj (hp.symm.trans hp')
    exact Option.some.inj (hptok'.symm.trans hptok)
  obtain ⟨p', ktok', hp', hptok', hnamed, -⟩ := (yieldsNamed_iff hhead htype).mp hm
  obtain rfl := hunique ((keyOf_iff hhead htype).mpr ⟨p', hp', hptok'⟩)
  obtain ⟨tok, htok, hkt⟩ := hkeys p (mem_of_getElem? hp)
  obtain rfl := Option.some.inj (htok.symm.trans hptok)
  have hbytes := htext (mem_of_getElem? htok) hkt hemits hkind hstart
  rw [hmode', hraw] at hnamed
  rw [eventEquals_iff hbytes hnul hname, and_iff_right hnamed]
  constructor
  · intro hplain ktok' hk'
    rwa [hunique hk']
  · exact fun hplain => hplain tok hk

/-- The object of one member `a`, with the key spelled as given. -/
def oneMember (key : List UInt8) : List UInt8 :=
  [0x7B, 0x22] ++ key ++ [0x22, 0x3A, 0x31, 0x7D]

/-- Its tokens. -/
def oneMemberTokens (key : List UInt8) : List Tok :=
  [⟨.object, 0, key.length + 6, 1⟩, ⟨.string, 2, key.length + 2, 0⟩,
    ⟨.primitive, key.length + 4, key.length + 5, 0⟩]

/-- Its KEY event. -/
def oneMemberEvent (key : List UInt8) : Event :=
  ⟨.key, 2, .bytes key, key.length, 1, 1⟩

/-- The spelling with a line continuation at the end. -/
def continuedKey : List UInt8 := [0x61, 0x5C, 0x0A]

theorem key_identity_plain :
    let rd : Reader := ⟨oneMember [0x61], oneMemberTokens [0x61], utf8Raw⟩
    (FirstFound (rd.sub 0) [0x61] ∧
      (utf8Of utf8Raw = utf8Raw → eventEquals (oneMemberEvent [0x61]) [0x61] = true)) ↔
    (PlainFirst (rd.sub 0) [0x61] ∧ (utf8Of utf8Raw = utf8Raw →
      ∀ ktok, KeyOf (rd.sub 0) 0 ktok → Plain (ktok.text (oneMember [0x61])) utf8Raw)) :=
  @key_identity utf8Raw (oneMember [0x61])
    ⟨oneMember [0x61], oneMemberTokens [0x61], utf8Raw⟩ (by decide) (by decide +kernel) 0
    ⟨.object, 0, 7, 1⟩ (by decide) rfl 0 [0x61] _
    ⟨⟨_, 1, 1, false⟩, 2, [0x61], ⟨_, 3, 0, false⟩, rfl, rfl, rfl, rfl⟩ (by decide)
    (oneMemberEvent [0x61])
    ⟨@Emits.second _ (Scanner.bareEvent .objBegin 0 0) _ (by decide +kernel) (by decide +kernel)
      (by decide), rfl, ⟨.string, 2, 3, 0⟩, ⟨⟨_, 1, 1, false⟩, _, rfl, rfl, rfl⟩, rfl⟩

/-- The walk gives the name `a`, and neither the lookup nor the event knows it. -/
theorem key_identity_continued :
    let flags := allowExtraEscapes ||| utf8Raw
    let rd : Reader := ⟨oneMember continuedKey, oneMemberTokens continuedKey, utf8Raw⟩
    let ev := oneMemberEvent continuedKey
    parse (oneMember continuedKey) flags = .ok rd ∧ utf8Of flags = utf8Raw ∧
      YieldsNamed (rd.sub 0) 0 [0x61] (rd.sub 2) ∧ KeyEvent flags (rd.sub 0) 0 ev ∧
      getValue (rd.sub 0) [0x61] = none ∧ eventEquals ev [0x61] = false :=
  ⟨by decide +kernel, by decide, ⟨⟨_, 1, 1, false⟩, 4, [0x61], ⟨_, 3, 0, false⟩, rfl, rfl, rfl, rfl⟩,
    ⟨@Emits.second _ (Scanner.bareEvent .objBegin 0 0) _ (by decide +kernel) (by decide +kernel)
      (by decide), rfl, ⟨.string, 2, 5, 0⟩, ⟨⟨_, 1, 1, false⟩, _, rfl, rfl, rfl⟩, rfl⟩,
    by decide +kernel, by decide +kernel⟩

end Json

end AxlSdk
