import AxlSdk.Net.Http.Core

/-!
# URLs (`src/net/axl-url.c`)

Strings are lists of bytes that stop where the list ends; allocations succeed.

- `parse`, `build`: `axl_url_parse` and `axl_url_build`.
- `Url.Wf`: which bytes the components of a parsed URL may have.
- `parse_wf`, `parse_assemble`: the components of an accepted URL are such, and put
  together again such components are accepted and come out as they were.
- `parse_build_round_trip`: both directions. A scheme must not be empty and must not
  itself have a `://` in it.
-/

namespace AxlSdk

namespace Url

open Http List

/-! ## The parser -/

def colon : UInt8 := 0x3a

def slash : UInt8 := 0x2f

def question : UInt8 := 0x3f

def hash : UInt8 := 0x23

def at' : UInt8 := 0x40

/-- `://` -/
def separator : List UInt8 := [colon, slash, slash]

/-- `AxlUrl` -/
structure Url where
  scheme : List UInt8
  user : Option (List UInt8)
  password : Option (List UInt8)
  host : List UInt8
  path : List UInt8
  query : Option (List UInt8)
  fragment : Option (List UInt8)
  port : UInt16
  deriving DecidableEq, Repr

/-- A loop up to the first of some bytes or the end. -/
def upTo (stops s : List UInt8) : List UInt8 := s.takeWhile fun b => !stops.contains b

/-- The loop for `://`: what is before it and what is behind it. -/
def splitScheme : List UInt8 → Option (List UInt8 × List UInt8)
  | [] => none
  | b :: s =>
    if (b :: s).take 3 = separator then some ([], s.drop 2)
    else (splitScheme s).map fun r => (b :: r.1, r.2)

/-- The loop for `@` in the authority: the userinfo, if there is one, and the rest. -/
def splitUserinfo (s : List UInt8) : Option (List UInt8) × List UInt8 :=
  let info := upTo [slash, question, hash, at'] s
  match s.drop info.length with
  | b :: rest => if b = at' then (some info, rest) else (none, s)
  | [] => (none, s)

/-- The userinfo up to its first `:`, and what is behind it. -/
def splitUser (info : List UInt8) : List UInt8 × Option (List UInt8) :=
  let user := upTo [colon] info
  match info.drop user.length with
  | _ :: password => (user, some password)
  | [] => (user, none)

/-- `axl_isdigit` -/
def isDigit (b : UInt8) : Bool := 0x30 ≤ b && b ≤ 0x39

/-- The loop over the digits of a port: `port32` and the rest; nothing for more than
65535. -/
def portLoop : Nat → List UInt8 → Option (Nat × List UInt8)
  | port, [] => some (port, [])
  | port, b :: s =>
    if isDigit b then
      let port := port * 10 + (b.toNat - 0x30)
      if port > 65535 then none else portLoop port s
    else some (port, b :: s)

/-- The port, if there is one, and the rest; no digit gives 0. -/
def splitPort (s : List UInt8) : Option (UInt16 × List UInt8) :=
  match s with
  | [] => some (0, [])
  | b :: rest =>
    if b = colon then
      match portLoop 0 rest with
      | none => none
      | some (port, rest) =>
        if rest = [] ∨ rest.head? = some slash ∨ rest.head? = some question ∨
            rest.head? = some hash then
          some (UInt16.ofNat port, rest)
        else none
    else some (0, b :: rest)

/-- The component behind `lead`, up to the first of some bytes, if `lead` is there. -/
def component (lead : UInt8) (stops s : List UInt8) : Option (List UInt8) :=
  match s with
  | b :: rest => if b = lead then some (upTo stops rest) else none
  | [] => none

/-- The rest behind a component with its lead. -/
def behind (s : List UInt8) (c : Option (List UInt8)) : List UInt8 :=
  s.drop (c.elim 0 fun c => c.length + 1)

/-- The default port of a scheme; 0 is none. -/
def defaultPort (scheme : List UInt8) : UInt16 :=
  if scheme = ascii "http" then 80 else if scheme = ascii "https" then 443 else 0

/-- `axl_url_parse` -/
def parse (url : List UInt8) : Option Url :=
  match splitScheme url with
  | none => none
  | some (scheme, authority) =>
    if scheme = [] ∨ authority = [] then none
    else
      let userinfo := (splitUserinfo authority).1
      let s := (splitUserinfo authority).2
      let host := upTo [colon, slash, question, hash] s
      if host = [] then none
      else
        match splitPort (s.drop host.length) with
        | none => none
        | some (port, s) =>
          let path := component slash [question, hash] s
          let s := behind s path
          let query := component question [hash] s
          let s := behind s query
          some
            { scheme := scheme
              user := userinfo.map fun info => (splitUser info).1
              password := userinfo.bind fun info => (splitUser info).2
              host := host
              path := slash :: path.getD []
              query := query
              fragment := component hash [] s
              port := if port = 0 then defaultPort scheme else port }

/-! ## Building -/

/-- The text of `url_format`. -/
def urlText (scheme host : List UInt8) (port default : UInt16) (path : List UInt8) : List UInt8 :=
  if port ≠ 0 ∧ port ≠ default then
    scheme ++ separator ++ host ++ colon :: decimal port.toNat ++ path
  else scheme ++ separator ++ host ++ path

/-- `url_format`: what is in the buffer, and the length that is needed. -/
def urlFormat (size : Nat) (scheme host : List UInt8) (port default : UInt16) (path : List UInt8) :
    List UInt8 × Nat :=
  let text := urlText scheme host port default path
  (text.take (size - 1), text.length)

/-- `axl_url_build`; no path is `/`. -/
def build (scheme host : List UInt8) (port : UInt16) (path : Option (List UInt8)) : List UInt8 :=
  let usePath := path.getD [slash]
  let default := defaultPort scheme
  let r := urlFormat 512 scheme host port default usePath
  if r.2 < 512 then r.1 else (urlFormat (r.2 + 1) scheme host port default usePath).1

/-- `user[:password]` -/
def userText (user : List UInt8) (password : Option (List UInt8)) : List UInt8 :=
  user ++ password.elim [] fun pw => colon :: pw

/-- `[user[:password]@]` -/
def infoText (u : Url) : List UInt8 := u.user.elim [] fun user => userText user u.password ++ [at']

/-- `[:port]`, only if it is not that of the scheme. -/
def portText (u : Url) : List UInt8 :=
  if u.port = defaultPort u.scheme then [] else colon :: decimal u.port.toNat

/-- `[?query]` or `[#fragment]` -/
def optionText (lead : UInt8) (c : Option (List UInt8)) : List UInt8 := c.elim [] fun c => lead :: c

/-- `path[?query][#fragment]` -/
def pathText (u : Url) : List UInt8 :=
  u.path ++ (optionText question u.query ++ optionText hash u.fragment)

/-- The components put together. -/
def assemble (u : Url) : List UInt8 :=
  u.scheme ++ separator ++ (infoText u ++ (u.host ++ (portText u ++ pathText u)))

/-! ## Loops -/

/-- None of the bytes is among `stops`. -/
def Free (stops s : List UInt8) : Prop := ∀ b ∈ s, b ∉ stops

/-- The string ends, or goes on with one of `stops`. -/
def Ends (stops s : List UInt8) : Prop := ∀ b ∈ s.head?, b ∈ stops

variable {stops s t a rest scheme : List UInt8} {b : UInt8} {u : Url}

theorem Free.mono {stops' : List UInt8} (h : Free stops s) (hsub : ∀ b ∈ stops', b ∈ stops) :
    Free stops' s := fun b hb hmem => h b hb (hsub b hmem)

theorem upTo_free (stops s : List UInt8) : Free stops (upTo stops s) := by
  intro b hb
  have := mem_takeWhile_imp hb
  simpa using this

theorem upTo_append (ha : Free stops a) (hr : Ends stops rest) : upTo stops (a ++ rest) = a := by
  have hpos : ∀ b ∈ a, (!stops.contains b) = true := fun b hb => by simpa using ha b hb
  rw [upTo, takeWhile_append_of_pos hpos]
  cases rest with
  | nil => simp
  | cons b rest =>
    have hb : b ∈ stops := hr b rfl
    rw [takeWhile_cons_of_neg (by simpa using hb), append_nil]

/-- What is behind the loop. -/
theorem upTo_split (stops s : List UInt8) :
    s = upTo stops s ++ s.drop (upTo stops s).length ∧
      Ends stops (s.drop (upTo stops s).length) := by
  induction s with
  | nil => exact ⟨rfl, by simp [Ends]⟩
  | cons b s ih =>
    rw [upTo]
    by_cases hb : b ∈ stops
    · rw [takeWhile_cons_of_neg (by simpa using hb)]
      refine ⟨rfl, ?_⟩
      intro c hc
      rw [← Option.some.inj hc]
      exact hb
    · rw [takeWhile_cons_of_pos (by simpa using hb)]
      exact ⟨congrArg (b :: ·) ih.1, ih.2⟩

theorem splitScheme_append (h : ¬ separator <:+: scheme) (t : List UInt8) :
    splitScheme (scheme ++ separator ++ t) = some (scheme, t) := by
  induction scheme with
  | nil => rfl
  | cons b scheme ih =>
    rw [cons_append, cons_append, splitScheme, if_neg]
    · rw [ih fun hin => h (infix_cons hin)]
      rfl
    · intro htake
      cases scheme with
      | nil => cases (List.cons.inj (List.cons.inj htake).2).1
      | cons c scheme =>
        cases scheme with
        | nil => cases (List.cons.inj (List.cons.inj (List.cons.inj htake).2).2).1
        | cons d scheme =>
          have hsep : separator = [b, c, d] := htake.symm
          exact h ⟨[], scheme, by rw [hsep]; rfl⟩

theorem splitScheme_spec (h : splitScheme s = some (a, t)) :
    s = a ++ separator ++ t ∧ ¬ separator <:+: a := by
  induction s generalizing a with
  | nil => cases h
  | cons b s ih =>
    rw [splitScheme] at h
    split at h
    · rename_i htake
      cases h
      refine ⟨?_, by decide⟩
      have := take_append_drop 3 (b :: s)
      rw [htake] at this
      exact this.symm
    · rename_i htake
      obtain ⟨⟨a', t'⟩, hr, hat⟩ := Option.map_eq_some_iff.mp h
      cases hat
      obtain ⟨rfl, hno⟩ := ih hr
      refine ⟨rfl, fun hin => ?_⟩
      rcases infix_cons_iff.mp hin with hpre | hin
      · obtain ⟨r, hr⟩ := hpre
        refine htake ?_
        rw [← cons_append, ← cons_append, ← hr, append_assoc, append_assoc]
        rfl
      · exact hno hin

theorem ends_cons (h : b ∈ stops) : Ends stops (b :: s) := by
  intro c hc
  rwa [← Option.some.inj hc]

theorem ends_nil : Ends stops [] := by simp [Ends]

/-! ## Components -/

theorem component_append (lead : UInt8) (ha : Free stops a) (hr : Ends stops rest) :
    component lead stops (lead :: a ++ rest) = some a := by
  rw [cons_append, component, if_pos rfl, upTo_append ha hr]

theorem component_none {lead : UInt8} (h : s.head? ≠ some lead) : component lead stops s = none := by
  cases s with
  | nil => rfl
  | cons b s =>
    rw [component, if_neg]
    rintro rfl
    exact h rfl

theorem behind_some (lead : UInt8) (a rest : List UInt8) : behind (lead :: a ++ rest) (some a) = rest := by
  rw [behind, Option.elim_some, cons_append, drop_succ_cons, drop_left]

/-- A component and what is behind it. -/
theorem component_spec (lead : UInt8) (stops s : List UInt8) :
    (∃ a, component lead stops s = some a ∧ Free stops a ∧
      s = lead :: a ++ behind s (some a) ∧ Ends stops (behind s (some a))) ∨
    component lead stops s = none ∧ s.head? ≠ some lead := by
  cases s with
  | nil => exact .inr ⟨rfl, by simp⟩
  | cons b s =>
    by_cases hb : b = lead
    · subst hb
      obtain ⟨hsplit, hends⟩ := upTo_split stops s
      refine .inl ⟨upTo stops s, by rw [component, if_pos rfl], upTo_free stops s, ?_, ?_⟩
      · exact congrArg (b :: ·) hsplit
      · exact hends
    · refine .inr ⟨by rw [component, if_neg hb], fun h => hb (Option.some.inj h)⟩

/-! ## Ports -/

theorem isDigit_ofNat {c : Char} (h : c.isDigit = true) :
    isDigit (UInt8.ofNat c.toNat) = true ∧ (UInt8.ofNat c.toNat).toNat = c.toNat := by
  obtain ⟨hlo, hhi⟩ : 48 ≤ c.toNat ∧ c.toNat ≤ 57 := Char.isDigit_iff_toNat.mp h
  have hnat : (UInt8.ofNat c.toNat).toNat = c.toNat := by
    rw [UInt8.toNat_ofNat']
    omega
  refine ⟨?_, hnat⟩
  rw [isDigit, Bool.and_eq_true, decide_eq_true_eq, decide_eq_true_eq, UInt8.le_iff_toNat_le,
    UInt8.le_iff_toNat_le, hnat]
  exact ⟨hlo, hhi⟩

theorem le_ofDigitChars (cs : List Char) (cur : Nat) : cur ≤ Nat.ofDigitChars 10 cs cur := by
  rw [Nat.ofDigitChars_eq_ofDigitChars_zero]
  have : 1 * cur ≤ 10 ^ cs.length * cur := Nat.mul_le_mul_right _ (Nat.pow_pos (by decide))
  omega

/-- Digits are read back. -/
theorem portLoop_digits {cs : List Char} (hcs : ∀ c ∈ cs, c.isDigit = true) (cur : Nat)
    (hmax : Nat.ofDigitChars 10 cs cur ≤ 65535) (hrest : ∀ b ∈ rest.head?, isDigit b = false) :
    portLoop cur (cs.map (fun c => UInt8.ofNat c.toNat) ++ rest) =
      some (Nat.ofDigitChars 10 cs cur, rest) := by
  induction cs generalizing cur with
  | nil =>
    rw [map_nil, nil_append, Nat.ofDigitChars_nil]
    cases rest with
    | nil => rfl
    | cons b rest =>
      rw [portLoop, hrest b rfl]
      rfl
  | cons c cs ih =>
    obtain ⟨hdigit, hnat⟩ := isDigit_ofNat (hcs c mem_cons_self)
    rw [Nat.ofDigitChars_cons] at hmax ⊢
    have hcur : cur * 10 + ((UInt8.ofNat c.toNat).toNat - 0x30) = 10 * cur + (c.toNat - '0'.toNat) := by
      rw [hnat, Nat.mul_comm]
      rfl
    have hle := le_ofDigitChars cs (10 * cur + (c.toNat - '0'.toNat))
    rw [map_cons, cons_append, portLoop, if_pos hdigit]
    simp only [hcur]
    rw [if_neg (by omega)]
    exact ih (fun d hd => hcs d (mem_cons_of_mem c hd)) _ hmax

/-- What can come behind a port. -/
abbrev pathStops : List UInt8 := [slash, question, hash]

theorem splitPort_decimal {n : Nat} (hn : n ≤ 65535) (hr : Ends pathStops rest) :
    splitPort (colon :: decimal n ++ rest) = some (UInt16.ofNat n, rest) := by
  have hdigits : ∀ c ∈ Nat.toDigits 10 n, c.isDigit = true := fun c hc =>
    Nat.isDigit_of_mem_toDigits (by omega) (by omega) hc
  have hstop : ∀ b ∈ rest.head?, isDigit b = false := by
    intro b hb
    have := hr b hb
    simp only [mem_cons, not_mem_nil, or_false] at this
    rcases this with rfl | rfl | rfl <;> rfl
  have hloop := portLoop_digits hdigits 0 (by rwa [Nat.ofDigitChars_ten_toDigits]) hstop
  rw [Nat.ofDigitChars_ten_toDigits] at hloop
  have hend : rest = [] ∨ rest.head? = some slash ∨ rest.head? = some question ∨
      rest.head? = some hash := by
    cases rest with
    | nil => exact .inl rfl
    | cons b rest => simpa [pathStops] using hr b rfl
  rw [cons_append, splitPort, if_pos rfl, decimal, hloop]
  exact if_pos hend

theorem splitPort_none (h : s.head? ≠ some colon) : splitPort s = some (0, s) := by
  cases s with
  | nil => rfl
  | cons b s =>
    rw [splitPort, if_neg]
    rintro rfl
    exact h rfl

/-! ## The userinfo -/

theorem splitUser_spec (info : List UInt8) :
    let r := splitUser info
    Free [colon] r.1 ∧ info = userText r.1 r.2 := by
  obtain ⟨hsplit, hends⟩ := upTo_split [colon] info
  rw [splitUser]
  dsimp only
  cases hrest : info.drop (upTo [colon] info).length with
  | nil =>
    rw [hrest] at hsplit
    exact ⟨upTo_free _ _, hsplit⟩
  | cons b password =>
    rw [hrest] at hsplit hends
    have hb : b = colon := mem_singleton.mp (hends b rfl)
    subst hb
    exact ⟨upTo_free _ _, hsplit⟩

theorem splitUser_append {user : List UInt8} (hu : Free [colon] user) (password : Option (List UInt8)) :
    splitUser (userText user password) = (user, password) := by
  have hup : upTo [colon] (userText user password) = user := by
    refine upTo_append hu ?_
    cases password with
    | none => exact ends_nil
    | some pw => exact ends_cons mem_cons_self
  rw [splitUser, hup, userText, drop_left]
  cases password <;> rfl

/-- The bytes that end the search for a userinfo. -/
abbrev infoStops : List UInt8 := [slash, question, hash, at']

theorem splitUserinfo_spec (s : List UInt8) :
    (∃ info rest, splitUserinfo s = (some info, rest) ∧ s = info ++ at' :: rest ∧ Free infoStops info) ∨
    splitUserinfo s = (none, s) ∧ at' ∉ upTo pathStops s := by
  obtain ⟨hsplit, hends⟩ := upTo_split infoStops s
  have hfree := upTo_free infoStops s
  rw [splitUserinfo]
  cases hrest : s.drop (upTo infoStops s).length with
  | nil =>
    rw [hrest, append_nil] at hsplit
    refine .inr ⟨rfl, fun hmem => ?_⟩
    have : at' ∈ s := (takeWhile_sublist _).mem hmem
    rw [hsplit] at this
    exact hfree _ this (by simp)
  | cons b rest =>
    rw [hrest] at hsplit hends
    by_cases hb : b = at'
    · subst hb
      refine .inl ⟨upTo infoStops s, rest, if_pos rfl, hsplit, hfree⟩
    · refine .inr ⟨if_neg hb, fun hmem => ?_⟩
      have hstop : b ∈ pathStops := by
        have := hends b rfl
        simp only [mem_cons, not_mem_nil, or_false] at this ⊢
        rcases this with h | h | h | h
        · exact .inl h
        · exact .inr (.inl h)
        · exact .inr (.inr h)
        · exact absurd h hb
      rw [hsplit, upTo_append (hfree.mono (by simp +contextual)) (ends_cons hstop)] at hmem
      exact hfree _ hmem (by simp)

theorem splitUserinfo_append {info : List UInt8} (hi : Free infoStops info) :
    splitUserinfo (info ++ at' :: rest) = (some info, rest) := by
  rw [splitUserinfo]
  rw [upTo_append hi (ends_cons (by simp)), drop_left]
  exact if_pos rfl

theorem splitUserinfo_none (h : at' ∉ upTo pathStops s) : splitUserinfo s = (none, s) := by
  rcases splitUserinfo_spec s with ⟨info, rest, -, rfl, hfree⟩ | ⟨heq, -⟩
  · refine absurd ?_ h
    have hsub : Free pathStops (info ++ [at']) := by
      intro b hb
      rcases mem_append.mp hb with hb | hb
      · exact hfree.mono (by simp +contextual) b hb
      · rw [mem_singleton.mp hb]
        decide
    rw [upTo]
    have hpos : ∀ b ∈ info ++ [at'], (!pathStops.contains b) = true := fun b hb => by
      simpa using hsub b hb
    rw [append_cons, takeWhile_append_of_pos hpos]
    simp
  · exact heq

/-! ## The components of a URL -/

/-- What the components of a parsed URL are. -/
structure Url.Wf (u : Url) : Prop where
  scheme : u.scheme ≠ []
  noSeparator : ¬ separator <:+: u.scheme
  user : ∀ user ∈ u.user, Free (colon :: infoStops) user
  password : ∀ pw ∈ u.password, Free infoStops pw
  noPassword : u.user = none → u.password = none
  host : u.host ≠ []
  hostFree : Free [colon, slash, question, hash] u.host
  noUser : u.user = none → at' ∉ u.host
  path : ∃ p, u.path = slash :: p ∧ Free [question, hash] p
  query : ∀ q ∈ u.query, Free [hash] q
  port : u.port = 0 → defaultPort u.scheme = 0

theorem splitUserinfo_ends {info : List UInt8} (hi : Free infoStops info) :
    Free (colon :: infoStops) (splitUser info).1 ∧ ∀ pw ∈ (splitUser info).2, Free infoStops pw := by
  obtain ⟨huser, hinfo⟩ := splitUser_spec info
  constructor
  · intro b hb
    have hmem : b ∈ info := by
      rw [hinfo]
      exact mem_append_left _ hb
    rw [mem_cons]
    rintro (rfl | hstop)
    · exact huser _ hb (mem_singleton.mpr rfl)
    · exact hi b hmem hstop
  · intro pw hpw b hb
    refine hi b ?_
    rw [hinfo, hpw]
    exact mem_append_right _ (mem_cons_of_mem _ hb)

theorem free_getD {lead : UInt8} {stops : List UInt8} (s : List UInt8) :
    Free stops ((component lead stops s).getD []) := by
  rcases component_spec lead stops s with ⟨a, hc, hfree, -⟩ | ⟨hc, -⟩
  · rw [hc]
    exact hfree
  · rw [hc]
    simp [Free]

theorem defaultPort_ite (port : UInt16) (scheme : List UInt8)
    (h : (if port = 0 then defaultPort scheme else port) = 0) : defaultPort scheme = 0 := by
  split at h
  · exact h
  · rename_i hport
    exact absurd h hport

/-- The components of an accepted URL. -/
theorem parse_wf (h : parse s = some u) : u.Wf := by
  rw [parse] at h
  cases hsch : splitScheme s with
  | none =>
    rw [hsch] at h
    cases h
  | some r =>
    obtain ⟨scheme, authority⟩ := r
    simp only [hsch] at h
    split at h
    · cases h
    rename_i hne
    rw [not_or] at hne
    split at h
    · cases h
    rename_i hhost
    cases hport : splitPort ((splitUserinfo authority).2.drop
        (upTo [colon, slash, question, hash] (splitUserinfo authority).2).length) with
    | none =>
      rw [hport] at h
      cases h
    | some r =>
      obtain ⟨port, tail⟩ := r
      simp only [hport, Option.some.injEq] at h
      subst h
      have hinfo := splitUserinfo_spec authority
      have hhostFree := upTo_free [colon, slash, question, hash] (splitUserinfo authority).2
      refine ⟨hne.1, (splitScheme_spec hsch).2, ?_, ?_, ?_, hhost, hhostFree, ?_,
        ⟨_, rfl, free_getD _⟩, ?_, defaultPort_ite _ _⟩
      · intro user huser
        obtain ⟨info, hi, rfl⟩ := Option.map_eq_some_iff.mp huser
        rcases hinfo with ⟨info', rest, heq, -, hfree⟩ | ⟨heq, -⟩
        · rw [heq] at hi
          obtain rfl := Option.some.inj hi
          exact (splitUserinfo_ends hfree).1
        · rw [heq] at hi
          cases hi
      · intro pw hpw
        obtain ⟨info, hi, hpw⟩ := Option.bind_eq_some_iff.mp hpw
        rcases hinfo with ⟨info', rest, heq, -, hfree⟩ | ⟨heq, -⟩
        · rw [heq] at hi
          obtain rfl := Option.some.inj hi
          exact (splitUserinfo_ends hfree).2 pw hpw
        · rw [heq] at hi
          cases hi
      · intro huser
        rw [Option.map_eq_none_iff.mp huser]
        rfl
      · intro huser
        rcases hinfo with ⟨info', rest, heq, -⟩ | ⟨heq, hno⟩
        · rw [heq] at huser
          cases huser
        · rw [heq]
          -- the host stops where the authority does, or before
          intro hmem
          refine hno ?_
          obtain ⟨hsplit, -⟩ := upTo_split [colon, slash, question, hash] authority
          rw [upTo, hsplit, takeWhile_append_of_pos]
          · exact mem_append_left _ hmem
          · intro b hb
            have hfree := upTo_free [colon, slash, question, hash] authority b hb
            simp only [mem_cons, not_mem_nil, or_false, not_or] at hfree
            simp [hfree]
      · intro q hq
        rcases component_spec question [hash] (behind tail (component slash [question, hash] tail)) with
          ⟨a, hc, hfree, -⟩ | ⟨hc, -⟩
        · rw [hc] at hq
          rw [← Option.some.inj hq]
          exact hfree
        · rw [hc] at hq
          cases hq

/-! ## Put together again -/

theorem decimal_free {n : Nat} (hstops : ∀ b ∈ stops, isDigit b = false) : Free stops (decimal n) := by
  intro b hb hmem
  obtain ⟨c, hc, rfl⟩ := mem_map.mp hb
  have hdigit := (isDigit_ofNat (Nat.isDigit_of_mem_toDigits (by omega) (by omega) hc)).1
  rw [hstops _ hmem] at hdigit
  cases hdigit

theorem optionText_ends (lead : UInt8) (c : Option (List UInt8)) (hr : Ends stops rest)
    (hlead : lead ∈ stops) : Ends stops (optionText lead c ++ rest) := by
  cases c with
  | none => exact hr
  | some c => exact ends_cons hlead

theorem fragmentText_ends (u : Url) : Ends [hash] (optionText hash u.fragment) := by
  have hends : Ends [hash] (optionText hash u.fragment ++ []) :=
    optionText_ends hash u.fragment ends_nil mem_cons_self
  rwa [append_nil] at hends

theorem queryText_ends (u : Url) :
    Ends [question, hash] (optionText question u.query ++ optionText hash u.fragment) :=
  optionText_ends question u.query
    (fun b hb => mem_cons_of_mem _ (fragmentText_ends u b hb)) mem_cons_self

namespace Url.Wf

theorem pathText_head (h : u.Wf) : (pathText u).head? = some slash := by
  obtain ⟨p, hpath, -⟩ := h.path
  rw [pathText, hpath]
  rfl

theorem pathText_ends (h : u.Wf) (hslash : slash ∈ stops) : Ends stops (pathText u) := by
  intro b hb
  rw [h.pathText_head] at hb
  rwa [← Option.some.inj hb]

theorem portText_ends (h : u.Wf) : Ends [colon, slash, question, hash] (portText u ++ pathText u) := by
  rw [portText]
  split
  · exact h.pathText_ends (by simp)
  · exact ends_cons mem_cons_self

theorem portText_free (u : Url) : Free infoStops (portText u) := by
  have hstops : ∀ b ∈ infoStops, isDigit b = false := by decide +kernel
  have hcolon : colon ∉ infoStops := by decide
  rw [portText]
  split
  · simp [Free]
  · intro b hb
    rcases mem_cons.mp hb with rfl | hb
    · exact hcolon
    · exact decimal_free hstops b hb

/-- What is read of the port. -/
theorem splitPort_portText (h : u.Wf) : splitPort (portText u ++ pathText u) =
    some (if u.port = defaultPort u.scheme then 0 else u.port, pathText u) := by
  rw [portText]
  split
  · refine splitPort_none ?_
    rw [nil_append, h.pathText_head]
    decide
  · rw [splitPort_decimal (Nat.le_of_lt_succ u.port.toNat_lt) (h.pathText_ends (by simp)),
      UInt16.ofNat_toNat]

theorem port_eq (h : u.Wf) :
    (if (if u.port = defaultPort u.scheme then 0 else u.port) = 0 then defaultPort u.scheme
      else if u.port = defaultPort u.scheme then 0 else u.port) = u.port := by
  by_cases hd : u.port = defaultPort u.scheme
  · rw [if_pos hd, if_pos rfl, hd]
  · rw [if_neg hd]
    split
    · rename_i h0
      exact absurd (h0.trans (h.port h0).symm) hd
    · rfl

/-- What is read of the userinfo. -/
theorem splitUserinfo_infoText (h : u.Wf) :
    splitUserinfo (infoText u ++ (u.host ++ (portText u ++ pathText u))) =
      (u.user.map fun user => userText user u.password, u.host ++ (portText u ++ pathText u)) := by
  rw [infoText]
  cases huser : u.user with
  | none =>
    have hauthority : upTo pathStops (u.host ++ portText u ++ pathText u) = u.host ++ portText u := by
      refine upTo_append ?_ (h.pathText_ends (by simp))
      intro b hb
      rcases mem_append.mp hb with hb | hb
      · exact h.hostFree.mono (by simp +contextual) b hb
      · exact (portText_free u).mono (by simp +contextual) b hb
    rw [Option.elim_none, nil_append, Option.map_none]
    refine splitUserinfo_none ?_
    rw [← append_assoc, hauthority, mem_append, not_or]
    exact ⟨h.noUser huser, fun hmem => portText_free u _ hmem (by simp)⟩
  | some user =>
    have hfree : Free infoStops (userText user u.password) := by
      intro b hb
      rcases mem_append.mp hb with hb | hb
      · exact (h.user user huser).mono (by simp +contextual) b hb
      · cases hpw : u.password with
        | none =>
          rw [hpw] at hb
          cases hb
        | some pw =>
          rw [hpw, Option.elim_some] at hb
          rcases mem_cons.mp hb with rfl | hb
          · decide
          · exact h.password pw hpw b hb
    rw [Option.elim_some, Option.map_some, append_assoc, singleton_append]
    exact splitUserinfo_append hfree

theorem user_eq (h : u.Wf) :
    ((u.user.map fun user => userText user u.password).map fun info => (splitUser info).1) = u.user := by
  cases huser : u.user with
  | none => rfl
  | some user =>
    rw [Option.map_some, Option.map_some,
      splitUser_append ((h.user user huser).mono (by simp +contextual))]

theorem password_eq (h : u.Wf) :
    ((u.user.map fun user => userText user u.password).bind fun info => (splitUser info).2) =
      u.password := by
  cases huser : u.user with
  | none => exact (h.noPassword huser).symm
  | some user =>
    rw [Option.map_some, Option.bind_some,
      splitUser_append ((h.user user huser).mono (by simp +contextual))]

end Url.Wf

/-- What is read of a query or a fragment. -/
theorem component_optionText {lead : UInt8} {c : Option (List UInt8)} (hc : ∀ a ∈ c, Free stops a)
    (hr : Ends stops rest) (hlead : rest.head? ≠ some lead) :
    component lead stops (optionText lead c ++ rest) = c ∧
      behind (optionText lead c ++ rest) c = rest := by
  cases c with
  | none => exact ⟨component_none hlead, rfl⟩
  | some a => exact ⟨component_append lead (hc a rfl) hr, behind_some lead a rest⟩

/-- Such components, put together, are accepted and come out as they were. -/
theorem parse_assemble (h : u.Wf) : parse (assemble u) = some u := by
  obtain ⟨p, hpath, hpathFree⟩ := h.path
  have hne : ¬ (u.scheme = [] ∨ infoText u ++ (u.host ++ (portText u ++ pathText u)) = []) := by
    rintro (hs | hall)
    · exact h.scheme hs
    · exact h.host (append_eq_nil_iff.mp (append_eq_nil_iff.mp hall).2).1
  have hhost : upTo [colon, slash, question, hash] (u.host ++ (portText u ++ pathText u)) = u.host :=
    upTo_append h.hostFree h.portText_ends
  have hpathComp : component slash [question, hash] (pathText u) = some p := by
    rw [pathText, hpath]
    exact component_append slash hpathFree (queryText_ends u)
  have hpathBehind : behind (pathText u) (some p) =
      optionText question u.query ++ optionText hash u.fragment := by
    rw [pathText, hpath]
    exact behind_some slash p _
  have hquestion : (optionText hash u.fragment).head? ≠ some question := by
    intro hhead
    cases mem_singleton.mp (fragmentText_ends u _ hhead)
  obtain ⟨hquery, hqueryBehind⟩ := component_optionText h.query (fragmentText_ends u) hquestion
  have hfragment : component hash [] (optionText hash u.fragment ++ []) = u.fragment :=
    (component_optionText (by simp [Free]) ends_nil (by decide)).1
  rw [append_nil] at hfragment
  rw [parse, assemble, splitScheme_append h.noSeparator]
  dsimp only
  rw [if_neg hne, h.splitUserinfo_infoText]
  dsimp only
  rw [hhost, if_neg h.host, drop_left, h.splitPort_portText]
  simp only [hpathComp, hpathBehind, hquery, hqueryBehind, hfragment, h.user_eq, h.password_eq,
    h.port_eq, Option.getD_some, ← hpath]

/-! ## Building -/

theorem build_eq (scheme host : List UInt8) (port : UInt16) (path : Option (List UInt8)) :
    build scheme host port path =
      urlText scheme host port (defaultPort scheme) (path.getD [slash]) := by
  rw [build]
  by_cases hlen : (urlFormat 512 scheme host port (defaultPort scheme) (path.getD [slash])).2 < 512
  · rw [if_pos hlen]
    exact take_of_length_le (Nat.le_of_lt_succ hlen)
  · rw [if_neg hlen]
    exact take_of_length_le (Nat.le_refl _)

/-- The components of a built URL. -/
def built (scheme host : List UInt8) (port : UInt16) (path : List UInt8) : Url :=
  { scheme := scheme
    user := none
    password := none
    host := host
    path := path
    query := none
    fragment := none
    port := if port = 0 then defaultPort scheme else port }

theorem urlText_eq (scheme host : List UInt8) (port : UInt16) (path : List UInt8) :
    urlText scheme host port (defaultPort scheme) path = assemble (built scheme host port path) := by
  have hport : (port ≠ 0 ∧ port ≠ defaultPort scheme) ↔
      ¬ (if port = 0 then defaultPort scheme else port) = defaultPort scheme := by
    by_cases h0 : port = 0
    · simp [h0]
    · simp [h0]
  rw [urlText, assemble, infoText, portText, pathText, built]
  dsimp only
  by_cases h : port ≠ 0 ∧ port ≠ defaultPort scheme
  · have h0 : (if port = 0 then defaultPort scheme else port) = port := if_neg h.1
    rw [if_pos h, if_neg (hport.mp h), h0]
    simp [optionText]
  · rw [if_neg h, if_pos (not_not.mp (mt hport.mpr h))]
    simp [optionText]

/-- **Parse and build.** The components of an accepted URL, put together again, are
accepted as they were; a built URL is parsed into what it was built of, with port 0 as
the port of the scheme. -/
theorem parse_build_round_trip :
    (∀ s u, parse s = some u → parse (assemble u) = some u) ∧
    ∀ (scheme host : List UInt8) (port : UInt16) (path : List UInt8),
      scheme ≠ [] → ¬ separator <:+: scheme →
      host ≠ [] → (∀ b ∈ host, b ∉ [colon, slash, question, hash, at']) →
      path.head? = some slash → (∀ b ∈ path, b ∉ [question, hash]) →
      parse (build scheme host port (some path)) = some (built scheme host port path) := by
  refine ⟨fun s u h => parse_assemble (parse_wf h), ?_⟩
  intro scheme host port path hscheme hsep hhost hhostFree hpath hpathFree
  rw [build_eq, Option.getD_some, urlText_eq]
  refine parse_assemble ⟨hscheme, hsep, ?_, ?_, fun _ => rfl, hhost, ?_, ?_, ?_, ?_, defaultPort_ite _ _⟩
  · intro user huser
    cases huser
  · intro pw hpw
    cases hpw
  · exact Free.mono hhostFree (by simp +contextual)
  · exact fun _ hmem => hhostFree _ hmem (by simp)
  · cases path with
    | nil => cases hpath
    | cons b p =>
      obtain rfl := Option.some.inj hpath
      exact ⟨p, rfl, fun b hb => hpathFree b (mem_cons_of_mem _ hb)⟩
  · intro q hq
    cases hq

/-- `ftp://a:b@h?q` and a URL built for HTTPS. -/
theorem parse_build_round_trip_two :
    parse (ascii "ftp://a:b@h/?q") =
        some ⟨ascii "ftp", some (ascii "a"), some (ascii "b"), ascii "h", ascii "/", some (ascii "q"),
          none, 0⟩ ∧
      parse (build (ascii "https") (ascii "h") 0 (some (ascii "/x"))) =
        some (built (ascii "https") (ascii "h") 0 (ascii "/x")) := by
  constructor
  · exact parse_build_round_trip.1 (ascii "ftp://a:b@h?q") ⟨ascii "ftp", some (ascii "a"),
      some (ascii "b"), ascii "h", ascii "/", some (ascii "q"), none, 0⟩ (by decide +kernel)
  · exact parse_build_round_trip.2 (ascii "https") (ascii "h") 0 (ascii "/x") (by decide +kernel) (by decide +kernel)
      (by decide +kernel) (by decide +kernel) (by decide +kernel) (by decide +kernel)

/-- A URL that is built with the scheme `a://b`. -/
theorem separator_in_scheme : ¬ ∀ (scheme host : List UInt8) (port : UInt16) (path : List UInt8),
    host ≠ [] → (∀ b ∈ host, b ∉ [colon, slash, question, hash, at']) →
    path.head? = some slash → (∀ b ∈ path, b ∉ [question, hash]) →
    parse (build scheme host port (some path)) = some (built scheme host port path) := by
  intro h
  have hbuilt := h (ascii "a://b") (ascii "h") 0 (ascii "/") (by decide +kernel) (by decide +kernel) (by decide +kernel)
    (by decide +kernel)
  have hparsed : parse (build (ascii "a://b") (ascii "h") 0 (some (ascii "/"))) =
      some ⟨ascii "a", none, none, ascii "b", ascii "//h/", none, none, 0⟩ := by decide +kernel
  rw [hbuilt] at hparsed
  cases hparsed

end Url

end AxlSdk
