import AxlSdk.NineP.Codec

/-!
# Walking to a path as a client (`axl_9p_client_walk`)

A path is its bytes. A server says of the names it is sent whether it refuses them and
how many of them it reaches; it binds the new fid when it has reached them all.

- `walkLoop_eq`: the loop finds the components of the path.
- `walk_spec`: one message is sent, with each component cut to 255 bytes.
- `client_walk_iff`: so the walk names what the path does unless a component is longer
  than that and the server reaches the shortened path.
-/

namespace AxlSdk

namespace NineP

namespace ClientWalk

open List

/-! ## The code -/

abbrev Name := List UInt8

def slash : UInt8 := 0x2F

/-- The segments that the loop of `axl_9p_client_walk` comes to. -/
def walkLoop : Nat → List UInt8 → List Name
  | 0, _ => []
  | fuel + 1, p =>
    if p = [] then []
    else
      let p := p.dropWhile (· == slash)
      let seg := p.takeWhile (· != slash)
      let p := p.dropWhile (· != slash)
      if seg.length = 0 then walkLoop fuel p else seg :: walkLoop fuel p

/-- A component in `comp[256]`. -/
def comp (seg : Name) : Name := seg.take (if seg.length < 255 then seg.length else 255)

/-- `Twalk fid[4] newfid[4] nwname[2] nwname*(wname[s])` -/
structure Twalk where
  fid : Nat
  newfid : Nat
  names : List Name
deriving DecidableEq, Repr

def Twalk.bytes (t : Twalk) : List UInt8 :=
  message 110 0 (le 4 t.fid ++ (le 4 t.newfid ++ (le 2 t.names.length ++ t.names.flatMap wStr)))

inductive Reply where
  | lost
  | rlerror (ecode : Nat)
  | reply (type : Nat) (body : List UInt8)
deriving DecidableEq, Repr

structure Axl9pClient where
  rootFid : Nat
  nextFid : Nat
  lastErrno : Nat
deriving DecidableEq, Repr

/-- `axl_9p_transact`: the body of a reply of the expected type. -/
def transact (c : Axl9pClient) (r : Reply) (expectType : Nat) : Option (List UInt8) × Axl9pClient :=
  match r with
  | .lost => (none, { c with lastErrno := 0 })
  | .rlerror ecode => (none, { c with lastErrno := ecode })
  | .reply type body => (if type = expectType then some body else none, { c with lastErrno := 0 })

/-- What a server makes of names: whether it refuses them for a reason of its own, how many
it reaches, their qids, and whether its reply arrives. -/
structure Server where
  refuses : List Name → Bool
  reached : List Name → Nat
  qids : List Name → List UInt8
  arrives : List Name → Bool

/-- Whether the server binds the new fid: it has reached every name. -/
def Server.binds (srv : Server) (names : List Name) : Prop :=
  srv.refuses names = false ∧ names.length ≤ srv.reached names

instance (srv : Server) (names : List Name) : Decidable (srv.binds names) :=
  inferInstanceAs (Decidable (_ ∧ _))

/-- The reply to a `Twalk`. A walk that ends early is one, with fewer qids; when it does not
get to the first name there is an error. -/
def Server.answer (srv : Server) (names : List Name) : Reply :=
  let nwqid := min (srv.reached names) names.length
  if srv.arrives names then
    if srv.refuses names then .rlerror 22
    else if nwqid = 0 ∧ names ≠ [] then .rlerror 2
    else .reply 111 (le 2 nwqid ++ srv.qids names)
  else .lost

/-- The result of a walk: the fid it hands out, what it sent, and whether the server has
bound the fid. -/
structure Walked where
  fid : Option Nat
  sent : List Twalk
  bound : Bool
  client : Axl9pClient
deriving DecidableEq, Repr

/-- `axl_9p_client_walk` -/
def axl9pClientWalk (srv : Server) (c : Axl9pClient) (path : List UInt8) : Walked :=
  let newFid := c.nextFid
  let c := { c with nextFid := (c.nextFid + 1) % 2 ^ 32 }
  let req : Twalk := ⟨c.rootFid, newFid, (walkLoop path.length path).map comp⟩
  if 1024 < req.bytes.length then ⟨none, [], false, c⟩
  else
    let bound := decide (srv.binds req.names)
    match transact c (srv.answer req.names) 111 with
    | (none, c) => ⟨none, [req], bound, c⟩
    | (some body, c) =>
      let nwqid := rU16 ⟨body, false⟩
      if nwqid.2.error ∨ nwqid.1 ≠ req.names.length then ⟨none, [req], bound, c⟩
      else ⟨some newFid, [req], bound, c⟩

/-! ## Components -/

/-- The components of a path: what stands between slashes and is not empty. -/
def components (path : List UInt8) : List Name := (path.splitOn slash).filter fun seg => seg ≠ []

variable {path seg rest : List UInt8}

theorem components_nil : components [] = [] := rfl

theorem components_slash (rest : List UInt8) : components (slash :: rest) = components rest := by
  have hsplit : (slash :: rest).splitOn slash = [] :: rest.splitOn slash := by
    rw [splitOn_cons_eq_if_modifyHead, if_pos (beq_self_eq_true _)]
  rw [components, hsplit, filter_cons_of_neg (by simp), components]

theorem components_seg (h : slash ∉ seg) (hne : seg ≠ []) :
    components seg = [seg] ∧ ∀ rest, components (seg ++ slash :: rest) = seg :: components rest := by
  have hno : ∀ b ∈ seg, (b == slash) = false := fun b hb =>
    beq_eq_false_iff_ne.mpr fun heq => h (heq ▸ hb)
  constructor
  · have hsplit : seg.splitOn slash = [seg] := by
      rw [splitOn_eq_splitOnP]
      exact splitOnP_eq_singleton hno
    rw [components, hsplit, filter_cons_of_pos (by simpa using hne), filter_nil]
  · intro rest
    have hsplit : (seg ++ slash :: rest).splitOn slash = seg :: rest.splitOn slash := by
      rw [splitOn_eq_splitOnP, splitOn_eq_splitOnP]
      exact splitOnP_append_cons_of_forall_mem hno slash (beq_self_eq_true _) rest
    rw [components, hsplit, filter_cons_of_pos (by simpa using hne), components]

theorem components_dropWhile (p : List UInt8) :
    components (p.dropWhile (· == slash)) = components p := by
  induction p with
  | nil => rfl
  | cons b p ih =>
    rw [dropWhile_cons]
    split
    · rename_i h
      rw [ih, beq_iff_eq.mp h, components_slash]
    · rfl

/-- The first segment of what does not start with a slash. -/
theorem components_takeWhile {b : UInt8} (h : b ≠ slash) (q : List UInt8) :
    components (b :: q) = (b :: q).takeWhile (· != slash) ::
      components ((b :: q).dropWhile (· != slash)) := by
  have hne : (b :: q).takeWhile (· != slash) ≠ [] := by
    rw [takeWhile_cons, if_pos (bne_iff_ne.mpr h)]
    exact cons_ne_nil _ _
  have hno : slash ∉ (b :: q).takeWhile (· != slash) := by
    intro hmem
    exact absurd (mem_takeWhile_imp hmem) (by simp)
  obtain ⟨hlast, hmore⟩ := components_seg hno hne
  conv => lhs; rw [← takeWhile_append_dropWhile (p := (· != slash)) (l := b :: q)]
  cases hrest : (b :: q).dropWhile (· != slash) with
  | nil => rw [append_nil, hlast, components_nil]
  | cons c rest =>
    have hc : c = slash := by
      have hcons : (b :: q).dropWhile (· != slash) ≠ [] := by
        rw [hrest]
        exact cons_ne_nil _ _
      have hhead := head_dropWhile_not (· != slash) hcons
      simpa [hrest] using hhead
    rw [hc, hmore, components_slash]

/-- The loop finds the components. -/
theorem walkLoop_eq {fuel : Nat} (h : path.length ≤ fuel) : walkLoop fuel path = components path := by
  induction fuel generalizing path with
  | zero =>
    cases length_eq_zero_iff.mp (Nat.le_zero.mp h)
    rfl
  | succ fuel ih =>
    rw [walkLoop]
    by_cases hnil : path = []
    · rw [if_pos hnil, hnil, components_nil]
    · rw [if_neg hnil, ← components_dropWhile path]
      dsimp only
      have hdrop : (path.dropWhile (· == slash)).length ≤ path.length :=
        (dropWhile_sublist _).length_le
      cases hq : path.dropWhile (· == slash) with
      | nil => exact ih (Nat.zero_le _)
      | cons b q =>
        have hb : b ≠ slash := by
          have hcons : path.dropWhile (· == slash) ≠ [] := by
            rw [hq]
            exact cons_ne_nil _ _
          have hhead := head_dropWhile_not (· == slash) hcons
          simpa [hq] using hhead
        have hbne : (b != slash) = true := bne_iff_ne.mpr hb
        have hlen : ((b :: q).dropWhile (· != slash)).length ≤ fuel := by
          rw [dropWhile_cons, if_pos hbne]
          have := (dropWhile_sublist (· != slash) (l := q)).length_le
          rw [hq, length_cons] at hdrop
          omega
        have hseg : ((b :: q).takeWhile (· != slash)).length ≠ 0 := by
          rw [takeWhile_cons, if_pos hbne]
          exact Nat.succ_ne_zero _
        rw [if_neg hseg, ih hlen, components_takeWhile hb]

/-! ## The walk -/

/-- A component that has no room in `comp[256]`. -/
def TooLong (path : List UInt8) : Prop := ∃ seg ∈ components path, 255 < seg.length

/-- The components as they are sent. -/
def shortened (path : List UInt8) : List Name := (components path).map fun seg => seg.take 255

/-- Names that a message holds. -/
def Fits (names : List Name) : Prop := 17 + (names.map fun name => 2 + name.length).sum ≤ 1024

instance (names : List Name) : Decidable (Fits names) := inferInstanceAs (Decidable (_ ≤ _))

theorem comp_eq (seg : Name) : comp seg = seg.take 255 := by
  rw [comp]
  split
  · rename_i h
    rw [take_of_length_le le_rfl, take_of_length_le h.le]
  · rfl

theorem shortened_eq (h : ¬ TooLong path) : shortened path = components path := by
  have hid : ∀ seg ∈ components path, seg.take 255 = seg := by
    intro seg hseg
    refine take_of_length_le ?_
    by_contra hlong
    exact h ⟨seg, hseg, by omega⟩
  rw [shortened, map_congr_left hid, map_id']

theorem Twalk.length_bytes (t : Twalk) :
    t.bytes.length = 17 + (t.names.map fun name => 2 + name.length).sum := by
  have hnames : (t.names.flatMap wStr).length = (t.names.map fun name => 2 + name.length).sum := by
    rw [length_flatMap]
    congr 1
    refine map_congr_left fun name _ => ?_
    rw [wStr, length_append, le_length]
  simp only [Twalk.bytes, message, length_append, le_length, hnames]
  omega

theorem length_lt_of_fits {names : List Name} (h : Fits names) : names.length < 256 ^ 2 := by
  have hsum : names.length ≤ (names.map fun name => 2 + name.length).sum := by
    clear h
    induction names with
    | nil => exact Nat.zero_le _
    | cons name names ih =>
      rw [map_cons, sum_cons, length_cons]
      omega
  rw [Fits] at h
  omega

section

variable (srv : Server) (c : Axl9pClient) (path : List UInt8)

/-- The client after a reply. -/
def Axl9pClient.after (ecode : Nat) : Axl9pClient :=
  { c with nextFid := (c.nextFid + 1) % 2 ^ 32, lastErrno := ecode }

/-- The request for a path. -/
def request : Twalk := ⟨c.rootFid, c.nextFid, shortened path⟩

theorem request_fits : (request c path).bytes.length ≤ 1024 ↔ Fits (shortened path) := by
  rw [Twalk.length_bytes]
  exact Iff.rfl

/-- What an arriving reply amounts to: a reply with as many qids as there are names, when
the server has bound the fid. -/
theorem answer_spec {names : List Name} (hfits : Fits names) (harrives : srv.arrives names = true) :
    (srv.binds names ∧
      srv.answer names = .reply 111 (le 2 names.length ++ srv.qids names)) ∨
    (¬ srv.binds names ∧ ((∃ ecode, srv.answer names = .rlerror ecode) ∨
      ∃ n < names.length, srv.answer names = .reply 111 (le 2 n ++ srv.qids names))) := by
  rw [Server.answer, if_pos harrives]
  cases hrefuses : srv.refuses names with
  | true =>
    refine Or.inr ⟨?_, Or.inl ⟨22, rfl⟩⟩
    rintro ⟨hfalse, -⟩
    exact Bool.noConfusion (hrefuses.symm.trans hfalse)
  | false =>
    rw [if_neg Bool.false_ne_true]
    by_cases hreached : names.length ≤ srv.reached names
    · left
      have hmin : min (srv.reached names) names.length = names.length := min_eq_right hreached
      have hsome : ¬ (names.length = 0 ∧ names ≠ []) := by
        rintro ⟨hlen, hne⟩
        exact hne (length_eq_zero_iff.mp hlen)
      exact ⟨⟨hrefuses, hreached⟩, by rw [hmin, if_neg hsome]⟩
    · right
      have hlt : srv.reached names < names.length := Nat.lt_of_not_le hreached
      refine ⟨fun hbinds => hreached hbinds.2, ?_⟩
      rw [min_eq_left hlt.le]
      split
      · exact Or.inl ⟨2, rfl⟩
      · exact Or.inr ⟨_, hlt, rfl⟩

theorem names_eq : (walkLoop path.length path).map comp = shortened path := by
  rw [walkLoop_eq le_rfl, shortened]
  exact map_congr_left fun seg _ => comp_eq seg

theorem walk_of_not_fits (h : ¬ Fits (shortened path)) :
    ∃ c', axl9pClientWalk srv c path = ⟨none, [], false, c'⟩ := by
  have hlong : 1024 < (request c path).bytes.length := by
    rw [← Nat.not_le, request_fits]
    exact h
  rw [axl9pClientWalk, names_eq]
  exact ⟨_, if_pos hlong⟩

/-- The walk sends one request. It hands out the fid when the server has bound it and
its reply arrives. -/
theorem walk_spec (h : Fits (shortened path)) :
    ∃ c', axl9pClientWalk srv c path =
      ⟨if srv.binds (shortened path) ∧ srv.arrives (shortened path) = true
        then some c.nextFid else none,
        [request c path], decide (srv.binds (shortened path)), c'⟩ := by
  have hshort : ¬ 1024 < (request c path).bytes.length := by
    rw [Nat.not_lt, request_fits]
    exact h
  have hcount := length_lt_of_fits h
  rw [axl9pClientWalk, names_eq]
  cases harrives : srv.arrives (shortened path) with
  | false =>
    have hlost : srv.answer (shortened path) = .lost := by
      rw [Server.answer, harrives, if_neg Bool.false_ne_true]
    refine ⟨c.after 0, (if_neg hshort).trans ?_⟩
    rw [hlost, if_neg (fun hboth => Bool.false_ne_true hboth.2)]
    rfl
  | true =>
    obtain ⟨hbinds, hreply⟩ | ⟨hbinds, ⟨ecode, hreply⟩ | ⟨n, hn, hreply⟩⟩ :=
      answer_spec srv h harrives
    · refine ⟨c.after 0, (if_neg hshort).trans ?_⟩
      rw [hreply, if_pos ⟨hbinds, rfl⟩]
      simp only [transact, if_true, rU16, rUint_le 2 hcount, ne_eq, not_true_eq_false,
        Bool.false_eq_true, or_self, if_false]
      rfl
    · refine ⟨c.after ecode, (if_neg hshort).trans ?_⟩
      rw [hreply, if_neg fun hboth => hbinds hboth.1]
      rfl
    · refine ⟨c.after 0, (if_neg hshort).trans ?_⟩
      have hne : n ≠ (shortened path).length := hn.ne
      rw [hreply, if_neg fun hboth => hbinds hboth.1]
      simp only [transact, if_true, rU16, rUint_le 2 (hn.trans hcount), ne_eq, hne,
        not_false_eq_true, or_true]
      rfl

/-- A path that the walk cannot represent. -/
def Unrepresentable : Prop := TooLong path ∨ ¬ Fits (components path)

/-- The walk names what the path does, with a fid that the server has bound on reaching it,
and refuses a path that it cannot represent. -/
def Exact : Prop :=
  let w := axl9pClientWalk srv c path
  (∀ fid, w.fid = some fid → w.sent.flatMap Twalk.names = components path ∧
    w.bound = true ∧ ∀ t ∈ w.sent, t.newfid = fid ∧ srv.binds t.names) ∧
  (Unrepresentable path → w.fid = none ∧ w.bound = false)

/-- A component that was cut is the only thing that comes between. -/
theorem client_walk_iff :
    Exact srv c path ↔
      ¬ (TooLong path ∧ Fits (shortened path) ∧ srv.binds (shortened path)) := by
  constructor
  · rintro ⟨-, hrefused⟩ ⟨hlong, hfits, hbinds⟩
    obtain ⟨c', hwalk⟩ := walk_spec srv c path hfits
    have hbound := (hrefused (Or.inl hlong)).2
    rw [hwalk, decide_eq_true hbinds] at hbound
    exact Bool.noConfusion hbound
  · intro hcond
    by_cases hfits : Fits (shortened path)
    · obtain ⟨c', hwalk⟩ := walk_spec srv c path hfits
      by_cases hbinds : srv.binds (shortened path)
      · -- nothing was cut
        have hlong : ¬ TooLong path := fun hlong => hcond ⟨hlong, hfits, hbinds⟩
        rw [Exact, hwalk]
        constructor
        · intro fid hfid
          have hnew : c.nextFid = fid := by
            by_cases harrives : srv.arrives (shortened path) = true
            · rw [if_pos ⟨hbinds, harrives⟩] at hfid
              exact Option.some.inj hfid
            · rw [if_neg fun hboth => harrives hboth.2] at hfid
              exact absurd hfid.symm (Option.some_ne_none _)
          refine ⟨?_, decide_eq_true hbinds, ?_⟩
          · rw [flatMap_singleton]
            exact shortened_eq hlong
          · intro t ht
            cases mem_singleton.mp ht
            exact ⟨hnew, hbinds⟩
        · rintro (hover | hmany)
          · exact absurd hover hlong
          · rw [shortened_eq hlong] at hfits
            exact absurd hfits hmany
      · rw [Exact, hwalk, if_neg fun hboth => hbinds hboth.1, decide_eq_false hbinds]
        exact ⟨fun _ hfid => absurd hfid.symm (Option.some_ne_none _), fun _ => ⟨rfl, rfl⟩⟩
    · obtain ⟨c', hwalk⟩ := walk_of_not_fits srv c path hfits
      rw [Exact, hwalk]
      exact ⟨fun _ hfid => absurd hfid.symm (Option.some_ne_none _), fun _ => ⟨rfl, rfl⟩⟩

end

/-- A server that has whatever is asked for. -/
def anyServer : Server := ⟨fun _ => false, List.length, fun _ => [], fun _ => true⟩

/-- A name of 256 bytes: its first 255 are walked to. -/
theorem client_walk_cuts :
    ¬ ∀ (srv : Server) (c : Axl9pClient) (path : List UInt8), Exact srv c path := by
  intro h
  have hbound :
      (axl9pClientWalk anyServer ⟨0, 1, 0⟩ (slash :: List.replicate 256 0x61)).bound = true := by
    decide +kernel
  have hlong : TooLong (slash :: List.replicate 256 0x61) :=
    ⟨List.replicate 256 0x61, by decide +kernel, by decide +kernel⟩
  have hnot := ((h anyServer ⟨0, 1, 0⟩ _).2 (Or.inl hlong)).2
  exact Bool.noConfusion (hbound.symm.trans hnot)

/-! ## The parent of a path -/

end ClientWalk

end NineP

end AxlSdk
