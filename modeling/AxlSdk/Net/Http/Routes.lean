import AxlSdk.Data.HashTable.Ownership
import AxlSdk.Data.RadixTree
import AxlSdk.Lib.Precedence
import AxlSdk.Net.Http.Dispatch

/-!
# Route registration and lookup (`src/net/axl-http-route.c`)

A route is put under a key made of its method and its path, in a buffer of 512
bytes: an exact route into the hash table, a prefix route into the radix tree. A
request is looked up with the key of its own method and path, then with the key
of `*`. A route is the number of the call that registered it; allocations
succeed, except that the hash table may not get a larger bucket array.

- `findRoute_eq`: the two stores, over any registrations, are a choice among the
  routes by their keys.
- `findRoute_specified_iff`: the route found is the one specified exactly if no
  other route gets before it by its key. Methods are cut to 15 bytes and keys to
  511, and a key does not say whether `*` was the method.
- `Short.undisturbed`: no one does if nothing is cut, no method is `*` and none
  has a space.
-/

namespace AxlSdk

namespace Routes

open Http Precedence List

/-! ## Keys -/

def star : UInt8 := 0x2a

def slash : UInt8 := 0x2f

/-- The arguments of `add_route_internal`; NULL is any method. -/
structure Route where
  method : Option RadixTree.Str
  path : RadixTree.Str

/-- `is_prefix` -/
def isPrefix (path : List UInt8) : Bool :=
  2 ≤ path.length && path.getD (path.length - 1) 0 == star &&
    path.getD (path.length - 2) 0 == slash

/-- `(int)n` -/
def toInt (n : Nat) : Int :=
  if n % 4294967296 < 2147483648 then (n % 4294967296 : Nat)
  else (n % 4294967296 : Nat) - 4294967296

/-- `%.*s`: a negative precision is none. -/
def printed (prec : Int) (s : List UInt8) : List UInt8 :=
  if prec < 0 then s else s.take prec.toNat

/-- `method_str` -/
def methodStr (method : Option RadixTree.Str) : List UInt8 :=
  match method with
  | some m => uppercaseMethod m.bytes
  | none => [star]

/-- The path in the key: that of a prefix route without its `*`. -/
def keyPath (path : List UInt8) : List UInt8 :=
  if isPrefix path then printed (toInt (path.length - 1)) path else path

/-- `key_buf` at registration. -/
def routeKey (r : Route) : List UInt8 :=
  snprintf 512 (methodStr r.method ++ space :: keyPath r.path.bytes)

/-- `key_buf` at lookup, with the method. -/
def requestKey (method path : List UInt8) : List UInt8 :=
  snprintf 512 (uppercaseMethod method ++ space :: path)

/-- `key_buf` at lookup, with `*`. -/
def wildKey (path : List UInt8) : List UInt8 := snprintf 512 (star :: space :: path)

/-! ## The server -/

/-- `axl_str_hash` -/
def strHash (s : List UInt8) : Nat :=
  s.foldl (fun h b => (h ^^^ b.toNat) * 1099511628211 % 18446744073709551616) 14695981039346656037

/-- `axl_hash_table_new_full(NULL, NULL, axl_free_impl, route_free)` -/
def strConfig : HashTable.Config (List UInt8) where
  hash k := strHash k.text
  equal a b := a.text == b.text
  keyDestroy := true
  valueDestroy := true
  copyKeys := false

/-- The allocator: a node for the hash table is memory not in use, and a larger bucket
array is there or not. -/
structure Allocator where
  fresh : List Nat → Nat
  unused : ∀ l, fresh l ∉ l
  array : Nat → Bool

/-- The two stores of `AxlHttpServer`. -/
structure Server where
  exactRoutes : HashTable.Table (List UInt8)
  prefixRoutes : RadixTree.Tree

/-- `add_route_internal`, the `i`-th call. -/
def addRouteInternal (a : Allocator) (s : Server) (i : Nat) (r : Route) : Server :=
  if isPrefix r.path.bytes then
    { s with prefixRoutes := (RadixTree.insert s.prefixRoutes (routeKey r) (some i)).1 }
  else
    let alloc : HashTable.Alloc := ⟨a.array i, some (a.fresh s.exactRoutes.nodes), none⟩
    { s with
      exactRoutes :=
        (HashTable.replace strConfig s.exactRoutes (some ⟨i, routeKey r⟩) (some i) alloc).2.1 }

/-- Registrations, one after the other. -/
def addRoutes (a : Allocator) : Server → Nat → List Route → Server
  | s, _, [] => s
  | s, i, r :: rs => addRoutes a (addRouteInternal a s i r) (i + 1) rs

/-- `find_route` -/
def findRoute (s : Server) (method path : List UInt8) : Option Nat :=
  let key := requestKey method path
  let wild := wildKey path
  (HashTable.lookup strConfig s.exactRoutes (some ⟨0, key⟩)).or <|
    (RadixTree.lookupPrefix s.prefixRoutes key).1.or <|
      (HashTable.lookup strConfig s.exactRoutes (some ⟨0, wild⟩)).or
        (RadixTree.lookupPrefix s.prefixRoutes wild).1

/-! ## What is specified -/

/-- The same by keys: a route of that kind with the key. -/
def keyed (kind : Bool) (key : List UInt8) (r : Route) : Option Nat :=
  if isPrefix r.path.bytes = kind ∧ routeKey r = key then some 0 else none

/-- A prefix route whose key starts the key, by the length of its key. -/
def byKeyPrefix (key : List UInt8) (r : Route) : Option Nat :=
  if isPrefix r.path.bytes = true ∧ routeKey r <+: key then some (routeKey r).length else none

/-- The ways of a route to be found by its key, the first first. -/
def found (method path : List UInt8) : Route → Option (Nat ×ₗ Nat) :=
  layered [keyed false (requestKey method path), byKeyPrefix (requestKey method path),
    keyed false (wildKey path), byKeyPrefix (wildKey path)]

variable {r : Route} {routes : List Route} {key path method : List UInt8}

theorem zero_notMem_upper {s : List UInt8} (h : 0 ∉ s) : 0 ∉ s.map toUpper := by
  intro hmem
  obtain ⟨b, hb, hzero⟩ := mem_map.mp hmem
  have hb0 : b ≠ 0 := fun h0 => h (h0 ▸ hb)
  rw [toUpper] at hzero
  split at hzero
  · rename_i hlow
    rw [Bool.and_eq_true, decide_eq_true_eq, decide_eq_true_eq, UInt8.le_iff_toNat_le,
      UInt8.le_iff_toNat_le] at hlow
    have hnat := congrArg UInt8.toNat hzero
    rw [UInt8.toNat_sub_of_le _ _ (UInt8.le_iff_toNat_le.mpr (Nat.le_trans (by decide) hlow.1))]
      at hnat
    simp only [UInt8.reduceToNat] at hlow hnat
    omega
  · exact hb0 hzero

theorem zero_notMem_routeKey (r : Route) : 0 ∉ routeKey r := by
  intro hmem
  have hmem := mem_of_mem_take hmem
  rcases mem_append.mp hmem with hm | hm
  · cases hmethod : r.method with
    | some m =>
      rw [hmethod] at hm
      exact zero_notMem_upper m.noNul (mem_of_mem_take hm)
    | none =>
      rw [hmethod, methodStr, mem_singleton] at hm
      cases hm
  · rcases mem_cons.mp hm with hm | hm
    · cases hm
    · refine r.path.noNul ?_
      rw [keyPath] at hm
      split at hm
      · rw [printed] at hm
        split at hm
        · exact hm
        · exact mem_of_mem_take hm
      · exact hm

theorem strConfig_consistent : HashTable.Consistent strConfig := by
  refine ⟨?_, ?_, ?_, ?_, ?_⟩ <;> simp +contextual [strConfig]

theorem chosen_keyed_concat (kind : Bool) (key : List UInt8) (routes : List Route) (r : Route) :
    chosen (keyed kind key) (routes ++ [r]) =
      if isPrefix r.path.bytes = kind ∧ routeKey r = key then some routes.length
      else chosen (keyed kind key) routes := by
  rw [chosen, best_concat]
  split
  · rename_i h
    rw [keyed, if_pos h]
    rcases best_spec (keyed kind key) routes with ⟨hb, -⟩ | ⟨k, i, hb, htop⟩
    · rw [hb]
      rfl
    · have hk : k = 0 := by
        obtain ⟨x, -, hx⟩ := htop.place
        rw [keyed] at hx
        split at hx
        · exact (Option.some.inj hx).symm
        · cases hx
      rw [hb, challenge, if_pos (by omega)]
      rfl
  · rename_i h
    rw [keyed, if_neg h]
    rfl

theorem keyed_eq_some {kind : Bool} {k : Nat} (h : keyed kind key r = some k) :
    isPrefix r.path.bytes = kind ∧ routeKey r = key ∧ k = 0 := by
  rw [keyed] at h
  split at h
  · rename_i hr
    exact ⟨hr.1, hr.2, (Option.some.inj h).symm⟩
  · cases h

/-- The stores hold, under each key, the last route of their kind with it. -/
structure Stores (routes : List Route) (s : Server) : Prop where
  valid : HashTable.Valid strConfig s.exactRoutes
  good : HashTable.Good strConfig s.exactRoutes.entries
  map : HashTable.Represents strConfig s.exactRoutes.entries fun k =>
    (chosen (keyed false k.text) routes).map some
  old : ∀ e ∈ s.exactRoutes.entries, e.1.addr < routes.length ∧ ∀ v ∈ e.2, v < routes.length
  tree : RadixTree.Holds s.prefixRoutes fun key => (chosen (keyed true key) routes).map some

/-- The entries after an exact route. -/
theorem old_replace {s : Server} (h : Stores routes s) (key : List UInt8) {alloc : HashTable.Alloc}
    (hnode : ∀ n ∈ alloc.node, n ∉ s.exactRoutes.nodes) :
    ∀ e ∈ (HashTable.replace strConfig s.exactRoutes (some ⟨routes.length, key⟩)
        (some routes.length) alloc).2.1.entries,
      e.1.addr < routes.length + 1 ∧ ∀ v ∈ e.2, v < routes.length + 1 := by
  have hold : ∀ e ∈ s.exactRoutes.entries,
      e.1.addr < routes.length + 1 ∧ ∀ v ∈ e.2, v < routes.length + 1 := by
    intro e he
    have := h.old e he
    exact ⟨by omega, fun v hv => Nat.lt_succ_of_lt (this.2 v hv)⟩
  have hnew : ∀ k : HashTable.Key (List UInt8), k = ⟨routes.length, key⟩ →
      k.addr < routes.length + 1 ∧ ∀ v ∈ some routes.length, v < routes.length + 1 := by
    rintro k rfl
    exact ⟨Nat.lt_succ_self _, by simp⟩
  have hspec := (HashTable.insertOrReplace_spec h.valid strConfig_consistent ⟨routes.length, key⟩
    (some routes.length) false alloc hnode).2
  rw [HashTable.replace]
  generalize HashTable.insertOrReplace strConfig s.exactRoutes _ _ _ _ = result at hspec ⊢
  obtain ⟨res, t, calls⟩ := result
  intro e he
  cases hspec with
  | replaced E₁ e₀ E₂ hbefore _ hafter =>
    rw [hafter] at he
    rcases mem_append.mp he with he | he
    · exact hold e (by rw [hbefore]; exact mem_append_left _ he)
    · rcases mem_cons.mp he with rfl | he
      · exact hnew _ rfl
      · exact hold e (by rw [hbefore]; exact mem_append_right _ (mem_cons_of_mem _ he))
  | new stored _ _ hcopy hafter =>
    rcases mem_cons.mp (hafter.mem_iff.mp he) with rfl | he
    · exact hnew _ (Option.some.inj hcopy).symm
    · exact hold e he
  | err _ _ hafter => exact hold e (hafter.mem_iff.mp he)

theorem Stores.addRoute {s : Server} (h : Stores routes s) (a : Allocator) (r : Route) :
    Stores (routes ++ [r]) (addRouteInternal a s routes.length r) := by
  rw [addRouteInternal]
  by_cases hkind : isPrefix r.path.bytes = true
  · rw [if_pos hkind]
    refine ⟨h.valid, h.good, ?_, fun e he => ?_, ?_⟩
    · have hsame : ∀ key, chosen (keyed false key) (routes ++ [r]) =
          chosen (keyed false key) routes := by
        intro key
        rw [chosen_keyed_concat, if_neg (by simp [hkind])]
      simpa only [hsame] using h.map
    · have := h.old e he
      rw [length_append, length_singleton]
      exact ⟨by omega, fun v hv => Nat.lt_succ_of_lt (this.2 v hv)⟩
    · have hins := h.tree.insert ⟨routeKey r, zero_notMem_routeKey r⟩ (some routes.length)
      have hmap : RadixTree.live (fun key => (chosen (keyed true key) routes).map some)
          (.insert ⟨routeKey r, zero_notMem_routeKey r⟩ (some routes.length)) =
          fun key => (chosen (keyed true key) (routes ++ [r])).map some := by
        funext key
        rw [RadixTree.live, chosen_keyed_concat]
        by_cases hkey : key = routeKey r
        · rw [if_pos hkey, if_pos ⟨hkind, hkey.symm⟩]
          rfl
        · rw [if_neg hkey, if_neg fun hk => hkey hk.2.symm]
      exact hmap ▸ hins
  · rw [Bool.not_eq_true] at hkind
    rw [hkind, if_neg (by decide)]
    dsimp only
    let alloc : HashTable.Alloc :=
      ⟨a.array routes.length, some (a.fresh s.exactRoutes.nodes), none⟩
    have hnode : ∀ n ∈ alloc.node, n ∉ s.exactRoutes.nodes := by
      intro n hn
      rw [← Option.some.inj hn]
      exact a.unused _
    have hands : HashTable.Hands strConfig s.exactRoutes ⟨routes.length, routeKey r⟩
        (some routes.length) alloc := by
      constructor
      · exact hnode
      · intro hcopy
        cases hcopy
      · intro _ e he haddr
        have := (h.old e he).1
        simp only at haddr
        omega
      · intro _ e he _ hval
        have := (h.old e he).2 routes.length hval
        omega
    obtain ⟨hvalid, heffect⟩ := HashTable.insertOrReplace_effect strConfig_consistent h.valid h.good
      h.map ⟨routes.length, routeKey r⟩ (some routes.length) false alloc hands
    refine ⟨hvalid, heffect.good, ?_, ?_, ?_⟩
    · have hmap : HashTable.mapAfterInsert strConfig
          (fun k => (chosen (keyed false k.text) routes).map some) ⟨routes.length, routeKey r⟩
          (some routes.length) alloc =
          fun k => (chosen (keyed false k.text) (routes ++ [r])).map some := by
        funext k
        rw [HashTable.mapAfterInsert, if_pos (by simp [alloc, HashTable.storedKey, strConfig]),
          HashTable.Map.set, chosen_keyed_concat]
        by_cases hkey : routeKey r = k.text
        · rw [if_pos (by simp [strConfig, hkey]), if_pos ⟨hkind, hkey⟩]
          rfl
        · rw [if_neg (by simp [strConfig, hkey]), if_neg fun hk => hkey hk.2]
      exact hmap ▸ heffect.map
    · rw [length_append, length_singleton]
      exact old_replace h (routeKey r) hnode
    · have hsame : ∀ key, chosen (keyed true key) (routes ++ [r]) =
          chosen (keyed true key) routes := by
        intro key
        rw [chosen_keyed_concat, if_neg (by simp [hkind])]
      simpa only [hsame] using h.tree

theorem Stores.addRoutes {s : Server} (h : Stores routes s) (a : Allocator) (more : List Route) :
    Stores (routes ++ more) (addRoutes a s routes.length more) := by
  induction more generalizing routes s with
  | nil => simpa [Routes.addRoutes] using h
  | cons r more ih =>
    have := ih (h.addRoute a r)
    rwa [length_append, length_singleton, append_assoc, singleton_append] at this

theorem Stores.lookup {s : Server} (h : Stores routes s) (key : List UInt8) :
    HashTable.lookup strConfig s.exactRoutes (some ⟨0, key⟩) = chosen (keyed false key) routes := by
  rw [(HashTable.lookup_eq h.valid strConfig_consistent h.map ⟨0, key⟩).1]
  cases chosen (keyed false key) routes <;> rfl

theorem byKeyPrefix_eq_some {k : Nat} (h : byKeyPrefix key r = some k) :
    isPrefix r.path.bytes = true ∧ routeKey r <+: key ∧ k = (routeKey r).length := by
  rw [byKeyPrefix] at h
  split at h
  · rename_i hr
    exact ⟨hr.1, hr.2, (Option.some.inj h).symm⟩
  · cases h

/-- A prefix route has a value in the tree. -/
theorem Stores.has {s : Server} (h : Stores routes s) (hr : r ∈ routes)
    (hkind : isPrefix r.path.bytes = true) : ∃ v, RadixTree.Has s.prefixRoutes.root (routeKey r) v := by
  cases hc : chosen (keyed true (routeKey r)) routes with
  | none =>
    have := chosen_eq_none_iff.mp hc r hr
    rw [keyed, if_pos ⟨hkind, rfl⟩] at this
    cases this
  | some i =>
    refine ⟨some i, (h.tree.has _ _).mpr ?_⟩
    rw [hc]
    rfl

theorem Stores.lookupPrefix {s : Server} (h : Stores routes s) (key : List UInt8) :
    (RadixTree.lookupPrefix s.prefixRoutes key).1 = chosen (byKeyPrefix key) routes := by
  rcases RadixTree.lookupPrefix_spec h.tree.wf key with ⟨p, v, hlong, hres⟩ | ⟨hnone, hres⟩
  · obtain ⟨hp, hpre, hmax⟩ := hlong
    obtain ⟨i, hi, rfl⟩ := Option.map_eq_some_iff.mp ((h.tree.has p v).mp hp)
    obtain ⟨k, htop⟩ := chosen_eq_some_iff.mp hi
    rw [hres, eq_comm, chosen_eq_some_iff]
    obtain ⟨r, hr, hk⟩ := htop.place
    obtain ⟨hkind, rfl, rfl⟩ := keyed_eq_some hk
    refine ⟨(routeKey r).length, ⟨r, hr, by rw [byKeyPrefix, if_pos ⟨hkind, hpre⟩]⟩, ?_⟩
    rintro j k' ⟨r', hr', hk'⟩
    obtain ⟨hkind', hpre', rfl⟩ := byKeyPrefix_eq_some hk'
    obtain ⟨w, hw⟩ := h.has (mem_of_getElem? hr') hkind'
    rcases Nat.lt_or_eq_of_le (hmax _ w hw hpre') with hlt | heq
    · exact .inl hlt
    · -- two starts of the same length are the same key
      have hkey : routeKey r' = routeKey r :=
        List.IsPrefix.eq_of_length (prefix_of_prefix_length_le hpre' hpre heq.le) heq
      have hj : At (keyed true (routeKey r)) routes j 0 :=
        ⟨r', hr', by rw [keyed, if_pos ⟨hkind', hkey⟩]⟩
      rcases htop.first j 0 hj with hlt | ⟨-, hji⟩
      · exact absurd hlt (lt_irrefl _)
      · exact .inr ⟨heq, hji⟩
  · rw [hres, eq_comm, chosen_eq_none_iff]
    intro r hr
    rw [byKeyPrefix, if_neg]
    rintro ⟨hkind, hpre⟩
    obtain ⟨v, hv⟩ := h.has hr hkind
    exact hnone _ v hpre hv

end Routes

end AxlSdk
