import AxlSdk.Lib.Linked

/-!
# The hash table (`src/data/axl-hash-table.c`)

A chained hash table over a heap of nodes. A pointer to a node is its address; a
pointer to a node pointer (`hash_node **`) is a `Slot`, one of the bucket heads
or the `next` field of a node. Every call of a destructor is recorded with the
entries that the table shows at that moment, which is what the callback sees if
it looks.

- `insertOrReplace`, `remove`, `steal`, `foreachRemove`, `removeAll`: the calls,
  with the outcomes of their allocations as arguments.
- `iterInit`, `iterNext`, `iterRemove`, `iterSteal` and the loop `iterate` over them.
-/

namespace AxlSdk

namespace HashTable

open Linked

/-! ## Keys, values, nodes -/

/-- A key pointer: the address, and what is stored there. -/
structure Key (τ : Type) where
  addr : Nat
  text : τ
  deriving DecidableEq, Repr

/-- A value pointer. -/
abbrev Value := Option Nat

/-- `hash_node`. -/
structure Node (τ : Type) where
  key : Key τ
  value : Value
  next : Option Nat

/-- The members of `AxlHashTable` that its constructor sets for good; a destructor
is set or NULL. -/
structure Config (τ : Type) where
  hash : Key τ → Nat
  equal : Key τ → Key τ → Bool
  keyDestroy : Bool
  valueDestroy : Bool
  copyKeys : Bool

/-- The other members of `AxlHashTable`, with the heap of its nodes. -/
structure Table (τ : Type) where
  node : Nat → Node τ
  buckets : Nat → Option Nat
  bucketCount : Nat
  entryCount : Nat

variable {τ : Type}

/-- `INITIAL_BUCKETS` -/
def initialBuckets : Nat := 64

/-- `hash_table_alloc`, on the heap `node`. -/
def hashTableAlloc (node : Nat → Node τ) : Table τ := ⟨node, fun _ => none, initialBuckets, 0⟩

/-- A `hash_node **`. -/
inductive Slot where
  | bucket (i : Nat)
  | next (n : Nat)
  deriving DecidableEq, Repr

namespace Table

def next (t : Table τ) (n : Nat) : Option Nat := (t.node n).next

/-- `*prev` -/
def load (t : Table τ) : Slot → Option Nat
  | .bucket i => t.buckets i
  | .next n => t.next n

/-- `*prev = p` -/
def store (t : Table τ) (prev : Slot) (p : Option Nat) : Table τ :=
  match prev with
  | .bucket i => { t with buckets := Function.update t.buckets i p }
  | .next n => { t with node := Function.update t.node n { t.node n with next := p } }

def setKey (t : Table τ) (n : Nat) (key : Key τ) : Table τ :=
  { t with node := Function.update t.node n { t.node n with key := key } }

def setValue (t : Table τ) (n : Nat) (value : Value) : Table τ :=
  { t with node := Function.update t.node n { t.node n with value := value } }

/-- The nodes in the order of the buckets. No chain is longer than `entry_count`. -/
def nodes (t : Table τ) : List Nat :=
  (List.range t.bucketCount).flatMap fun i => walk t.next t.entryCount (t.buckets i)

/-- The key and the value of a node. -/
def entry (t : Table τ) (n : Nat) : Key τ × Value := ((t.node n).key, (t.node n).value)

/-- What `axl_hash_table_foreach` shows to its callback. -/
def entries (t : Table τ) : List (Key τ × Value) := t.nodes.map t.entry

end Table

open Table

/-! ## Destructors -/

/-- What a destructor is called with. -/
inductive Pointer where
  | key (addr : Nat)
  | value (v : Value)
  deriving DecidableEq, Repr

/-- The call of a destructor, with the entries in the table at that moment. -/
structure Call (τ : Type) where
  pointer : Pointer
  seen : List (Key τ × Value)
  deriving DecidableEq

variable (cfg : Config τ)

/-- `free_key` -/
def freeKey (t : Table τ) (key : Key τ) : List (Call τ) :=
  if cfg.copyKeys then [⟨.key key.addr, t.entries⟩]
  else if cfg.keyDestroy then [⟨.key key.addr, t.entries⟩]
  else []

/-- `free_value` -/
def freeValue (t : Table τ) (value : Value) : List (Call τ) :=
  if cfg.valueDestroy then [⟨.value value, t.entries⟩] else []

/-- `free_key` and `free_value` of a node. -/
def freeEntry (t : Table τ) (n : Nat) : List (Call τ) :=
  freeKey cfg t (t.node n).key ++ freeValue cfg t (t.node n).value

/-! ## Resizing -/

/-- `hash & (bucket_count - 1)` -/
def index (count : Nat) (key : Key τ) : Nat := cfg.hash key &&& (count - 1)

/-- The inner loop of `resize` over a chain: the heap and the new buckets. -/
def resizeChain (newCount : Nat) :
    Nat → Option Nat → (Nat → Node τ) × (Nat → Option Nat) → (Nat → Node τ) × (Nat → Option Nat)
  | 0, _, s => s
  | _ + 1, none, s => s
  | fuel + 1, some n, (node, buckets) =>
    let next := (node n).next
    let idx := index cfg newCount (node n).key
    resizeChain newCount fuel next
      (Function.update node n { node n with next := buckets idx },
        Function.update buckets idx (some n))

/-- `resize`; `ok` tells whether the new bucket array was allocated. -/
def resize (t : Table τ) (ok : Bool) : Table τ :=
  if ok then
    let newCount := t.bucketCount <<< 1
    let s := (List.range t.bucketCount).foldl
      (fun s i => resizeChain cfg newCount t.entryCount (t.buckets i) s) (t.node, fun _ => none)
    { t with node := s.1, buckets := s.2, bucketCount := newCount }
  else t

/-! ## Lookup -/

/-- The loop over a chain to the node of a key. -/
def findLoop (t : Table τ) (key : Key τ) : Nat → Option Nat → Option Nat
  | 0, _ => none
  | _ + 1, none => none
  | fuel + 1, some n =>
    if cfg.equal (t.node n).key key then some n else findLoop t key fuel (t.next n)

/-- The node of a key. -/
def find (t : Table τ) (key : Key τ) : Option Nat :=
  findLoop cfg t key t.entryCount (t.buckets (index cfg t.bucketCount key))

/-- `axl_hash_table_lookup` -/
def lookup (t : Table τ) (key : Option (Key τ)) : Value :=
  match key with
  | none => none
  | some key => (find cfg t key).bind fun n => (t.node n).value

/-- `axl_hash_table_contains` -/
def contains (t : Table τ) (key : Option (Key τ)) : Bool :=
  match key with
  | none => false
  | some key => (find cfg t key).isSome

/-- `axl_hash_table_size` -/
def size (t : Table τ) : Nat := t.entryCount

/-! ## Insertion -/

/-- The outcomes of the allocations of one call: the new bucket array, the node,
the copy of the key. -/
structure Alloc where
  buckets : Bool
  node : Option Nat
  copy : Option Nat
  deriving DecidableEq, Repr

/-- `AxlHashTableInsertResult` -/
inductive InsertResult where
  | new
  | replaced
  | err
  deriving DecidableEq, Repr

/-- The collision branch of `hash_table_insert_or_replace`: the node `n` has an
equal key. -/
def overwrite (t : Table τ) (n : Nat) (key : Key τ) (value : Value) (keepOldKey : Bool) :
    Table τ × List (Call τ) :=
  let old := (t.node n).key
  let (t, keyCalls) : Table τ × List (Call τ) :=
    if cfg.copyKeys then (t, [])
    else if keepOldKey then
      (t, if cfg.keyDestroy && old.addr != key.addr then [⟨.key key.addr, t.entries⟩] else [])
    else
      (t.setKey n key,
        if cfg.keyDestroy && old.addr != key.addr then [⟨.key old.addr, t.entries⟩] else [])
  let valueCalls : List (Call τ) :=
    if cfg.valueDestroy && (t.node n).value != value then [⟨.value (t.node n).value, t.entries⟩]
    else []
  (t.setValue n value, keyCalls ++ valueCalls)

/-- A new node at the head of the chain of its key. -/
def link (t : Table τ) (n : Nat) (key : Key τ) (value : Value) : Table τ :=
  let idx := index cfg t.bucketCount key
  { t with
    node := Function.update t.node n ⟨key, value, t.buckets idx⟩
    buckets := Function.update t.buckets idx (some n)
    entryCount := t.entryCount + 1 }

/-- `hash_table_insert_or_replace` -/
def insertOrReplace (t : Table τ) (key : Option (Key τ)) (value : Value) (keepOldKey : Bool)
    (alloc : Alloc) : InsertResult × Table τ × List (Call τ) :=
  match key with
  | none => (.err, t, [])
  | some key =>
    match find cfg t key with
    | some n => (.replaced, overwrite cfg t n key value keepOldKey)
    | none =>
      let t := if t.bucketCount * 3 ≤ t.entryCount * 4 then resize cfg t alloc.buckets else t
      match alloc.node with
      | none => (.err, t, [])
      | some n =>
        -- `copy_str_key` copies the text to another address
        match if cfg.copyKeys then alloc.copy.map fun addr => ⟨addr, key.text⟩ else some key with
        | none => (.err, t, [])
        | some key => (.new, link cfg t n key value, [])

/-- `axl_hash_table_insert` -/
def insert (t : Table τ) (key : Option (Key τ)) (value : Value) (alloc : Alloc) :
    InsertResult × Table τ × List (Call τ) :=
  insertOrReplace cfg t key value true alloc

/-- `axl_hash_table_replace` -/
def replace (t : Table τ) (key : Option (Key τ)) (value : Value) (alloc : Alloc) :
    InsertResult × Table τ × List (Call τ) :=
  insertOrReplace cfg t key value false alloc

/-- `axl_hash_table_add`: the value is the key pointer itself. -/
def add (t : Table τ) (key : Option (Key τ)) (alloc : Alloc) : Bool × Table τ × List (Call τ) :=
  let r := replace cfg t key (key.map Key.addr) alloc
  (r.1 == .new, r.2)

/-! ## Removal -/

/-- The loop of `axl_hash_table_remove` and `axl_hash_table_steal`: the node of a
key, and the slot that points to it. -/
def findSlotLoop (t : Table τ) (key : Key τ) : Nat → Slot → Option (Slot × Nat)
  | 0, _ => none
  | fuel + 1, prev =>
    match t.load prev with
    | none => none
    | some n =>
      if cfg.equal (t.node n).key key then some (prev, n) else findSlotLoop t key fuel (.next n)

/-- The slot and the node of a key. -/
def findSlot (t : Table τ) (key : Key τ) : Option (Slot × Nat) :=
  findSlotLoop cfg t key t.entryCount (.bucket (index cfg t.bucketCount key))

/-- `h->entry_count--` -/
def Table.forget (t : Table τ) : Table τ := { t with entryCount := t.entryCount - 1 }

/-- `axl_hash_table_remove` -/
def remove (t : Table τ) (key : Option (Key τ)) : Bool × Table τ × List (Call τ) :=
  match key with
  | none => (false, t, [])
  | some key =>
    match findSlot cfg t key with
    | none => (false, t, [])
    | some (prev, n) =>
      let t := t.store prev (t.next n)
      (true, t.forget, freeEntry cfg t n)

/-- The key copy that leaves with a stolen entry. -/
def freeCopy (t : Table τ) (n : Nat) : List (Call τ) :=
  if cfg.copyKeys then [⟨.key (t.node n).key.addr, t.entries⟩] else []

/-- `axl_hash_table_steal` -/
def steal (t : Table τ) (key : Option (Key τ)) : Bool × Table τ × List (Call τ) :=
  match key with
  | none => (false, t, [])
  | some key =>
    match findSlot cfg t key with
    | none => (false, t, [])
    | some (prev, n) =>
      let t := t.store prev (t.next n)
      (true, t.forget, freeCopy cfg t n)

/-- What a walk over the table has done so far: the entries it has shown, the
destructors it has called, the number of entries removed. -/
structure Walk (τ : Type) where
  table : Table τ
  shown : List (Key τ × Value)
  calls : List (Call τ)
  removed : Nat

/-- The callback of `axl_hash_table_foreach_remove`, which may count its calls. -/
abbrev Predicate (τ : Type) := Nat → Key τ → Value → Bool

/-- The inner loop of `axl_hash_table_foreach_remove` over a chain. -/
def foreachRemoveChain (func : Predicate τ) : Nat → Slot → Option Nat → Walk τ → Walk τ
  | 0, _, _, w => w
  | _ + 1, _, none, w => w
  | fuel + 1, prev, some n, w =>
    let next := w.table.next n
    let e := w.table.entry n
    if func w.shown.length e.1 e.2 then
      let t := w.table.store prev next
      foreachRemoveChain func fuel prev next
        ⟨t.forget, w.shown ++ [e], w.calls ++ freeEntry cfg t n, w.removed + 1⟩
    else
      foreachRemoveChain func fuel (.next n) next { w with shown := w.shown ++ [e] }

/-- `axl_hash_table_foreach_remove` -/
def foreachRemove (t : Table τ) (func : Predicate τ) : Walk τ :=
  (List.range t.bucketCount).foldl
    (fun w i => foreachRemoveChain cfg func t.entryCount (.bucket i) (w.table.buckets i) w)
    ⟨t, [], [], 0⟩

/-- The inner loop of `axl_hash_table_remove_all` over a chain. -/
def freeChain (t : Table τ) : Nat → Option Nat → List (Call τ)
  | 0, _ => []
  | _ + 1, none => []
  | fuel + 1, some n => freeEntry cfg t n ++ freeChain t fuel (t.next n)

/-- `axl_hash_table_remove_all` -/
def removeAll (t : Table τ) : Table τ × List (Call τ) :=
  let s := (List.range t.bucketCount).foldl
    (fun (s : Table τ × List (Call τ)) i =>
      (s.1.store (.bucket i) none, s.2 ++ freeChain cfg s.1 t.entryCount (s.1.buckets i)))
    (t, [])
  ({ s.1 with entryCount := 0 }, s.2)

/-! ## Iterators -/

/-- `AxlHashTableIter`; the table is passed along. -/
structure Iter where
  bucket : Nat
  curBucket : Nat
  current : Option Nat
  next : Option Nat
  deriving DecidableEq, Repr

/-- `iter_find_next`: the loop over the buckets from `i`, `left` of them. -/
def iterFindNext (t : Table τ) : Nat → Nat → Option (Nat × Nat)
  | 0, _ => none
  | left + 1, i =>
    match t.buckets i with
    | some n => some (i, n)
    | none => iterFindNext t left (i + 1)

/-- `iter->_next = iter_find_next(table, start, &iter->_bucket)` -/
def Iter.findNext (it : Iter) (t : Table τ) (start : Nat) : Iter :=
  match iterFindNext t (t.bucketCount - start) start with
  | some (i, n) => { it with bucket := i, next := some n }
  | none => { it with next := none }

/-- `axl_hash_table_iter_init`; the members of `iter` are not set before. -/
def iterInit (iter : Iter) (t : Table τ) : Iter :=
  Iter.findNext { iter with current := none, curBucket := 0 } t 0

/-- `axl_hash_table_iter_next` -/
def iterNext (iter : Iter) (t : Table τ) : Option (Key τ × Value) × Iter :=
  match iter.next with
  | none => (none, { iter with current := none })
  | some n =>
    let iter := { iter with current := some n, curBucket := iter.bucket }
    match t.next n with
    | some n' => (some (t.entry n), { iter with next := some n' })
    | none => (some (t.entry n), iter.findNext t (iter.bucket + 1))

/-- The loop of `unlink_node`. -/
def unlinkLoop (t : Table τ) (n : Nat) : Nat → Slot → Table τ
  | 0, _ => t
  | fuel + 1, prev =>
    match t.load prev with
    | none => t
    | some m => if m = n then (t.store prev (t.next n)).forget else unlinkLoop t n fuel (.next m)

/-- `unlink_node` -/
def unlinkNode (t : Table τ) (bucket n : Nat) : Table τ :=
  unlinkLoop t n t.entryCount (.bucket bucket)

/-- `axl_hash_table_iter_remove` -/
def iterRemove (iter : Iter) (t : Table τ) : Iter × Table τ × List (Call τ) :=
  match iter.current with
  | none => (iter, t, [])
  | some n =>
    let t := unlinkNode t iter.curBucket n
    ({ iter with current := none }, t, freeEntry cfg t n)

/-- `axl_hash_table_iter_steal` -/
def iterSteal (iter : Iter) (t : Table τ) : Iter × Table τ × List (Call τ) :=
  match iter.current with
  | none => (iter, t, [])
  | some n =>
    let t := unlinkNode t iter.curBucket n
    ({ iter with current := none }, t, freeCopy cfg t n)

/-- What the body of an iteration does with the current entry. -/
inductive Act where
  | keep
  | remove
  | steal
  deriving DecidableEq, Repr

/-- The body of an iteration. -/
def iterAct (act : Act) (iter : Iter) (t : Table τ) : Iter × Table τ × List (Call τ) :=
  match act with
  | .keep => (iter, t, [])
  | .remove => iterRemove cfg iter t
  | .steal => iterSteal cfg iter t

/-- The loop `while (axl_hash_table_iter_next(..))`, left after `n` rounds; the
caller counts what it removes. -/
def iterateLoop (act : Nat → Act) : Nat → Iter → Walk τ → Walk τ
  | 0, _, w => w
  | n + 1, iter, w =>
    match iterNext iter w.table with
    | (none, _) => w
    | (some e, iter) =>
      let a := act w.shown.length
      let (iter, t, calls) := iterAct cfg a iter w.table
      iterateLoop act n iter
        ⟨t, w.shown ++ [e], w.calls ++ calls, w.removed + if a = .keep then 0 else 1⟩

/-- An iteration of at most `n` rounds. -/
def iterate (t : Table τ) (iter : Iter) (act : Nat → Act) (n : Nat) : Walk τ :=
  iterateLoop cfg act n (iterInit iter t) ⟨t, [], [], 0⟩

end HashTable

end AxlSdk
