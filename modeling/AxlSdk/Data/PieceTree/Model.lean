import AxlSdk.Data.RbTree

/-!
# The piece tree (`src/data/axl-piece-tree.c`)

An out-of-core editable text: two byte sources whose bytes never move (the
original file behind a pinned view, and an append-only add buffer) and a
red-black tree of *pieces*, spans of a source, in document order. Every node
stores the byte and newline sums of its subtree, and each source has a sorted
array of its newline offsets.

The functions below follow the C file one by one. A `Piece *` is the piece's
address: `locate` recovers the position that the C code reaches through the
node's own links. Every call of the allocator consults `Heap.grant`, so any
pattern of allocation failures is a value of the model; a granted allocation
returns a fresh address. `size_t` quantities are natural numbers: all of them
count bytes or records that are in memory at the same time. The undo and redo
arrays are lists with the top of the stack first.
-/

namespace AxlSdk

namespace PieceTree

open AugTree AugTree.Tree

/-! ## Data -/

/-- `AXL_OK` / `AXL_ERR`. -/
inductive Rc where
  | ok
  | err
  deriving DecidableEq, Repr

/-- The allocator: `grant n` says whether the `n`-th allocation succeeds. -/
structure Heap where
  grant : Nat → Bool
  calls : Nat

/-- One `axl_malloc` / `axl_calloc` / `axl_realloc`: the address, or NULL. -/
def Heap.alloc (h : Heap) : Option Nat × Heap :=
  (if h.grant h.calls then some h.calls else none, { h with calls := h.calls + 1 })

inductive PtSource where
  | original
  | add
  deriving DecidableEq, Repr

/-- A node payload: a run of bytes of one source, with its cached newline count. -/
structure Piece where
  addr : Nat
  source : PtSource
  start : Nat
  length : Nat
  newlines : Nat
  deriving DecidableEq, Repr

/-- The augmentation: `subtree_bytes` and `subtree_newlines`. -/
structure Sums where
  bytes : Nat
  newlines : Nat
  deriving DecidableEq, Repr

/-- An undo record's content reference. -/
structure PtSpan where
  source : PtSource
  start : Nat
  length : Nat
  deriving DecidableEq, Repr

inductive PtEditKind where
  | insert
  | delete
  deriving DecidableEq, Repr

structure PtEdit where
  kind : PtEditKind
  offset : Nat
  length : Nat
  spans : List PtSpan
  group : Nat
  postState : Nat
  deriving DecidableEq, Repr

/-- `AxlPieceTree`, without the members that only the EOL and backing-file
functions read. `view` is what the pinned file view returns. The undo limit
`SIZE_MAX`, which no array of records can reach, is `none`. -/
structure PieceTree where
  tree : Tree Piece Sums
  view : List UInt8
  add : List UInt8
  addCap : Nat
  addNl : List Nat
  addNlCap : Nat
  origNl : List Nat
  undo : List PtEdit
  undoCap : Nat
  redo : List PtEdit
  redoCap : Nat
  undoLimit : Option Nat
  groupSeq : Nat
  curGroup : Nat
  groupDepth : Nat
  groupSticky : Bool
  stateSeq : Nat
  savedState : Nat
  saveValid : Bool
  readOnly : Bool
  heap : Heap

abbrev newline : UInt8 := 10
abbrev carriageReturn : UInt8 := 13

/-- `pt_recompute`. -/
def ptRecompute (p : Piece) (l r : Option Sums) : Sums :=
  { bytes := p.length + (l.elim 0 Sums.bytes) + (r.elim 0 Sums.bytes)
    newlines := p.newlines + (l.elim 0 Sums.newlines) + (r.elim 0 Sums.newlines) }

/-! ## Newline indexes -/

/-- The loop of `lower_count`: binary search for the first entry `≥ val`. -/
def lowerCountLoop (arr : List Nat) (val : Nat) : Nat → Nat → Nat → Nat
  | 0, lo, _ => lo
  | fuel + 1, lo, hi =>
    if lo < hi then
      let m := lo + (hi - lo) / 2
      if arr.getD m 0 < val then lowerCountLoop arr val fuel (m + 1) hi
      else lowerCountLoop arr val fuel lo m
    else lo

/-- `lower_count`: entries strictly less than `val`. -/
def lowerCount (arr : List Nat) (val : Nat) : Nat :=
  lowerCountLoop arr val arr.length 0 arr.length

/-- `src_nl`. -/
def srcNl (pt : PieceTree) : PtSource → List Nat
  | .original => pt.origNl
  | .add => pt.addNl

/-- `count_nl_span`: newlines in `[start, start + len)` of a source. -/
def countNlSpan (pt : PieceTree) (s : PtSource) (start len : Nat) : Nat :=
  lowerCount (srcNl pt s) (start + len) - lowerCount (srcNl pt s) start

/-- `nth_nl_in_span`: offset from `start` of the `within`-th newline after it. -/
def nthNlInSpan (pt : PieceTree) (s : PtSource) (start within : Nat) : Nat :=
  (srcNl pt s).getD (lowerCount (srcNl pt s) start + within) 0 - start

/-- The bytes of a source. -/
def source (pt : PieceTree) : PtSource → List UInt8
  | .original => pt.view
  | .add => pt.add

/-- `read_src`, over a view that returns the file's bytes. -/
def readSrc (pt : PieceTree) (s : PtSource) (start n : Nat) : List UInt8 :=
  ((source pt s).drop start).take n

/-! ## The tree of pieces -/

/-- `piece_new`. -/
def pieceNew (h : Heap) (s : PtSource) (start length newlines : Nat) : Option Piece × Heap :=
  match h.alloc with
  | (some addr, h') => (some ⟨addr, s, start, length, newlines⟩, h')
  | (none, h') => (none, h')

/-- The position of the piece at an address. -/
def locate (t : Tree Piece Sums) (addr : Nat) : Option (Tree Piece Sums × List (Frame Piece Sums)) :=
  find (fun p => p.addr == addr) t []

/-- `find_piece`: the piece that contains a document offset and the byte within
it; `none` at the end of the document. -/
def findPiece : Tree Piece Sums → Nat → Option (Piece × Nat)
  | leaf, _ => none
  | node _ l p _ r, offset =>
    let lb := l.agg.elim 0 Sums.bytes
    if offset < lb then findPiece l offset
    else if offset < lb + p.length then some (p, offset - lb)
    else findPiece r (offset - (lb + p.length))

/-- `insert_after`. -/
def insertAfter (t : Tree Piece Sums) (addr : Nat) (new : Piece) : Tree Piece Sums :=
  match locate t addr with
  | some (u, k) => RbTree.insert ptRecompute new (RbTree.slotAfter u k)
  | none => t

/-- `insert_before`. -/
def insertBefore (t : Tree Piece Sums) (addr : Nat) (new : Piece) : Tree Piece Sums :=
  match locate t addr with
  | some (u, k) => RbTree.insert ptRecompute new (RbTree.slotBefore u k)
  | none => t

/-- `insert_root`. -/
def insertRoot (new : Piece) : Tree Piece Sums :=
  RbTree.insert ptRecompute new []

/-- Overwrite the fields of a piece, then `axl_rb_update_augment`. -/
def updatePiece (t : Tree Piece Sums) (addr : Nat) (f : Piece → Piece) : Tree Piece Sums :=
  match locate t addr with
  | some (u, k) => RbTree.update ptRecompute f u k
  | none => t

/-- `axl_rb_erase` of a piece. -/
def erasePiece (t : Tree Piece Sums) (addr : Nat) : Tree Piece Sums :=
  match locate t addr with
  | some (u, k) => RbTree.erase ptRecompute u k
  | none => t

/-- `axl_rb_next` of a piece. -/
def nextPiece (t : Tree Piece Sums) (addr : Nat) : Option Piece :=
  match locate t addr with
  | some (u, k) => RbTree.next u k
  | none => none

/-- The number of nodes: a bound for every loop that steps to the next piece. -/
def pieceCount (t : Tree Piece Sums) : Nat := t.toList.length

/-- `axl_piece_tree_length`. -/
def length (pt : PieceTree) : Nat := pt.tree.agg.elim 0 Sums.bytes

/-! ## Queries -/

/-- `axl_piece_tree_line_count`. -/
def lineCount (pt : PieceTree) : Nat := pt.tree.agg.elim 0 Sums.newlines + 1

/-- The copying loop of `axl_piece_tree_get`, with the bytes copied so far. -/
def getLoop (pt : PieceTree) : Nat → Option Piece → Nat → Nat → List UInt8 → List UInt8
  | 0, _, _, _, out => out
  | _ + 1, none, _, _, out => out
  | fuel + 1, some cur, intra, len, out =>
    if out.length < len then
      let take := min (len - out.length) (cur.length - intra)
      if take = 0 then out
      else
        let r := readSrc pt cur.source (cur.start + intra) take
        if r.length < take then out ++ r
        else getLoop pt fuel (nextPiece pt.tree cur.addr) 0 len (out ++ r)
    else out

/-- `axl_piece_tree_get`: the bytes written to an output buffer of size `cap`. -/
def get (pt : PieceTree) (offset len cap : Nat) : List UInt8 :=
  if cap = 0 ∨ offset ≥ length pt then []
  else
    let len := min (min len (length pt - offset)) cap
    let start := findPiece pt.tree offset
    getLoop pt (pieceCount pt.tree) (start.map Prod.fst) ((start.map Prod.snd).getD 0) len []

/-- `byte_at`. -/
def byteAt (pt : PieceTree) (off : Nat) : Option UInt8 :=
  match get pt off 1 1 with
  | [c] => some c
  | _ => none

/-- The descent of `axl_piece_tree_line_of_offset`. -/
def lineOfOffsetLoop (pt : PieceTree) : Tree Piece Sums → Nat → Nat → Nat
  | leaf, _, line => line
  | node _ l p _ r, offset, line =>
    let lb := l.agg.elim 0 Sums.bytes
    let lnl := l.agg.elim 0 Sums.newlines
    if offset < lb then lineOfOffsetLoop pt l offset line
    else if offset < lb + p.length then
      line + lnl + countNlSpan pt p.source p.start (offset - lb)
    else lineOfOffsetLoop pt r (offset - (lb + p.length)) (line + (lnl + p.newlines))

/-- `axl_piece_tree_line_of_offset`. -/
def lineOfOffset (pt : PieceTree) (offset : Nat) : Nat :=
  lineOfOffsetLoop pt pt.tree (min offset (length pt)) 0

/-- The descent of `newline_offset`. -/
def newlineOffsetLoop (pt : PieceTree) : Tree Piece Sums → Nat → Nat → Nat
  | leaf, _, base => base
  | node _ l p _ r, k, base =>
    let lb := l.agg.elim 0 Sums.bytes
    let lnl := l.agg.elim 0 Sums.newlines
    if k < lnl then newlineOffsetLoop pt l k base
    else if k < lnl + p.newlines then
      base + lb + nthNlInSpan pt p.source p.start (k - lnl)
    else newlineOffsetLoop pt r (k - (lnl + p.newlines)) (base + (lb + p.length))

/-- `newline_offset`: document offset of the `k`-th newline, from 0. -/
def newlineOffset (pt : PieceTree) (k : Nat) : Nat := newlineOffsetLoop pt pt.tree k 0

/-- `axl_piece_tree_line_bounds`: start and end of a line, terminator excluded. -/
def lineBounds (pt : PieceTree) (line : Nat) : Option (Nat × Nat) :=
  let totalNl := pt.tree.agg.elim 0 Sums.newlines
  if line > totalNl then none
  else
    let s := if line = 0 then 0 else newlineOffset pt (line - 1) + 1
    let e := if line < totalNl then newlineOffset pt line else length pt
    some (s, if e > s ∧ byteAt pt (e - 1) = some carriageReturn then e - 1 else e)

/-! ## Splicing spans in -/

/-- The pre-allocation loop of `splice_in`: one piece per span, stopping at the
first allocation that fails. -/
def newPieces (pt : PieceTree) : Heap → List PtSpan → Option (List Piece) × Heap
  | h, [] => (some [], h)
  | h, sp :: spans =>
    match pieceNew h sp.source sp.start sp.length
        (countNlSpan pt sp.source sp.start sp.length) with
    | (none, h') => (none, h')
    | (some p, h') =>
      match newPieces pt h' spans with
      | (some ps, h'') => (some (p :: ps), h'')
      | (none, h'') => (none, h'')

/-- The closing loop of `splice_in`: chain each further piece after the last. -/
def chainAfter (t : Tree Piece Sums) (addr : Nat) : List Piece → Tree Piece Sums
  | [] => t
  | p :: ps => chainAfter (insertAfter t addr p) p.addr ps

/-- Trim a piece to its first `len` bytes. -/
def keepHead (pt : PieceTree) (len : Nat) (p : Piece) : Piece :=
  { p with length := len, newlines := countNlSpan pt p.source p.start len }

/-- Drop the first `n` bytes of a piece. -/
def dropHead (pt : PieceTree) (n : Nat) (p : Piece) : Piece :=
  { p with
    start := p.start + n
    length := p.length - n
    newlines := countNlSpan pt p.source (p.start + n) (p.length - n) }

/-- The mutation half of `splice_in`, after every allocation succeeded: `pr` is
the right half of a split target, if one is needed. -/
def spliceTree (pt : PieceTree) (target : Option (Piece × Nat)) (np : List Piece)
    (pr : Option Piece) : Tree Piece Sums :=
  match np with
  | [] => pt.tree
  | p :: ps =>
    match target, pr with
    | none, _ =>
      match RbTree.last pt.tree with
      | none => chainAfter (insertRoot p) p.addr ps
      | some q => chainAfter (insertAfter pt.tree q.addr p) p.addr ps
    | some (t, intra), some right =>
      let t₁ := updatePiece pt.tree t.addr (keepHead pt intra)
      let t₂ := insertAfter t₁ t.addr right
      chainAfter (insertAfter t₂ t.addr p) p.addr ps
    | some (t, intra), none =>
      if intra = 0 then chainAfter (insertBefore pt.tree t.addr p) p.addr ps
      else chainAfter (insertAfter pt.tree t.addr p) p.addr ps

/-- `splice_in`: all pieces are allocated before anything is changed. -/
def spliceIn (pt : PieceTree) (offset : Nat) (spans : List PtSpan) : Rc × PieceTree :=
  let offset := min offset (length pt)
  let target := findPiece pt.tree offset
  match pt.heap.alloc with
  | (none, h) => (.err, { pt with heap := h })
  | (some _, h) =>
    match newPieces pt h spans with
    | (none, h) => (.err, { pt with heap := h })
    | (some np, h) =>
      match target with
      | some (t, intra) =>
        if intra ≠ 0 ∧ intra ≠ t.length then
          match pieceNew h t.source (t.start + intra) (t.length - intra)
              (countNlSpan pt t.source (t.start + intra) (t.length - intra)) with
          | (none, h) => (.err, { pt with heap := h })
          | (some pr, h) =>
            (.ok, { pt with tree := spliceTree pt target np (some pr), heap := h })
        else (.ok, { pt with tree := spliceTree pt target np none, heap := h })
      | none => (.ok, { pt with tree := spliceTree pt target np none, heap := h })

/-! ## Removing a range -/

/-- The loop of `do_delete_range`: erase, trim or split the piece `p`, then go
on with the node that followed it before the change. -/
def deleteLoop (pt : PieceTree) : Nat → Heap → Tree Piece Sums → Option Piece → Nat → Nat →
    Rc × Heap × Tree Piece Sums
  | 0, h, t, _, _, _ => (.ok, h, t)
  | _ + 1, h, t, none, _, _ => (.ok, h, t)
  | fuel + 1, h, t, some p, intra, remaining =>
    if remaining = 0 then (.ok, h, t)
    else
      let take := min remaining (p.length - intra)
      let next := nextPiece t p.addr
      if take = p.length then
        deleteLoop pt fuel h (erasePiece t p.addr) next 0 (remaining - take)
      else if intra = 0 then
        deleteLoop pt fuel h (updatePiece t p.addr (dropHead pt take)) next 0 (remaining - take)
      else if intra + take = p.length then
        deleteLoop pt fuel h (updatePiece t p.addr (keepHead pt intra)) next 0 (remaining - take)
      else
        let rightStart := p.start + intra + take
        let rightLen := p.length - intra - take
        match pieceNew h p.source rightStart rightLen
            (countNlSpan pt p.source rightStart rightLen) with
        | (none, h) => (.err, h, t)
        | (some pr, h) =>
          let t₁ := updatePiece t p.addr (keepHead pt intra)
          deleteLoop pt fuel h (insertAfter t₁ p.addr pr) next 0 (remaining - take)

/-- `do_delete_range`. -/
def doDeleteRange (pt : PieceTree) (offset len : Nat) : Rc × PieceTree :=
  if offset ≥ length pt ∨ len = 0 then (.ok, pt)
  else
    let len := min len (length pt - offset)
    let start := findPiece pt.tree offset
    match deleteLoop pt (pieceCount pt.tree) pt.heap pt.tree (start.map Prod.fst)
        ((start.map Prod.snd).getD 0) len with
    | (rc, h, t) => (rc, { pt with tree := t, heap := h })

/-- The loop of `capture_spans`. `cap` is the capacity of the span array, which
is reallocated when full. -/
def captureLoop (t : Tree Piece Sums) : Nat → Heap → Option Piece → Nat → Nat → Nat →
    List PtSpan → Option (List PtSpan) × Heap
  | 0, h, _, _, _, _, acc => (some acc, h)
  | _ + 1, h, none, _, _, _, acc => (some acc, h)
  | fuel + 1, h, some p, intra, remaining, cap, acc =>
    if remaining = 0 then (some acc, h)
    else
      let take := min remaining (p.length - intra)
      let span : PtSpan := ⟨p.source, p.start + intra, take⟩
      if acc.length = cap then
        match h.alloc with
        | (none, h) => (none, h)
        | (some _, h) =>
          captureLoop t fuel h (nextPiece t p.addr) 0 (remaining - take)
            (if cap = 0 then 4 else cap * 2) (acc ++ [span])
      else
        captureLoop t fuel h (nextPiece t p.addr) 0 (remaining - take) cap (acc ++ [span])

/-- `capture_spans`: the source spans under a document range. -/
def captureSpans (pt : PieceTree) (offset len : Nat) : Option (List PtSpan) × Heap :=
  let start := findPiece pt.tree offset
  captureLoop pt.tree (pieceCount pt.tree) pt.heap (start.map Prod.fst)
    ((start.map Prod.snd).getD 0) len 0 []

/-! ## The record stacks -/

/-- `stack_push`: the array doubles when it is full. -/
def stackPush (h : Heap) (stack : List PtEdit) (cap : Nat) (e : PtEdit) :
    Option (List PtEdit × Nat) × Heap :=
  if stack.length = cap then
    match h.alloc with
    | (none, h) => (none, h)
    | (some _, h) => (some (e :: stack, if cap = 0 then 16 else cap * 2), h)
  else (some (e :: stack, cap), h)

/-- `undo_count >= undo_limit`. -/
def atLimit (limit : Option Nat) (count : Nat) : Bool :=
  limit.elim false fun n => decide (n ≤ count)

/-- The eviction loop of `record_edit`: drop the oldest record while the stack
is at its limit, giving up the save point when its state becomes unreachable. -/
def evictOldest : Nat → PieceTree → PieceTree
  | 0, pt => pt
  | fuel + 1, pt =>
    match pt.undo.getLast? with
    | none => pt
    | some oldest =>
      if atLimit pt.undoLimit pt.undo.length then
        evictOldest fuel
          { pt with
            undo := pt.undo.dropLast
            saveValid := pt.saveValid &&
              !(pt.savedState == 0 || pt.savedState == oldest.postState) }
      else pt

/-- New edits join the open group. -/
def grouped (pt : PieceTree) : Prop := pt.groupDepth > 0 ∨ pt.groupSticky = true

instance (pt : PieceTree) : Decidable (grouped pt) :=
  inferInstanceAs (Decidable (_ ∨ _))

/-- `group_seq` once `record_edit` has chosen a group id. -/
def nextGroupSeq (pt : PieceTree) : Nat := if grouped pt then pt.groupSeq else pt.groupSeq + 1

/-- The record that `record_edit` builds. -/
def newRecord (pt : PieceTree) (kind : PtEditKind) (offset len : Nat) (spans : List PtSpan) :
    PtEdit :=
  ⟨kind, offset, len, spans, if grouped pt then pt.curGroup else nextGroupSeq pt,
    pt.stateSeq + 1⟩

/-- `record_edit`. With a limit of zero nothing is recorded. -/
def recordEdit (pt : PieceTree) (kind : PtEditKind) (offset len : Nat) (spans : List PtSpan) :
    PieceTree :=
  let pt := { pt with redo := [] }
  if pt.undoLimit = some 0 then pt
  else
    let pt := evictOldest pt.undo.length pt
    let e := newRecord pt kind offset len spans
    let pt := { pt with groupSeq := nextGroupSeq pt, stateSeq := pt.stateSeq + 1 }
    match stackPush pt.heap pt.undo pt.undoCap e with
    | (some (undo, cap), h) => { pt with undo := undo, undoCap := cap, heap := h }
    | (none, h) => { pt with undo := [], saveValid := false, heap := h }

/-! ## Editing -/

/-- The offsets of the newlines of `bs`, counted from `base`. -/
def newlineOffsets : Nat → List UInt8 → List Nat
  | _, [] => []
  | base, b :: bs =>
    if b = newline then base :: newlineOffsets (base + 1) bs else newlineOffsets (base + 1) bs

/-- The doubling loop of `add_append`, up to at least `need`. -/
def growTo (need : Nat) : Nat → Nat → Nat
  | 0, nc => nc
  | fuel + 1, nc => if nc < need then growTo need fuel (nc * 2) else nc

/-- Reserve room for `need` elements in an array of capacity `cap`. -/
def reserve (h : Heap) (cap initial need : Nat) : Option Nat × Heap :=
  if need > cap then
    match h.alloc with
    | (none, h) => (none, h)
    | (some _, h) => (some (growTo need need (if cap = 0 then initial else cap)), h)
  else (some cap, h)

/-- `add_append`: both arrays are reserved before either is extended. -/
def addAppend (pt : PieceTree) (data : List UInt8) : Rc × PieceTree :=
  match reserve pt.heap pt.addCap 64 (pt.add.length + data.length) with
  | (none, h) => (.err, { pt with heap := h })
  | (some cap, h) =>
    let nls := newlineOffsets pt.add.length data
    match reserve h pt.addNlCap 16 (pt.addNl.length + nls.length) with
    | (none, h) => (.err, { pt with addCap := cap, heap := h })
    | (some nlCap, h) =>
      (.ok, { pt with
        addCap := cap
        addNlCap := nlCap
        heap := h
        add := pt.add ++ data
        addNl := pt.addNl ++ nls })

/-- Extend a piece by `len` bytes holding `nl` newlines. -/
def extendPiece (len nl : Nat) (p : Piece) : Piece :=
  { p with length := p.length + len, newlines := p.newlines + nl }

/-- The typing-forward coalesce of `axl_piece_tree_insert`: the piece that can
absorb bytes just appended to the add buffer at `addStart`. -/
def coalesceTarget (pt : PieceTree) (offset addStart : Nat) : Option Piece :=
  match findPiece pt.tree offset with
  | none =>
    match RbTree.last pt.tree with
    | some q => if q.source = .add ∧ q.start + q.length = addStart then some q else none
    | none => none
  | some (p, intra) =>
    if intra = p.length ∧ p.source = .add ∧ p.start + p.length = addStart then some p else none

/-- The record of an insertion, or the loss of all history when the record
cannot be allocated. -/
def recordInsert (pt : PieceTree) (offset : Nat) (span : PtSpan) : PieceTree :=
  match pt.heap.alloc with
  | (some _, h) => recordEdit { pt with heap := h } .insert offset span.length [span]
  | (none, h) => { pt with heap := h, undo := [], redo := [], saveValid := false }

/-- `axl_piece_tree_insert`. -/
def insert (pt : PieceTree) (offset : Nat) (data : List UInt8) : Rc × PieceTree :=
  if pt.readOnly then (.err, pt)
  else if data.length = 0 then (.ok, pt)
  else
    let offset := min offset (length pt)
    let span : PtSpan := ⟨.add, pt.add.length, data.length⟩
    match addAppend pt data with
    | (.err, pt) => (.err, pt)
    | (.ok, pt) =>
      match coalesceTarget pt offset span.start with
      | some p =>
        let nl := countNlSpan pt .add span.start span.length
        let pt := { pt with tree := updatePiece pt.tree p.addr (extendPiece span.length nl) }
        (.ok, recordInsert pt offset span)
      | none =>
        match spliceIn pt offset [span] with
        | (.err, pt) => (.err, pt)
        | (.ok, pt) => (.ok, recordInsert pt offset span)

/-- `axl_piece_tree_delete`. -/
def delete (pt : PieceTree) (offset len : Nat) : Rc × PieceTree :=
  if pt.readOnly then (.err, pt)
  else if offset ≥ length pt ∨ len = 0 then (.ok, pt)
  else
    let len := min len (length pt - offset)
    match captureSpans pt offset len with
    | (none, h) => (.err, { pt with heap := h })
    | (some spans, h) =>
      match doDeleteRange { pt with heap := h } offset len with
      | (.err, pt) => (.err, pt)
      | (.ok, pt) => (.ok, recordEdit pt .delete offset len spans)

/-! ## Undo and redo -/

/-- `edit_apply`: a record's inverse (undo) or forward (redo) action. -/
def editApply (pt : PieceTree) (e : PtEdit) (inverse : Bool) : Rc × PieceTree :=
  if (e.kind = .insert) = (inverse = false) then spliceIn pt e.offset e.spans
  else doDeleteRange pt e.offset e.length

/-- The stack that `step` takes from: undo records when `inverse`. -/
def fromStack (pt : PieceTree) (inverse : Bool) : List PtEdit :=
  if inverse then pt.undo else pt.redo

/-- Pop the record that was just applied and push it on the other stack; when
the push fails the record is dropped. -/
def moveRecord (pt : PieceTree) (inverse : Bool) (e : PtEdit) : Bool × PieceTree :=
  if inverse then
    match stackPush pt.heap pt.redo pt.redoCap e with
    | (some (redo, cap), h) =>
      (true, { pt with undo := pt.undo.tail, redo := redo, redoCap := cap, heap := h })
    | (none, h) => (false, { pt with undo := pt.undo.tail, heap := h })
  else
    match stackPush pt.heap pt.undo pt.undoCap e with
    | (some (undo, cap), h) =>
      (true, { pt with redo := pt.redo.tail, undo := undo, undoCap := cap, heap := h })
    | (none, h) => (false, { pt with redo := pt.redo.tail, heap := h })

/-- The loop of `step` over the records of the group `gid`. The pair is the
affected range reported so far. -/
def stepLoop (gid : Nat) (inverse : Bool) : Nat → PieceTree → Nat × Nat →
    Rc × (Nat × Nat) × PieceTree
  | 0, pt, aff => (.ok, aff, pt)
  | fuel + 1, pt, aff =>
    match fromStack pt inverse with
    | [] => (.ok, aff, pt)
    | e :: _ =>
      if e.group = gid then
        match editApply pt e inverse with
        | (.err, pt) => (.err, aff, pt)
        | (.ok, pt) =>
          let asInsert := (e.kind = .insert) = (inverse = false)
          let aff := (e.offset, if asInsert then e.length else 0)
          match moveRecord pt inverse e with
          | (true, pt) => stepLoop gid inverse fuel pt aff
          | (false, pt) => (.ok, aff, pt)
      else (.ok, aff, pt)

/-- `step`: move the top group across, (un)applying each record. -/
def step (pt : PieceTree) (inverse : Bool) : Rc × (Nat × Nat) × PieceTree :=
  match fromStack pt inverse with
  | [] => (.err, (0, 0), pt)
  | e :: es => stepLoop e.group inverse (e :: es).length pt (0, 0)

/-- `axl_piece_tree_undo`, with the reported affected offset and length. -/
def undo (pt : PieceTree) : Rc × (Nat × Nat) × PieceTree := step pt true

/-- `axl_piece_tree_redo`. -/
def redo (pt : PieceTree) : Rc × (Nat × Nat) × PieceTree := step pt false

/-- `axl_piece_tree_can_undo`. -/
def canUndo (pt : PieceTree) : Bool := pt.undo.length > 0

/-- `axl_piece_tree_can_redo`. -/
def canRedo (pt : PieceTree) : Bool := pt.redo.length > 0

/-- `axl_piece_tree_set_undo_limit`: surplus records are dropped, oldest first. -/
def setUndoLimit (pt : PieceTree) (maxEdits : Option Nat) : PieceTree :=
  { pt with undoLimit := maxEdits, undo := maxEdits.elim pt.undo fun n => pt.undo.take n }

/-- `axl_piece_tree_undo_group_begin`. -/
def undoGroupBegin (pt : PieceTree) : PieceTree :=
  if pt.groupDepth = 0 then
    { pt with groupSeq := pt.groupSeq + 1, curGroup := pt.groupSeq + 1, groupDepth := 1 }
  else { pt with groupDepth := pt.groupDepth + 1 }

/-- `axl_piece_tree_undo_group_end`. -/
def undoGroupEnd (pt : PieceTree) : PieceTree :=
  { pt with groupDepth := pt.groupDepth - 1 }

/-- `axl_piece_tree_undo_checkpoint`. -/
def undoCheckpoint (pt : PieceTree) : PieceTree :=
  { pt with groupSeq := pt.groupSeq + 1, curGroup := pt.groupSeq + 1, groupSticky := true }

/-! ## The save point -/

/-- `cur_state`. -/
def curState (pt : PieceTree) : Nat := pt.undo.head?.elim 0 PtEdit.postState

/-- `axl_piece_tree_is_modified`. -/
def isModified (pt : PieceTree) : Bool := !(pt.saveValid && curState pt == pt.savedState)

/-- The end of a successful `axl_piece_tree_save`. -/
def savePoint (pt : PieceTree) : PieceTree :=
  { pt with savedState := curState pt, saveValid := true }

/-! ## Batch edits -/

/-- `AxlEdit`. -/
structure AxlEdit where
  offset : Nat
  delLen : Nat
  ins : List UInt8
  deriving DecidableEq, Repr

/-- The inner loop of the insertion sort, on the sorted prefix read from its
end: shift entries with a smaller offset, then place the key. -/
def placeEdit (key : AxlEdit) : List AxlEdit → List AxlEdit
  | [] => [key]
  | e :: es => if e.offset < key.offset then e :: placeEdit key es else key :: e :: es

/-- The insertion sort of `axl_piece_tree_apply_edits`, by descending offset. -/
def sortEdits (edits : List AxlEdit) : List AxlEdit :=
  (edits.foldl (fun acc key => placeEdit key acc) []).reverse

/-- The application loop of `axl_piece_tree_apply_edits`. -/
def applyLoop : PieceTree → List AxlEdit → Rc × PieceTree
  | pt, [] => (.ok, pt)
  | pt, e :: es =>
    match (if e.delLen > 0 then delete pt e.offset e.delLen else (.ok, pt)) with
    | (.err, pt) => (.err, pt)
    | (.ok, pt) =>
      match (if e.ins.length > 0 then insert pt e.offset e.ins else (.ok, pt)) with
      | (.err, pt) => (.err, pt)
      | (.ok, pt) => applyLoop pt es

/-- `axl_piece_tree_apply_edits`. -/
def applyEdits (pt : PieceTree) (edits : List AxlEdit) : Rc × PieceTree :=
  if pt.readOnly then (.err, pt)
  else if edits.length = 0 then (.ok, pt)
  else
    match pt.heap.alloc with
    | (none, h) => (.err, { pt with heap := h })
    | (some _, h) =>
      match applyLoop (undoGroupBegin { pt with heap := h }) (sortEdits edits) with
      | (rc, pt) => (rc, undoGroupEnd pt)

/-! ## Creation -/

/-- `axl_piece_tree_new`, the struct itself included in the allocations. -/
def new (h : Heap) : Option PieceTree :=
  match h.alloc with
  | (none, _) => none
  | (some _, h) =>
    some
      { tree := leaf, view := [], add := [], addCap := 0, addNl := [], addNlCap := 0,
        origNl := [], undo := [], undoCap := 0, redo := [], redoCap := 0,
        undoLimit := none, groupSeq := 0, curGroup := 0, groupDepth := 0,
        groupSticky := false, stateSeq := 0, savedState := 0, saveValid := true,
        readOnly := false, heap := h }

/-- The inner loop of `pt_scan_newlines` over one chunk read at `off`. -/
def scanChunk : Heap → Nat → List UInt8 → List Nat → Nat → Option (List Nat × Nat) × Heap
  | h, _, [], nl, cap => (some (nl, cap), h)
  | h, off, b :: bs, nl, cap =>
    if b = newline then
      if nl.length ≥ cap then
        match h.alloc with
        | (none, h) => (none, h)
        | (some _, h) =>
          scanChunk h (off + 1) bs (nl ++ [off]) (if cap = 0 then 1024 else cap * 2)
      else scanChunk h (off + 1) bs (nl ++ [off]) cap
    else scanChunk h (off + 1) bs nl cap

/-- `pt_scan_newlines`: one pass over the file, 4096 bytes at a time. -/
def scanNewlines (view : List UInt8) : Nat → Heap → Nat → List Nat → Nat →
    Option (List Nat) × Heap
  | 0, h, _, nl, _ => (some nl, h)
  | fuel + 1, h, off, nl, cap =>
    if off < view.length then
      let buf := (view.drop off).take 4096
      match scanChunk h off buf nl cap with
      | (none, h) => (none, h)
      | (some (nl, cap), h) => scanNewlines view fuel h (off + buf.length) nl cap
    else (some nl, h)

/-- `build_from_view` over a pinned view of the file `view`. -/
def openView (h : Heap) (view : List UInt8) : Option PieceTree :=
  match new h with
  | none => none
  | some pt =>
    let pt := { pt with view := view }
    if view.length > 0 then
      match scanNewlines view view.length pt.heap 0 [] 0 with
      | (none, _) => none
      | (some nl, h) =>
        let pt := { pt with origNl := nl }
        match pieceNew h .original 0 view.length nl.length with
        | (none, _) => none
        | (some p, h) => some { pt with tree := insertRoot p, heap := h }
    else some pt

end PieceTree

end AxlSdk
