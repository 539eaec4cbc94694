import Mathlib

/-!
# Lossless JSON syntax trees

A tree that keeps every byte of a JSON-like text: gaps between tokens, the
spelling of every leaf, trailing commas. What a gap, a leaf or a key may be is
left to a `Lexicon`, so that one family of trees serves RFC 8259 and its
dialects.

- `Syn.render` is the text of a tree; `Valid` says that its parts belong to a
  lexicon.
- `Syn.marks` lists what a scan over the text meets, in order, and
  `Syn.listing` the preorder tokens with their spans and child counts.
- The containers are arrays (`true`) and objects (`false`) throughout.
-/

namespace AxlSdk

namespace JsonSyntax

/-! ## Trees -/

/-- A token that is no container: a quoted string, or a word or number. -/
inductive Leaf where
  | str (quote : UInt8) (body : List UInt8)
  | prim (text : List UInt8)
  deriving DecidableEq, Repr

/-- What stands before the value of an element: a gap, or a gap, a key and the
gaps around its colon. -/
inductive Head : Bool → Type where
  | item (g : List UInt8) : Head true
  | member (g : List UInt8) (k : Leaf) (g₁ g₂ : List UInt8) : Head false

/-- A value, or what is left of a container behind one of its elements. -/
inductive Part where
  | value
  | rest (isArray : Bool)

/-- Syntax trees. -/
inductive Syn : Part → Type where
  | leaf (l : Leaf) : Syn .value
  | empty (isArray : Bool) (g : List UInt8) : Syn .value
  | node (isArray : Bool) (h : Head isArray) (v : Syn .value) (r : Syn (.rest isArray)) :
      Syn .value
  | stop {isArray : Bool} (g : List UInt8) : Syn (.rest isArray)
  | trail {isArray : Bool} (g g' : List UInt8) : Syn (.rest isArray)
  | more {isArray : Bool} (g : List UInt8) (h : Head isArray) (v : Syn .value)
      (r : Syn (.rest isArray)) : Syn (.rest isArray)

/-- `[` or an opening brace. -/
def opener (isArray : Bool) : UInt8 := if isArray then 0x5B else 0x7B

/-- `]` or a closing brace. -/
def closer (isArray : Bool) : UInt8 := if isArray then 0x5D else 0x7D

/-! ## Texts -/

def Leaf.text : Leaf → List UInt8
  | .str q b => q :: (b ++ [q])
  | .prim t => t

def Head.render : {a : Bool} → Head a → List UInt8
  | _, .item g => g
  | _, .member g k g₁ g₂ => g ++ (k.text ++ (g₁ ++ 0x3A :: g₂))

def Syn.render : {p : Part} → Syn p → List UInt8
  | _, .leaf l => l.text
  | _, .empty a g => opener a :: (g ++ [closer a])
  | _, .node a h v r => opener a :: (h.render ++ (v.render ++ r.render))
  | .rest a, .stop g => g ++ [closer a]
  | .rest a, .trail g g' => g ++ 0x2C :: (g' ++ [closer a])
  | _, .more g h v r => g ++ 0x2C :: (h.render ++ (v.render ++ r.render))

/-- The elements of what is left of a container. -/
def Syn.count : {p : Part} → Syn p → Nat
  | _, .more _ _ _ r => r.count + 1
  | _, _ => 0

/-- How deep containers nest. -/
def Syn.depth : {p : Part} → Syn p → Nat
  | _, .leaf _ => 0
  | _, .empty _ _ => 1
  | _, .node _ _ v r => max v.depth r.depth + 1
  | _, .stop _ => 0
  | _, .trail _ _ => 0
  | _, .more _ _ v r => max v.depth r.depth

/-! ## Lexicons -/

/-- What the parts of a text may be. -/
structure Lexicon where
  gap : List UInt8 → Prop
  value : Leaf → Prop
  key : Leaf → Prop
  trailingComma : Prop

def Head.Valid (lex : Lexicon) : {a : Bool} → Head a → Prop
  | _, .item g => lex.gap g
  | _, .member g k g₁ g₂ => lex.gap g ∧ lex.key k ∧ lex.gap g₁ ∧ lex.gap g₂

def Syn.Valid (lex : Lexicon) : {p : Part} → Syn p → Prop
  | _, .leaf l => lex.value l
  | _, .empty _ g => lex.gap g
  | _, .node _ h v r => h.Valid lex ∧ v.Valid lex ∧ r.Valid lex
  | _, .stop g => lex.gap g
  | _, .trail g g' => lex.trailingComma ∧ lex.gap g ∧ lex.gap g'
  | _, .more g h v r => lex.gap g ∧ h.Valid lex ∧ v.Valid lex ∧ r.Valid lex

/-! ## Scans and listings -/

/-- What a scan meets: brackets with their offset, leaves with their span. -/
inductive Mark where
  | opens (isArray : Bool) (offset : Nat)
  | closes (isArray : Bool) (offset : Nat)
  | key (start stop : Nat)
  | leaf (isString : Bool) (start stop : Nat)
  deriving DecidableEq, Repr

def Leaf.isString : Leaf → Bool
  | .str _ _ => true
  | .prim _ => false

/-- The span of a leaf at `off`: the quotes of a string stay outside. -/
def Leaf.span (off : Nat) : Leaf → Nat × Nat
  | .str _ b => (off + 1, off + 1 + b.length)
  | .prim t => (off, off + t.length)

def Head.marks (off : Nat) : {a : Bool} → Head a → List Mark
  | _, .item _ => []
  | _, .member g k _ _ =>
    [.key (k.span (off + g.length)).1 (k.span (off + g.length)).2]

def Syn.marks : {p : Part} → Nat → Syn p → List Mark
  | _, off, .leaf l => [.leaf l.isString (l.span off).1 (l.span off).2]
  | _, off, .empty a g => [.opens a off, .closes a (off + 1 + g.length)]
  | _, off, .node a h v r =>
    .opens a off :: (h.marks (off + 1) ++ (v.marks (off + 1 + h.render.length) ++
      r.marks (off + 1 + h.render.length + v.render.length)))
  | .rest a, off, .stop g => [.closes a (off + g.length)]
  | .rest a, off, .trail g g' => [.closes a (off + g.length + 1 + g'.length)]
  | _, off, .more g h v r =>
    h.marks (off + g.length + 1) ++ (v.marks (off + g.length + 1 + h.render.length) ++
      r.marks (off + g.length + 1 + h.render.length + v.render.length))

/-- What a token is. -/
inductive TokenKind where
  | object
  | array
  | string
  | primitive
  deriving DecidableEq, Repr

def container (isArray : Bool) : TokenKind := if isArray then .array else .object

/-- A token: its kind, the span of its text and the number of its children. -/
structure Token where
  kind : TokenKind
  start : Nat
  stop : Nat
  size : Nat
  deriving DecidableEq, Repr

def Leaf.token (off : Nat) (l : Leaf) : Token :=
  ⟨if l.isString then .string else .primitive, (l.span off).1, (l.span off).2, 0⟩

/-- The token of a key: always a string. -/
def keyToken (off : Nat) (k : Leaf) : Token := ⟨.string, (k.span off).1, (k.span off).2, 0⟩

def Head.listing (off : Nat) : {a : Bool} → Head a → List Token
  | _, .item _ => []
  | _, .member g k _ _ => [keyToken (off + g.length) k]

/-- The preorder listing of a tree whose text starts at `off`. -/
def Syn.listing : {p : Part} → Nat → Syn p → List Token
  | _, off, .leaf l => [l.token off]
  | _, off, .empty a g => [⟨container a, off, off + 1 + g.length + 1, 0⟩]
  | _, off, .node a h v r =>
    ⟨container a, off, off + (Syn.node a h v r).render.length, r.count + 1⟩ ::
      (h.listing (off + 1) ++ (v.listing (off + 1 + h.render.length) ++
        r.listing (off + 1 + h.render.length + v.render.length)))
  | _, _, .stop _ => []
  | _, _, .trail _ _ => []
  | _, off, .more g h v r =>
    h.listing (off + g.length + 1) ++ (v.listing (off + g.length + 1 + h.render.length) ++
      r.listing (off + g.length + 1 + h.render.length + v.render.length))

end JsonSyntax

end AxlSdk
