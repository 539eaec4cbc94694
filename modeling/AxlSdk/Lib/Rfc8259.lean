import AxlSdk.Lib.JsonSyntax

/-!
# RFC 8259

The grammar of a JSON text, rule by rule, over bytes. Bytes from 0x80 on stand
for themselves inside strings.
-/

namespace AxlSdk

namespace Rfc8259

open JsonSyntax

/-! ## Lexical rules -/

/-- `ws`: space, tab, line feed, carriage return. -/
def Ws (g : List UInt8) : Prop := ∀ c ∈ g, c = 0x20 ∨ c = 0x09 ∨ c = 0x0A ∨ c = 0x0D

/-- `DIGIT`. -/
def Digit (c : UInt8) : Prop := 0x30 ≤ c ∧ c ≤ 0x39

/-- `HEXDIG`, in either case. -/
def HexDigit (c : UInt8) : Prop :=
  Digit c ∨ (0x61 ≤ c ∧ c ≤ 0x66) ∨ (0x41 ≤ c ∧ c ≤ 0x46)

instance (c : UInt8) : Decidable (Digit c) := inferInstanceAs (Decidable (_ ∧ _))

instance (c : UInt8) : Decidable (HexDigit c) := inferInstanceAs (Decidable (_ ∨ _))

/-- `char`: what stands for one character of a string. -/
inductive Char : List UInt8 → Prop where
  | unescaped {c : UInt8} (hc : 0x20 ≤ c) (hq : c ≠ 0x22) (hb : c ≠ 0x5C) : Char [c]
  | escape {e : UInt8} (he : e ∈ [0x22, 0x5C, 0x2F, 0x62, 0x66, 0x6E, 0x72, 0x74]) :
      Char [0x5C, e]
  | unicode {d₁ d₂ d₃ d₄ : UInt8} (h₁ : HexDigit d₁) (h₂ : HexDigit d₂) (h₃ : HexDigit d₃)
      (h₄ : HexDigit d₄) : Char [0x5C, 0x75, d₁, d₂, d₃, d₄]

/-- `*char`. -/
inductive Chars : List UInt8 → Prop where
  | nil : Chars []
  | cons {u b : List UInt8} (hu : Char u) (hb : Chars b) : Chars (u ++ b)

/-- `int`: zero, or digits that do not start with one. -/
inductive Int : List UInt8 → Prop where
  | zero : Int [0x30]
  | digits {d : UInt8} {ds : List UInt8} (hd : 0x31 ≤ d ∧ d ≤ 0x39) (hds : ∀ c ∈ ds, Digit c) :
      Int (d :: ds)

/-- `[ frac ]`. -/
inductive Frac : List UInt8 → Prop where
  | none : Frac []
  | point {ds : List UInt8} (hds : ∀ c ∈ ds, Digit c) (hne : ds ≠ []) : Frac (0x2E :: ds)

/-- `[ exp ]`. -/
inductive Exp : List UInt8 → Prop where
  | none : Exp []
  | exp {e : UInt8} {sign ds : List UInt8} (he : e = 0x65 ∨ e = 0x45)
      (hs : sign = [] ∨ sign = [0x2B] ∨ sign = [0x2D]) (hds : ∀ c ∈ ds, Digit c) (hne : ds ≠ []) :
      Exp (e :: (sign ++ ds))

/-- `number`. -/
inductive Number : List UInt8 → Prop where
  | mk {minus int frac exp : List UInt8} (hm : minus = [] ∨ minus = [0x2D]) (hi : Int int)
      (hf : Frac frac) (he : Exp exp) : Number (minus ++ (int ++ frac ++ exp))

/-- `true`, `false` and `null`. -/
def Literal (t : List UInt8) : Prop :=
  t = [0x74, 0x72, 0x75, 0x65] ∨ t = [0x66, 0x61, 0x6C, 0x73, 0x65] ∨ t = [0x6E, 0x75, 0x6C, 0x6C]

/-- `string`, on its quoted text. -/
def Str : Leaf → Prop
  | .str q b => q = 0x22 ∧ Chars b
  | .prim _ => False

/-- A `value` that is no container. -/
def Value : Leaf → Prop
  | .str q b => Str (.str q b)
  | .prim t => Number t ∨ Literal t

/-- The lexicon of RFC 8259. -/
def lexicon : Lexicon where
  gap := Ws
  value := Value
  key := Str
  trailingComma := False

/-! ## Texts -/

/-- `JSON-text`: one value between whitespace. Its containers nest at most
`depth` deep. -/
structure IsText (depth : Nat) (json lead : List UInt8) (t : Syn .value) (tail : List UInt8) :
    Prop where
  before : Ws lead
  valid : t.Valid lexicon
  nested : t.depth ≤ depth
  behind : Ws tail
  text : json = lead ++ (t.render ++ tail)

end Rfc8259

end AxlSdk
