import AxlSdk.Json.Utf8

/-!
# Injected terminal text (`axl-console-input.c`)

The input engine of the console producers: a queue of keys, and the decoder that makes
keys of the bytes a terminal sends.

- `decodeEscape`: what the bytes behind an ESC stand for, and whether they are complete.
- `injectByte`, `injectText`: a turn of the loop, and a call.
- `Key`: what the user of a terminal presses, with the bytes xterm sends for it.
- `inject_text_iff`: for which keys the call pushes exactly these keys.
-/

namespace AxlSdk

namespace ConsoleInput

open Json Utf8 List

/-! ## The engine -/

/-- `EFI_KEY_DATA` -/
structure KeyData where
  scanCode : Nat
  unicodeChar : Nat
  keyShiftState : Nat
  keyToggleState : Nat
  deriving DecidableEq

def AXL_CONSOLE_KEY_RING_SIZE : Nat := 64
def AXL_CONSOLE_ESC_BUF_SIZE : Nat := 16

def SCAN_UP : Nat := 0x01
def SCAN_DOWN : Nat := 0x02
def SCAN_RIGHT : Nat := 0x03
def SCAN_LEFT : Nat := 0x04
def SCAN_HOME : Nat := 0x05
def SCAN_END : Nat := 0x06
def SCAN_INSERT : Nat := 0x07
def SCAN_DELETE : Nat := 0x08
def SCAN_PGUP : Nat := 0x09
def SCAN_PGDN : Nat := 0x0A
def SCAN_F1 : Nat := 0x0B
def SCAN_ESC : Nat := 0x17

/-- `AxlConsoleInput`: the keys from `tail` to `head`, and the escape sequence so far. -/
structure Engine where
  queue : List KeyData
  inEsc : Bool
  escBuf : List UInt8

/-- `axl_console_input_init` -/
def Engine.init : Engine := ⟨[], false, []⟩

/-- `axl_console_input_push` on the queue. A ring of `n` places holds `n - 1` keys. -/
def push (queue : List KeyData) (key : KeyData) : List KeyData :=
  if queue.length + 1 < AXL_CONSOLE_KEY_RING_SIZE then queue ++ [key] else queue

def Engine.push (e : Engine) (key : KeyData) : Engine :=
  { e with queue := ConsoleInput.push e.queue key }

/-- `inject_unicode` -/
def Engine.injectUnicode (e : Engine) (ch : Nat) : Engine := e.push ⟨0, ch, 0, 0⟩

/-- `inject_scan` -/
def Engine.injectScan (e : Engine) (scan : Nat) : Engine := e.push ⟨scan, 0, 0, 0⟩

/-! ## Escape sequences -/

/-- What ends a sequence behind a `;`. -/
def isFinal (c : UInt8) : Bool := c == 0x7E || (0x40 ≤ c && c ≤ 0x5A)

def isDigit (c : UInt8) : Bool := 0x30 ≤ c && c ≤ 0x39

/-- The loop over the parameters: the final byte, the number before it, and whether there
was one. There is none while the final byte has not come. -/
def csiParams (num : Nat) (haveNum : Bool) : List UInt8 → Option (UInt8 × Nat × Bool)
  | [] => none
  | c :: body =>
    if isDigit c then csiParams ((num * 10 + (c.toNat - 0x30)) % 2 ^ 32) true body
    else if c = 0x3B then csiParams num haveNum (body.dropWhile fun c => !isFinal c)
    else some (c, num, haveNum)
termination_by body => body.length
decreasing_by
  · simp
  · have := length_dropWhile_le (fun c => !isFinal c) body
    simp only [length_cons]
    omega

/-- The scan code of `CSI num ~`. -/
def tildeScan (num : Nat) : Nat :=
  match num with
  | 1 => SCAN_HOME
  | 2 => SCAN_INSERT
  | 3 => SCAN_DELETE
  | 4 => SCAN_END
  | 5 => SCAN_PGUP
  | 6 => SCAN_PGDN
  | 15 => SCAN_F1 + 4
  | 17 => SCAN_F1 + 5
  | 18 => SCAN_F1 + 6
  | 19 => SCAN_F1 + 7
  | 20 => SCAN_F1 + 8
  | 21 => SCAN_F1 + 9
  | 23 => SCAN_F1 + 10
  | 24 => SCAN_F1 + 11
  | _ => 0

/-- The scan code of a CSI sequence by its final byte. -/
def csiScan (final : UInt8) (num : Nat) (haveNum : Bool) : Nat :=
  if final = 0x41 then SCAN_UP
  else if final = 0x42 then SCAN_DOWN
  else if final = 0x43 then SCAN_RIGHT
  else if final = 0x44 then SCAN_LEFT
  else if final = 0x48 then SCAN_HOME
  else if final = 0x46 then SCAN_END
  else if final = 0x7E then if haveNum then tildeScan num else 0
  else 0

/-- The scan code of `SS3 c`. -/
def ss3Scan (c : UInt8) : Nat :=
  if c = 0x50 then SCAN_F1
  else if c = 0x51 then SCAN_F1 + 1
  else if c = 0x52 then SCAN_F1 + 2
  else if c = 0x53 then SCAN_F1 + 3
  else 0

/-- `decode_escape`: whether the body is complete, and its scan code. -/
def decodeEscape (body : List UInt8) : Bool × Nat :=
  match body with
  | [] => (false, 0)
  | b :: body =>
    if b = 0x4F then
      match body with
      | [] => (false, 0)
      | c :: _ => (true, ss3Scan c)
    else if b = 0x5B then
      match csiParams 0 false body with
      | none => (false, 0)
      | some (final, num, haveNum) => (true, csiScan final num haveNum)
    else (true, SCAN_ESC)

/-! ## The loop -/

/-- A byte inside an escape sequence. -/
def Engine.escByte (e : Engine) (b : UInt8) : Engine :=
  let escBuf := if e.escBuf.length < AXL_CONSOLE_ESC_BUF_SIZE then e.escBuf ++ [b] else e.escBuf
  let scan := (decodeEscape escBuf).2
  if (decodeEscape escBuf).1 then
    { (if scan ≠ 0 then e.injectScan scan else e) with inEsc := false, escBuf := [] }
  else if escBuf.length ≥ AXL_CONSOLE_ESC_BUF_SIZE then { e with inEsc := false, escBuf := [] }
  else { e with escBuf := escBuf }

/-- A byte outside of one, and how many of the bytes behind it belong to it. -/
def Engine.plainByte (e : Engine) (b : UInt8) (rest : List UInt8) : Engine × Nat :=
  if b = 0x1B then ({ e with inEsc := true, escBuf := [] }, 0)
  else if b < 0x80 then (e.injectUnicode (if b = 0x7F then 0x08 else b.toNat), 0)
  else if b &&& 0xE0 = 0xC0 ∧ 1 ≤ rest.length then
    (e.injectUnicode ((b &&& 0x1F).toNat <<< 6 ||| (rest.getD 0 0 &&& 0x3F).toNat), 1)
  else if b &&& 0xF0 = 0xE0 ∧ 2 ≤ rest.length then
    (e.injectUnicode ((b &&& 0x0F).toNat <<< 12 ||| (rest.getD 0 0 &&& 0x3F).toNat <<< 6 |||
      (rest.getD 1 0 &&& 0x3F).toNat), 2)
  else (e, 0)

/-- A turn of the loop: the engine after it, and how many bytes behind `b` it took too. -/
def Engine.injectByte (e : Engine) (b : UInt8) (rest : List UInt8) : Engine × Nat :=
  if e.inEsc then
    if e.escBuf = [] ∧ b ≠ 0x5B ∧ b ≠ 0x4F then
      Engine.plainByte { e.injectScan SCAN_ESC with inEsc := false } b rest
    else (e.escByte b, 0)
  else e.plainByte b rest

/-- A turn of the loop on the bytes that are left. -/
def injectStep : Engine × List UInt8 → Engine × List UInt8
  | (e, []) => (e, [])
  | (e, b :: rest) => ((e.injectByte b rest).1, rest.drop (e.injectByte b rest).2)

/-- The loop. -/
def Engine.injectLoop (e : Engine) : List UInt8 → Engine
  | [] => e
  | b :: rest => (e.injectByte b rest).1.injectLoop (rest.drop (e.injectByte b rest).2)
termination_by bytes => bytes.length
decreasing_by
  simp only [length_drop, length_cons]
  omega

/-- What is open at the end becomes an ESC and the bytes behind it. -/
def Engine.flush (e : Engine) : Engine :=
  if e.inEsc then
    { (e.escBuf.foldl (fun e b => e.injectUnicode b.toNat) (e.injectScan SCAN_ESC)) with
      inEsc := false, escBuf := [] }
  else e

/-- `axl_console_input_inject_text` -/
def Engine.injectText (e : Engine) (bytes : List UInt8) : Engine := (e.injectLoop bytes).flush

/-- The calls that change the engine. -/
inductive Call
  | injectText (bytes : List UInt8)
  | injectKeyEx (key : KeyData)
  | push (key : KeyData)
  | pop
  | drain

def Engine.step (e : Engine) : Call → Engine
  | .injectText bytes => e.injectText bytes
  | .injectKeyEx key => e.push key
  | .push key => e.push key
  | .pop => { e with queue := e.queue.tail }
  | .drain => { e with queue := [] }

/-- A state that some calls lead to. -/
def Reachable (e : Engine) : Prop := ∃ calls : List Call, e = calls.foldl Engine.step Engine.init

/-! ## Keys -/

/-- The keys that have no character. -/
inductive Named
  | up | down | right | left | home | end' | insert | delete | pageUp | pageDown
  | f1 | f2 | f3 | f4 | f5 | f6 | f7 | f8 | f9 | f10 | f11 | f12

/-- How xterm sends a key: a final byte behind CSI, a number and `~`, or a byte behind SS3. -/
inductive Form
  | csi (final : UInt8)
  | tilde (digits : List UInt8)
  | ss3 (c : UInt8)

def Named.form : Named → Form
  | .up => .csi 0x41
  | .down => .csi 0x42
  | .right => .csi 0x43
  | .left => .csi 0x44
  | .home => .csi 0x48
  | .end' => .csi 0x46
  | .insert => .tilde [0x32]
  | .delete => .tilde [0x33]
  | .pageUp => .tilde [0x35]
  | .pageDown => .tilde [0x36]
  | .f1 => .ss3 0x50
  | .f2 => .ss3 0x51
  | .f3 => .ss3 0x52
  | .f4 => .ss3 0x53
  | .f5 => .tilde [0x31, 0x35]
  | .f6 => .tilde [0x31, 0x37]
  | .f7 => .tilde [0x31, 0x38]
  | .f8 => .tilde [0x31, 0x39]
  | .f9 => .tilde [0x32, 0x30]
  | .f10 => .tilde [0x32, 0x31]
  | .f11 => .tilde [0x32, 0x33]
  | .f12 => .tilde [0x32, 0x34]

/-- The scan code UEFI has for a key. -/
def Named.scan : Named → Nat
  | .up => 0x01
  | .down => 0x02
  | .right => 0x03
  | .left => 0x04
  | .home => 0x05
  | .end' => 0x06
  | .insert => 0x07
  | .delete => 0x08
  | .pageUp => 0x09
  | .pageDown => 0x0A
  | .f1 => 0x0B
  | .f2 => 0x0C
  | .f3 => 0x0D
  | .f4 => 0x0E
  | .f5 => 0x0F
  | .f6 => 0x10
  | .f7 => 0x11
  | .f8 => 0x12
  | .f9 => 0x13
  | .f10 => 0x14
  | .f11 => 0x15
  | .f12 => 0x16

/-- A modifier parameter. xterm's have one or two digits. -/
structure Modifier where
  digits : List UInt8
  digit : ∀ c ∈ digits, isDigit c = true
  short : digits.length ≤ 11

/-- A key press: a character of the BMP, or a named key with the modifiers held. -/
inductive Key
  | char (cp : Nat) (bmp : Scalar cp ∧ cp < 0x10000) (notEsc : cp ≠ 0x1B)
  | named (key : Named) (modifier : Option Modifier)

def modifierPart : Option Modifier → List UInt8
  | none => []
  | some m => 0x3B :: m.digits

/-- `CSI digits final`, with the modifier behind the digits. -/
def csiBytes (digits : List UInt8) (modifier : Option Modifier) (final : UInt8) : List UInt8 :=
  0x1B :: 0x5B :: (digits ++ modifierPart modifier ++ [final])

def Form.encode (modifier : Option Modifier) : Form → List UInt8
  | .csi final => csiBytes (if modifier.isSome then [0x31] else []) modifier final
  | .tilde digits => csiBytes digits modifier 0x7E
  | .ss3 c => if modifier.isSome then csiBytes [0x31] modifier c else [0x1B, 0x4F, c]

/-- The bytes xterm sends. -/
def Key.encode : Key → List UInt8
  | .char cp _ _ => Utf8.encode cp
  | .named key modifier => key.form.encode modifier

/-- The key without its modifiers. A terminal sends DEL for backspace. -/
def Key.base : Key → KeyData
  | .char cp _ _ => ⟨0, if cp = 0x7F then 0x08 else cp, 0, 0⟩
  | .named key _ => ⟨key.scan, 0, 0, 0⟩

/-- F1 to F4 with a modifier. -/
def Key.Swallowed : Key → Prop
  | .char _ _ _ => False
  | .named key modifier => key ∈ [.f1, .f2, .f3, .f4] ∧ modifier.isSome

/-! ## Parameters -/

theorem csiParams_digit {c : UInt8} (h : isDigit c = true) (num : Nat) (haveNum : Bool)
    (r : List UInt8) : csiParams num haveNum (c :: r) =
      csiParams ((num * 10 + (c.toNat - 0x30)) % 2 ^ 32) true r := by
  rw [csiParams, if_pos h]

theorem csiParams_semicolon (num : Nat) (haveNum : Bool) (r : List UInt8) :
    csiParams num haveNum (0x3B :: r) =
      csiParams num haveNum (r.dropWhile fun c => !isFinal c) := by
  rw [csiParams, if_neg (by decide), if_pos rfl]

theorem isDigit_not_final {c : UInt8} (h : isDigit c = true) : isFinal c = false :=
  byte_all (p := fun c => isDigit c = true → isFinal c = false) (by decide +kernel) c h

theorem isFinal_stops {c : UInt8} (h : isFinal c = true) : isDigit c = false ∧ c ≠ 0x3B :=
  byte_all (p := fun c => isFinal c = true → isDigit c = false ∧ c ≠ 0x3B) (by decide +kernel) c h

theorem csiParams_final {c : UInt8} (h : isFinal c = true) (num : Nat) (haveNum : Bool) :
    csiParams num haveNum [c] = some (c, num, haveNum) := by
  obtain ⟨hd, hs⟩ := isFinal_stops h
  rw [csiParams, if_neg (by simp [hd]), if_neg hs]

/-- Among digits and semicolons no sequence is complete. -/
theorem csiParams_none {l : List UInt8} (h : ∀ c ∈ l, isDigit c = true ∨ c = 0x3B) (num : Nat)
    (haveNum : Bool) : csiParams num haveNum l = none := by
  have hfin : ∀ c ∈ l, isFinal c = false := fun c hc => by
    rcases h c hc with hd | rfl
    · exact isDigit_not_final hd
    · rfl
  induction l generalizing num haveNum with
  | nil => rw [csiParams]
  | cons c l ih =>
    have hl := fun c hc => h c (mem_cons_of_mem _ hc)
    have hfin' := fun c hc => hfin c (mem_cons_of_mem _ hc)
    rcases h c mem_cons_self with hd | rfl
    · rw [csiParams_digit hd, ih hl _ _ hfin']
    · rw [csiParams_semicolon, dropWhile_eq_nil_iff.mpr fun c hc => by simp [hfin' c hc],
        csiParams]

/-- The number that digits stand for. -/
def number (digits : List UInt8) : Nat :=
  digits.foldl (fun num c => (num * 10 + (c.toNat - 0x30)) % 2 ^ 32) 0

variable {digits : List UInt8}

theorem csiParams_digits (h : ∀ c ∈ digits, isDigit c = true) (num : Nat) (haveNum : Bool)
    (r : List UInt8) : csiParams num haveNum (digits ++ r) =
      csiParams (digits.foldl (fun num c => (num * 10 + (c.toNat - 0x30)) % 2 ^ 32) num)
        (haveNum || !digits.isEmpty) r := by
  induction digits generalizing num haveNum with
  | nil => simp
  | cons c digits ih =>
    rw [cons_append, csiParams_digit (h c mem_cons_self),
      ih fun c hc => h c (mem_cons_of_mem _ hc)]
    simp

/-- A modifier parameter is skipped. -/
theorem csiParams_csi (h : ∀ c ∈ digits, isDigit c = true) (modifier : Option Modifier)
    {final : UInt8} (hf : isFinal final = true) :
    csiParams 0 false (digits ++ modifierPart modifier ++ [final]) =
      some (final, number digits, !digits.isEmpty) := by
  rw [append_assoc, csiParams_digits h, Bool.false_or]
  cases modifier with
  | none => exact csiParams_final hf _ _
  | some m =>
    have hm : ∀ c ∈ m.digits, (!isFinal c) = true := fun c hc => by
      simp [isDigit_not_final (m.digit c hc)]
    rw [modifierPart, cons_append, csiParams_semicolon, dropWhile_append_of_pos hm,
      dropWhile_cons_of_neg (by simp [hf]), csiParams_final hf]
    rfl

/-! ## A key -/

theorem injectLoop_cons (e : Engine) (b : UInt8) (rest : List UInt8) : e.injectLoop (b :: rest) =
    (e.injectByte b rest).1.injectLoop (rest.drop (e.injectByte b rest).2) := by
  rw [Engine.injectLoop]

/-- The queue after the keys, of which the later ones may find no room. -/
def pushAll (queue : List KeyData) (keys : List KeyData) : List KeyData := keys.foldl push queue

theorem pushAll_append (queue a b : List KeyData) :
    pushAll queue (a ++ b) = pushAll (pushAll queue a) b := foldl_append

variable {q : List KeyData} {acc : List UInt8}

theorem escByte_incomplete {b : UInt8} (hlen : acc.length + 1 < 16)
    (h : (decodeEscape (acc ++ [b])).1 = false) :
    Engine.escByte ⟨q, true, acc⟩ b = ⟨q, true, acc ++ [b]⟩ := by
  have hacc : acc.length < AXL_CONSOLE_ESC_BUF_SIZE := by
    unfold AXL_CONSOLE_ESC_BUF_SIZE
    omega
  have hge : ¬ (acc ++ [b]).length ≥ AXL_CONSOLE_ESC_BUF_SIZE := by
    simp only [length_append, length_singleton, AXL_CONSOLE_ESC_BUF_SIZE]
    omega
  simp only [Engine.escByte, if_pos hacc, h, Bool.false_eq_true, if_false, if_neg hge]

theorem escByte_complete {b : UInt8} {scan : Nat} (hlen : acc.length < 16)
    (h : decodeEscape (acc ++ [b]) = (true, scan)) :
    Engine.escByte ⟨q, true, acc⟩ b =
      ⟨pushAll q (if scan = 0 then [] else [⟨scan, 0, 0, 0⟩]), false, []⟩ := by
  have hacc : acc.length < AXL_CONSOLE_ESC_BUF_SIZE := hlen
  simp only [Engine.escByte, if_pos hacc, h, if_true]
  by_cases hs : scan = 0
  · rw [if_neg (not_not.mpr hs), if_pos hs]
    rfl
  · rw [if_pos hs, if_neg hs]
    rfl

theorem injectByte_esc {b : UInt8} (rest : List UInt8) (h : acc = [] → b = 0x5B ∨ b = 0x4F) :
    Engine.injectByte ⟨q, true, acc⟩ b rest = (Engine.escByte ⟨q, true, acc⟩ b, 0) := by
  have hn : ¬ (acc = [] ∧ b ≠ 0x5B ∧ b ≠ 0x4F) := fun ⟨ha, h1, h2⟩ => (h ha).elim h1 h2
  simp only [Engine.injectByte, if_true, if_neg hn]

/-- Bytes that leave the sequence incomplete are collected. -/
theorem injectLoop_collect {w : List UInt8} (rest : List UInt8) (hlen : acc.length + w.length < 16)
    (hhead : acc = [] → ∀ b ∈ w.head?, b = 0x5B ∨ b = 0x4F)
    (hinc : ∀ p, p <+: w → p ≠ [] → (decodeEscape (acc ++ p)).1 = false) :
    Engine.injectLoop ⟨q, true, acc⟩ (w ++ rest) = Engine.injectLoop ⟨q, true, acc ++ w⟩ rest := by
  induction w generalizing acc with
  | nil => simp
  | cons b w ih =>
    simp only [length_cons] at hlen
    have hb : (decodeEscape (acc ++ [b])).1 = false := hinc [b] (by simp) (by simp)
    rw [cons_append, injectLoop_cons, injectByte_esc _ fun ha => hhead ha b rfl,
      escByte_incomplete (by omega) hb, drop_zero, ih, append_assoc]
    · rfl
    · simp only [length_append, length_singleton]
      omega
    · simp
    · intro p hp hne
      have := hinc (b :: p) (cons_prefix_cons.mpr ⟨rfl, hp⟩) (by simp)
      rwa [append_assoc]

theorem injectLoop_esc (q : List KeyData) (rest : List UInt8) :
    Engine.injectLoop ⟨q, false, []⟩ (0x1B :: rest) = Engine.injectLoop ⟨q, true, []⟩ rest := by
  rw [injectLoop_cons]
  rfl

/-- A CSI sequence gives the scan code of its final byte and its first number. -/
theorem injectLoop_csi (q : List KeyData) (h : ∀ c ∈ digits, isDigit c = true)
    (hlen : digits.length ≤ 2) (modifier : Option Modifier) {final : UInt8}
    (hf : isFinal final = true) (rest : List UInt8) {scan : Nat}
    (hscan : csiScan final (number digits) (!digits.isEmpty) = scan) :
    Engine.injectLoop ⟨q, false, []⟩ (csiBytes digits modifier final ++ rest) =
      Engine.injectLoop ⟨pushAll q (if scan = 0 then [] else [⟨scan, 0, 0, 0⟩]), false, []⟩ rest := by
  have hmod : (modifierPart modifier).length ≤ 12 ∧
      ∀ c ∈ modifierPart modifier, isDigit c = true ∨ c = 0x3B := by
    cases modifier with
    | none => simp [modifierPart]
    | some m =>
      refine ⟨Nat.succ_le_succ m.short, ?_⟩
      rintro c (_ | ⟨_, hc⟩)
      · exact .inr rfl
      · exact .inl (m.digit c hc)
  have hinc : ∀ p, p <+: 0x5B :: (digits ++ modifierPart modifier) → p ≠ [] →
      (decodeEscape ([] ++ p)).1 = false := by
    rintro (_ | ⟨b, p⟩) hp hne
    · exact absurd rfl hne
    · obtain ⟨hb, hp'⟩ := cons_prefix_cons.mp hp
      subst hb
      have hnone : csiParams 0 false p = none := csiParams_none (fun c hc => by
        rcases mem_append.mp (hp'.subset hc) with hc | hc
        · exact .inl (h c hc)
        · exact hmod.2 c hc) 0 false
      simp [decodeEscape, hnone]
  have hdone : decodeEscape (0x5B :: (digits ++ modifierPart modifier) ++ [final]) =
      (true, scan) := by
    simp only [cons_append, decodeEscape, csiParams_csi h modifier hf, hscan]
    rfl
  have hle : (0x5B :: (digits ++ modifierPart modifier)).length < 16 := by
    simp only [length_cons, length_append]
    omega
  have he : csiBytes digits modifier final ++ rest =
      0x1B :: (0x5B :: (digits ++ modifierPart modifier) ++ final :: rest) := by simp [csiBytes]
  rw [he, injectLoop_esc, injectLoop_collect _ (by simpa using hle) (fun _ b hb => .inl (by
    simpa using hb.symm)) hinc, nil_append, injectLoop_cons, injectByte_esc _ (by simp),
    escByte_complete hle hdone, drop_zero]

/-- What a named key makes the decoder push. -/
def Named.pushed (key : Named) (modifier : Option Modifier) : List KeyData :=
  match key.form with
  | .ss3 _ => if modifier.isSome then [] else [⟨key.scan, 0, 0, 0⟩]
  | _ => [⟨key.scan, 0, 0, 0⟩]

/-- What a key makes the decoder push. -/
def Key.pushed : Key → List KeyData
  | .char cp h hne => [Key.base (.char cp h hne)]
  | .named key modifier => key.pushed modifier

theorem injectLoop_ss3 (q : List KeyData) (c : UInt8) (rest : List UInt8) (h : ss3Scan c ≠ 0) :
    Engine.injectLoop ⟨q, false, []⟩ (0x1B :: 0x4F :: c :: rest) =
      Engine.injectLoop ⟨pushAll q [⟨ss3Scan c, 0, 0, 0⟩], false, []⟩ rest := by
  have hdone : decodeEscape ([0x4F] ++ [c]) = (true, ss3Scan c) := rfl
  rw [injectLoop_esc, injectLoop_cons, injectByte_esc _ fun _ => .inr rfl,
    escByte_incomplete (by decide) rfl, drop_zero, nil_append, injectLoop_cons,
    injectByte_esc _ (by simp), escByte_complete (by decide) hdone, if_neg h]
  rfl

/-- What the table of `decode_escape` has for the forms of a key: its scan code, but nothing
for the byte behind SS3 where it ends a CSI sequence. -/
def Form.Decodes (scan : Nat) : Form → Prop
  | .csi final => isFinal final = true ∧ csiScan final (number []) false = scan ∧
      csiScan final (number [0x31]) true = scan
  | .tilde digits => (∀ c ∈ digits, isDigit c = true) ∧ digits.length ≤ 2 ∧
      csiScan 0x7E (number digits) (!digits.isEmpty) = scan
  | .ss3 c => isFinal c = true ∧ ss3Scan c = scan ∧ csiScan c (number [0x31]) true = 0

theorem Named.decodes (key : Named) : key.form.Decodes key.scan ∧ key.scan ≠ 0 := by
  cases key with
  | up | down | right | left | home | end' =>
    exact ⟨⟨by decide, by decide +kernel, by decide +kernel⟩, by decide⟩
  | f1 | f2 | f3 | f4 => exact ⟨⟨by decide, by decide, by decide +kernel⟩, by decide⟩
  | insert | delete | pageUp | pageDown | f5 | f6 | f7 | f8 | f9 | f10 | f11 | f12 =>
    exact ⟨⟨by decide +kernel, by decide, by decide +kernel⟩, by decide⟩

theorem injectLoop_named (q : List KeyData) (key : Named) (modifier : Option Modifier)
    (rest : List UInt8) :
    Engine.injectLoop ⟨q, false, []⟩ (key.form.encode modifier ++ rest) =
      Engine.injectLoop ⟨pushAll q (key.pushed modifier), false, []⟩ rest := by
  obtain ⟨hd, hne⟩ := key.decodes
  have hone : ∀ c ∈ [(0x31 : UInt8)], isDigit c = true := by decide +kernel
  have hpush : (if key.scan = 0 then [] else [⟨key.scan, 0, 0, 0⟩]) =
      [(⟨key.scan, 0, 0, 0⟩ : KeyData)] := if_neg hne
  unfold Named.pushed
  revert hd
  cases key.form with
  | csi final =>
    rintro ⟨hf, h0, h1⟩
    rw [← hpush]
    cases modifier with
    | none => exact injectLoop_csi q (by simp) (by simp) none hf rest h0
    | some m => exact injectLoop_csi q hone (by simp) (some m) hf rest h1
  | tilde digits =>
    rintro ⟨hds, hlen, hscan⟩
    rw [← hpush]
    exact injectLoop_csi q hds hlen modifier (by decide) rest hscan
  | ss3 c =>
    rintro ⟨hf, h0, h1⟩
    cases modifier with
    | none =>
      rw [← h0] at hne ⊢
      exact injectLoop_ss3 q c rest hne
    | some m => exact injectLoop_csi q hone (by simp) (some m) hf rest h1

/-- A character gives its code, however many bytes it has. -/
theorem injectLoop_char (q : List KeyData) {cp : Nat} (hs : Scalar cp) (hlt : cp < 0x10000)
    (hne : cp ≠ 0x1B) (rest : List UInt8) :
    Engine.injectLoop ⟨q, false, []⟩ (Utf8.encode cp ++ rest) =
      Engine.injectLoop ⟨push q ⟨0, if cp = 0x7F then 0x08 else cp, 0, 0⟩, false, []⟩ rest := by
  have hbits : ∀ {b : UInt8}, Cont b → (b &&& 0x3F).toNat = b.toNat - 0x80 ∧
      b.toNat - 0x80 < 64 := fun h => ⟨cont_bits h, by
    obtain ⟨-, h⟩ := h
    omega⟩
  by_cases hlo : cp < 0x80
  · have hb : (UInt8.ofNat cp).toNat = cp := toNat_ofNat_of_lt (by omega)
    have hesc : UInt8.ofNat cp ≠ 0x1B := fun h => hne (by rw [← hb, h]; rfl)
    have hdel : UInt8.ofNat cp = 0x7F ↔ cp = 0x7F := by
      rw [← UInt8.toNat_inj, hb]
      rfl
    have hascii : UInt8.ofNat cp < 0x80 := by
      rw [UInt8.lt_iff_toNat_lt, hb]
      exact hlo
    rw [Utf8.encode, if_pos hlo, cons_append, nil_append, injectLoop_cons]
    simp only [Engine.injectByte, Engine.plainByte, Bool.false_eq_true, if_false, if_neg hesc,
      if_pos hascii, hdel, hb]
    rfl
  · have hm := encode_multi hs (by omega)
    revert hm
    generalize Utf8.encode cp = u
    intro hm
    cases hm with
    | @two b₀ b₁ h₀ h₁ hmin =>
      have hesc : b₀ ≠ 0x1B := fun h => by
        rw [h] at h₀
        exact absurd h₀.1 (by decide)
      have ha : ¬ b₀ < 0x80 := byte_not_ascii (by omega)
      have hdel : ¬ (b₀.toNat - 0xC0) * 64 + (b₁.toNat - 0x80) = 0x7F := by omega
      rw [cons_append, cons_append, nil_append, injectLoop_cons]
      simp only [Engine.injectByte, Engine.plainByte, Bool.false_eq_true, if_false, if_neg hesc,
        if_neg ha, (lead2_iff _).mpr h₀, length_cons, getD_cons_zero, true_and,
        Nat.le_add_left, if_true, join2 (hbits h₁).2, (hbits h₁).1, lead2_bits h₀, if_neg hdel]
      rfl
    | @three b₀ b₁ b₂ h₀ h₁ h₂ hmin hs =>
      have hesc : b₀ ≠ 0x1B := fun h => by
        rw [h] at h₀
        exact absurd h₀.1 (by decide)
      have ha : ¬ b₀ < 0x80 := byte_not_ascii (by omega)
      have h2 : ¬ b₀ &&& 0xE0 = 0xC0 := by rw [lead2_iff]; omega
      have hdel : ¬ (b₀.toNat - 0xE0) * 4096 + (b₁.toNat - 0x80) * 64 + (b₂.toNat - 0x80) =
        0x7F := by omega
      rw [cons_append, cons_append, cons_append, nil_append, injectLoop_cons]
      simp only [Engine.injectByte, Engine.plainByte, Bool.false_eq_true, if_false, if_neg hesc,
        if_neg ha, h2, false_and, (lead3_iff _).mpr h₀, length_cons, getD_cons_zero,
        getD_cons_succ, true_and, Nat.le_add_left, if_true, join3 (hbits h₁).2 (hbits h₂).2,
        (hbits h₁).1, (hbits h₂).1, lead3_bits h₀, if_neg hdel]
      rfl
    | four h₀ h₁ h₂ h₃ hmin hmax => omega

theorem injectLoop_key (q : List KeyData) (k : Key) (rest : List UInt8) :
    Engine.injectLoop ⟨q, false, []⟩ (k.encode ++ rest) =
      Engine.injectLoop ⟨pushAll q k.pushed, false, []⟩ rest := by
  cases k with
  | char cp bmp hne => exact injectLoop_char q bmp.1 bmp.2 hne rest
  | named key modifier => exact injectLoop_named q key modifier rest

/-- A call on the bytes of some keys. -/
theorem injectText_keys (q : List KeyData) (ks : List Key) :
    Engine.injectText ⟨q, false, []⟩ (ks.flatMap Key.encode) =
      ⟨pushAll q (ks.flatMap Key.pushed), false, []⟩ := by
  have hloop : Engine.injectLoop ⟨q, false, []⟩ (ks.flatMap Key.encode) =
      ⟨pushAll q (ks.flatMap Key.pushed), false, []⟩ := by
    induction ks generalizing q with
    | nil =>
      rw [flatMap_nil, Engine.injectLoop]
      rfl
    | cons k ks ih =>
      rw [flatMap_cons, injectLoop_key, ih, flatMap_cons, pushAll_append]
  rw [Engine.injectText, hloop]
  rfl

/-! ## The queue -/

theorem pushAll_eq {keys : List KeyData} (h : q.length < AXL_CONSOLE_KEY_RING_SIZE) :
    pushAll q keys = q ++ keys.take (AXL_CONSOLE_KEY_RING_SIZE - 1 - q.length) := by
  induction keys generalizing q with
  | nil => simp [pushAll]
  | cons k keys ih =>
    have hstep : pushAll q (k :: keys) = pushAll (push q k) keys := rfl
    by_cases hroom : q.length + 1 < AXL_CONSOLE_KEY_RING_SIZE
    · have hq : (q ++ [k]).length < AXL_CONSOLE_KEY_RING_SIZE := by simpa using hroom
      rw [hstep, push, if_pos hroom, ih hq, append_assoc, length_append,
        length_singleton, singleton_append]
      obtain ⟨n, hn⟩ : ∃ n, AXL_CONSOLE_KEY_RING_SIZE - 1 - q.length = n + 1 :=
        ⟨AXL_CONSOLE_KEY_RING_SIZE - 2 - q.length, by omega⟩
      rw [hn, take_succ_cons, show AXL_CONSOLE_KEY_RING_SIZE - 1 - (q.length + 1) = n by omega]
    · have h0 : AXL_CONSOLE_KEY_RING_SIZE - 1 - q.length = 0 := by omega
      rw [hstep, push, if_neg hroom, ih h, h0, take_zero, take_zero]

theorem push_length (h : q.length < AXL_CONSOLE_KEY_RING_SIZE) (k : KeyData) :
    (push q k).length < AXL_CONSOLE_KEY_RING_SIZE := by
  unfold push
  split
  · simpa
  · exact h

theorem pushAll_length (h : q.length < AXL_CONSOLE_KEY_RING_SIZE) (keys : List KeyData) :
    (pushAll q keys).length < AXL_CONSOLE_KEY_RING_SIZE := by
  induction keys generalizing q with
  | nil => exact h
  | cons k keys ih => exact ih (push_length h k)

/-! ## What a call does to the decoder

The queue has no part in it: a turn pushes the same keys on any queue. -/

/-- Between two turns: outside a sequence nothing is collected, and inside it fits. -/
structure Engine.Sound (e : Engine) : Prop where
  idle : e.inEsc = false → e.escBuf = []
  fits : e.escBuf.length ≤ AXL_CONSOLE_ESC_BUF_SIZE

theorem plainByte_uniform (acc : List UInt8) (b : UInt8) (rest : List UInt8) :
    ∃ keys inEsc acc' n, ∀ q, Engine.plainByte ⟨q, false, acc⟩ b rest =
      (⟨pushAll q keys, inEsc, acc'⟩, n) := by
  unfold Engine.plainByte
  split
  · exact ⟨[], _, _, _, fun q => rfl⟩
  · split
    · exact ⟨[_], _, _, _, fun q => rfl⟩
    · split
      · exact ⟨[_], _, _, _, fun q => rfl⟩
      · split
        · exact ⟨[_], _, _, _, fun q => rfl⟩
        · exact ⟨[], _, _, _, fun q => rfl⟩

theorem escByte_uniform (acc : List UInt8) (b : UInt8) :
    ∃ keys inEsc acc', ∀ q, Engine.escByte ⟨q, true, acc⟩ b = ⟨pushAll q keys, inEsc, acc'⟩ := by
  let escBuf := if acc.length < AXL_CONSOLE_ESC_BUF_SIZE then acc ++ [b] else acc
  by_cases hc : (decodeEscape escBuf).1 = true
  · by_cases hs : (decodeEscape escBuf).2 ≠ 0
    · refine ⟨[⟨(decodeEscape escBuf).2, 0, 0, 0⟩], false, [], fun q => (if_pos hc).trans ?_⟩
      exact congrArg (fun e : Engine => (⟨e.queue, false, []⟩ : Engine)) (if_pos hs)
    · refine ⟨[], false, [], fun q => (if_pos hc).trans ?_⟩
      exact congrArg (fun e : Engine => (⟨e.queue, false, []⟩ : Engine)) (if_neg hs)
  · by_cases hl : escBuf.length ≥ AXL_CONSOLE_ESC_BUF_SIZE
    · exact ⟨[], false, [], fun q => (if_neg hc).trans (if_pos hl)⟩
    · exact ⟨[], true, escBuf, fun q => (if_neg hc).trans (if_neg hl)⟩

theorem injectByte_uniform (inEsc : Bool) (acc : List UInt8) (b : UInt8) (rest : List UInt8) :
    ∃ keys inEsc' acc' n, ∀ q, Engine.injectByte ⟨q, inEsc, acc⟩ b rest =
      (⟨pushAll q keys, inEsc', acc'⟩, n) := by
  cases inEsc with
  | false => exact plainByte_uniform acc b rest
  | true =>
    simp only [Engine.injectByte, if_true]
    split
    · -- the ESC before a byte that introduces nothing is a key of its own
      obtain ⟨keys, inEsc, acc', n, h⟩ := plainByte_uniform acc b rest
      exact ⟨⟨SCAN_ESC, 0, 0, 0⟩ :: keys, inEsc, acc', n, fun q => h (push q ⟨SCAN_ESC, 0, 0, 0⟩)⟩
    · obtain ⟨keys, inEsc, acc', h⟩ := escByte_uniform acc b
      exact ⟨keys, inEsc, acc', 0, fun q => by rw [h]⟩

theorem injectLoop_uniform (inEsc : Bool) (acc s : List UInt8) :
    ∃ keys inEsc' acc', ∀ q, Engine.injectLoop ⟨q, inEsc, acc⟩ s =
      ⟨pushAll q keys, inEsc', acc'⟩ := by
  induction hn : s.length using Nat.strong_induction_on generalizing s inEsc acc with
  | _ n ih =>
    cases s with
    | nil => exact ⟨[], inEsc, acc, fun q => by rw [Engine.injectLoop]; rfl⟩
    | cons b rest =>
      obtain ⟨keys, inEsc', acc', k, hb⟩ := injectByte_uniform inEsc acc b rest
      have hlt : (rest.drop k).length < n := by
        simp only [length_drop, length_cons] at hn ⊢
        omega
      obtain ⟨keys', inEsc'', acc'', hr⟩ := ih _ hlt inEsc' acc' (rest.drop k) rfl
      refine ⟨keys ++ keys', inEsc'', acc'', fun q => ?_⟩
      rw [injectLoop_cons, hb, hr, pushAll_append]

variable {e : Engine}

theorem plainByte_sound (h : e.escBuf = []) (b : UInt8) (rest : List UInt8) :
    (e.plainByte b rest).1.Sound := by
  have hsound : ∀ e' : Engine, e'.escBuf = [] → e'.Sound := fun e' h' =>
    ⟨fun _ => h', by rw [h']; decide⟩
  unfold Engine.plainByte
  repeat' split
  all_goals exact hsound _ (by first | exact h | rfl)

theorem escByte_sound (he : e.inEsc = true) (b : UInt8) : (e.escByte b).Sound := by
  unfold Engine.escByte
  dsimp only
  generalize (if e.escBuf.length < AXL_CONSOLE_ESC_BUF_SIZE then e.escBuf ++ [b]
    else e.escBuf) = escBuf
  split
  · exact ⟨fun _ => rfl, Nat.zero_le _⟩
  · split
    · exact ⟨fun _ => rfl, Nat.zero_le _⟩
    case isFalse h =>
      exact ⟨fun hf => absurd (he.symm.trans hf) (by decide), Nat.le_of_not_le h⟩

/-- A turn keeps the decoder sound. -/
theorem injectByte_sound (h : e.Sound) (b : UInt8) (rest : List UInt8) :
    (e.injectByte b rest).1.Sound := by
  unfold Engine.injectByte
  split
  case isTrue he =>
    split
    case isTrue hb =>
      exact plainByte_sound (e := { e.injectScan SCAN_ESC with inEsc := false }) hb.1 b rest
    case isFalse => exact escByte_sound he b
  case isFalse he => exact plainByte_sound (h.idle (by simpa using he)) b rest

theorem injectStep_sound (h : e.Sound) (s : List UInt8) (n : Nat) :
    (injectStep^[n] (e, s)).1.Sound := by
  induction n generalizing e s with
  | zero => exact h
  | succ n ih =>
    rw [Function.iterate_succ_apply]
    cases s with
    | nil => exact ih h []
    | cons b rest => exact ih (injectByte_sound h b rest) _

theorem injectLoop_sound (h : e.Sound) (s : List UInt8) : (e.injectLoop s).Sound := by
  induction hn : s.length using Nat.strong_induction_on generalizing s e with
  | _ n ih =>
    cases s with
    | nil => rwa [Engine.injectLoop]
    | cons b rest =>
      rw [injectLoop_cons]
      refine ih _ ?_ (injectByte_sound h b rest) _ rfl
      simp only [length_drop, length_cons] at hn ⊢
      omega

theorem foldl_injectUnicode (e : Engine) (acc : List UInt8) :
    acc.foldl (fun e b => e.injectUnicode b.toNat) e =
      ⟨pushAll e.queue (acc.map fun b => ⟨0, b.toNat, 0, 0⟩), e.inEsc, e.escBuf⟩ := by
  induction acc generalizing e with
  | nil => rfl
  | cons b acc ih => exact ih (e.injectUnicode b.toNat)

/-- A call pushes keys that its bytes alone decide, and leaves nothing open. -/
theorem injectText_uniform (s : List UInt8) :
    ∃ keys, ∀ q, Engine.injectText ⟨q, false, []⟩ s = ⟨pushAll q keys, false, []⟩ := by
  obtain ⟨keys, inEsc, acc, h⟩ := injectLoop_uniform false [] s
  have hsound : (Engine.injectLoop ⟨[], false, []⟩ s).Sound :=
    injectLoop_sound ⟨fun _ => rfl, by decide⟩ s
  rw [h] at hsound
  cases inEsc with
  | false =>
    refine ⟨keys, fun q => ?_⟩
    have hacc : acc = [] := hsound.idle rfl
    rw [Engine.injectText, h, hacc]
    rfl
  | true =>
    refine ⟨keys ++ ⟨SCAN_ESC, 0, 0, 0⟩ :: acc.map fun b => ⟨0, b.toNat, 0, 0⟩, fun q => ?_⟩
    rw [Engine.injectText, h, pushAll_append]
    simp only [Engine.flush, if_true, foldl_injectUnicode]
    rfl

/-- Between two calls no sequence is open, and the queue is no longer than the ring. -/
theorem Reachable.idle (h : Reachable e) :
    e = ⟨e.queue, false, []⟩ ∧ e.queue.length < AXL_CONSOLE_KEY_RING_SIZE := by
  obtain ⟨calls, rfl⟩ := h
  induction calls using List.reverseRecOn with
  | nil => exact ⟨rfl, by decide⟩
  | append_singleton calls call ih =>
    rw [foldl_append]
    obtain ⟨he, hlen⟩ := ih
    revert he hlen
    generalize calls.foldl Engine.step Engine.init = e
    intro he hlen
    rw [he]
    cases call with
    | injectText bytes =>
      obtain ⟨keys, hkeys⟩ := injectText_uniform bytes
      have : [Call.injectText bytes].foldl Engine.step ⟨e.queue, false, []⟩ =
          ⟨pushAll e.queue keys, false, []⟩ := hkeys e.queue
      rw [this]
      exact ⟨rfl, pushAll_length hlen keys⟩
    | injectKeyEx key => exact ⟨rfl, push_length hlen key⟩
    | push key => exact ⟨rfl, push_length hlen key⟩
    | pop =>
      refine ⟨rfl, lt_of_le_of_lt ?_ hlen⟩
      simp [Engine.step]
    | drain => exact ⟨rfl, Nat.zero_lt_succ _⟩

/-! ## Keys and what is pushed -/

theorem Key.pushed_eq (k : Key) :
    (k.Swallowed → k.pushed = []) ∧ (¬ k.Swallowed → k.pushed = [k.base]) := by
  cases k with
  | char cp bmp hne => exact ⟨False.elim, fun _ => rfl⟩
  | named key modifier =>
    cases modifier <;> cases key <;>
      simp [Key.Swallowed, Key.pushed, Named.pushed, Named.form, Key.base]

/-- Each key pushes at most one. -/
theorem pushed_length (ks : List Key) : (ks.flatMap Key.pushed).length ≤ ks.length := by
  induction ks with
  | nil => simp
  | cons k ks ih =>
    have hk : k.pushed.length ≤ 1 := by
      by_cases hs : k.Swallowed
      · simp [k.pushed_eq.1 hs]
      · simp [k.pushed_eq.2 hs]
    simp only [flatMap_cons, length_append, length_cons]
    omega

theorem pushed_eq_base_iff (ks : List Key) :
    ks.flatMap Key.pushed = ks.map Key.base ↔ ∀ k ∈ ks, ¬ k.Swallowed := by
  constructor
  · intro h k hk hs
    obtain ⟨l, r, rfl⟩ := append_of_mem hk
    have hlen := congrArg List.length h
    simp only [flatMap_append, flatMap_cons, k.pushed_eq.1 hs, nil_append,
      length_append, length_map, length_cons] at hlen
    have := pushed_length l
    have := pushed_length r
    omega
  · intro h
    induction ks with
    | nil => rfl
    | cons k ks ih =>
      rw [flatMap_cons, map_cons, k.pushed_eq.2 (h k mem_cons_self),
        ih fun k hk => h k (mem_cons_of_mem _ hk), singleton_append]

theorem queue_keys {ks : List Key} (hroom : q.length + ks.length < AXL_CONSOLE_KEY_RING_SIZE) :
    (Engine.injectText ⟨q, false, []⟩ (ks.flatMap Key.encode)).queue =
      q ++ ks.flatMap Key.pushed := by
  have hle := pushed_length ks
  rw [injectText_keys, pushAll_eq (by omega), take_of_length_le (by omega)]

/-- A call on the bytes of some keys pushes exactly these keys when none of them is F1 to F4
with a modifier. Of any bytes, the keys that a call pushes depend on nothing else, and the
escape buffer never overflows. -/
theorem inject_text_iff (e : Engine) (he : Reachable e) (ks : List Key)
    (hroom : e.queue.length + ks.length < AXL_CONSOLE_KEY_RING_SIZE) :
    ((e.injectText (ks.flatMap Key.encode)).queue = e.queue ++ ks.map Key.base ↔
      ∀ k ∈ ks, ¬ k.Swallowed) ∧
    ∀ bytes : List UInt8,
      (∃ keys : List KeyData, ∀ e', Reachable e' → (e'.injectText bytes).queue =
        e'.queue ++ keys.take (AXL_CONSOLE_KEY_RING_SIZE - 1 - e'.queue.length)) ∧
      ∀ n, (injectStep^[n] (e, bytes)).1.escBuf.length ≤ AXL_CONSOLE_ESC_BUF_SIZE := by
  refine ⟨?_, fun bytes => ⟨?_, fun n => ?_⟩⟩
  · rw [he.idle.1, queue_keys hroom, append_cancel_left_eq, pushed_eq_base_iff]
  · obtain ⟨keys, h⟩ := injectText_uniform bytes
    refine ⟨keys, fun e' he' => ?_⟩
    rw [he'.idle.1, h]
    exact pushAll_eq he'.idle.2
  · rw [he.idle.1]
    exact (injectStep_sound ⟨fun _ => rfl, Nat.zero_le _⟩ bytes n).fits

/-- One key on an empty queue. -/
theorem inject_text_iff_up :
    (Engine.init.injectText [0x1B, 0x5B, 0x41]).queue = [⟨SCAN_UP, 0, 0, 0⟩] :=
  ((inject_text_iff Engine.init ⟨[], rfl⟩ [.named .up none] (by decide)).1.mpr (by
    simp [Key.Swallowed]))

/-- Shift+F1, `ESC [ 1 ; 2 P`. -/
def shiftF1 : Key := .named .f1 (some ⟨[0x32], by decide +kernel, by decide⟩)

/-- Nothing is pushed for it. -/
theorem shift_f1_lost : (Engine.init.injectText shiftF1.encode).queue ≠ [shiftF1.base] := by
  have hroom : ([] : List KeyData).length + [shiftF1].length < AXL_CONSOLE_KEY_RING_SIZE := by decide
  have h := queue_keys hroom
  rw [flatMap_singleton] at h
  have hempty : (Engine.init.injectText shiftF1.encode).queue = [] := h
  rw [hempty]
  exact (cons_ne_nil _ _).symm

end ConsoleInput

end AxlSdk
