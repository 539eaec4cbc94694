import AxlSdk.Json.Leaves
import AxlSdk.Json.Scanner

/-!
# Leaves over a window

A leaf that sees a window of the input either decides (`LeafResult.Definite`) or
reports `incomplete`. `leaf_definite` says that what it decides stands, whatever
follows the window; `skipWs_resume` that a gap which ran out may be started over
from `resume_at`.
-/

namespace AxlSdk

namespace Json

open List

/-! ## Leaves over a window -/

namespace LeafResult

def Definite : LeafResult → Prop
  | .ok _ _ => True
  | .fail e _ => e.code ≠ .incomplete

def shift (k : Nat) : LeafResult → LeafResult
  | .ok span pos => .ok span (pos + k)
  | .fail e r => .fail { e with offset := e.offset + k } (r + k)

def forget : LeafResult → LeafResult
  | .ok span pos => .ok span pos
  | .fail e _ => .fail e 0

@[simp] theorem definite_ok (span : Nat × Nat) (pos : Nat) : (ok span pos).Definite := trivial
@[simp] theorem definite_fail (e : LexError) (r : Nat) :
    (fail e r).Definite ↔ e.code ≠ .incomplete := Iff.rfl
@[simp] theorem shift_ok (k : Nat) (span : Nat × Nat) (pos : Nat) :
    (ok span pos).shift k = ok span (pos + k) := rfl
@[simp] theorem shift_fail (k : Nat) (e : LexError) (r : Nat) :
    (fail e r).shift k = fail { e with offset := e.offset + k } (r + k) := rfl
@[simp] theorem forget_ok (span : Nat × Nat) (pos : Nat) : (ok span pos).forget = ok span pos := rfl
@[simp] theorem forget_fail (e : LexError) (r : Nat) : (fail e r).forget = fail e 0 := rfl

end LeafResult

variable {flags : AxlJsonFlags} {m : WsMode} {w : List UInt8} {pos : Nat}

/-- What `skip_ws` decides inside a window stands whatever follows. -/
theorem skipWsLoop_definite {res : Nat} (h : (skipWsLoop flags false m w pos res).Definite)
    (x : List UInt8) :
    skipWsLoop flags true m (w ++ x) pos res = skipWsLoop flags false m w pos res := by
  fun_induction skipWsLoop flags false m w pos res with
  | case4 c cs pos res hc hd ih =>
    rw [cons_append, skipWsLoop_space ⟨hc, by simpa using hd⟩]
    exact ih h
  | _ => simp_all [skipWsLoop, skipWsLoop_badSpace, skipWsLoop_stop, SpaceOk]

/-- The failure record does not depend on `resume_at`. -/
theorem skipWsLoop_forget (eof : Bool) (res res' : Nat) :
    (skipWsLoop flags eof m w pos res).forget = (skipWsLoop flags eof m w pos res').forget := by
  fun_induction skipWsLoop flags eof m w pos res generalizing res' with
  | case4 c cs pos res hc hd ih =>
    rw [skipWsLoop_space ⟨hc, by simpa using hd⟩]
  | case15 | case18 | case19 =>
    simp_all only [skipWsLoop, if_false]
    apply_assumption
  | _ => simp_all [skipWsLoop, skipWsLoop_badSpace, skipWsLoop_stop, SpaceOk]

/-- Offsets count from where the leaf started. -/
theorem skipWsLoop_shift (eof : Bool) (pos res k : Nat) :
    skipWsLoop flags eof m w (pos + k) (res + k) = (skipWsLoop flags eof m w pos res).shift k := by
  fun_induction skipWsLoop flags eof m w pos res with
  | case4 c cs pos res hc hd ih =>
    rw [skipWsLoop_space ⟨hc, by simpa using hd⟩, ← ih, Nat.add_right_comm]
  | _ =>
    simp_all [skipWsLoop, skipWsLoop_badSpace, skipWsLoop_stop, SpaceOk, Nat.add_right_comm _ k]

/-- When the window runs out, starting over from `resume_at` with more bytes is
as good as going on. `back` holds the bytes since `resume_at`. -/
theorem skipWsLoop_resume {res : Nat} (back : List UInt8) (hback : res + back.length = pos)
    (hre : ∀ x r₀, (skipWsLoop flags true .between (back ++ (w ++ x)) res r₀).forget
      = (skipWsLoop flags true m (w ++ x) pos r₀).forget) {e : LexError} {r : Nat}
    (h : skipWsLoop flags false m w pos res = .fail e r) (he : e.code = .incomplete) :
    ∃ gone rest, back ++ w = gone ++ rest ∧ res + gone.length = r ∧ ∀ x r₀,
      (skipWsLoop flags true m (w ++ x) pos r₀).forget
        = (skipWsLoop flags true .between (rest ++ x) r r₀).forget := by
  fun_induction skipWsLoop flags false m w pos res generalizing back with
  | case2 pos res | case13 pos res | case16 pos res | case17 c pos res =>
    cases h
    exact ⟨[], _, rfl, rfl, fun x r₀ => by simpa using (hre x r₀).symm⟩
  | case3 | case7 =>
    cases h
    simp at he
  | case4 c cs pos res hc hd ih =>
    obtain ⟨gone, rest, hsplit, hr, hrun⟩ := ih [] rfl (fun _ _ => rfl) h
    refine ⟨back ++ c :: gone, rest, by simp_all, ?_, fun x r₀ => ?_⟩
    · simp only [length_append, length_cons]
      omega
    · rw [cons_append, skipWsLoop_space ⟨hc, by simpa using hd⟩]
      exact (skipWsLoop_forget true _ r₀).trans (hrun x r₀)
  | case6 pos res heof hc =>
    cases h
    exact ⟨back, [0x2F], rfl, hback, fun _ _ => rfl⟩
  | case8 pos res cs hd hc _ ih =>
    have hopen : ∀ x r₀, (skipWsLoop flags true .between (0x2F :: 0x2F :: (cs ++ x)) pos r₀).forget
        = (skipWsLoop flags true .line (cs ++ x) (pos + 2) r₀).forget := by
      intro x r₀
      simpa [skipWsLoop, isSpace, hd] using skipWsLoop_forget true _ r₀
    obtain ⟨gone, rest, hsplit, hr, hrun⟩ := ih [0x2F, 0x2F] rfl hopen h
    refine ⟨back ++ gone, rest, by simp_all, ?_, fun x r₀ => (hopen x r₀).trans (hrun x r₀)⟩
    rw [length_append]
    omega
  | case9 pos res n cs hn hd hne hc ih =>
    obtain rfl : n = 0x2A := hn.resolve_left hne
    have hopen : ∀ x r₀, (skipWsLoop flags true .between (0x2F :: 0x2A :: (cs ++ x)) pos r₀).forget
        = (skipWsLoop flags true .block (cs ++ x) (pos + 2) r₀).forget := by
      intro x r₀
      simpa [skipWsLoop, isSpace, hd] using skipWsLoop_forget true _ r₀
    obtain ⟨gone, rest, hsplit, hr, hrun⟩ := ih [0x2F, 0x2A] rfl hopen h
    refine ⟨back ++ gone, rest, by simp_all, ?_, fun x r₀ => (hopen x r₀).trans (hrun x r₀)⟩
    rw [length_append]
    omega
  | case14 c cs pos res hc ih =>
    obtain ⟨gone, rest, hsplit, hr, hrun⟩ := ih [] rfl (fun _ _ => rfl) h
    refine ⟨back ++ c :: gone, rest, by simp_all, ?_, fun x r₀ => ?_⟩
    · simp only [length_append, length_cons]
      omega
    · rw [cons_append, skipWsLoop, if_pos hc]
      exact (skipWsLoop_forget true _ r₀).trans (hrun x r₀)
  | case15 c cs pos res hc ih =>
    have hstep : ∀ x r₀, skipWsLoop flags true .line (c :: cs ++ x) pos r₀
        = skipWsLoop flags true .line (cs ++ x) (pos + 1) r₀ := by
      intro x r₀
      rw [cons_append, skipWsLoop, if_neg hc]
    obtain ⟨gone, rest, hsplit, hr, hrun⟩ := ih (back ++ [c]) (by simp; omega) (fun x r₀ => by
      rw [← hstep, ← hre]
      simp) h
    exact ⟨gone, rest, by simp_all, hr, fun x r₀ => (hstep x r₀).symm ▸ hrun x r₀⟩
  | case18 c pos res d ds hcd ih =>
    have hstep : ∀ x r₀, skipWsLoop flags true .block (c :: d :: ds ++ x) pos r₀
        = skipWsLoop flags true .between (ds ++ x) (pos + 2) r₀ := by
      intro x r₀
      simp only [cons_append, skipWsLoop, hcd, and_self, if_true]
    obtain ⟨gone, rest, hsplit, hr, hrun⟩ := ih (back ++ [c, d]) (by simp; omega) (fun x r₀ => by
      rw [← hstep, ← hre]
      simp) h
    exact ⟨gone, rest, by simp_all, hr, fun x r₀ => (hstep x r₀).symm ▸ hrun x r₀⟩
  | case19 c pos res d ds hcd ih =>
    have hstep : ∀ x r₀, skipWsLoop flags true .block (c :: d :: ds ++ x) pos r₀
        = skipWsLoop flags true .block (d :: ds ++ x) (pos + 1) r₀ := by
      intro x r₀
      simp only [cons_append, skipWsLoop, hcd, if_false]
    obtain ⟨gone, rest, hsplit, hr, hrun⟩ := ih (back ++ [c]) (by simp; omega) (fun x r₀ => by
      rw [← hstep, ← hre]
      simp) h
    exact ⟨gone, rest, by simp_all, hr, fun x r₀ => (hstep x r₀).symm ▸ hrun x r₀⟩
  | _ => cases h

theorem skipWs_resume {e : LexError} {r : Nat} (h : skipWs flags false w = .fail e r)
    (he : e.code = .incomplete) :
    r ≤ w.length ∧ ∀ x, (skipWs flags true (w ++ x)).forget
      = ((skipWs flags true (w.drop r ++ x)).shift r).forget := by
  obtain ⟨gone, rest, hsplit, hr, hrun⟩ :=
    @skipWsLoop_resume flags .between w 0 0 [] rfl (fun _ _ => rfl) e r h he
  obtain rfl : w = gone ++ rest := hsplit
  obtain rfl : gone.length = r := by omega
  refine ⟨by simp, fun x => ?_⟩
  rw [drop_left, skipWs, skipWs, ← skipWsLoop_shift, hrun x 0, Nat.zero_add]
  exact skipWsLoop_forget true _ _

theorem uEscapeError_append {k : Nat} {es : List UInt8} (x : List UInt8)
    (h : uEscapeError k es ≠ some .incomplete) : uEscapeError k (es ++ x) = uEscapeError k es := by
  fun_induction uEscapeError k es <;> simp_all [uEscapeError]

variable {code : ErrorCode} {flag : AxlJsonFlags}

theorem escapeUnit_error (h : escapeUnit flags w = .error (code, flag)) (hc : code ≠ .incomplete)
    (x : List UInt8) : escapeUnit flags (w ++ x) = .error (code, flag) := by
  cases w with
  | nil =>
    cases h
    exact absurd rfl hc
  | cons e es =>
    rw [cons_append, escapeUnit.eq_def]
    rw [escapeUnit.eq_def] at h
    dsimp only at h ⊢
    split at h
    case isTrue hx =>
      rw [if_pos hx]
      split at h
      · exact h
      · cases h
        exact absurd rfl hc
    case isFalse hx =>
      rw [if_neg hx]
      split at h
      case isTrue hu =>
        rw [if_pos hu, uEscapeError_append x]
        · exact h
        · intro hi
          rw [hi] at h
          cases h
          exact absurd rfl hc
      case isFalse hu =>
        rw [if_neg hu]
        split at h
        case isTrue hd =>
          rw [if_pos hd]
          exact h
        case isFalse => cases h

theorem stringUnit_error (h : stringUnit flags w = .error (code, flag)) (hc : code ≠ .incomplete)
    (x : List UInt8) : stringUnit flags (w ++ x) = .error (code, flag) := by
  cases w with
  | nil =>
    cases h
    exact absurd rfl hc
  | cons c cs =>
    rw [cons_append, stringUnit]
    rw [stringUnit] at h
    split at h
    case isTrue hb =>
      rw [if_pos hb]
      exact escapeUnit_error h hc x
    case isFalse hb =>
      rw [if_neg hb]
      exact h

/-- A unit of a string stands when a byte behind it is in the window. -/
theorem stringUnit_ok {n : Nat} (h : stringUnit flags w = .ok n) (hn : w.drop n ≠ [])
    (x : List UInt8) :
    stringUnit flags (w ++ x) = .ok n := by
  obtain ⟨u, r, rfl, rfl, hu, ha⟩ := stringUnit_sound h
  rw [drop_left] at hn
  rw [append_assoc]
  refine stringUnit_complete hu fun he => ?_
  cases r with
  | nil => exact absurd rfl hn
  | cons c cs => exact ha he

theorem parseStringLoop_definite {quote : UInt8} {fuel : Nat}
    (h : (parseStringLoop flags false quote fuel w pos).Definite) {fuel' : Nat} (hf : fuel ≤ fuel')
    (x : List UInt8) :
    parseStringLoop flags true quote fuel' (w ++ x) pos
      = parseStringLoop flags false quote fuel w pos := by
  induction fuel generalizing w pos fuel' with
  | zero => simp [parseStringLoop] at h
  | succ fuel ih =>
    obtain ⟨fuel', rfl⟩ : ∃ k, fuel' = k + 1 := ⟨fuel' - 1, by omega⟩
    rw [parseStringLoop, parseStringLoop]
    rw [parseStringLoop] at h
    split at h
    case isTrue hq =>
      have hq' : (w ++ x).head? = some quote := by
        rw [head?_append, hq]
        rfl
      rw [if_pos hq', if_pos hq]
    case isFalse hq =>
      rw [if_neg hq]
      cases hu : stringUnit flags w with
      | error cf =>
        obtain ⟨code, flag⟩ := cf
        rw [hu] at h
        dsimp only at h ⊢
        -- an error at the end of the window would be an incomplete one
        cases w with
        | nil => simp at h
        | cons c cs =>
          have hc : code ≠ .incomplete := by simpa using h
          rw [cons_append, head?_cons, if_neg (by simpa using hq), ← cons_append,
            stringUnit_error hu hc x]
          simp
      | ok n =>
        rw [hu] at h
        dsimp only at h ⊢
        have hne : w.drop n ≠ [] := by
          intro hnil
          rw [hnil] at h
          cases fuel with
          | zero => simp [parseStringLoop] at h
          | succ fuel => simp [parseStringLoop, stringUnit] at h
        have hle : n ≤ w.length := by
          by_contra hlt
          exact hne (drop_of_length_le (by omega))
        have hq' : (w ++ x).head? ≠ some quote := by
          cases w with
          | nil => simp at hne
          | cons c cs => simpa using hq
        rw [if_neg hq', stringUnit_ok hu hne x]
        dsimp only
        rw [drop_append_of_le_length hle]
        exact ih h (by omega)

theorem span_append_of_rest {p : UInt8 → Bool} (h : w.dropWhile p ≠ []) (x : List UInt8) :
    (w ++ x).takeWhile p = w.takeWhile p ∧ (w ++ x).dropWhile p = w.dropWhile p ++ x := by
  induction w with
  | nil => exact absurd rfl h
  | cons c w ih =>
    cases hc : p c with
    | false => simp [hc]
    | true =>
      rw [dropWhile_cons_of_pos hc] at h
      obtain ⟨h₁, h₂⟩ := ih h
      rw [cons_append, takeWhile_cons_of_pos hc, takeWhile_cons_of_pos hc,
        dropWhile_cons_of_pos hc, dropWhile_cons_of_pos hc, h₁, h₂]
      exact ⟨rfl, rfl⟩

/-- A part of a number stands: it failed, or stopped at a byte of the window. -/
def Settled {α : Type} (r : Except LexError (List UInt8 × α)) : Prop :=
  match r with
  | .error e => e.code ≠ .incomplete
  | .ok (rest, _) => rest ≠ []

/-- The result over a longer window. -/
def extend {α : Type} (x : List UInt8) (r : Except LexError (List UInt8 × α)) :
    Except LexError (List UInt8 × α) :=
  r.map fun rp => (rp.1 ++ x, rp.2)

theorem lexFail_settled {rest : List UInt8}
    (h : (lexFail false rest code pos flag).code ≠ .incomplete) :
    rest ≠ [] ∧ lexFail false rest code pos flag = ⟨code, pos, flag⟩ := by
  cases rest with
  | nil => simp at h
  | cons c cs => exact ⟨by simp, lexFail_cons _ _ _ _ _ _⟩

theorem expPart_settled (h : Settled (expPart false w pos)) (x : List UInt8) :
    expPart true (w ++ x) pos = extend x (expPart false w pos) := by
  cases w with
  | nil => exact absurd rfl h
  | cons e es =>
    rw [cons_append, expPart, expPart]
    rw [expPart] at h
    split at h
    case isFalse he =>
      rw [if_neg he, if_neg he]
      rfl
    case isTrue he =>
      rw [if_pos he, if_pos he]
      dsimp only at h ⊢
      have hrest : (es.drop (expSign es)).dropWhile isDigit ≠ [] := by
        intro hnil
        rw [hnil] at h
        split at h
        · simp [Settled] at h
        · exact absurd rfl h
      have hsign : expSign (es ++ x) = expSign es ∧ expSign es ≤ es.length := by
        cases es with
        | nil => simp at hrest
        | cons c cs =>
          rw [cons_append, expSign, expSign]
          refine ⟨rfl, ?_⟩
          split <;> simp
      rw [hsign.1, drop_append_of_le_length hsign.2]
      obtain ⟨ht, hd⟩ := span_append_of_rest hrest x
      rw [ht, hd]
      split at h
      case isTrue hnil =>
        rw [if_pos hnil, if_pos hnil, (lexFail_settled h).2, lexFail_eof]
        rfl
      case isFalse hne =>
        rw [if_neg hne, if_neg hne]
        rfl

theorem fracPart_settled {sawInt : Bool} (h : Settled (fracPart flags false sawInt w pos))
    (x : List UInt8) :
    fracPart flags true sawInt (w ++ x) pos = extend x (fracPart flags false sawInt w pos) := by
  cases w with
  | nil => exact absurd rfl h
  | cons c cs =>
    rw [cons_append, fracPart, fracPart]
    rw [fracPart] at h
    split at h
    case isFalse hc =>
      rw [if_neg hc, if_neg hc]
      rfl
    case isTrue hc =>
      rw [if_pos hc, if_pos hc]
      split at h
      case isTrue hi =>
        rw [if_pos hi, if_pos hi]
        simp [extend, Except.map]
      case isFalse hi =>
        rw [if_neg hi, if_neg hi]
        dsimp only at h ⊢
        have hrest : cs.dropWhile isDigit ≠ [] := by
          intro hnil
          rw [hnil] at h
          split at h
          · simp [Settled] at h
          · exact absurd rfl h
        obtain ⟨ht, hd⟩ := span_append_of_rest hrest x
        rw [ht, hd]
        split at h
        case isTrue hnil =>
          rw [if_pos hnil, if_pos hnil, (lexFail_settled h).2, lexFail_eof]
          rfl
        case isFalse hne =>
          rw [if_neg hne, if_neg hne]
          rfl

theorem parseDecimal_settled (h : Settled (parseDecimal flags false w pos)) (x : List UInt8) :
    parseDecimal flags true (w ++ x) pos = extend x (parseDecimal flags false w pos) := by
  have hrest : w.dropWhile isDigit ≠ [] := by
    intro hnil
    simp only [parseDecimal, hnil, fracPart] at h
    split at h
    · simp [Settled] at h
    · split at h
      · simp [Settled] at h
      · exact absurd rfl h
  obtain ⟨ht, hd⟩ := span_append_of_rest hrest x
  simp only [parseDecimal, ht, hd] at h ⊢
  split at h
  case isTrue hz =>
    rw [if_pos hz, if_pos hz, (lexFail_settled h).2, lexFail_eof]
    rfl
  case isFalse hz =>
    rw [if_neg hz, if_neg hz]
    cases hf : fracPart flags false (w.takeWhile isDigit != []) (w.dropWhile isDigit)
        (pos + (w.takeWhile isDigit).length) with
    | error e =>
      rw [hf] at h
      have hs : Settled (fracPart flags false (w.takeWhile isDigit != []) (w.dropWhile isDigit)
        (pos + (w.takeWhile isDigit).length)) := by rw [hf]; exact h
      rw [fracPart_settled hs x, hf]
      rfl
    | ok rpb =>
      obtain ⟨rest, p, sawFrac⟩ := rpb
      rw [hf] at h
      dsimp only at h
      have hne : rest ≠ [] := by
        rintro rfl
        split at h
        · simp [Settled] at h
        · exact absurd rfl h
      have hs : Settled (fracPart flags false (w.takeWhile isDigit != []) (w.dropWhile isDigit)
        (pos + (w.takeWhile isDigit).length)) := by rw [hf]; exact hne
      rw [fracPart_settled hs x, hf]
      simp only [extend, Except.map]
      split at h
      case isTrue hi =>
        rw [if_pos hi, if_pos hi, (lexFail_settled h).2, lexFail_eof]
      case isFalse hi =>
        rw [if_neg hi, if_neg hi]
        exact expPart_settled h x

theorem finishNumber_settled {r : Except LexError (List UInt8 × Nat)}
    (h : (finishNumber false r).Definite) (x : List UInt8) :
    Settled r ∧ finishNumber true (extend x r) = finishNumber false r := by
  cases r with
  | error e => exact ⟨h, rfl⟩
  | ok rp =>
    obtain ⟨rest, pos⟩ := rp
    cases rest with
    | nil => simp [finishNumber] at h
    | cons c cs => exact ⟨by simp [Settled], by simp [finishNumber, extend, Except.map]⟩

theorem parseUnsigned_definite {sign : Nat} (h : (parseUnsigned flags false sign w).Definite)
    (x : List UInt8) :
    parseUnsigned flags true sign (w ++ x) = parseUnsigned flags false sign w := by
  rw [parseUnsigned] at h
  split at h
  case isTrue hx =>
    obtain ⟨y, r, rfl, hy⟩ := (isHexPrefix_iff w).mp hx
    have hx' : isHexPrefix (0x30 :: y :: r ++ x) = true :=
      (isHexPrefix_iff _).mpr ⟨y, r ++ x, rfl, hy⟩
    rw [parseUnsigned, parseUnsigned, if_pos hx, if_pos hx']
    split at h
    case isTrue hf =>
      rw [if_pos hf, if_pos hf]
      simp
    case isFalse hf =>
      rw [if_neg hf, if_neg hf]
      obtain ⟨hs, hfin⟩ := finishNumber_settled h x
      rw [← hfin]
      congr 1
      show parseHex true (r ++ x) (sign + 2) = extend x (parseHex false r (sign + 2))
      have hs' : Settled (parseHex false r (sign + 2)) := hs
      have hrest : r.dropWhile isXdigit ≠ [] := by
        intro hnil
        rw [parseHex] at hs'
        split at hs'
        · simp [Settled, hnil] at hs'
        · exact absurd hnil hs'
      obtain ⟨ht, hd⟩ := span_append_of_rest hrest x
      simp only [parseHex, ht, hd] at hs' ⊢
      split at hs'
      case isTrue hnil =>
        rw [if_pos hnil, if_pos hnil, (lexFail_settled hs').2, lexFail_eof]
        rfl
      case isFalse hne =>
        rw [if_neg hne, if_neg hne]
        rfl
  case isFalse hx =>
    obtain ⟨hs, hfin⟩ := finishNumber_settled h x
    have hx' : isHexPrefix (w ++ x) = false := by
      rw [Bool.eq_false_iff]
      intro hx'
      obtain ⟨y, r, hw, hy⟩ := (isHexPrefix_iff _).mp hx'
      cases w with
      | nil => exact absurd hs (by simp [parseDecimal, fracPart, Settled])
      | cons z w =>
        cases w with
        | nil =>
          obtain rfl : z = 0x30 := by simpa using (List.cons.inj hw).1
          exact absurd hs (by simp [parseDecimal, fracPart, expPart, Settled, isDigit])
        | cons y' r' =>
          refine hx ((isHexPrefix_iff _).mpr ⟨y', r', ?_, ?_⟩)
          · rw [(List.cons.inj hw).1]
          · rw [(List.cons.inj (List.cons.inj hw).2).1]
            exact hy
    rw [parseUnsigned, parseUnsigned, if_neg hx, if_neg (by simp [hx']), parseDecimal_settled hs x,
      hfin]

/-- A word of identifier characters is matched inside an identifier that ends in
the window. -/
theorem prefix_append_of_run {v : List UInt8} (hv : ∀ c ∈ v, isIdentCont c = true)
    (hw : w.dropWhile isIdentCont ≠ []) (x : List UInt8) :
    v.isPrefixOf (w ++ x) = v.isPrefixOf w ∧ (v.isPrefixOf w = true → w.drop v.length ≠ []) := by
  induction v generalizing w with
  | nil =>
    refine ⟨by simp, fun _ hnil => hw ?_⟩
    obtain rfl : w = [] := by simpa using hnil
    rfl
  | cons c v ih =>
    cases w with
    | nil => exact absurd rfl hw
    | cons d w =>
      by_cases hcd : c = d
      · subst hcd
        rw [dropWhile_cons_of_pos (hv c (by simp))] at hw
        simpa using ih (fun c' h' => hv c' (by simp [h'])) hw
      · have hne : (c == d) = false := by simpa using hcd
        simp [List.isPrefixOf, hne]

theorem signed_words {v : List UInt8} (hv : v ∈ [nanWord, infinityWord]) :
    (∀ c ∈ v, isIdentCont c = true) ∧ ∃ c, v.head? = some c ∧ isIdentStart c = true := by
  simp only [mem_cons, not_mem_nil, or_false] at hv
  rcases hv with rfl | rfl
  · exact ⟨all_eq_true.mp (by decide), _, rfl, by decide⟩
  · exact ⟨all_eq_true.mp (by decide), _, rfl, by decide⟩

theorem parseSignedWord_append (hw : w.dropWhile isIdentCont ≠ []) (x : List UInt8)
    {ws : List (List UInt8)} (hws : ∀ v ∈ ws, ∀ c ∈ v, isIdentCont c = true) :
    parseSignedWord flags true (w ++ x) ws = parseSignedWord flags false w ws := by
  induction ws with
  | nil => rfl
  | cons v ws ih =>
    obtain ⟨hpre, hrest⟩ := prefix_append_of_run (hws v (by simp)) hw x
    rw [parseSignedWord, parseSignedWord, hpre, ih fun v' h' => hws v' (by simp [h'])]
    by_cases hv : v.isPrefixOf w = true
    · have hne := hrest hv
      have hle : v.length ≤ w.length := (List.isPrefixOf_iff_prefix.mp hv).length_le
      obtain ⟨c, cs, hcs⟩ : ∃ c cs, w.drop v.length = c :: cs := by
        cases hd : w.drop v.length with
        | nil => exact absurd hd hne
        | cons c cs => exact ⟨c, cs, rfl⟩
      have hw' : ∃ d ds, w = d :: ds := by
        cases w with
        | nil => simp at hne
        | cons d ds => exact ⟨d, ds, rfl⟩
      simp only [hv, if_true, drop_append_of_le_length hle, hcs]
      obtain ⟨d, ds, rfl⟩ := hw'
      simp
    · simp [hv]

theorem parseSignedWord_other (eof : Bool) {c : UInt8} {cs : List UInt8}
    (hc : isIdentStart c = false) {ws : List (List UInt8)}
    (hws : ∀ v ∈ ws, ∃ c, v.head? = some c ∧ isIdentStart c = true) :
    parseSignedWord flags eof (c :: cs) ws = none := by
  induction ws with
  | nil => rfl
  | cons v ws ih =>
    rw [parseSignedWord, if_neg, ih fun v' h' => hws v' (by simp [h'])]
    intro hpre
    obtain ⟨d, hd, hs⟩ := hws v (by simp)
    cases v with
    | nil => cases hd
    | cons e v =>
      obtain rfl := Option.some.inj hd
      obtain rfl : e = c := (cons_prefix_cons.mp (List.isPrefixOf_iff_prefix.mp hpre)).1
      rw [hc] at hs
      cases hs

theorem parseNumber_definite (h : (parseNumber flags false w).Definite) (x : List UInt8) :
    parseNumber flags true (w ++ x) = parseNumber flags false w := by
  cases w with
  | nil =>
    simp [parseNumber, parseUnsigned, isHexPrefix, finishNumber, parseDecimal, fracPart] at h
  | cons c cs =>
    rw [cons_append, parseNumber, parseNumber]
    rw [parseNumber] at h
    split at h
    case isFalse hc =>
      rw [if_neg hc, if_neg hc]
      exact parseUnsigned_definite h x
    case isTrue hc =>
      rw [if_pos hc, if_pos hc]
      split at h
      case isTrue hp =>
        rw [if_pos hp, if_pos hp]
        simp
      case isFalse hp =>
        rw [if_neg hp, if_neg hp, if_neg (by simp)]
        split at h
        case isTrue hset =>
          have : (cs.head?.any isIdentStart) = true := by simp_all
          cases cs with
          | nil => simp at this
          | cons d ds => simp at h
        case isFalse hset =>
          rw [if_neg hset]
          have hwords : parseSignedWord flags true (cs ++ x) [nanWord, infinityWord]
              = parseSignedWord flags false cs [nanWord, infinityWord] := by
            cases cs with
            | nil =>
              exfalso
              simp [parseSignedWord, nanWord, infinityWord, parseUnsigned, isHexPrefix,
                finishNumber, parseDecimal, fracPart] at h
            | cons d ds =>
              by_cases hd : isIdentStart d = true
              · refine parseSignedWord_append ?_ x fun v hv => (signed_words hv).1
                simpa [hd] using hset
              · rw [cons_append, parseSignedWord_other _ (by simpa using hd)
                  fun v hv => (signed_words hv).2, parseSignedWord_other _ (by simpa using hd)
                  fun v hv => (signed_words hv).2]
          rw [hwords]
          cases hw : parseSignedWord flags false cs [nanWord, infinityWord] with
          | some r => rfl
          | none =>
            rw [hw] at h
            exact parseUnsigned_definite h x

theorem keywords_ident {k : List UInt8 × AxlJsonFlags} (hk : k ∈ keywords) :
    ∀ c ∈ k.1, isIdentCont c = true := by
  simp only [keywords, mem_cons, not_mem_nil, or_false] at hk
  rcases hk with rfl | rfl | rfl | rfl | rfl <;> exact all_eq_true.mp (by decide)

theorem find?_congr {α : Type} {p q : α → Bool} {l : List α} (h : ∀ a ∈ l, p a = q a) :
    l.find? p = l.find? q := by
  induction l with
  | nil => rfl
  | cons a l ih =>
    rw [find?_cons, find?_cons, h a (by simp), ih fun b hb => h b (by simp [hb])]

theorem parseLiteral_definite (h : (parseLiteral flags false w).Definite) (x : List UInt8) :
    parseLiteral flags true (w ++ x) = parseLiteral flags false w := by
  rw [parseLiteral] at h
  split at h
  case isTrue hset => simp at h
  case isFalse hset =>
    have hrun : w.dropWhile isIdentCont ≠ [] := by simpa using hset
    obtain ⟨c, cs, rfl⟩ : ∃ c cs, w = c :: cs := by
      cases w with
      | nil => exact absurd rfl hrun
      | cons c cs => exact ⟨c, cs, rfl⟩
    have hmatch : ∀ k ∈ keywords,
        keywordMatches flags (c :: cs ++ x) k = keywordMatches flags (c :: cs) k := by
      intro k hk
      obtain ⟨hpre, hrest⟩ := prefix_append_of_run (keywords_ident hk) hrun x
      rw [keywordMatches, keywordMatches, hpre]
      by_cases hk' : k.1.isPrefixOf (c :: cs) = true
      · have hle := (List.isPrefixOf_iff_prefix.mp hk').length_le
        rw [drop_append_of_le_length hle]
        cases hd : (c :: cs).drop k.1.length with
        | nil => exact absurd hd (hrest hk')
        | cons d ds => rfl
      · simp [hk']
    have hgated : ∀ k ∈ keywords, (k.2 != 0 && k.1.isPrefixOf (c :: cs ++ x))
        = (k.2 != 0 && k.1.isPrefixOf (c :: cs)) := by
      intro k hk
      rw [(prefix_append_of_run (keywords_ident hk) hrun x).1]
    rw [parseLiteral, parseLiteral, if_neg hset, if_neg (by simp), find?_congr hmatch,
      find?_congr hgated]
    simp only [cons_append, lexFail_cons]

theorem parseIdentifier_definite (h : (parseIdentifier false w).Definite) (x : List UInt8) :
    parseIdentifier true (w ++ x) = parseIdentifier false w := by
  have hrun : w.dropWhile isIdentCont ≠ [] := by
    intro hnil
    simp [parseIdentifier, hnil] at h
  have hrun' : (w.dropWhile isIdentCont).isEmpty = false := by simpa using hrun
  obtain ⟨ht, hd⟩ := span_append_of_rest hrun x
  simp [parseIdentifier, ht, hrun']

/-- **What a leaf decides inside a window stands** whatever follows. -/
theorem leaf_definite {kind : LeafKind} (h : (leaf flags kind false w).Definite) (x : List UInt8) :
    leaf flags kind true (w ++ x) = leaf flags kind false w := by
  cases kind with
  | ws => exact skipWsLoop_definite h x
  | string quote =>
    cases w with
    | nil => simp [leaf, parseString, parseStringLoop] at h
    | cons c cs => exact parseStringLoop_definite h (by simp) x
  | ident => exact parseIdentifier_definite h x
  | number => exact parseNumber_definite h x
  | literal => exact parseLiteral_definite h x

end Json

end AxlSdk
