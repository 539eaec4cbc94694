import AxlSdk.Lib.Runs

/-!
# Coalescing output (`src/util/axl-console-vt.c`)

`axl_console_vt_buf_emit` and `axl_console_vt_buf_flush` of a buffer that is guarded. A
call may be made at any point outside the guarded sections, by a timer or by the sink,
and runs to its end before what it interrupts goes on: the calls in progress are a
stack, and `exec` either pushes one or lets the topmost take its next step. `emitted`
and `called` are no fields of the program; they keep what has been appended and what
emit was called with, each with the depth of its call.

- `taken`: the strings that flushes on the stack have swapped out and not cleared.
- `Inv.exec`: what a step keeps, provided that it does not append to a taken string, or
  swap one out, or swap while another flush is between its swap and its sink (`Ok`).
- `coalescing_delivers`: so every run of such steps hands over what was emitted.
-/

namespace AxlSdk

namespace VtBuf

open Runs List

/-! ## The code -/

/-- Where a call is. The two strings have names; a flush holds on to the one it took. -/
inductive Frame where
  | emit (bytes : List UInt8)
  | appended (isOver : Bool)
  | flush
  | checked
  | swapped (full : Bool)
  | inSink (full : Bool)
  | delivered (full : Bool)
deriving DecidableEq, Repr

/-- An `AxlConsoleVtBuf`, its strings, the calls in progress and what the sink was given. -/
structure State where
  strings : Bool → List UInt8
  buf : Bool
  spare : Bool
  chunk : Nat
  stack : List Frame
  handed : List (List UInt8)
  emitted : List (Nat × List UInt8)
  called : List (Nat × List UInt8)

/-- `axl_console_vt_buf_init` -/
def start (chunk : Nat) : State :=
  { strings := fun _ => [], buf := false, spare := true, chunk, stack := [], handed := []
    emitted := [], called := [] }

/-- The topmost call takes its next step: the guarded sections are one step each. -/
def advance (st : State) : State :=
  match st.stack with
  | [] => st
  | .emit bytes :: rest =>
    if bytes.length = 0 then { st with stack := rest }
    else
      let str := st.strings st.buf ++ bytes
      let isOver : Bool := st.chunk ≠ 0 ∧ st.chunk ≤ str.length
      { st with
        strings := Function.update st.strings st.buf str
        emitted := st.emitted ++ [(rest.length, bytes)]
        stack := .appended isOver :: rest }
  | .appended isOver :: rest => { st with stack := if isOver then .flush :: rest else rest }
  | .flush :: rest =>
    { st with stack := if (st.strings st.buf).length = 0 then rest else .checked :: rest }
  | .checked :: rest =>
    { st with buf := st.spare, spare := st.buf, stack := .swapped st.buf :: rest }
  | .swapped full :: rest =>
    { st with handed := st.handed ++ [st.strings full], stack := .inSink full :: rest }
  | .inSink full :: rest => { st with stack := .delivered full :: rest }
  | .delivered full :: rest =>
    { st with strings := Function.update st.strings full [], stack := rest }

inductive Act where
  | callEmit (bytes : List UInt8)
  | callFlush
  | advance
deriving DecidableEq, Repr

def exec (st : State) : Act → State
  | .callEmit bytes =>
    { st with
      stack := .emit bytes :: st.stack
      called := if bytes.length = 0 then st.called else st.called ++ [(st.stack.length, bytes)] }
  | .callFlush => { st with stack := .flush :: st.stack }
  | .advance => advance st

/-! ## What is to hold -/

/-- The string a flush has taken and not cleared. -/
def Frame.taken : Frame → Option Bool
  | .swapped full | .inSink full | .delivered full => some full
  | _ => none

/-- The string a flush has taken and not given to the sink. -/
def Frame.inFlight : Frame → Option Bool
  | .swapped full => some full
  | _ => none

/-- The strings that flushes on the stack have taken. -/
def taken (stack : List Frame) : List Bool := stack.filterMap Frame.taken

/-- Those of them that are about to be given to the sink. -/
def inFlight (stack : List Frame) : List Bool := stack.filterMap Frame.inFlight

/-- A step that appends finds a string that is not taken; one that swaps finds this too, and
no other flush between its swap and its sink. -/
def Ok (st : State) (act : Act) : Prop :=
  match act, st.stack with
  | .advance, .emit _ :: rest => st.buf ∉ taken rest
  | .advance, .checked :: rest => st.buf ∉ taken rest ∧ inFlight rest = []
  | _, _ => True

/-- What emit was called with and has not appended. -/
def waiting : List Frame → List (Nat × List UInt8)
  | [] => []
  | .emit bytes :: rest => if bytes.length = 0 then waiting rest else (rest.length, bytes) :: waiting rest
  | _ :: rest => waiting rest

def atLevel (d : Nat) (l : List (Nat × List UInt8)) : List (Nat × List UInt8) :=
  l.filter fun x => x.1 = d

/-- What was emitted is what was handed over, in whole strings and in order, then what a
flush is about to hand over (`pend`), then what is buffered (`kept`). -/
def Accounted (strings : Bool → List UInt8) (buf : Bool) (takenNow inFlightNow : List Bool)
    (handed out : List (List UInt8)) : Prop :=
  ∃ gs : List (List (List UInt8)), ∃ pend kept : List (List UInt8),
    handed = gs.map List.flatten ∧ gs.flatten ++ (pend ++ kept) = out ∧
    (∀ full ∈ inFlightNow, strings full = pend.flatten) ∧ (inFlightNow = [] → pend = []) ∧
    (if buf ∈ takenNow then kept = [] else strings buf = kept.flatten)

/-- Nothing is lost or given twice; and at each depth of nesting the order is that of the
calls, of which some may not have appended yet. -/
structure Delivers (st : State) : Prop where
  accounted : Accounted st.strings st.buf (taken st.stack) (inFlight st.stack) st.handed
    (st.emitted.map Prod.snd)
  ordered : ∀ d, atLevel d st.called = atLevel d st.emitted ++ atLevel d (waiting st.stack)

/-- What a step keeps. -/
structure Inv (st : State) : Prop extends Delivers st where
  apart : st.buf ≠ st.spare
  fulls : (taken st.stack).Nodup
  one : (inFlight st.stack).length ≤ 1
  idle : st.spare ∉ taken st.stack → st.strings st.spare = []

/-! ## Steps -/

variable {st : State} {rest : List Frame} {bytes : List UInt8} {full buf spare : Bool}
  {strings : Bool → List UInt8} {ts fs : List Bool} {handed out : List (List UInt8)}

theorem inv_start (chunk : Nat) : Inv (start chunk) where
  accounted := ⟨[], [], [], rfl, rfl, fun _ h => absurd h not_mem_nil, fun _ => rfl, rfl⟩
  ordered _ := rfl
  apart := Bool.false_ne_true
  fulls := nodup_nil
  one := Nat.zero_le _
  idle _ := rfl

theorem inFlight_subset (stack : List Frame) : inFlight stack ⊆ taken stack := by
  intro x hx
  obtain ⟨fr, hfr, heq⟩ := mem_filterMap.mp hx
  refine mem_filterMap.mpr ⟨fr, hfr, ?_⟩
  cases fr <;> cases heq
  rfl

/-- A string that is not taken is appended to. -/
theorem Accounted.append (h : Accounted strings buf ts fs handed out) (hbuf : buf ∉ ts)
    (hsub : fs ⊆ ts) (bytes : List UInt8) :
    Accounted (Function.update strings buf (strings buf ++ bytes)) buf ts fs handed (out ++ [bytes]) := by
  obtain ⟨gs, pend, kept, hgs, hout, hpend, hnone, hkept⟩ := h
  rw [if_neg hbuf] at hkept
  refine ⟨gs, pend, kept ++ [bytes], hgs, ?_, fun full hfull => ?_, hnone, ?_⟩
  · rw [← hout]
    simp only [append_assoc]
  · have hne : full ≠ buf := fun heq => hbuf (heq ▸ hsub hfull)
    rw [Function.update_of_ne hne]
    exact hpend full hfull
  · rw [if_neg hbuf, Function.update_self, hkept, flatten_append, flatten_singleton]

/-- The string is swapped out. -/
theorem Accounted.swap (h : Accounted strings buf ts [] handed out) (hbuf : buf ∉ ts)
    (hne : buf ≠ spare) (hidle : spare ∉ ts → strings spare = []) :
    Accounted strings spare (buf :: ts) [buf] handed out := by
  obtain ⟨gs, pend, kept, hgs, hout, -, hnone, hkept⟩ := h
  obtain rfl := hnone rfl
  rw [if_neg hbuf] at hkept
  refine ⟨gs, kept, [], hgs, ?_, fun full hfull => ?_, fun h => ?_, ?_⟩
  · rw [← hout, append_nil, nil_append]
  · rw [mem_singleton.mp hfull]
    exact hkept
  · cases h
  · by_cases hspare : spare ∈ ts
    · rw [if_pos (mem_cons_of_mem buf hspare)]
    · have hno : spare ∉ buf :: ts := by
        rw [mem_cons, not_or]
        exact ⟨hne.symm, hspare⟩
      rw [if_neg hno]
      exact hidle hspare

/-- The sink is given the string. -/
theorem Accounted.hand (h : Accounted strings buf ts [full] handed out) :
    Accounted strings buf ts [] (handed ++ [strings full]) out := by
  obtain ⟨gs, pend, kept, hgs, hout, hpend, -, hkept⟩ := h
  refine ⟨gs ++ [pend], [], kept, ?_, ?_, fun x hx => absurd hx not_mem_nil, fun _ => rfl, hkept⟩
  · rw [hgs, hpend full mem_cons_self, map_append]
    rfl
  · rw [← hout, flatten_append, flatten_singleton, append_assoc, nil_append]

/-- The string is cleared. -/
theorem Accounted.clear (h : Accounted strings buf (full :: ts) fs handed out) (hnodup : full ∉ ts)
    (hsub : fs ⊆ ts) : Accounted (Function.update strings full []) buf ts fs handed out := by
  obtain ⟨gs, pend, kept, hgs, hout, hpend, hnone, hkept⟩ := h
  refine ⟨gs, pend, kept, hgs, hout, fun x hx => ?_, hnone, ?_⟩
  · have hne : x ≠ full := fun heq => hnodup (heq ▸ hsub hx)
    rw [Function.update_of_ne hne]
    exact hpend x hx
  · by_cases heq : buf = full
    · subst heq
      rw [if_pos mem_cons_self] at hkept
      rw [if_neg hnodup, Function.update_self, hkept]
      rfl
    · rw [Function.update_of_ne heq]
      simpa only [mem_cons, heq, false_or] using hkept

/-- Calls that wait are less deep than the stack. -/
theorem lt_of_waiting {stack : List Frame} {x : Nat × List UInt8} (h : x ∈ waiting stack) :
    x.1 < stack.length := by
  induction stack with
  | nil => cases h
  | cons fr rest ih =>
    have hrest : x ∈ waiting rest → x.1 < (fr :: rest).length := fun hx => (ih hx).trans (Nat.lt_succ_self _)
    cases fr with
    | emit bytes =>
      rw [waiting] at h
      split at h
      · exact hrest h
      · rcases mem_cons.mp h with rfl | hx
        · exact Nat.lt_succ_self _
        · exact hrest hx
    | _ => exact hrest h

theorem atLevel_waiting_self (stack : List Frame) : atLevel stack.length (waiting stack) = [] := by
  rw [atLevel, filter_eq_nil_iff]
  intro x hx
  have := lt_of_waiting hx
  simp only [decide_eq_true_eq]
  omega

/-- A call is pushed. -/
theorem Inv.call (h : Inv st) (fr : Frame) (htaken : fr.taken = none)
    {called : List (Nat × List UInt8)}
    (hordered : ∀ d, atLevel d called = atLevel d st.emitted ++ atLevel d (waiting (fr :: st.stack))) :
    Inv { st with stack := fr :: st.stack, called := called } := by
  have hflight : fr.inFlight = none := by
    cases fr <;> first | rfl | cases htaken
  have hts : taken (fr :: st.stack) = taken st.stack := filterMap_cons_none htaken
  have hfs : inFlight (fr :: st.stack) = inFlight st.stack := filterMap_cons_none hflight
  constructor
  · constructor
    · dsimp only
      rw [hts, hfs]
      exact h.accounted
    · exact hordered
  · exact h.apart
  · dsimp only
    rw [hts]
    exact h.fulls
  · dsimp only
    rw [hfs]
    exact h.one
  · dsimp only
    rw [hts]
    exact h.idle

/-- The topmost call goes on without a change of the strings, or returns. -/
theorem Inv.move {fr : Frame} {stack : List Frame} (h : Inv st) (hst : st.stack = fr :: rest)
    (hts : taken stack = taken (fr :: rest)) (hfs : inFlight stack = inFlight (fr :: rest))
    (hwait : waiting stack = waiting (fr :: rest)) : Inv { st with stack := stack } := by
  constructor
  · constructor
    · dsimp only
      rw [hts, hfs, ← hst]
      exact h.accounted
    · dsimp only
      rw [hwait, ← hst]
      exact h.ordered
  · exact h.apart
  · dsimp only
    rw [hts, ← hst]
    exact h.fulls
  · dsimp only
    rw [hfs, ← hst]
    exact h.one
  · dsimp only
    rw [hts, ← hst]
    exact h.idle

theorem atLevel_append (d : Nat) (l m : List (Nat × List UInt8)) :
    atLevel d (l ++ m) = atLevel d l ++ atLevel d m := filter_append ..

theorem atLevel_cons (d : Nat) (x : Nat × List UInt8) (l : List (Nat × List UInt8)) :
    atLevel d (x :: l) = if x.1 = d then x :: atLevel d l else atLevel d l := by
  rw [atLevel, filter_cons]
  simp only [decide_eq_true_eq]
  rfl

/-- The bytes of emit are appended. -/
theorem Inv.append (h : Inv st) (hst : st.stack = .emit bytes :: rest) (hbuf : st.buf ∉ taken rest)
    (hlen : bytes.length ≠ 0) (isOver : Bool) :
    Inv { st with
      strings := Function.update st.strings st.buf (st.strings st.buf ++ bytes)
      emitted := st.emitted ++ [(rest.length, bytes)]
      stack := .appended isOver :: rest } := by
  have hacc := h.accounted
  have hfulls := h.fulls
  have hone := h.one
  have hidle := h.idle
  have hordered := h.ordered
  rw [hst] at hacc hfulls hone hidle hordered
  constructor
  · constructor
    · have := hacc.append hbuf (inFlight_subset rest) bytes
      dsimp only
      rwa [map_append]
    · intro d
      have hwait : waiting (.emit bytes :: rest) = (rest.length, bytes) :: waiting rest := if_neg hlen
      have hd := hordered d
      rw [hwait] at hd
      dsimp only
      rw [hd, atLevel_append, append_assoc]
      congr 1
      exact atLevel_append d [(rest.length, bytes)] (waiting rest)
  · exact h.apart
  · exact hfulls
  · exact hone
  · intro hspare
    dsimp only
    rw [Function.update_of_ne h.apart.symm]
    exact hidle hspare

theorem Inv.swap (h : Inv st) (hst : st.stack = .checked :: rest) (hbuf : st.buf ∉ taken rest)
    (hnone : inFlight rest = []) :
    Inv { st with buf := st.spare, spare := st.buf, stack := .swapped st.buf :: rest } := by
  have hacc := h.accounted
  have hfulls := h.fulls
  have hidle := h.idle
  have hordered := h.ordered
  rw [hst] at hacc hfulls hidle hordered
  have hfs : inFlight (.swapped st.buf :: rest) = [st.buf] := congrArg (List.cons st.buf) hnone
  have hacc' : Accounted st.strings st.buf (taken rest) [] st.handed (st.emitted.map Prod.snd) := by
    rw [← hnone]
    exact hacc
  constructor
  · constructor
    · dsimp only
      rw [hfs]
      exact hacc'.swap hbuf h.apart hidle
    · exact hordered
  · exact h.apart.symm
  · exact nodup_cons.mpr ⟨hbuf, hfulls⟩
  · dsimp only
    rw [hfs]
    exact le_rfl
  · exact fun hno => absurd mem_cons_self hno

theorem Inv.hand (h : Inv st) (hst : st.stack = .swapped full :: rest) :
    Inv { st with handed := st.handed ++ [st.strings full], stack := .inSink full :: rest } := by
  have hacc := h.accounted
  have hfulls := h.fulls
  have hone := h.one
  have hidle := h.idle
  have hordered := h.ordered
  rw [hst] at hacc hfulls hone hidle hordered
  have hnone : inFlight rest = [] := by
    have hlen : (inFlight rest).length + 1 ≤ 1 := hone
    exact length_eq_zero_iff.mp (by omega)
  have hacc' : Accounted st.strings st.buf (full :: taken rest) [full] st.handed
      (st.emitted.map Prod.snd) := by
    have hfs : inFlight (.swapped full :: rest) = [full] := congrArg (List.cons full) hnone
    rw [← hfs]
    exact hacc
  have hfs : inFlight (.inSink full :: rest) = [] := hnone
  constructor
  · constructor
    · dsimp only
      rw [hfs]
      exact hacc'.hand
    · exact hordered
  · exact h.apart
  · exact hfulls
  · dsimp only
    rw [hfs]
    exact Nat.zero_le _
  · exact hidle

theorem Inv.clear (h : Inv st) (hst : st.stack = .delivered full :: rest) :
    Inv { st with strings := Function.update st.strings full [], stack := rest } := by
  have hacc := h.accounted
  have hfulls := h.fulls
  have hone := h.one
  have hidle := h.idle
  have hordered := h.ordered
  rw [hst] at hacc hfulls hone hidle hordered
  obtain ⟨hno, hrest⟩ := nodup_cons.mp hfulls
  constructor
  · constructor
    · exact hacc.clear hno (inFlight_subset rest)
    · exact hordered
  · exact h.apart
  · exact hrest
  · exact hone
  · intro hspare
    dsimp only
    by_cases heq : st.spare = full
    · rw [heq, Function.update_self]
    · rw [Function.update_of_ne heq]
      refine hidle ?_
      show st.spare ∉ full :: taken rest
      rw [mem_cons, not_or]
      exact ⟨heq, hspare⟩

/-- A step keeps the invariant. -/
theorem Inv.exec (h : Inv st) (act : Act) (hok : Ok st act) : Inv (exec st act) := by
  cases act with
  | callEmit bytes =>
    refine h.call (.emit bytes) rfl fun d => ?_
    rw [waiting]
    by_cases hlen : bytes.length = 0
    · rw [if_pos hlen, if_pos hlen]
      exact h.ordered d
    · rw [if_neg hlen, if_neg hlen, atLevel_append, h.ordered d, append_assoc]
      congr 1
      -- no call that waits is as deep as the one that is made
      by_cases hd : st.stack.length = d
      · subst hd
        rw [atLevel_cons, atLevel_cons, atLevel_waiting_self]
        rfl
      · rw [atLevel_cons, atLevel_cons, if_neg hd, if_neg hd]
        exact append_nil _
  | callFlush => exact h.call .flush rfl h.ordered
  | advance =>
    show Inv (advance st)
    rw [advance]
    cases hst : st.stack with
    | nil => exact h
    | cons fr rest =>
      unfold Ok at hok
      rw [hst] at hok
      cases fr with
      | emit bytes =>
        dsimp only
        split
        · rename_i hlen
          exact h.move hst rfl rfl (if_pos hlen).symm
        · rename_i hlen
          exact h.append hst hok hlen _
      | appended isOver => cases isOver <;> exact h.move hst rfl rfl rfl
      | flush =>
        dsimp only
        split <;> exact h.move hst rfl rfl rfl
      | checked => exact h.swap hst hok.1 hok.2
      | swapped full => exact h.hand hst
      | inSink full => exact h.move hst rfl rfl rfl
      | delivered full => exact h.clear hst

/-- In every run in which no step appends to a string that a flush has taken, or swaps one
out, or swaps before another flush that has swapped has called the sink, what is emitted
is delivered or buffered in every state. -/
theorem coalescing_delivers (chunk : Nat) (acts : List Act)
    (h : EveryStep exec Ok (start chunk) acts) : EveryState exec Delivers (start chunk) acts := by
  have hinv := h.invariant (inv_start chunk) fun st act hst hok => hst.exec act hok
  exact fun pre post heq => (hinv pre post heq).toDelivers

/-- The sink emits while it is called. -/
theorem coalescing_delivers_sink :
    let acts : List Act := [.callEmit [0x61], .advance, .advance, .callFlush, .advance, .advance, .advance,
      .callEmit [0x62], .advance, .advance, .advance, .advance]
    EveryState exec Delivers (start 0) acts ∧
      (acts.foldl exec (start 0)).handed = [[0x61]] ∧
      (acts.foldl exec (start 0)).strings true = [0x62] := by
  intro acts
  refine ⟨coalescing_delivers 0 acts ?_, rfl, rfl⟩
  have htaken : true ∉ taken [.inSink false] := by decide
  simp only [acts, everyStep_cons]
  exact ⟨trivial, not_mem_nil, trivial, trivial, trivial, ⟨not_mem_nil, rfl⟩, trivial, trivial,
    htaken, trivial, trivial, trivial, everyStep_nil⟩

/-- The sink emits, flushes and emits again. -/
theorem nested_flush_loses :
    let acts : List Act := [.callEmit [0x61], .advance, .advance, .callFlush, .advance, .advance, .advance,
      .callEmit [0x62], .advance, .advance, .callFlush, .advance, .advance, .advance, .advance, .advance,
      .callEmit [0x63], .advance, .advance, .advance, .advance]
    let st := acts.foldl exec (start 0)
    st.emitted = [(0, [0x61]), (1, [0x62]), (1, [0x63])] ∧ st.handed = [[0x61], [0x62]] ∧
      st.strings false = [] ∧ st.strings true = [] ∧ st.stack = [] ∧ ¬ Delivers st := by
  intro acts st
  have hemitted : st.emitted = [(0, [0x61]), (1, [0x62]), (1, [0x63])] := by decide +kernel
  have hhanded : st.handed = [[0x61], [0x62]] := by decide +kernel
  refine ⟨hemitted, hhanded, by decide +kernel, by decide +kernel, by decide +kernel, ?_⟩
  rintro ⟨⟨gs, pend, kept, hgs, hout, -, hpend, hkept⟩, -⟩
  obtain rfl : pend = [] := hpend rfl
  have hempty : [] = kept.flatten := hkept
  have hlen := congrArg (fun l => l.flatten.length) hout
  rw [hemitted, nil_append, flatten_append, flatten_flatten, ← hgs, hhanded,
    ← hempty] at hlen
  cases hlen

end VtBuf

end AxlSdk
