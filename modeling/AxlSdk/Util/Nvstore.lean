import AxlSdk.Data.Ucs2

/-!
# Non-volatile key-value storage (`axl-nvstore.c`)

A value is kept in a firmware variable. The namespace gives its GUID, and the key,
converted into a buffer of 128 code units, its name.

- `Firmware.getVariable`, `Firmware.setVariable`: the variables, a map from GUID and name.
- `step`: one call of `axl_nvstore_get`, `_set` or `_delete`.
- `Pairs.step`: the same calls on a store that keeps one value for each namespace and key.
- `independent_iff`: for which namespaces and keys the two give the same results.
-/

namespace AxlSdk

namespace Nvstore

open Ucs2

inductive Rc
  | ok
  | err
  deriving DecidableEq

/-- `EFI_GUID`, its 16 bytes. -/
abbrev Guid := List UInt8

/-- The name of a variable: the code units before the terminator. -/
abbrev VariableName := List UInt16

/-! ## The firmware -/

inductive EfiStatus
  | success
  | notFound
  | bufferTooSmall
  | refused
  deriving DecidableEq

/-- The variables the firmware holds, with their attributes. -/
abbrev Firmware := Guid × VariableName → Option (Nat × List UInt8)

/-- `GetVariable` into a buffer of `size` bytes: the status, the size it reports and the
bytes it gives. -/
def Firmware.getVariable (fw : Firmware) (guid : Guid) (name : VariableName) (size : Nat) :
    EfiStatus × Nat × List UInt8 :=
  match fw (guid, name) with
  | none => (.notFound, size, [])
  | some (_, data) =>
    if data.length ≤ size then (.success, data.length, data) else (.bufferTooSmall, data.length, [])

/-- `SetVariable`: no data means that the variable goes. -/
def Firmware.setVariable (fw : Firmware) (guid : Guid) (name : VariableName) (attrs : Nat)
    (data : List UInt8) : EfiStatus × Firmware :=
  if data = [] then
    if (fw (guid, name)).isNone then (.notFound, fw)
    else (.success, Function.update fw (guid, name) none)
  else (.success, Function.update fw (guid, name) (some (attrs, data)))

/-! ## The calls -/

def GLOBAL_GUID : Guid :=
  [0x61, 0xDF, 0xE4, 0x8B, 0xCA, 0x93, 0xD2, 0x11, 0xAA, 0x0D, 0x00, 0xE0, 0x98, 0x03, 0x2B, 0x8C]

def APP_GUID : Guid :=
  [0xD4, 0xC3, 0xB2, 0xA1, 0xF6, 0xE5, 0x89, 0x47, 0x9A, 0xBC, 0xDE, 0xF0, 0x12, 0x34, 0x56, 0x78]

/-- The registered namespaces, in the order of their registration. -/
abbrev Namespaces := List (List UInt8 × Guid)

/-- The namespaces that are there from the start, `"global"` and `"app"`. -/
def namespaces : Namespaces :=
  [([0x67, 0x6C, 0x6F, 0x62, 0x61, 0x6C], GLOBAL_GUID), ([0x61, 0x70, 0x70], APP_GUID)]

/-- A namespace and a key, as a caller names them; the namespace may be `NULL`. -/
structure NsKey where
  ns : Option (List UInt8)
  key : CString

/-- `ns_to_guid` -/
def nsToGuid (table : Namespaces) (ns : Option (List UInt8)) : Option Guid :=
  match ns with
  | none => some GLOBAL_GUID
  | some ns => (table.find? fun e => ns == e.1).map Prod.snd

def AXL_NV_PERSISTENT : Nat := 1
def AXL_NV_BOOT : Nat := 2
def AXL_NV_RUNTIME : Nat := 4

def EFI_VARIABLE_NON_VOLATILE : Nat := 1
def EFI_VARIABLE_BOOTSERVICE_ACCESS : Nat := 2
def EFI_VARIABLE_RUNTIME_ACCESS : Nat := 4

/-- `axl_to_efi_attrs` -/
def axlToEfiAttrs (flags : Nat) : Nat :=
  let attrs := 0
  let attrs := if flags &&& AXL_NV_PERSISTENT ≠ 0 then attrs ||| EFI_VARIABLE_NON_VOLATILE else attrs
  let attrs := if flags &&& AXL_NV_BOOT ≠ 0 then attrs ||| EFI_VARIABLE_BOOTSERVICE_ACCESS else attrs
  let attrs := if flags &&& AXL_NV_RUNTIME ≠ 0 then attrs ||| EFI_VARIABLE_RUNTIME_ACCESS else attrs
  if attrs = 0 then EFI_VARIABLE_BOOTSERVICE_ACCESS else attrs

/-- The name in the buffer `wkey`, as the firmware reads it. -/
def wkey (key : CString) : VariableName := (utf8ToUcs2Buf key 128).takeWhile (· != 0)

/-- The calls; whether the firmware turns one away for reasons of its own is part of it. -/
inductive Call
  | get (p : NsKey) (size : Nat) (refused : Bool)
  | set (p : NsKey) (data : List UInt8) (flags : Nat) (refused : Bool)
  | delete (p : NsKey) (refused : Bool)

def Call.target : Call → NsKey
  | .get p _ _ => p
  | .set p _ _ _ => p
  | .delete p _ => p

/-- What a call gives back: the code, and for `get` the size and the bytes. -/
structure Result where
  rc : Rc
  size : Nat
  bytes : List UInt8
  deriving DecidableEq

def failed : Result := ⟨.err, 0, []⟩

/-- The code for a status of the firmware. -/
def EfiStatus.rc : EfiStatus → Rc
  | .success => .ok
  | _ => .err

/-- `axl_nvstore_get`, `axl_nvstore_set` and `axl_nvstore_delete`. -/
def step (table : Namespaces) (fw : Firmware) : Call → Result × Firmware
  | .get p size refused =>
    match nsToGuid table p.ns with
    | none => (⟨.err, size, []⟩, fw)
    | some guid =>
      if refused then (⟨EfiStatus.refused.rc, size, []⟩, fw)
      else
        let r := fw.getVariable guid (wkey p.key) size
        (⟨r.1.rc, r.2.1, r.2.2⟩, fw)
  | .set p data flags refused =>
    match nsToGuid table p.ns with
    | none => (failed, fw)
    | some guid =>
      if refused then (⟨EfiStatus.refused.rc, 0, []⟩, fw)
      else
        let r := fw.setVariable guid (wkey p.key) (axlToEfiAttrs flags) data
        (⟨r.1.rc, 0, []⟩, r.2)
  | .delete p refused =>
    match nsToGuid table p.ns with
    | none => (failed, fw)
    | some guid =>
      if refused then (⟨EfiStatus.refused.rc, 0, []⟩, fw)
      else
        let r := fw.setVariable guid (wkey p.key) 0 []
        (⟨r.1.rc, 0, []⟩, r.2)

/-- The results of a run of calls. -/
def run (table : Namespaces) (fw : Firmware) : List Call → List Result
  | [] => []
  | c :: cs => (step table fw c).1 :: run table (step table fw c).2 cs

/-! ## One value for each namespace and key -/

/-- What the calls are for: a value for each namespace and key, independent of all
others. -/
abbrev Pairs := NsKey → Option (List UInt8)

open Classical in
/-- The pair keeps this value from now on. -/
noncomputable def Pairs.put (a : Pairs) (p : NsKey) (v : Option (List UInt8)) : Pairs :=
  fun q => if q = p then v else a q

/-- A call on the pairs; `registered` tells which namespaces there are. -/
noncomputable def Pairs.step (registered : NsKey → Bool) (a : Pairs) : Call → Result × Pairs
  | .get p size refused =>
    match a p with
    | some data =>
      if !registered p || refused then (⟨.err, size, []⟩, a)
      else if data.length ≤ size then (⟨.ok, data.length, data⟩, a)
      else (⟨.err, data.length, []⟩, a)
    | none => (⟨.err, size, []⟩, a)
  | .set p data _ refused =>
    if !registered p || refused then (failed, a) else (⟨.ok, 0, []⟩, a.put p (some data))
  | .delete p refused =>
    if !registered p || refused || (a p).isNone then (failed, a)
    else (⟨.ok, 0, []⟩, a.put p none)

noncomputable def Pairs.run (registered : NsKey → Bool) (a : Pairs) : List Call → List Result
  | [] => []
  | c :: cs => (a.step registered c).1 :: Pairs.run registered (a.step registered c).2 cs

/-! ## When the pairs are independent -/

/-- The variable behind a namespace and a key. -/
def slot (table : Namespaces) (p : NsKey) : Option (Guid × VariableName) :=
  (nsToGuid table p.ns).map fun guid => (guid, wkey p.key)

def registered (table : Namespaces) (p : NsKey) : Bool := (nsToGuid table p.ns).isSome

/-- The values of the pairs, as the firmware has them. -/
def seen (table : Namespaces) (fw : Firmware) : Pairs :=
  fun p => ((slot table p).bind fw).map Prod.snd

/-- A call that stores something if it is a `set`. -/
def Call.Stores : Call → Prop
  | .set _ data _ _ => data ≠ []
  | _ => True

/-- The calls on these pairs give what they would on independent pairs; `empties` tells
whether a value may be empty. -/
def Independent (table : Namespaces) (S : Set NsKey) (empties : Bool) : Prop :=
  ∀ (fw : Firmware) (calls : List Call),
    (∀ c ∈ calls, c.target ∈ S ∧ (empties = true ∨ c.Stores)) →
      run table fw calls = Pairs.run (registered table) (seen table fw) calls

variable {table : Namespaces} {S : Set NsKey} {fw : Firmware} {p q : NsKey} {c : Call}

@[simp] theorem put_self (a : Pairs) (p : NsKey) (v : Option (List UInt8)) : a.put p v p = v :=
  if_pos rfl

theorem put_of_ne (a : Pairs) (v : Option (List UInt8)) (h : q ≠ p) : a.put p v q = a q :=
  if_neg h

theorem seen_of_guid {guid : Guid} (h : nsToGuid table p.ns = some guid) :
    seen table fw p = (fw (guid, wkey p.key)).map Prod.snd := by
  simp [seen, slot, h]

theorem seen_of_unregistered (h : nsToGuid table p.ns = none) : seen table fw p = none := by
  simp [seen, slot, h]

/-- Writing one variable changes the value of the pair it belongs to. -/
theorem seen_update {guid : Guid} (hp : nsToGuid table p.ns = some guid)
    (hinj : ∀ q ∈ S, slot table p = slot table q → p = q) (w : Option (Nat × List UInt8))
    (hq : q ∈ S) :
    seen table (Function.update fw (guid, wkey p.key) w) q =
      (seen table fw).put p (w.map Prod.snd) q := by
  by_cases hqp : q = p
  · subst hqp
    rw [seen_of_guid hp, put_self]
    simp
  · rw [put_of_ne _ _ hqp]
    cases hg : nsToGuid table q.ns with
    | none => rw [seen_of_unregistered hg, seen_of_unregistered hg]
    | some guid' =>
      rw [seen_of_guid hg, seen_of_guid hg, Function.update_of_ne]
      intro he
      refine hqp (hinj q hq ?_).symm
      rw [slot, slot, hp, hg, Option.map_some, Option.map_some, he]

/-- One call gives what it would on the pairs, and leaves what it would. -/
theorem step_agrees {a : Pairs} (ha : ∀ q ∈ S, a q = seen table fw q) (hc : c.target ∈ S)
    (hs : (nsToGuid table c.target.ns).isSome → c.Stores)
    (hinj : ∀ p ∈ S, (nsToGuid table p.ns).isSome → ∀ q ∈ S, slot table p = slot table q → p = q) :
    (step table fw c).1 = (a.step (registered table) c).1 ∧
      ∀ q ∈ S, (a.step (registered table) c).2 q = seen table (step table fw c).2 q := by
  have hput : ∀ {p guid} (w : Option (Nat × List UInt8)), p ∈ S →
      nsToGuid table p.ns = some guid → ∀ q ∈ S, a.put p (w.map Prod.snd) q =
        seen table (Function.update fw (guid, wkey p.key) w) q := by
    intro p guid w hp hg q hq
    rw [seen_update hg (hinj p hp (by simp [hg])) w hq]
    by_cases hqp : q = p
    · rw [hqp, put_self, put_self]
    · rw [put_of_ne _ _ hqp, put_of_ne _ _ hqp, ha q hq]
  cases c with
  | get p size refused =>
    have hap := ha p hc
    cases hg : nsToGuid table p.ns with
    | none =>
      rw [seen_of_unregistered hg] at hap
      simpa [step, Pairs.step, hg, hap] using ha
    | some guid =>
      rw [seen_of_guid hg] at hap
      cases refused with
      | true =>
        cases hv : a p with
        | none => simpa [step, Pairs.step, hg, hv, EfiStatus.rc] using ha
        | some data => simpa [step, Pairs.step, hg, hv, EfiStatus.rc] using ha
      | false =>
        cases hv : fw (guid, wkey p.key) with
        | none =>
          rw [hv] at hap
          simpa [step, Pairs.step, hg, hap, hv, Firmware.getVariable, EfiStatus.rc] using ha
        | some e =>
          rw [hv] at hap
          simp only [step, Pairs.step, hg, hap, hv, Firmware.getVariable, registered,
            Option.map_some, Option.isSome_some, Bool.not_true, Bool.or_self,
            Bool.false_eq_true, if_false]
          split <;> exact ⟨rfl, ha⟩
  | set p data flags refused =>
    cases hg : nsToGuid table p.ns with
    | none => simpa [step, Pairs.step, hg, registered] using ha
    | some guid =>
      have hdata : data ≠ [] := hs (by simp [Call.target, hg])
      cases refused with
      | true => simpa [step, Pairs.step, hg, registered, EfiStatus.rc, failed] using ha
      | false =>
        have h := hput (p := p) (some (axlToEfiAttrs flags, data)) hc hg
        simpa [step, Pairs.step, hg, registered, EfiStatus.rc, Firmware.setVariable, hdata] using h
  | delete p refused =>
    have hap := ha p hc
    cases hg : nsToGuid table p.ns with
    | none => simpa [step, Pairs.step, hg, registered] using ha
    | some guid =>
      rw [seen_of_guid hg] at hap
      cases refused with
      | true => simpa [step, Pairs.step, hg, registered, EfiStatus.rc, failed] using ha
      | false =>
        cases hv : fw (guid, wkey p.key) with
        | none =>
          rw [hv] at hap
          simpa [step, Pairs.step, hg, registered, hap, hv, Firmware.setVariable, EfiStatus.rc,
            failed] using ha
        | some e =>
          rw [hv] at hap
          have h := hput (p := p) none hc hg
          simpa [step, Pairs.step, hg, registered, hap, hv, Firmware.setVariable, EfiStatus.rc]
            using h

/-- Over a whole run. -/
theorem run_agrees {a : Pairs} {calls : List Call} (ha : ∀ q ∈ S, a q = seen table fw q)
    (hc : ∀ c ∈ calls, c.target ∈ S ∧ ((nsToGuid table c.target.ns).isSome → c.Stores))
    (hinj : ∀ p ∈ S, (nsToGuid table p.ns).isSome → ∀ q ∈ S, slot table p = slot table q → p = q) :
    run table fw calls = Pairs.run (registered table) a calls := by
  induction calls generalizing fw a with
  | nil => rfl
  | cons c calls ih =>
    obtain ⟨hcS, hcs⟩ := hc c (by simp)
    obtain ⟨hres, hnext⟩ := step_agrees ha hcS hcs hinj
    rw [run, Pairs.run, hres, ih hnext fun c' hc' => hc c' (by simp [hc'])]

/-- Two pairs on one variable: the one reads what the other has written. -/
theorem collision_shows {guid : Guid} (hp : nsToGuid table p.ns = some guid)
    (hslot : slot table p = slot table q) (hne : p ≠ q) :
    run table (fun _ => none)
        [.set p [1] 0 false, .set q [2] 0 false, .get p 1 false] ≠
      Pairs.run (registered table) (seen table fun _ => none)
        [.set p [1] 0 false, .set q [2] 0 false, .get p 1 false] := by
  obtain ⟨hq, hname⟩ : nsToGuid table q.ns = some guid ∧ wkey p.key = wkey q.key := by
    simp only [slot, hp, Option.map_some] at hslot
    obtain ⟨g, hg, he⟩ := Option.map_eq_some_iff.mp hslot.symm
    obtain ⟨rfl, hn⟩ := Prod.mk.inj he
    exact ⟨hg, hn.symm⟩
  simp [run, step, Pairs.run, Pairs.step, registered, hp, hq, hname, Firmware.setVariable,
    Firmware.getVariable, put_of_ne _ _ hne]

/-- An empty value is gone instead of being kept. -/
theorem empty_shows {guid : Guid} (hp : nsToGuid table p.ns = some guid) :
    run table (fun _ => none) [.set p [1] 0 false, .set p [] 0 false, .get p 1 false] ≠
      Pairs.run (registered table) (seen table fun _ => none)
        [.set p [1] 0 false, .set p [] 0 false, .get p 1 false] := by
  simp [run, step, Pairs.run, Pairs.step, registered, hp, Firmware.setVariable,
    Firmware.getVariable, EfiStatus.rc]

/-- The pairs are independent exactly if no two of them have the same variable, and no
empty value is stored under any that is registered. -/
theorem independent_iff (table : Namespaces) (S : Set NsKey) (empties : Bool) :
    Independent table S empties ↔
      (∀ p ∈ S, registered table p = true → ∀ q ∈ S, slot table p = slot table q → p = q) ∧
        (empties = true → ∀ p ∈ S, registered table p = false) := by
  constructor
  · intro h
    refine ⟨fun p hp hreg q hq hslot => ?_, fun hz p hp => ?_⟩
    · by_contra hne
      obtain ⟨guid, hg⟩ := Option.isSome_iff_exists.mp hreg
      refine collision_shows hg hslot hne (h _ _ ?_)
      simp [Call.target, Call.Stores, hp, hq]
    · by_contra hreg
      obtain ⟨guid, hg⟩ := Option.isSome_iff_exists.mp (Bool.not_eq_false _ ▸ hreg)
      refine empty_shows hg (h _ _ ?_)
      simp [Call.target, hp, hz]
  · rintro ⟨hinj, hz⟩ fw calls hcalls
    refine run_agrees (S := S) (fun q _ => rfl) (fun c hc => ?_) hinj
    obtain ⟨hS, hstores⟩ := hcalls c hc
    refine ⟨hS, fun hreg => hstores.resolve_left fun he => ?_⟩
    have := hz he _ hS
    rw [registered] at this
    simp [this] at hreg

/-- Keys `k😀` and `k😁` in the namespace `"app"`. -/
theorem emoji_keys_collide :
    ¬ ∀ (S : Set NsKey), Independent namespaces S false := by
  intro h
  have hp : nsToGuid namespaces (some [0x61, 0x70, 0x70]) = some APP_GUID := by decide
  refine collision_shows (p := ⟨some [0x61, 0x70, 0x70], ⟨[0x6B, 0xF0, 0x9F, 0x98, 0x80], by decide⟩⟩)
    (q := ⟨some [0x61, 0x70, 0x70], ⟨[0x6B, 0xF0, 0x9F, 0x98, 0x81], by decide⟩⟩) hp (by decide)
    (by simp) (h Set.univ _ _ ?_)
  simp [Call.Stores]

end Nvstore

end AxlSdk
