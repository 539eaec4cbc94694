import AxlSdk.Stream.Model

/-!
# Short writes and failing sinks

For UTF-8 streams over sinks that may answer every call as they like. The bytes
that the sink has accepted, followed by those that wait in the buffer, are the
`content` of a stream. A flush, whether it gets through or not, leaves the
content alone, and `axl_write` adds to it what it accepts of its bytes.

A result of -1 does not say that nothing was accepted: when the flush that
follows the copying of the bytes into the buffer stalls, they stay queued
(`Queues`). A tee is passed what the sink was offered, on best effort, so it
misses nothing that was accepted.
-/

namespace AxlSdk

namespace Stream

open List

/-- What the sink has accepted, then what waits. -/
def AxlStream.content (s : AxlStream) : List UInt8 := s.sink.taken ++ s.wbuf

/-- Every call so far has taken all it was offered. -/
def NeverShort (s : AxlStream) : Prop :=
  ∀ i, i < s.sink.calls → ∀ buf, ∃ m, s.sink.answer i buf = some m ∧ buf.length ≤ m

/-- The tee has all that the sink has accepted, and nothing else as long as the
sink takes everything. -/
def Teed (s : AxlStream) : Prop :=
  ∀ t ∈ s.tee, s.sink.taken.Sublist t.forwarded ∧ (NeverShort s → t.forwarded = s.sink.taken)

/-- What flushes and writes leave alone. -/
structure Kept (s s' : AxlStream) : Prop where
  utf8 : s'.encoding = .utf8
  mode : s'.bufMode = s.bufMode
  cap : s'.wbufCap = s.wbufCap
  teed : Teed s → Teed s'

variable {s : AxlStream}

theorem Kept.refl (h : s.encoding = .utf8) : Kept s s := ⟨h, rfl, rfl, id⟩

theorem Kept.trans {s' s'' : AxlStream} (h : Kept s s') (h' : Kept s' s'') : Kept s s'' :=
  ⟨h'.utf8, h'.mode.trans h.mode, h'.cap.trans h.cap, fun ht => h'.teed (h.teed ht)⟩

/-- A change of the buffer's bytes and of the error flag. -/
theorem Kept.wbuf {s' : AxlStream} (h : Kept s s') (err : Bool) (wbuf : List UInt8) :
    Kept s { s' with err := err, wbuf := wbuf } :=
  ⟨h.utf8, h.mode, h.cap, h.teed⟩

/-! ## One call of the sink -/

/-- What the sink says to a UTF-8 port. -/
theorem Port.write_utf8 {p : Port} (h : p.encoding = .utf8) (buf : List UInt8) :
    ∃ k err, p.write buf = (((p.sink.answer p.sink.calls buf).map (min · buf.length)),
        { p with sink := k, err := err }) ∧
      k.answer = p.sink.answer ∧ k.calls = p.sink.calls + 1 ∧
      k.taken = p.sink.taken ++ buf.take ((p.sink.answer p.sink.calls buf).getD 0) := by
  rw [Port.write, if_neg (not_not_intro h), sinkWrite]
  cases p.sink.answer p.sink.calls buf with
  | none => exact ⟨_, _, rfl, rfl, rfl, by simp⟩
  | some n => exact ⟨_, _, rfl, rfl, rfl, rfl⟩

/-- A prefix goes to the sink, the whole of the bytes to the tee. -/
theorem streamWriteNow_spec (h : s.encoding = .utf8) (buf : List UInt8) :
    (streamWriteNow s buf).2.sink.taken
        = s.sink.taken ++ buf.take ((streamWriteNow s buf).1.getD 0) ∧
      (∀ n, (streamWriteNow s buf).1 = some n → n ≤ buf.length) ∧
      (streamWriteNow s buf).2.wbuf = s.wbuf ∧ Kept s (streamWriteNow s buf).2 := by
  obtain ⟨k, err, hw, hans, hcalls, htaken⟩ := Port.write_utf8 h buf
  have hport : (streamWriteNow s buf).2.toPort = { s.toPort with sink := k, err := err } := by
    rw [streamWriteNow, hw]
  have hsink : (streamWriteNow s buf).2.sink = k := congrArg Port.sink hport
  have hret : (streamWriteNow s buf).1
      = (s.sink.answer s.sink.calls buf).map (min · buf.length) := by
    rw [streamWriteNow, hw]
  refine ⟨?_, ?_, rfl, (congrArg Port.encoding hport).trans h, rfl, rfl, ?_⟩
  · rw [hsink, htaken, hret]
    cases s.sink.answer s.sink.calls buf with
    | none => rfl
    | some n =>
      simp only [Option.map_some, Option.getD_some]
      rcases Nat.le_total n buf.length with hle | hle
      · rw [Nat.min_eq_left hle]
      · rw [Nat.min_eq_right hle, take_of_length_le hle, take_length]
  · intro n hn
    rw [hret] at hn
    obtain ⟨m, -, rfl⟩ := Option.map_eq_some_iff.mp hn
    exact Nat.min_le_right _ _
  · intro ht t hmem
    obtain ⟨t₀, ht₀, rfl⟩ := Option.map_eq_some_iff.mp hmem
    obtain ⟨hsub, hall⟩ := ht t₀ ht₀
    rw [hsink, htaken]
    refine ⟨hsub.append (take_sublist _ _), fun hfull => ?_⟩
    rw [NeverShort, hsink, hans, hcalls] at hfull
    have hbefore := hall fun i hi => hfull i (Nat.lt_succ_of_lt hi)
    obtain ⟨m, hm, hle⟩ := hfull s.sink.calls (Nat.lt_succ_self _) buf
    rw [hm, Option.getD_some, take_of_length_le hle, Tee.forward, hbefore]

/-! ## Flushing -/

/-- Whether it gets through or not, a flush leaves the content alone. -/
theorem flushLoop_spec (fuel : Nat) (h : s.encoding = .utf8) {k written : Nat}
    (hk : k ≤ s.wbuf.length) (hw : written ≤ k) (hfuel : k - written ≤ fuel) :
    (flushLoop fuel s k written).2.content = s.sink.taken ++ s.wbuf.drop written ∧
      ((flushLoop fuel s k written).1 = .ok →
        (flushLoop fuel s k written).2.wbuf = s.wbuf.drop k) ∧
      Kept s (flushLoop fuel s k written).2 := by
  induction fuel generalizing s written with
  | zero =>
    have hdone : written = k := by omega
    subst hdone
    exact ⟨rfl, fun _ => rfl, (Kept.refl h).wbuf s.err _⟩
  | succ fuel ih =>
    rw [flushLoop]
    split
    case isFalse hge =>
      have hdone : written = k := by omega
      subst hdone
      exact ⟨rfl, fun _ => rfl, (Kept.refl h).wbuf s.err _⟩
    case isTrue hlt =>
      obtain ⟨htaken, hle, hwbuf, hkept⟩ :=
        streamWriteNow_spec h ((s.wbuf.drop written).take (k - written))
      generalize streamWriteNow s ((s.wbuf.drop written).take (k - written)) = r
        at htaken hle hwbuf hkept
      obtain ⟨o, s'⟩ := r
      dsimp only at htaken hle hwbuf hkept ⊢
      -- a stall keeps everything from `written` on
      have hstall : o.getD 0 = 0 → ({ s' with err := true, wbuf := s'.wbuf.drop written }
          : AxlStream).content = s.sink.taken ++ s.wbuf.drop written := by
        intro h0
        rw [h0, take_zero, append_nil] at htaken
        rw [AxlStream.content, ← hwbuf, ← htaken]
      cases o with
      | none => exact ⟨hstall rfl, by simp, hkept.wbuf true _⟩
      | some n =>
        dsimp only
        have hn := hle n rfl
        simp only [length_take, length_drop] at hn
        split
        case isTrue h0 => exact ⟨hstall h0, by simp, hkept.wbuf true _⟩
        case isFalse h0 =>
          obtain ⟨hcont, hok, hkept'⟩ := @ih s' hkept.utf8 (written + n)
            (by rw [hwbuf]; exact hk) (by omega) (by omega)
          refine ⟨?_, fun hrc => (hok hrc).trans (by rw [hwbuf]), hkept.trans hkept'⟩
          have hsplit : (s.wbuf.drop written).take n ++ s.wbuf.drop (written + n)
              = s.wbuf.drop written := by
            rw [← drop_drop, take_append_drop]
          rw [hcont, htaken, hwbuf, Option.getD_some, take_take,
            Nat.min_eq_left (by omega : n ≤ k - written), append_assoc, hsplit]

theorem streamFlushPrefix_spec (h : s.encoding = .utf8) {k : Nat} (hk : k ≤ s.wbuf.length) :
    (streamFlushPrefix s k).2.content = s.content ∧
      ((streamFlushPrefix s k).1 = .ok → (streamFlushPrefix s k).2.wbuf = s.wbuf.drop k) ∧
      Kept s (streamFlushPrefix s k).2 := by
  have := flushLoop_spec k h hk (Nat.zero_le k) (Nat.le_refl _)
  rw [drop_zero] at this
  exact this

theorem streamFlushAll_spec (h : s.encoding = .utf8) :
    (streamFlushAll s).2.content = s.content ∧
      ((streamFlushAll s).1 = .ok → (streamFlushAll s).2.wbuf = []) ∧
      Kept s (streamFlushAll s).2 := by
  have := streamFlushPrefix_spec h (Nat.le_refl s.wbuf.length)
  rw [drop_length] at this
  exact this

/-- Without a buffer nothing waits. -/
structure Plain (s : AxlStream) : Prop where
  utf8 : s.encoding = .utf8
  unbuffered : s.bufMode = .none → s.wbuf = []

theorem streamDrain_spec (h : Plain s) :
    (streamDrain s).2.content = s.content ∧
      ((streamDrain s).1 = .ok → (streamDrain s).2.wbuf = []) ∧ Kept s (streamDrain s).2 := by
  rw [streamDrain]
  split
  case isTrue => exact streamFlushAll_spec h.utf8
  case isFalse hno =>
    refine ⟨rfl, fun _ => ?_, Kept.refl h.utf8⟩
    by_cases hm : s.bufMode = .none
    · exact h.unbuffered hm
    · refine length_eq_zero_iff.mp (Nat.eq_zero_of_not_pos fun hpos => ?_)
      exact hno ⟨hm, hpos⟩

/-! ## Writing -/

/-- The write copies its bytes into the buffer: they are shorter than it, and
the flush that makes room for them, if there has to be one, gets through. -/
def Queues (s : AxlStream) (buf : List UInt8) : Prop :=
  s.bufMode ≠ .none ∧ buf.length < s.wbufCap ∧ (makeRoom s buf.length).1 = .ok

instance (s : AxlStream) (buf : List UInt8) : Decidable (Queues s buf) :=
  inferInstanceAs (Decidable (_ ∧ _))

/-- What a call of `axl_write` contributes: the first `n` bytes when it returns
`n`, and when it returns -1 nothing, or all of them if they were queued. -/
def contribution (s : AxlStream) (buf : List UInt8) : List UInt8 :=
  match (axlWrite s buf).1 with
  | some n => buf.take n
  | none => if Queues s buf then buf else []

theorem flushPolicy_spec (h : s.encoding = .utf8) :
    (flushPolicy s).2.content = s.content ∧ Kept s (flushPolicy s).2 := by
  have hall := streamFlushAll_spec h
  have hline := streamFlushPrefix_spec h (throughNewline_le s.wbuf)
  rw [flushPolicy]
  split_ifs
  · exact ⟨hline.1, hline.2.2⟩
  · exact ⟨hall.1, hall.2.2⟩
  · exact ⟨rfl, Kept.refl h⟩
  · exact ⟨hall.1, hall.2.2⟩
  · exact ⟨rfl, Kept.refl h⟩

theorem makeRoom_spec (h : s.encoding = .utf8) (count : Nat) :
    (makeRoom s count).2.content = s.content ∧ Kept s (makeRoom s count).2 := by
  rw [makeRoom]
  split
  · have hall := streamFlushAll_spec h
    exact ⟨hall.1, hall.2.2⟩
  · exact ⟨rfl, Kept.refl h⟩

/-- Straight to the sink with nothing waiting. -/
theorem streamWriteNow_content (h : s.encoding = .utf8) (hw : s.wbuf = []) (buf : List UInt8) :
    (streamWriteNow s buf).2.content
        = s.content ++ buf.take ((streamWriteNow s buf).1.getD 0) ∧
      (streamWriteNow s buf).2.wbuf = [] ∧ Kept s (streamWriteNow s buf).2 := by
  obtain ⟨htaken, -, hwbuf, hkept⟩ := streamWriteNow_spec h buf
  refine ⟨?_, hwbuf.trans hw, hkept⟩
  rw [AxlStream.content, AxlStream.content, htaken, hwbuf, hw, append_nil, append_nil]

/-- **A write** adds what it contributes to the content, whatever the sink does. -/
theorem axlWrite_spec (h : Plain s) (buf : List UInt8) :
    (axlWrite s buf).2.content = s.content ++ contribution s buf ∧ Kept s (axlWrite s buf).2 ∧
      Plain (axlWrite s buf).2 := by
  have hplain : ∀ s' : AxlStream, Kept s s' → s.bufMode ≠ .none → Plain s' := fun s' hk hm =>
    ⟨hk.utf8, fun hm' => absurd (hk.mode.symm.trans hm') hm⟩
  rw [contribution, axlWrite]
  split
  case isTrue h0 =>
    exact ⟨(append_nil s.content).symm, Kept.refl h.utf8, h⟩
  split
  case isTrue hmode =>
    -- unbuffered: a result of -1 means that the sink took nothing
    obtain ⟨hcont, hwbuf, hkept⟩ := streamWriteNow_content h.utf8 (h.unbuffered hmode) buf
    refine ⟨?_, hkept, hkept.utf8, fun _ => hwbuf⟩
    rw [hcont]
    cases (streamWriteNow s buf).1 with
    | none =>
      have hno : ¬ Queues s buf := fun hq => hq.1 hmode
      dsimp only
      rw [if_neg hno]
      rfl
    | some n => rfl
  case isFalse hmode =>
    rw [streamWriteBuffered]
    split
    case isTrue hbig =>
      have hno : ¬ Queues s buf := fun hq => absurd hq.2.1 (Nat.not_lt.mpr hbig)
      obtain ⟨hcont, hempty, hkept⟩ := streamFlushAll_spec h.utf8
      generalize streamFlushAll s = r at hcont hempty hkept
      obtain ⟨rc, s'⟩ := r
      cases rc with
      | err =>
        refine ⟨?_, hkept, hplain _ hkept hmode⟩
        dsimp only at hcont ⊢
        rw [if_neg hno, append_nil, hcont]
      | ok =>
        dsimp only at hcont hempty hkept ⊢
        obtain ⟨hcont', hwbuf', hkept'⟩ := streamWriteNow_content hkept.utf8 (hempty rfl) buf
        refine ⟨?_, hkept.trans hkept', hplain _ (hkept.trans hkept') hmode⟩
        rw [hcont', hcont]
        cases (streamWriteNow s' buf).1 with
        | none =>
          dsimp only
          rw [if_neg hno]
          rfl
        | some n => rfl
    case isFalse hsmall =>
      obtain ⟨hcont, hkept⟩ := makeRoom_spec h.utf8 buf.length
      have hqueues : Queues s buf ↔ (makeRoom s buf.length).1 = .ok :=
        ⟨fun hq => hq.2.2, fun hok => ⟨hmode, Nat.lt_of_not_le hsmall, hok⟩⟩
      generalize makeRoom s buf.length = r at hcont hkept hqueues
      obtain ⟨rc, s'⟩ := r
      cases rc with
      | err =>
        refine ⟨?_, hkept, hplain _ hkept hmode⟩
        have hno : ¬ Queues s buf := fun hq => by simpa using hqueues.mp hq
        dsimp only at hcont ⊢
        rw [if_neg hno, append_nil, hcont]
      | ok =>
        have hyes : Queues s buf := hqueues.mpr rfl
        dsimp only at hcont hkept ⊢
        have hkept₁ : Kept s { s' with wbuf := s'.wbuf ++ buf } := hkept.wbuf s'.err _
        obtain ⟨hcont₂, hkept₂⟩ := flushPolicy_spec hkept₁.utf8
        have hgrown : ({ s' with wbuf := s'.wbuf ++ buf } : AxlStream).content
            = s.content ++ buf := by
          rw [← hcont, AxlStream.content, AxlStream.content, append_assoc]
        generalize flushPolicy { s' with wbuf := s'.wbuf ++ buf } = r₂ at hcont₂ hkept₂
        obtain ⟨rc₂, s₂⟩ := r₂
        have hkeep := hkept₁.trans hkept₂
        cases rc₂ with
        | err =>
          refine ⟨?_, hkeep, hplain _ hkeep hmode⟩
          dsimp only at hcont₂ ⊢
          rw [if_pos hyes, hcont₂, hgrown]
        | ok =>
          refine ⟨?_, hkeep, hplain _ hkeep hmode⟩
          dsimp only at hcont₂ ⊢
          rw [take_length, hcont₂, hgrown]

theorem axlFflush_spec (h : Plain s) :
    (axlFflush s).2.content = s.content ∧ Kept s (axlFflush s).2 ∧ Plain (axlFflush s).2 := by
  obtain ⟨hcont, hempty, hkept⟩ := streamDrain_spec h
  have hplain : Plain (streamDrain s).2 := by
    refine ⟨hkept.utf8, fun hm => ?_⟩
    have hnone : s.bufMode = .none := hkept.mode.symm.trans hm
    rw [streamDrain, if_neg (fun hd => hd.1 hnone)]
    exact h.unbuffered hnone
  rw [axlFflush]
  generalize streamDrain s = r at hcont hempty hkept hplain
  obtain ⟨rc, s'⟩ := r
  cases rc with
  | err => exact ⟨hcont, hkept, hplain⟩
  | ok =>
    dsimp only at hcont hkept hplain ⊢
    cases s'.sink.flush with
    | none => exact ⟨hcont, hkept, hplain⟩
    | some flush =>
      exact ⟨hcont, ⟨hkept.utf8, hkept.mode, hkept.cap, hkept.teed⟩, hplain.utf8,
        hplain.unbuffered⟩

theorem axlStreamSetBuffering_spec (h : Plain s) (mode : AxlStreamBuffering) (size : Nat)
    (granted : Bool) :
    (axlStreamSetBuffering s mode size granted).2.content = s.content ∧
      Plain (axlStreamSetBuffering s mode size granted).2 ∧
      (Teed s → Teed (axlStreamSetBuffering s mode size granted).2) := by
  obtain ⟨hcont, hempty, hkept⟩ := streamDrain_spec h
  rw [axlStreamSetBuffering]
  have hplain : ∀ s', (.err, s') = streamDrain s → Plain s' := by
    intro s' hs'
    refine ⟨by simpa [← hs'] using hkept.utf8, fun hm => ?_⟩
    have hnone : s.bufMode = .none := by
      rw [← hkept.mode, ← hs']
      exact hm
    rw [streamDrain, if_neg (fun hd => hd.1 hnone)] at hs'
    cases hs'
  generalize streamDrain s = r at hcont hempty hkept hplain
  obtain ⟨rc, s'⟩ := r
  cases rc with
  | err => exact ⟨hcont, hplain s' rfl, hkept.teed⟩
  | ok =>
    have hempty := hempty rfl
    dsimp only at hcont hempty hkept ⊢
    generalize (if size = 0 then 1024 else size) = cap
    -- whatever the settings become, nothing waits
    have hsettings : ∀ cap mode, ({ s' with wbuf := [], wbufCap := cap, bufMode := mode }
        : AxlStream).content = s.content ∧
        Plain { s' with wbuf := [], wbufCap := cap, bufMode := mode } ∧
        (Teed s → Teed { s' with wbuf := [], wbufCap := cap, bufMode := mode }) := by
      intro cap mode
      refine ⟨?_, ⟨hkept.utf8, fun _ => rfl⟩, hkept.teed⟩
      rw [← hcont, AxlStream.content, AxlStream.content, hempty]
    split_ifs
    · exact hsettings 0 .none
    · exact hsettings 0 .none
    · exact hsettings cap mode

/-! ## Runs -/

/-- The calls that leave the encoding alone. -/
def Op.keepsEncoding : Op → Bool
  | .setEncoding _ => false
  | _ => true

/-- What the calls of a run contribute, in order. -/
def contributions : AxlStream → List Op → List UInt8
  | _, [] => []
  | s, .write buf :: ops => contribution s buf ++ contributions (exec s (.write buf)) ops
  | s, op :: ops => contributions (exec s op) ops

theorem run_content (h : Plain s) (ht : Teed s) {ops : List Op}
    (hops : ∀ op ∈ ops, op.keepsEncoding = true) :
    (run s ops).content = s.content ++ contributions s ops ∧ Teed (run s ops) := by
  induction ops generalizing s with
  | nil => exact ⟨(append_nil s.content).symm, ht⟩
  | cons op ops ih =>
    have hrest : ∀ op ∈ ops, op.keepsEncoding = true := fun o ho => hops o (by simp [ho])
    cases op with
    | write buf =>
      obtain ⟨hcont, hkept, hplain⟩ := axlWrite_spec h buf
      obtain ⟨hrun, hteed⟩ := ih (s := exec s (.write buf)) hplain (hkept.teed ht) hrest
      refine ⟨hrun.trans ?_, hteed⟩
      rw [contributions, ← append_assoc, exec, hcont]
    | fflush =>
      obtain ⟨hcont, hkept, hplain⟩ := axlFflush_spec h
      obtain ⟨hrun, hteed⟩ := ih (s := exec s .fflush) hplain (hkept.teed ht) hrest
      have hsame : contributions s (.fflush :: ops) = contributions (exec s .fflush) ops := rfl
      refine ⟨hrun.trans ?_, hteed⟩
      rw [hsame, exec, hcont]
    | setBuffering mode size granted =>
      obtain ⟨hcont, hplain, hteed₁⟩ := axlStreamSetBuffering_spec h mode size granted
      obtain ⟨hrun, hteed⟩ := ih (s := exec s (.setBuffering mode size granted)) hplain
        (hteed₁ ht) hrest
      have hsame : contributions s (.setBuffering mode size granted :: ops)
          = contributions (exec s (.setBuffering mode size granted)) ops := rfl
      refine ⟨hrun.trans ?_, hteed⟩
      rw [hsame, exec, hcont]
    | setEncoding enc => exact absurd (hops (.setEncoding enc) (by simp)) (by simp [Op.keepsEncoding])

/-- A UTF-8 stream as it is opened on a backend, teed or not. -/
def AxlStream.opened (answer : Nat → List UInt8 → Option Nat) (flush : Option (Nat → Rc))
    (tee : Option Port) : AxlStream :=
  { sink := ⟨answer, flush, 0, 0, []⟩, encoding := .utf8, outPending := [], err := false,
    tee := tee.map fun p => { toPort := p, forwarded := [] },
    bufMode := .none, wbuf := [], wbufCap := 0 }

/-- **Every byte is accounted for.** For every sink, every tee and every run of
writes, flushes and changes of buffering on a UTF-8 stream: what the sink has
accepted, then what waits, is what the calls contributed; and a tee has been
passed all that the sink has accepted, and nothing else as long as the sink has
taken everything. -/
theorem run_accounts (answer : Nat → List UInt8 → Option Nat) (flush : Option (Nat → Rc))
    (tee : Option Port) (ops : List Op) (hops : ∀ op ∈ ops, op.keepsEncoding = true) :
    (run (.opened answer flush tee) ops).sink.taken ++ (run (.opened answer flush tee) ops).wbuf
        = contributions (.opened answer flush tee) ops ∧
      ∀ t ∈ (run (.opened answer flush tee) ops).tee,
        (run (.opened answer flush tee) ops).sink.taken.Sublist t.forwarded ∧
        (NeverShort (run (.opened answer flush tee) ops) →
          t.forwarded = (run (.opened answer flush tee) ops).sink.taken) := by
  have hteed : Teed (.opened answer flush tee) := by
    intro t ht
    obtain ⟨p, -, rfl⟩ := Option.map_eq_some_iff.mp ht
    exact ⟨List.Sublist.refl _, fun _ => rfl⟩
  exact run_content ⟨rfl, fun _ => rfl⟩ hteed hops

/-- Half of the first write is taken, and nothing after it. -/
theorem run_accounts_stalled :
    (∀ op ∈ ([.write [97, 98], .setBuffering .line 4 true, .write [99, 10]] : List Op),
        op.keepsEncoding = true) ∧
      (run (.opened (fun n _ => if n = 0 then some 1 else none) none none)
          [.write [97, 98], .setBuffering .line 4 true, .write [99, 10]]).sink.taken
        ++ (run (.opened (fun n _ => if n = 0 then some 1 else none) none none)
          [.write [97, 98], .setBuffering .line 4 true, .write [99, 10]]).wbuf
      = [97, 99, 10] := by
  have hops : ∀ op ∈ ([.write [97, 98], .setBuffering .line 4 true, .write [99, 10]] : List Op),
      op.keepsEncoding = true := by decide
  refine ⟨hops, ?_⟩
  rw [(run_accounts (fun n _ => if n = 0 then some 1 else none) none none _ hops).1]
  decide

/-- A line goes into the buffer, its flush fails: the call returns -1, and the
line is still there to be written; the tee has it although the sink has not. -/
theorem failed_write_queued :
    (axlWrite (run (.opened (fun _ _ => none) none
        (some ⟨⟨fun _ buf => some buf.length, none, 0, 0, []⟩, .utf8, [], false⟩))
        [.setBuffering .line 4 true]) [97, 10]).1 = none ∧
      (run (.opened (fun _ _ => none) none
        (some ⟨⟨fun _ buf => some buf.length, none, 0, 0, []⟩, .utf8, [], false⟩))
        [.setBuffering .line 4 true, .write [97, 10]]).sink.taken = [] ∧
      (run (.opened (fun _ _ => none) none
        (some ⟨⟨fun _ buf => some buf.length, none, 0, 0, []⟩, .utf8, [], false⟩))
        [.setBuffering .line 4 true, .write [97, 10]]).wbuf = [97, 10] ∧
      (run (.opened (fun _ _ => none) none
        (some ⟨⟨fun _ buf => some buf.length, none, 0, 0, []⟩, .utf8, [], false⟩))
        [.setBuffering .line 4 true, .write [97, 10]]).tee.map Tee.forwarded
        = some [97, 10] := by
  decide

/-! ## `axl_fwrite` -/

theorem Plain.run (h : Plain s) {ops : List Op} (hops : ∀ op ∈ ops, op.keepsEncoding = true) :
    Plain (run s ops) := by
  induction ops generalizing s with
  | nil => exact h
  | cons op ops ih =>
    refine ih ?_ fun o ho => hops o (mem_cons_of_mem op ho)
    cases op with
    | write buf => exact (axlWrite_spec h buf).2.2
    | fflush => exact (axlFflush_spec h).2.2
    | setBuffering mode size granted => exact (axlStreamSetBuffering_spec h mode size granted).2.1
    | setEncoding enc => cases hops (.setEncoding enc) mem_cons_self

theorem axlWrite_le (h : s.encoding = .utf8) {buf : List UInt8} {n : Nat}
    (hw : (axlWrite s buf).1 = some n) : n ≤ buf.length := by
  rw [axlWrite] at hw
  split at hw
  · cases hw
    exact Nat.zero_le _
  split at hw
  · exact (streamWriteNow_spec h buf).2.1 n hw
  rw [streamWriteBuffered] at hw
  split at hw
  · obtain ⟨-, -, hkept⟩ := streamFlushAll_spec h
    generalize streamFlushAll s = r at hw hkept
    obtain ⟨rc, s'⟩ := r
    cases rc with
    | err => cases hw
    | ok => exact (streamWriteNow_spec hkept.utf8 buf).2.1 n hw
  · cases hroom : makeRoom s buf.length with
    | mk rc s' =>
      cases hpolicy : flushPolicy { s' with wbuf := s'.wbuf ++ buf } with
      | mk rc' s'' =>
        cases rc <;> cases rc' <;> simp_all

/-- The calls contribute one part after the other, and the last may have queued all the rest
although it failed. -/
theorem fwriteLoop_spec (fuel : Nat) (h : Plain s) (buf : List UInt8) (done : Nat) :
    ∃ m ≤ buf.length, (fwriteLoop fuel s buf done).2.content = s.content ++ buf.take m ∧
      (fwriteLoop fuel s buf done).1 ≤ done + m := by
  induction fuel generalizing s buf done with
  | zero => exact ⟨0, Nat.zero_le _, (append_nil _).symm, le_rfl⟩
  | succ fuel ih =>
    rw [fwriteLoop]
    split
    case isTrue => exact ⟨0, Nat.zero_le _, (append_nil _).symm, le_rfl⟩
    case isFalse =>
      obtain ⟨hcont, -, hplain⟩ := axlWrite_spec h buf
      have hle := @axlWrite_le s h.utf8 buf
      unfold contribution at hcont
      generalize axlWrite s buf = r at hcont hplain hle
      obtain ⟨o, s'⟩ := r
      cases o with
      | none =>
        dsimp only at hcont
        split at hcont
        · exact ⟨buf.length, le_rfl, by rw [hcont, take_length], Nat.le_add_right _ _⟩
        · exact ⟨0, Nat.zero_le _, hcont, le_rfl⟩
      | some n =>
        have hn := hle rfl
        dsimp only at hcont hplain ⊢
        split
        case isTrue => exact ⟨n, hn, hcont, Nat.le_add_right _ _⟩
        case isFalse =>
          obtain ⟨k, hk, hrest, hdone⟩ := ih hplain (buf.drop n) (done + n)
          rw [length_drop] at hk
          refine ⟨n + k, by omega, ?_, by omega⟩
          rw [hrest, hcont, append_assoc, take_add]

/-- After any run, `axl_fwrite` extends the content by a first part of the buffer, without gap or
repetition, and the items it reports are whole in that part. -/
theorem fwrite_accounts (answer : Nat → List UInt8 → Option Nat) (flush : Option (Nat → Rc))
    (tee : Option Port) (ops : List Op) (hops : ∀ op ∈ ops, op.keepsEncoding = true) (size : Nat)
    (buf : List UInt8) :
    let s := run (.opened answer flush tee) ops
    ∃ m ≤ buf.length, (axlFwrite s size buf).2.content = s.content ++ buf.take m ∧
      (axlFwrite s size buf).1 * size ≤ m := by
  intro s
  have h : Plain s := Plain.run ⟨rfl, fun _ => rfl⟩ hops
  rw [axlFwrite]
  split
  case isTrue => exact ⟨0, Nat.zero_le _, (append_nil _).symm, (Nat.zero_mul size).le⟩
  case isFalse =>
    obtain ⟨m, hm, hcont, hle⟩ := fwriteLoop_spec buf.length h buf 0
    rw [Nat.zero_add] at hle
    exact ⟨m, hm, hcont, (Nat.div_mul_le_self _ _).trans hle⟩

/-- Five of eight bytes are taken: one item of four. -/
theorem fwrite_accounts_short :
    (axlFwrite (run (.opened (fun n _ => if n = 0 then some 5 else none) none none) []) 4
      [1, 2, 3, 4, 5, 6, 7, 8]).1 = 1 ∧ ∃ m ≤ 8, 1 * 4 ≤ m := by
  obtain ⟨m, hm, -, hle⟩ := fwrite_accounts (fun n _ => if n = 0 then some 5 else none) none none []
    (by simp) 4 [1, 2, 3, 4, 5, 6, 7, 8]
  exact ⟨by decide, m, hm, hle⟩

end Stream

end AxlSdk
