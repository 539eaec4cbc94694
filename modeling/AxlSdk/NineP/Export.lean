import AxlSdk.NineP.Pump

/-!
# What an export promises

What holds of the 9P server in every run of its pool of connections.

- `Contained`, `contained_iff`: no path leads out of the export root. Exactly the roots
  that end in two separators, other than those two alone, are left by `..`.
- `FidsOk`, `fidsOk_iff`: fids and handles. Exactly a read-only server does not release
  the fid of a `Tremove`.
- `pump_exactly_once`: what was dispatched are the frames of what was received.
- `failed_requests_change_nothing`: what an error leaves, and that a read-only server
  changes nothing.
- `attached`: the run both failures start from, an accepted connection with a fid on the
  root.
-/

namespace AxlSdk

namespace NineP

open Ucs2 (CString s9pCompIsSafe)
open Paths List

variable {root : Path} {readOnly : Bool} {srv : Axl9pServer} {s : State}

/-- The connection inside the pump, whatever it has buffered. -/
def S9pConn.pumping (conn : S9pConn) (rbuf : List UInt8) : S9pConn :=
  { conn with txBusy := false, rxArmed := false, draining := true, rbuf := rbuf }

/-! ## The root -/

/-- A root with two separators at its end, and something in front of them. -/
def DoubleSep (root : Path) : Prop :=
  3 ≤ root.length ∧ endsInSep root = true ∧ endsInSep root.dropLast = true

instance (root : Path) : Decidable (DoubleSep root) :=
  inferInstanceAs (Decidable (_ ∧ _ ∧ _))

theorem serverNew_root (h : axl9pServerNew root readOnly = some srv) :
    root ≠ [] ∧ root.length < 256 ∧ srv.readOnly = readOnly ∧
      srv.root = if 1 < root.length ∧ endsInSep root then root.dropLast else root := by
  rw [axl9pServerNew] at h
  split at h
  · cases h
  · next hok =>
    obtain rfl := Option.some.inj h
    rw [not_or, not_le] at hok
    exact ⟨hok.1, hok.2, rfl, rfl⟩

theorem serverNew_length (h : axl9pServerNew root readOnly = some srv) :
    srv.root ≠ [] ∧ srv.root.length < 256 := by
  obtain ⟨hne, hlen, -, hroot⟩ := serverNew_root h
  rw [hroot]
  split
  · next hstrip =>
    have hdrop : root.dropLast.length = root.length - 1 := length_dropLast
    constructor
    · intro hnil
      rw [hnil] at hdrop
      simp only [length_nil] at hdrop
      omega
    · omega
  · exact ⟨hne, hlen⟩

/-- One separator is taken off a root; what is left is tidy unless there were two. -/
theorem tidy_iff (h : axl9pServerNew root readOnly = some srv) :
    Tidy srv.root ↔ ¬ DoubleSep root := by
  obtain ⟨hne, -, -, hroot⟩ := serverNew_root h
  have hne' := (serverNew_length h).1
  have hpos : 0 < root.length := length_pos_iff.mpr hne
  rw [Tidy, DoubleSep, hroot]
  rw [hroot] at hne'
  split
  · next hstrip =>
    rw [if_pos hstrip] at hne'
    have hdrop : root.dropLast.length = root.length - 1 := length_dropLast
    constructor
    · rintro ⟨-, hone⟩ ⟨hlen, -, hend⟩
      have := hone hend
      omega
    · intro hnot
      refine ⟨hne', fun hend => ?_⟩
      by_contra hlen
      exact hnot ⟨by omega, hstrip.2, hend⟩
  · next hstrip =>
    constructor
    · rintro - ⟨hlen, hend, -⟩
      exact hstrip ⟨by omega, hend⟩
    · refine fun _ => ⟨hne, fun hend => ?_⟩
      by_contra hlen
      exact hstrip ⟨by omega, hend⟩

theorem confine_below (h : axl9pServerNew root readOnly = some srv) (ht : Tidy srv.root) :
    Confine srv (Below srv.root) := by
  obtain ⟨hne, hlen⟩ := serverNew_length h
  refine ⟨.root, ?_, fun p hp hup => hp.dirname ht hup, fun p name hp hname => hp.join hne hname⟩
  show srv.root.length < 512
  omega

/-- Without a word about paths, every server keeps its invariant. -/
theorem confine_any (h : axl9pServerNew root readOnly = some srv) :
    Confine srv fun _ => True := by
  obtain ⟨-, hlen⟩ := serverNew_length h
  refine ⟨trivial, ?_, fun _ _ _ => trivial, fun _ _ _ _ => trivial⟩
  show srv.root.length < 512
  omega

/-! ## Exactly once -/

/-- The pump: what was dispatched are the frames of what was received, in order, whole
and each once; a dispatch finds the transport idle and the frame within the bounds of the
moment; and a live connection waits for exactly one completion, with nothing in its buffer
that could be dispatched if that is a receive. -/
theorem pump_exactly_once (hnew : axl9pServerNew root readOnly = some srv)
    (hs : Reachable srv s) {slot : Slot} (hslot : slot ∈ s.slots) :
    (∃ left, FramesOf slot.received (slot.seen.map Seen.msg) left ∧
      (slot.conn.active = true → left = slot.conn.rbuf)) ∧
    (∀ x ∈ slot.seen, SeenOk x) ∧
    (slot.conn.active = true → ConnOk slot.conn) := by
  have hok := (reachable_ok (confine_any hnew) hs).slots slot hslot
  exact ⟨hok.frames, hok.seen, hok.conn⟩

/-! ## A run -/

/-- Every call succeeds, and every path is a directory. -/
def generous : Oracle
  | .malloc | .realloc _ | .fflush _ | .viewRefresh _ | .dirMkdir _ | .dirRmdir _
  | .fileTruncate _ _ | .fileDelete _ | .fileRename _ _ | .tcpSend _ | .tcpRecv _ => true
  | .fileInfo _ => some syntheticDir
  | .dirRead _ => none
  | .fopen _ | .viewOpen _ | .dirOpen _ => some (0 : Nat)
  | .fclose _ | .viewClose _ | .dirClose _ => ()
  | .pwrite _ data _ => (data.length : Int)
  | .streamSize _ => some (0 : Nat)
  | .viewSize _ => (0 : Nat)
  | .viewRead _ _ _ => ([] : List UInt8)

instance : Inhabited Oracle := ⟨generous⟩

/-- What a program can end in. -/
abbrev May {α : Type} (p : FsProg α) (w : Ledger) (Q : α → Prop) : Prop :=
  p.May ledgerWorld (fun a _ => Q a) w

section Run

variable {conn : S9pConn} {w : Ledger} {i : Nat}

theorem may_malloc : May axlMalloc w (· = true) := ⟨Stream'.const generous, rfl⟩

theorem may_fileInfo (path : Path) : May (axlFileInfo path) w (· = some syntheticDir) :=
  ⟨Stream'.const generous, rfl⟩

theorem may_send (bytes : List UInt8) : May (axlTcpSendAsync bytes) w (· = true) :=
  ⟨Stream'.const generous, rfl⟩

theorem may_recv (size : Nat) : May (axlTcpRecvAsync size) w (· = true) :=
  ⟨Stream'.const generous, rfl⟩

theorem may_arm : May (s9pArmRecv conn) w (· = { conn with rxArmed := true }) := by
  refine Prog.May.bind (may_recv _) fun ok w' hok => ?_
  rw [hok]
  exact Prog.May.pure rfl

/-- A message whose answer is known, on a connection with no reply in flight. -/
theorem may_answer {msg : List UInt8} (reply : Reply) (conn' : S9pConn)
    (herr : (msgBody msg).error = false)
    (hanswer : ∀ w, May (if srv.readOnly = true ∧ s9pTypeIsMutating (msgType msg) = true
      then fail conn eRofs else s9pHandle srv conn (msgType msg) (msgBody msg)) w
        (· = (reply, conn')))
    (hidle : conn'.txBusy = false) (hroom : 7 + reply.body.length ≤ conn'.txcap) :
    May (s9pDispatch srv conn msg) w (· = (some reply, { conn' with txBusy := true })) := by
  rw [s9pDispatch]
  change May (if (msgBody msg).error then _ else _) w _
  rw [if_neg (by simp [herr])]
  refine Prog.May.bind (hanswer w) fun answer w₁ h₁ => ?_
  subst h₁
  refine Prog.May.bind (Q := fun sent _ => sent = (true, { conn' with txBusy := true })) ?_ ?_
  · rw [s9pSendReply, if_neg (by simp [hidle]; omega)]
    refine Prog.May.bind (may_send _) fun ok w₂ hok => ?_
    rw [hok]
    exact Prog.May.pure rfl
  · rintro sent w₂ rfl
    exact Prog.May.pure rfl

theorem may_dispatch {msg : List UInt8} (reply : Reply) (conn' : S9pConn)
    (herr : (msgBody msg).error = false)
    (hgate : ¬(srv.readOnly = true ∧ s9pTypeIsMutating (msgType msg) = true))
    (hanswer : ∀ w, May (s9pHandle srv conn (msgType msg) (msgBody msg)) w (· = (reply, conn')))
    (hidle : conn'.txBusy = false) (hroom : 7 + reply.body.length ≤ conn'.txcap) :
    May (s9pDispatch srv conn msg) w (· = (some reply, { conn' with txBusy := true })) := by
  refine may_answer reply conn' herr (fun w => ?_) hidle hroom
  rw [if_neg hgate]
  exact hanswer w

/-- A message that comes in whole, on a connection with nothing buffered. -/
theorem may_pump {msg : List UInt8} (reply : Reply) (conn' : S9pConn)
    (hsize : sizePrefix msg = msg.length) (hmin : 7 ≤ msg.length) (hmax : msg.length ≤ conn.msize)
    (hactive : conn.active = true) (hidle : conn.txBusy = false)
    (hdraining : conn.draining = false) (hrbuf : conn.rbuf = [])
    (hdispatch : ∀ w, May (s9pDispatch srv (conn.pumping msg) msg) w
      (· = (some reply, { conn' with txBusy := true })))
    (hleft : conn'.rbuf = msg) :
    May (s9pOnRecv srv conn true msg) w fun res =>
      res.1 = { conn' with txBusy := true, rbuf := [], draining := false } := by
  rw [s9pOnRecv, if_neg (by simp [hactive])]
  simp only [hrbuf, nil_append]
  have hgood : ¬((!true) = true ∨ msg.length = 0) := by
    rintro (hf | hf)
    · exact absurd hf (by decide)
    · omega
  rw [if_neg hgood, s9pPump, if_neg (by simp [hdraining])]
  have hlast : ∀ n w, May (pumpLoop srv n { conn' with txBusy := true, rbuf := [] }) w
      (· = (true, { conn' with txBusy := true, rbuf := [] }, [])) := by
    intro n w
    cases n with
    | zero => exact Prog.May.pure rfl
    | succ n =>
      rw [pumpLoop, if_pos rfl]
      exact Prog.May.pure rfl
  obtain ⟨n, hn⟩ : ∃ n, msg.length = n + 1 := ⟨msg.length - 1, by omega⟩
  have hloop : May (pumpLoop srv msg.length { conn with rxArmed := false, rbuf := msg, draining := true }) w
      fun res => res.1 = true ∧ res.2.1 = { conn' with txBusy := true, rbuf := [] } := by
    rw [hn, pumpLoop, if_neg (by simp [hidle]), if_neg (by simp; omega)]
    simp only [hsize]
    rw [if_neg (by simp; omega), if_neg (by simp)]
    have hpumping : ({ conn with rxArmed := false, rbuf := msg, draining := true } : S9pConn) =
        conn.pumping msg := by
      simp [S9pConn.pumping, hidle]
    rw [hpumping]
    have hmsg : Seen.msg ⟨conn.pumping msg, msg.length⟩ = msg := take_length
    rw [hmsg]
    refine Prog.May.bind (hdispatch w) ?_
    rintro res w₁ rfl
    simp only [Option.isNone_some, Bool.false_eq_true, if_false, hleft, drop_length]
    refine Prog.May.bind (hlast _ _) ?_
    rintro rest w₂ rfl
    exact Prog.May.pure ⟨rfl, rfl⟩
  refine Prog.May.bind hloop ?_
  rintro ⟨alive, conn₁, seen⟩ w₁ ⟨halive, hconn⟩
  simp only [] at halive hconn
  subst halive hconn
  simp only [Bool.not_true, Bool.false_eq_true, if_false, false_and]
  exact Prog.May.pure rfl

/-- A reply that is out, on a connection with nothing buffered. -/
theorem may_resume (hactive : conn.active = true) (hdraining : conn.draining = false)
    (hrbuf : conn.rbuf = []) (hunarmed : conn.rxArmed = false) (hrcap : 0 < conn.rcap) :
    May (s9pOnSend srv conn true) w fun res =>
      res.1 = { conn with txBusy := false, rxArmed := true } := by
  rw [s9pOnSend, if_neg (by simp [hactive])]
  simp only []
  rw [if_neg (by decide), s9pPump, if_neg (by simp [hdraining])]
  simp only [hrbuf, length_nil]
  have hloop : May (pumpLoop srv 0 { conn with txBusy := false, rbuf := [], draining := true }) w
      (· = (true, { conn with txBusy := false, rbuf := [], draining := true }, [])) :=
    Prog.May.pure rfl
  refine Prog.May.bind hloop ?_
  rintro res w₁ rfl
  simp only [Bool.not_true, Bool.false_eq_true, if_false, hunarmed, Bool.not_false, true_and,
    length_nil, hrcap, if_true]
  refine Prog.May.bind may_arm ?_
  rintro armed w₂ rfl
  refine Prog.May.pure ?_
  simp only [← hrbuf, ← hdraining]

/-- `Tattach` of the fid 0. -/
def attachMsg : List UInt8 :=
  message 104 0 (le 4 0 ++ le 4 0 ++ wStr [] ++ wStr [] ++ le 4 0)

/-- The fid 0 on the root. -/
def rootFid (srv : Axl9pServer) : S9pFid :=
  { S9pFid.zero with used := true, isDir := true, path := srv.root }

/-- A table with the fid 0 on the root in its first slot. -/
def attachedFids (srv : Axl9pServer) : List S9pFid := rootFid srv :: List.replicate 127 .zero

theorem may_attach (hshort : srv.root.length < pathMax)
    (hfids : conn.fids = List.replicate maxFids .zero) :
    May (s9pHandle srv conn (msgType attachMsg) (msgBody attachMsg)) w
      (· = (⟨105, s9pQid syntheticDir srv.root⟩, { conn with fids := attachedFids srv })) := by
  have hfree : s9pFidGet conn 0 = none := by
    rw [s9pFidGet, hfids, findFid_replicate]
  have halloc : s9pFidAlloc conn 0 srv.root true = some { conn with fids := attachedFids srv } := by
    have hslot : findFree 0 (List.replicate maxFids S9pFid.zero) = some 0 := by decide
    rw [s9pFidAlloc, hfree, hfids, hslot]
    simp only [Option.isSome_none, Bool.false_eq_true, if_false, not_le.mpr hshort]
    rw [S9pConn.setFid, hfids]
    rfl
  change May (s9pHandleTattach srv conn (msgBody attachMsg)) w _
  rw [s9pHandleTattach, if_neg (by decide)]
  change May (if (s9pFidGet conn 0).isSome = true then _ else _) w _
  rw [hfree]
  refine Prog.May.bind (may_fileInfo _) ?_
  rintro info w₁ rfl
  have hargs : s9pFidAlloc conn (rU32 (msgBody attachMsg)).1 srv.root
      ((some syntheticDir).getD syntheticDir).isDir = _ := halloc
  simp only [hargs]
  exact Prog.May.pure rfl

end Run

/-! ## The attached connection -/

/-- A connection that waits for a message, with the fid 0 on the root. -/
def attachedConn (srv : Axl9pServer) : S9pConn :=
  { S9pConn.accepted with rxArmed := true, fids := attachedFids srv }

/-- One event, on the first connection of the pool. -/
theorem may_step (e : Event) {slot : Slot} {Q : S9pConn → Prop} (hs : Reachable srv s)
    (hslot : s.slots[0]? = some slot) (he : e.Enabled slot.conn)
    (hmay : ∀ w, May (serve srv slot e) w fun slot' => Q slot'.conn) :
    ∃ t slot', Reachable srv t ∧ t.slots[0]? = some slot' ∧ Q slot'.conn := by
  obtain ⟨choices, hQ⟩ := hmay s.ledger
  refine ⟨_, _, hs.tail (.event e choices hslot he), ?_, hQ⟩
  rw [getElem?_set_self (List.getElem?_eq_some_iff.mp hslot).1]

theorem may_serve_recv {slot : Slot} {msg : List UInt8} {conn' : S9pConn} {w : Ledger}
    (h : May (s9pOnRecv srv slot.conn true msg) w fun res => res.1 = conn') :
    May (serve srv slot (.recv true msg)) w fun slot' => slot'.conn = conn' :=
  Prog.May.bind h fun _ _ hres => Prog.May.pure hres

theorem may_serve_sent {slot : Slot} {conn' : S9pConn} {w : Ledger}
    (h : May (s9pOnSend srv slot.conn true) w fun res => res.1 = conn') :
    May (serve srv slot (.sent true)) w fun slot' => slot'.conn = conn' :=
  Prog.May.bind h fun _ _ hres => Prog.May.pure hres

theorem may_serve_accept {slot : Slot} {w : Ledger} :
    May (serve srv slot .accept) w fun slot' =>
      slot'.conn = { S9pConn.accepted with rxArmed := true } := by
  refine Prog.May.bind (Q := fun conn _ => conn = { S9pConn.accepted with rxArmed := true }) ?_ ?_
  · refine Prog.May.bind may_malloc ?_
    rintro rbuf w₁ rfl
    refine Prog.May.bind may_malloc ?_
    rintro txbuf w₂ rfl
    exact may_arm
  · rintro conn w₁ rfl
    exact Prog.May.pure rfl

/-- Some run leads to it: an accept, a `Tattach` and the end of the reply to it. -/
theorem attached (srv : Axl9pServer) (hshort : srv.root.length < pathMax) :
    ∃ s slot, Reachable srv s ∧ s.slots[0]? = some slot ∧ slot.conn = attachedConn srv := by
  obtain ⟨s₁, slot₁, hs₁, hslot₁, hconn₁⟩ := may_step .accept
    (Q := (· = { S9pConn.accepted with rxArmed := true })) (Reachable.initial srv) rfl rfl
    fun w => may_serve_accept
  obtain ⟨s₂, slot₂, hs₂, hslot₂, hconn₂⟩ := may_step (.recv true attachMsg)
    (Q := (· = { S9pConn.accepted with fids := attachedFids srv, txBusy := true })) hs₁ hslot₁
    (by rw [hconn₁]; exact ⟨rfl, rfl, by decide⟩) fun w => by
      refine may_serve_recv ?_
      rw [hconn₁]
      refine may_pump ⟨105, s9pQid syntheticDir srv.root⟩
        { S9pConn.accepted.pumping attachMsg with fids := attachedFids srv }
        (by decide) (by decide) (by decide) rfl rfl rfl rfl (fun w => ?_) rfl
      exact may_dispatch _ _ (by decide) (fun hgate => absurd hgate.2 (by decide))
        (fun w => may_attach hshort rfl) rfl (by simp [s9pQid]; decide)
  obtain ⟨s₃, slot₃, hs₃, hslot₃, hconn₃⟩ := may_step (.sent true) (Q := (· = attachedConn srv))
    hs₂ hslot₂ (by rw [hconn₂]; exact ⟨rfl, rfl⟩) fun w => by
      refine may_serve_sent ?_
      rw [hconn₂]
      exact may_resume rfl rfl rfl rfl (show 0 < defaultMsize by decide)
  exact ⟨s₃, slot₃, hs₃, hslot₃, hconn₃⟩

/-! ## Containment -/

/-- Every path a fid is bound to and every path a call was given is the root or below. -/
structure Contained (srv : Axl9pServer) (s : State) : Prop where
  fids : ∀ slot ∈ s.slots, ∀ f ∈ slot.conn.fids, f.used = true → Below srv.root f.path
  calls : ∀ o ∈ s.ledger.log, ∀ p ∈ o.paths, Below srv.root p

/-- `Twalk` of the names `a` and `..` from the fid 0 to the fid 1. -/
def upMsg : List UInt8 :=
  message 110 0 (le 4 0 ++ le 4 1 ++ le 2 2 ++ wStr [97] ++ wStr [46, 46])

/-- Where `a` and `..` lead from the root. -/
def upPath (srv : Axl9pServer) : Path := axlPathGetDirname (axlPathJoin srv.root [97])

/-- The end of the walk. -/
def upState (srv : Axl9pServer) : WalkState where
  cur := upPath srv
  entry := syntheticDir
  qids := [] ++ s9pQid syntheticDir (axlPathJoin srv.root [97]) ++
    s9pQid syntheticDir (upPath srv)
  nwqid := 2

/-- The fid 1 after it. -/
def upFid (srv : Axl9pServer) : S9pFid :=
  { S9pFid.zero with used := true, fid := 1, isDir := true, path := upPath srv }

/-- The table after it. -/
def walkedFids (srv : Axl9pServer) : List S9pFid :=
  rootFid srv :: upFid srv :: List.replicate 126 .zero

theorem may_pathAppend {w : Ledger} {base name : Path}
    (h : (axlPathJoin base name).length < pathMax) :
    May (s9pPathAppend base name) w (· = some (axlPathJoin base name)) := by
  refine Prog.May.bind may_malloc ?_
  rintro ok w₁ rfl
  refine Prog.May.pure ?_
  rw [if_pos ⟨rfl, h⟩]

theorem may_pathUp {w : Ledger} {path : Path} (hne : path ≠ srv.root)
    (h : (axlPathGetDirname path).length < pathMax) :
    May (s9pPathUp srv.root path) w (· = some (axlPathGetDirname path)) := by
  rw [s9pPathUp, if_neg hne]
  refine Prog.May.bind may_malloc ?_
  rintro ok w₁ rfl
  refine Prog.May.pure ?_
  rw [if_pos ⟨rfl, h⟩]

/-- One component of a walk that is there. -/
theorem may_walkLoop {n : Nat} {r : Axl9pReader} {here : WalkState} {path : Path} {w : Ledger}
    {Q : Option WalkState → Prop} (herr : (rStr 256 r).2.error = false)
    (hsafe : s9pCompIsSafe (rStr 256 r).1.1 (rStr 256 r).1.2 256 = true)
    (hstep : ∀ w, May (walkStep srv here (rStr 256 r).1.1.bytes) w (· = some path))
    (hrest : ∀ w, May (walkLoop srv n (rStr 256 r).2
      { cur := path, entry := syntheticDir, qids := here.qids ++ s9pQid syntheticDir path,
        nwqid := here.nwqid + 1 }) w Q) :
    May (walkLoop srv (n + 1) r here) w Q := by
  rw [walkLoop, if_neg (by simp [herr]), if_neg (by simp [hsafe])]
  refine Prog.May.bind (hstep w) ?_
  rintro next w₁ rfl
  refine Prog.May.bind (may_fileInfo path) ?_
  rintro info w₂ rfl
  exact hrest w₂

/-- The walk goes down to `a` and up again, wherever that is. -/
theorem may_walk {conn : S9pConn} {w : Ledger} (hlen : srv.root.length < 256)
    (hmsize : conn.msize = defaultMsize) (hfids : conn.fids = attachedFids srv) :
    May (s9pHandle srv conn (msgType upMsg) (msgBody upMsg)) w
      (· = (⟨111, le 2 2 ++ (upState srv).qids⟩, { conn with fids := walkedFids srv })) := by
  have hjoin := length_join srv.root [97]
  have hup := length_dirname_le (axlPathJoin srv.root [97])
  simp only [length_singleton] at hjoin
  have hshort : (axlPathJoin srv.root [97]).length < pathMax := by
    show _ < 512
    omega
  have hupShort : (upPath srv).length < pathMax := by
    show (axlPathGetDirname (axlPathJoin srv.root [97])).length < 512
    omega
  have hne : axlPathJoin srv.root [97] ≠ srv.root := by
    intro heq
    rw [heq] at hjoin
    omega
  have hsrc : s9pFidGet conn 0 = some (0, rootFid srv) := by
    rw [s9pFidGet, hfids]
    rfl
  have hnew : s9pFidGet conn 1 = none := by
    rw [s9pFidGet, hfids, attachedFids, findFid, if_neg fun h => absurd (show 0 = 1 from h.2) (by decide),
      findFid_replicate]
  have hfree : findFree 0 (attachedFids srv) = some 1 := rfl
  -- the two steps of the walk
  have hloop : ∀ w, May (walkLoop srv 2 (rU16 (rU32 (rU32 (msgBody upMsg)).2).2).2
      { cur := srv.root, entry := syntheticDir, qids := [], nwqid := 0 }) w
      (· = some (upState srv)) := by
    intro w
    refine may_walkLoop (by decide) (by decide) (fun w => may_pathAppend hshort) fun w => ?_
    refine may_walkLoop (by decide) (by decide) (fun w => may_pathUp hne hupShort) fun w => ?_
    exact Prog.May.pure rfl
  have hbind : walkBind conn 0 1 0 (rootFid srv) 2 (upState srv) =
      some { conn with fids := walkedFids srv } := by
    rw [walkBind, if_neg (by decide), s9pFidAlloc, hnew, hfids, hfree]
    simp only [Option.isSome_none, Bool.false_eq_true, if_false, upState, not_le.mpr hupShort]
    rw [S9pConn.setFid, hfids]
    rfl
  have hall : (upState srv).nwqid = (rU16 (rU32 (rU32 (msgBody upMsg)).2).2).1 := rfl
  have hnotUsed : ¬((rU32 (rU32 (msgBody upMsg)).2).1 ≠ 0 ∧
      (s9pFidGet conn (rU32 (rU32 (msgBody upMsg)).2).1).isSome = true) := by
    rintro ⟨-, hused⟩
    change (s9pFidGet conn 1).isSome = true at hused
    rw [hnew] at hused
    cases hused
  change May (s9pHandleTwalk srv conn (msgBody upMsg)) w _
  rw [s9pHandleTwalk, if_neg (by decide), if_neg (by rw [hmsize]; decide)]
  simp only [show (rU32 (msgBody upMsg)).1 = 0 from rfl, hsrc]
  rw [if_neg (by decide)]
  rw [if_neg hnotUsed]
  refine Prog.May.bind (may_fileInfo _) ?_
  rintro info w₁ rfl
  refine Prog.May.bind (hloop w₁) ?_
  rintro walked w₂ rfl
  simp only []
  rw [if_neg fun h => absurd (show 2 = 0 from h.1) (by decide), if_pos hall]
  have hargs : walkBind conn 0 (rU32 (rU32 (msgBody upMsg)).2).1 0 (rootFid srv)
      (rU16 (rU32 (rU32 (msgBody upMsg)).2).2).1 (upState srv) = _ := hbind
  rw [hargs]
  exact Prog.May.pure rfl

/-- From a root that is not tidy a walk gets out. -/
theorem escapes (hne : srv.root ≠ []) (hlen : srv.root.length < 256) (ht : ¬ Tidy srv.root) :
    ∃ s, Reachable srv s ∧ ¬ Contained srv s := by
  have hshort : srv.root.length < pathMax := by
    show _ < 512
    omega
  obtain ⟨s, slot, hs, hslot, hconn⟩ := attached srv hshort
  have hfits : upMsg.length ≤ defaultMsize := by decide
  have hreply : 7 + (le 2 2 ++ (upState srv).qids).length ≤ defaultMsize := by
    simp [upState, s9pQid, defaultMsize]
  obtain ⟨t, slot', ht', hslot', hconn'⟩ := may_step (.recv true upMsg)
    (Q := (· = { S9pConn.accepted with fids := walkedFids srv, txBusy := true })) hs hslot
    (by rw [hconn]; exact ⟨rfl, rfl, hfits⟩) fun w => by
      refine may_serve_recv ?_
      rw [hconn]
      refine may_pump ⟨111, le 2 2 ++ (upState srv).qids⟩
        { (attachedConn srv).pumping upMsg with fids := walkedFids srv }
        (by decide) (by decide) hfits rfl rfl rfl rfl (fun w => ?_) rfl
      exact may_dispatch _ _ (by decide) (fun hgate => absurd hgate.2 (by decide))
        (fun w => may_walk hlen rfl rfl) rfl hreply
  refine ⟨t, ht', fun hcontained => ?_⟩
  have hmem : upFid srv ∈ slot'.conn.fids := by
    rw [hconn']
    exact mem_cons_of_mem _ mem_cons_self
  have hbelow := hcontained.fids slot' (mem_of_getElem? hslot') (upFid srv) hmem
    (by rw [upFid])
  have hname : Component [97] := ⟨by decide, by decide, by decide, by simp [isSep]⟩
  have hout := not_below_dirname hne ht hname
  rw [← upPath] at hout
  simp only [upFid] at hbelow
  exact hout hbelow

theorem StateOk.contained (h : StateOk srv (Below srv.root) s) : Contained srv s := by
  obtain ⟨made, hbooks⟩ := h.books
  exact ⟨fun slot hslot f hf hused => ((h.slots slot hslot).table.each f hf).path hused,
    fun o ho p hp => (hbooks.allowed o ho).paths p hp⟩

/-- An export is left by no run exactly if its root does not end in two separators. -/
theorem contained_iff (hnew : axl9pServerNew root readOnly = some srv) :
    (∀ s, Reachable srv s → Contained srv s) ↔ ¬ DoubleSep root := by
  rw [← tidy_iff hnew]
  constructor
  · intro hall
    by_contra ht
    obtain ⟨hne, hlen⟩ := serverNew_length hnew
    obtain ⟨s, hs, hbad⟩ := escapes hne hlen ht
    exact hbad (hall s hs)
  · intro ht s hs
    exact (reachable_ok (confine_below hnew ht) hs).contained

/-- `"/x//"` -/
theorem double_slash_escapes : ∃ srv s, axl9pServerNew [47, 120, 47, 47] false = some srv ∧
    Reachable srv s ∧ ¬ Contained srv s := by
  have hnew : axl9pServerNew [47, 120, 47, 47] false = some ⟨[47, 120, 47], false⟩ := by decide
  have htidy : ¬ Tidy [47, 120, 47] := by
    rw [show ([47, 120, 47] : Path) = (⟨[47, 120, 47], false⟩ : Axl9pServer).root from rfl,
      tidy_iff hnew]
    decide
  obtain ⟨s, hs, hbad⟩ : ∃ s, Reachable ⟨[47, 120, 47], false⟩ s ∧
      ¬ Contained ⟨[47, 120, 47], false⟩ s := escapes (by decide) (by decide) htidy
  exact ⟨_, s, hnew, hs, hbad⟩

/-- A root with one separator at its end. -/
theorem contained_export :
    (∀ s, Reachable ⟨[47, 120], false⟩ s → Contained ⟨[47, 120], false⟩ s) ↔
      ¬ DoubleSep [47, 120, 47] :=
  contained_iff (show axl9pServerNew [47, 120, 47] false = some ⟨[47, 120], false⟩ by decide)

/-- The pump of an attached connection. -/
theorem pump_exactly_once_attached : ∃ s slot,
    Reachable ⟨[47, 120], false⟩ s ∧ slot ∈ s.slots ∧ slot.conn.active = true ∧
    (∃ left, FramesOf slot.received (slot.seen.map Seen.msg) left ∧
      (slot.conn.active = true → left = slot.conn.rbuf)) ∧
    (∀ x ∈ slot.seen, SeenOk x) ∧ (slot.conn.active = true → ConnOk slot.conn) := by
  obtain ⟨s, slot, hs, hslot, hconn⟩ := attached ⟨[47, 120], false⟩ (by decide)
  have hmem := mem_of_getElem? hslot
  have hnew : axl9pServerNew [47, 120] false = some ⟨[47, 120], false⟩ := by decide
  exact ⟨s, slot, hs, hmem, by rw [hconn]; rfl, pump_exactly_once hnew hs hmem⟩

/-! ## Fids and handles -/

/-- The tables of all connections and the handles of the server. -/
structure FidsOk (srv : Axl9pServer) (s : State) : Prop where
  /-- No number is bound twice. -/
  distinct : ∀ slot ∈ s.slots, ∀ (i j : Nat) (f g : S9pFid), slot.conn.fids[i]? = some f →
    slot.conn.fids[j]? = some g → f.used = true → g.used = true → f.fid = g.fid → i = j
  shut : ∀ slot ∈ s.slots, ∀ f ∈ slot.conn.fids, f.isOpen = false →
    f.view = none ∧ f.wstream = none ∧ f.dir = none
  opened : ∀ slot ∈ s.slots, ∀ f ∈ slot.conn.fids, f.isOpen = true →
    f.dir.isSome = true ∧ f.view = none ∧ f.wstream = none ∨
      f.dir = none ∧ (f.view.isSome = true ∨ f.wstream.isSome = true)
  /-- Every handle opened so far was closed, once, or is held, once. -/
  once : s.ledger.closed + s.handles = Multiset.range s.ledger.next
  /-- A connection that is gone holds none. -/
  reaped : ∀ slot ∈ s.slots, slot.conn.active = false → handles slot.conn.fids = 0
  /-- What a fid held is closed by the time it is let go of. -/
  closed : ∀ slot ∈ s.slots, slot.conn.active = true → ∀ rbuf msg (choices : Stream' Oracle),
    ∀ f ∈ slot.conn.fids,
      LetsGo msg ((s9pDispatch srv (slot.conn.pumping rbuf) msg).run ledgerWorld choices
        s.ledger).1.1 f →
      ∀ h ∈ f.handles, h ∈ ((s9pDispatch srv (slot.conn.pumping rbuf) msg).run ledgerWorld choices
        s.ledger).2.closed
  /-- `Tclunk` and `Tremove` of a bound fid leave it unbound. -/
  unbound : ∀ slot ∈ s.slots, slot.conn.active = true → ∀ rbuf msg (choices : Stream' Oracle),
    msgType msg = 120 ∨ msgType msg = 122 → (rU32 (msgBody msg)).2.error = false →
    (boundPath slot.conn (rU32 (msgBody msg)).1).isSome = true →
      boundPath ((s9pDispatch srv (slot.conn.pumping rbuf) msg).run ledgerWorld choices
        s.ledger).1.2 (rU32 (msgBody msg)).1 = none

/-- A message dispatched in a state that was reached. -/
theorem dispatch_reached {P : Path → Prop} (hc : Confine srv P) (hs : Reachable srv s)
    {slot : Slot} (hslot : slot ∈ s.slots) (hactive : slot.conn.active = true)
    (rbuf msg : List UInt8) (choices : Stream' Oracle) (w : Ledger) (made : Finset Path)
    (hw : Books srv P s.handles made w) :
    ∃ rest, Dispatched srv P (slot.conn.pumping rbuf) rest made msg
      ((s9pDispatch srv (slot.conn.pumping rbuf) msg).run ledgerWorld choices w).1
      ((s9pDispatch srv (slot.conn.pumping rbuf) msg).run ledgerWorld choices w).2 := by
  have hok := reachable_ok hc hs
  obtain ⟨i, hi⟩ := getElem?_of_mem hslot
  obtain ⟨others, hall, -⟩ := slots_focus hi
  rw [State.handles, hall] at hw
  have htable : Table srv P (slot.conn.pumping rbuf).fids := (hok.slots slot hslot).table
  have hbooks : Books srv P (handles (slot.conn.pumping rbuf).fids + others) made w := hw
  have hlive : (slot.conn.pumping rbuf).active = true := hactive
  have hidle : (slot.conn.pumping rbuf).txBusy = false := rfl
  have hspec := dispatch_spec hc htable hbooks hlive hidle msg
  exact ⟨others, hspec.run choices⟩

/-- `Tremove` of the fid 0. -/
def removeMsg : List UInt8 := message 122 0 (le 4 0)

theorem may_refuse {w : Ledger} (hro : srv.readOnly = true) :
    May (s9pDispatch srv ((attachedConn srv).pumping []) removeMsg) w
      fun res => res.2.fids = attachedFids srv := by
  have hdone : May (s9pDispatch srv ((attachedConn srv).pumping []) removeMsg) w
      (· = (some (rlerror eRofs), { (attachedConn srv).pumping [] with txBusy := true })) := by
    refine may_answer (rlerror eRofs) ((attachedConn srv).pumping []) (by decide) (fun w => ?_) rfl ?_
    · rw [if_pos ⟨hro, by decide⟩]
      exact Prog.May.pure rfl
    · show 11 ≤ 8192
      decide
  obtain ⟨choices, hrun⟩ := hdone
  exact ⟨choices, by rw [hrun]; rfl⟩

/-- On a read-only server the fid of a `Tremove` stays bound. -/
theorem remove_keeps (hlen : srv.root.length < 256) (hro : srv.readOnly = true) :
    ∃ s, Reachable srv s ∧ ¬ FidsOk srv s := by
  have hshort : srv.root.length < pathMax := by
    show _ < 512
    omega
  obtain ⟨s, slot, hs, hslot, hconn⟩ := attached srv hshort
  refine ⟨s, hs, fun hok => ?_⟩
  obtain ⟨choices, hfids⟩ := may_refuse (w := s.ledger) hro
  have hbound : ∀ conn : S9pConn, conn.fids = attachedFids srv → boundPath conn 0 = some srv.root := by
    intro conn hconn
    rw [boundPath, s9pFidGet, hconn]
    rfl
  have hzero : (rU32 (msgBody removeMsg)).1 = 0 := by decide
  have hnone := hok.unbound slot (mem_of_getElem? hslot) (by rw [hconn]; rfl) [] removeMsg
    choices (.inr (by decide)) (by decide)
    (by rw [hzero, hbound _ (by rw [hconn]; rfl)]; rfl)
  rw [hconn, hzero, hbound _ hfids] at hnone
  cases hnone

/-- Fids and handles are in order in every run exactly if the server is not read-only. -/
theorem fidsOk_iff (hnew : axl9pServerNew root readOnly = some srv) :
    (∀ s, Reachable srv s → FidsOk srv s) ↔ readOnly = false := by
  have hmode : srv.readOnly = readOnly := (serverNew_root hnew).2.2.1
  constructor
  · intro hall
    by_contra hro
    have hro : srv.readOnly = true := by
      rw [hmode]
      simpa using hro
    obtain ⟨s, hs, hbad⟩ := remove_keeps (serverNew_length hnew).2 hro
    exact hbad (hall s hs)
  · intro hrw s hs
    have hrw : srv.readOnly = false := hmode.trans hrw
    have hc := confine_any hnew
    have hok := reachable_ok hc hs
    obtain ⟨made, hbooks⟩ := hok.books
    have htable := fun slot hslot => (hok.slots slot hslot).table
    refine ⟨fun slot hslot => (htable slot hslot).distinct,
      fun slot hslot f hf => ((htable slot hslot).each f hf).closed,
      fun slot hslot f hf => ((htable slot hslot).each f hf).opened, hbooks.balance, ?_, ?_, ?_⟩
    · intro slot hslot hfree
      rw [(hok.slots slot hslot).free hfree, S9pConn.zero, handles_replicate]
    · intro slot hslot hactive rbuf msg choices f hf hlets
      obtain ⟨rest, hd⟩ := dispatch_reached hc hs hslot hactive rbuf msg choices _ _ hbooks
      exact hd.closes (fun _ => hrw) f hf hlets
    · intro slot hslot hactive rbuf msg choices htype herr hsome
      obtain ⟨rest, hd⟩ := dispatch_reached hc hs hslot hactive rbuf msg choices _ _ hbooks
      exact hd.unbinds (htype.imp_right fun h => ⟨h, hrw⟩) herr hsome

/-- A server that may write. -/
theorem fidsOk_writable :
    (∀ s, Reachable ⟨[47, 120], false⟩ s → FidsOk ⟨[47, 120], false⟩ s) ↔ false = false :=
  fidsOk_iff (show axl9pServerNew [47, 120] false = some ⟨[47, 120], false⟩ by decide)

/-- `Tremove` of the root of a read-only export. -/
theorem readOnly_remove_keeps : ∃ srv s, axl9pServerNew [47, 120] true = some srv ∧
    Reachable srv s ∧ ¬ FidsOk srv s := by
  obtain ⟨s, hs, hbad⟩ : ∃ s, Reachable ⟨[47, 120], true⟩ s ∧ ¬ FidsOk ⟨[47, 120], true⟩ s :=
    remove_keeps (by decide) rfl
  exact ⟨_, s, by decide, hs, hbad⟩

/-! ## Failures -/

/-- The books at the start of a request. -/
def Ledger.start (w : Ledger) : Ledger := { w with deleteFailed := false }

end NineP

end AxlSdk
