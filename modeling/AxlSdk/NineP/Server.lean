import AxlSdk.Lib.Calls
import AxlSdk.NineP.Codec
import AxlSdk.Util.Path

/-!
# The 9P server: fids and handlers (`axl-9p-server-*.c`)

A connection has a table of fids, each bound to a path and, once it is opened, to
handles of the file system. A handler answers one request.

- `FsOp`: the calls of the server to the file system, to the allocator and to the
  socket. The handlers are programs over them (`FsProg`), so that what the calls
  answer is chosen from outside.
- `S9pFid`, `S9pConn`: a fid and a connection, and the operations on the table.
- `s9pHandleTversion` … `s9pHandleTfsync`: the handlers. Every one of them ends in one
  reply, which `s9pDispatch` sends.

A path in a buffer of the server is shorter than `pathMax`, the one size of all of
them, so copying a path from one to another never cuts it.
-/

namespace AxlSdk

namespace NineP

open Ucs2 (CString s9pCompIsSafe)
open Paths

/-! ## Calls -/

/-- `AxlFsEntry`; the name is filled by `axl_dir_read` only. -/
structure AxlFsEntry where
  name : Path
  size : Nat
  mtimeUnix : Nat
  isDir : Bool
  readOnly : Bool
deriving DecidableEq, Repr

abbrev Handle := Nat

inductive FsOp where
  | malloc
  | realloc (size : Nat)
  | fileInfo (path : Path)
  /-- In the mode `"w"`: the file is created if it is absent and is not truncated. -/
  | fopen (path : Path)
  | fflush (h : Handle)
  | fclose (h : Handle)
  | pwrite (h : Handle) (data : List UInt8) (offset : Nat)
  /-- A seek to the end and the position there. -/
  | streamSize (h : Handle)
  | viewOpen (path : Path)
  | viewClose (h : Handle)
  | viewRefresh (h : Handle)
  | viewSize (h : Handle)
  | viewRead (h : Handle) (offset n : Nat)
  | dirOpen (path : Path)
  | dirRead (h : Handle)
  | dirClose (h : Handle)
  | dirMkdir (path : Path)
  | dirRmdir (path : Path)
  | fileTruncate (path : Path) (size : Nat)
  | fileDelete (path : Path)
  | fileRename (oldPath newPath : Path)
  | tcpSend (bytes : List UInt8)
  | tcpRecv (size : Nat)
deriving DecidableEq, Repr

/-- What a call answers. A `Bool` is whether it returned `AXL_OK`, or memory. -/
def FsOp.Answer : FsOp → Type
  | .fileInfo _ | .dirRead _ => Option AxlFsEntry
  | .fopen _ | .viewOpen _ | .dirOpen _ => Option Handle
  | .fclose _ | .viewClose _ | .dirClose _ => Unit
  | .pwrite _ _ _ => Int
  | .streamSize _ => Option Nat
  | .viewSize _ => Nat
  | .viewRead _ _ _ => List UInt8
  | _ => Bool

abbrev FsProg (α : Type) := Prog FsOp FsOp.Answer α

def axlMalloc : FsProg Bool := Prog.perform FsOp.malloc

def axlRealloc (size : Nat) : FsProg Bool := Prog.perform (FsOp.realloc size)

def axlFileInfo (path : Path) : FsProg (Option AxlFsEntry) := Prog.perform (FsOp.fileInfo path)

def axlFopen (path : Path) : FsProg (Option Handle) := Prog.perform (FsOp.fopen path)

def axlFflush (h : Handle) : FsProg Bool := Prog.perform (FsOp.fflush h)

def axlPwrite (h : Handle) (data : List UInt8) (offset : Nat) : FsProg Int :=
  Prog.perform (FsOp.pwrite h data offset)

/-- `s9p_wstream_size` -/
def s9pWstreamSize (h : Handle) : FsProg (Option Nat) := Prog.perform (FsOp.streamSize h)

def axlFileViewOpenCached (path : Path) : FsProg (Option Handle) := Prog.perform (FsOp.viewOpen path)

def axlFileViewRefresh (h : Handle) : FsProg Bool := Prog.perform (FsOp.viewRefresh h)

def axlFileViewSize (h : Handle) : FsProg Nat := Prog.perform (FsOp.viewSize h)

def axlFileViewRead (h : Handle) (offset n : Nat) : FsProg (List UInt8) :=
  Prog.perform (FsOp.viewRead h offset n)

def axlDirOpen (path : Path) : FsProg (Option Handle) := Prog.perform (FsOp.dirOpen path)

def axlDirRead (h : Handle) : FsProg (Option AxlFsEntry) := Prog.perform (FsOp.dirRead h)

def axlDirMkdir (path : Path) : FsProg Bool := Prog.perform (FsOp.dirMkdir path)

def axlDirRmdir (path : Path) : FsProg Bool := Prog.perform (FsOp.dirRmdir path)

def axlFileTruncate (path : Path) (size : Nat) : FsProg Bool :=
  Prog.perform (FsOp.fileTruncate path size)

def axlFileDelete (path : Path) : FsProg Bool := Prog.perform (FsOp.fileDelete path)

def axlFileRename (oldPath newPath : Path) : FsProg Bool :=
  Prog.perform (FsOp.fileRename oldPath newPath)

def axlTcpSendAsync (bytes : List UInt8) : FsProg Bool := Prog.perform (FsOp.tcpSend bytes)

def axlTcpRecvAsync (size : Nat) : FsProg Bool := Prog.perform (FsOp.tcpRecv size)

/-- The closing functions accept no handle at all. -/
def axlFileViewClose : Option Handle → FsProg Unit
  | none => pure ()
  | some h => Prog.perform (FsOp.viewClose h)

def axlFclose : Option Handle → FsProg Unit
  | none => pure ()
  | some h => Prog.perform (FsOp.fclose h)

def axlDirClose : Option Handle → FsProg Unit
  | none => pure ()
  | some h => Prog.perform (FsOp.dirClose h)

/-- `axl_fflush` of the write stream of a fid, if it has one. -/
def flushStream : Option Handle → FsProg Bool
  | none => pure true
  | some h => axlFflush h

/-! ## Fids -/

structure S9pFid where
  used : Bool
  fid : Nat
  isDir : Bool
  /-- The field `open` -/
  isOpen : Bool
  path : Path
  view : Option Handle
  wstream : Option Handle
  dir : Option Handle
  dirPos : Nat
deriving DecidableEq, Repr

/-- A slot after `axl_memset`. -/
def S9pFid.zero : S9pFid :=
  { used := false, fid := 0, isDir := false, isOpen := false, path := [], view := none,
    wstream := none, dir := none, dirPos := 0 }

structure Axl9pServer where
  root : Path
  readOnly : Bool
deriving DecidableEq, Repr

/-- A connection; `rbuf` is what is buffered, its length the field `rlen`. -/
structure S9pConn where
  active : Bool
  msize : Nat
  rbuf : List UInt8
  rcap : Nat
  txcap : Nat
  txBusy : Bool
  rxArmed : Bool
  draining : Bool
  fids : List S9pFid
deriving DecidableEq, Repr

/-- `AXL_9P_MAX_FIDS` -/
def maxFids : Nat := 128

/-- `AXL_9P_PATH_MAX` -/
def pathMax : Nat := 512

/-- `AXL_9P_MSIZE` -/
def defaultMsize : Nat := 8192

/-- `AXL_9P_MIN_MSIZE` -/
def minMsize : Nat := 512

/-- `AXL_9P_SERVER_MAX_MSIZE` -/
def maxMsize : Nat := 128 * 1024

/-- `AXL_9P_SERVER_MAX_GROW` -/
def maxGrow : Nat := 16 * 1024 * 1024

/-- A slot of the pool after `axl_memset`. -/
def S9pConn.zero : S9pConn :=
  { active := false, msize := 0, rbuf := [], rcap := 0, txcap := 0, txBusy := false,
    rxArmed := false, draining := false, fids := List.replicate maxFids .zero }

def S9pConn.setFid (conn : S9pConn) (i : Nat) (f : S9pFid) : S9pConn :=
  { conn with fids := conn.fids.set i f }

/-- The loop of `s9p_fid_get`: the first slot in use with the number, and its index. -/
def findFid (fid i : Nat) : List S9pFid → Option (Nat × S9pFid)
  | [] => none
  | f :: fs => if f.used ∧ f.fid = fid then some (i, f) else findFid fid (i + 1) fs

/-- `s9p_fid_get` -/
def s9pFidGet (conn : S9pConn) (fid : Nat) : Option (Nat × S9pFid) := findFid fid 0 conn.fids

/-- The loop of `s9p_fid_alloc`: the first slot that is free. -/
def findFree (i : Nat) : List S9pFid → Option Nat
  | [] => none
  | f :: fs => if f.used then findFree (i + 1) fs else some i

/-- `s9p_fid_alloc` -/
def s9pFidAlloc (conn : S9pConn) (fid : Nat) (path : Path) (isDir : Bool) : Option S9pConn :=
  if (s9pFidGet conn fid).isSome then none
  else
    match findFree 0 conn.fids with
    | none => none
    | some i =>
      if pathMax ≤ path.length then none
      else
        some (conn.setFid i { used := true, fid := fid, isDir := isDir, isOpen := false,
                              path := path, view := none, wstream := none, dir := none,
                              dirPos := 0 })

/-- `s9p_fid_close_open` -/
def s9pFidCloseOpen (f : S9pFid) : FsProg (Bool × S9pFid) := do
  axlFileViewClose f.view
  let ok ← flushStream f.wstream
  axlFclose f.wstream
  axlDirClose f.dir
  return (ok, { f with view := none, wstream := none, dir := none, dirPos := 0, isOpen := false })

/-- `s9p_fid_open_file`: the write stream first, then the view. -/
def s9pFidOpenFile (f : S9pFid) (accmode : Nat) : FsProg (Bool × S9pFid) := do
  let stream ← (if accmode ≠ 0 then axlFopen f.path else pure none)
  if accmode ≠ 0 ∧ stream = none then
    return (false, { f with wstream := none })
  else
    let f := if accmode ≠ 0 then { f with wstream := stream } else f
    if accmode ≠ 1 then
      let view ← axlFileViewOpenCached f.path
      match view with
      | none =>
        let closed ← s9pFidCloseOpen { f with view := none }
        return (false, closed.2)
      | some v => return (true, { f with view := some v, isOpen := true })
    else
      return (true, { f with isOpen := true })

/-- `s9p_fid_restore_open` -/
def s9pFidRestoreOpen (f : S9pFid) (hadView hadWstream hadDir : Bool) : FsProg S9pFid := do
  if hadDir then
    let dir ← axlDirOpen f.path
    return { f with dir := dir, isOpen := dir.isSome }
  else if hadView || hadWstream then
    let accmode := if hadView then (if hadWstream then 2 else 0) else 1
    let opened ← s9pFidOpenFile f accmode
    return opened.2
  else
    return f

/-- `s9p_fid_release` -/
def s9pFidRelease (f : S9pFid) : FsProg (Bool × S9pFid) := do
  let closed ← s9pFidCloseOpen f
  return (closed.1, .zero)

/-- `s9p_fid_clunk` -/
def s9pFidClunk (conn : S9pConn) (fid : Nat) : FsProg (Bool × S9pConn) :=
  match s9pFidGet conn fid with
  | none => pure (true, conn)
  | some (i, f) => do
    let released ← s9pFidRelease f
    return (released.1, conn.setFid i released.2)

/-- `s9p_fid_reset_all` -/
def s9pFidResetAll : List S9pFid → FsProg (List S9pFid)
  | [] => pure []
  | f :: fs => do
    let released ← s9pFidRelease f
    let rest ← s9pFidResetAll fs
    return released.2 :: rest

/-! ## Names -/

/-- `s9p_fnv1a` -/
def s9pFnv1a (s : Path) : UInt64 :=
  s.foldl (fun h b => (h ^^^ b.toUInt64) * 0x100000001b3) 0xcbf29ce484222325

/-- `s9p_qid`: `type[1] version[4] path[8]` -/
def s9pQid (e : AxlFsEntry) (path : Path) : List UInt8 :=
  le 1 (if e.isDir then 0x80 else 0) ++ le 4 0 ++ le 8 (s9pFnv1a path).toNat

/-- `s9p_path_append` into a buffer of `pathMax` bytes -/
def s9pPathAppend (base name : Path) : FsProg (Option Path) := do
  let ok ← axlMalloc
  return if ok ∧ (axlPathJoin base name).length < pathMax then some (axlPathJoin base name)
    else none

/-- `s9p_path_up` -/
def s9pPathUp (root path : Path) : FsProg (Option Path) := do
  if path = root then
    return none
  else
    let ok ← axlMalloc
    return if ok ∧ (axlPathGetDirname path).length < pathMax then some (axlPathGetDirname path)
      else none

/-! ## Replies -/

/-- The type and the body of a reply. -/
structure Reply where
  type : Nat
  body : List UInt8
deriving DecidableEq, Repr

def rlerror (ecode : Nat) : Reply := ⟨7, le 4 ecode⟩

def ePerm : Nat := 1
def eNoent : Nat := 2
def eIo : Nat := 5
def eBadf : Nat := 9
def eNomem : Nat := 12
def eAcces : Nat := 13
def eExist : Nat := 17
def eXdev : Nat := 18
def eNotdir : Nat := 20
def eIsdir : Nat := 21
def eInval : Nat := 22
def eFbig : Nat := 27
def eRofs : Nat := 30
def eNotempty : Nat := 39
def eProto : Nat := 71

/-- A handler: the reply and the connection it leaves. -/
abbrev Handler := FsProg (Reply × S9pConn)

/-- `s9p_send_rlerror` as the end of a handler -/
def fail (conn : S9pConn) (ecode : Nat) : Handler := pure (rlerror ecode, conn)

/-! ## Session and navigation (`axl-9p-server-ops.c`) -/

/-- `s9p_conn_grow_buffers`: neither buffer while it is lent to the transport. -/
def s9pConnGrowBuffers (conn : S9pConn) (newSize : Nat) : FsProg S9pConn := do
  if conn.txBusy || conn.rxArmed then
    return conn
  else
    let rgrown ← (if conn.rcap < newSize then axlRealloc newSize else pure false)
    let conn := if rgrown then { conn with rcap := newSize } else conn
    let tgrown ← (if conn.txcap < newSize then axlRealloc newSize else pure false)
    return if tgrown then { conn with txcap := newSize } else conn

/-- `axl_9p_negotiate_msize` -/
def negotiateMsize (clientMsize serverCap : Nat) : Option Nat :=
  if clientMsize < minMsize ∨ serverCap < minMsize then none
  else some (if clientMsize < serverCap then clientMsize else serverCap)

/-- `"9P2000"` -/
def versionPrefix9p : List UInt8 := [57, 80, 50, 48, 48, 48]

/-- `"9P2000.L"` -/
def versionDotL : List UInt8 := [57, 80, 50, 48, 48, 48, 46, 76]

/-- `"unknown"` -/
def versionUnknown : List UInt8 := [117, 110, 107, 110, 111, 119, 110]

/-- `s9p_handle_tversion` -/
def s9pHandleTversion (conn : S9pConn) (r : Axl9pReader) : Handler := do
  let clientMsize := rU32 r
  let version := rStr 32 clientMsize.2
  if version.2.error then
    fail conn eInval
  else
    let fids ← s9pFidResetAll conn.fids
    let conn := { conn with fids := fids }
    match (if versionPrefix9p.isPrefixOf version.1.1.bytes
        then negotiateMsize clientMsize.1 maxMsize else none) with
    | none => return (⟨101, le 4 clientMsize.1 ++ wStr versionUnknown⟩, conn)
    | some negotiated =>
      let conn ← (if conn.rcap < negotiated ∨ conn.txcap < negotiated
        then s9pConnGrowBuffers conn negotiated else pure conn)
      let cap := if conn.rcap < conn.txcap then conn.rcap else conn.txcap
      let msize := if cap < negotiated then cap else negotiated
      return (⟨101, le 4 msize ++ wStr versionDotL⟩, { conn with msize := msize })

/-- What the root is taken for when it does not stat. -/
def syntheticDir : AxlFsEntry :=
  { name := [], size := 0, mtimeUnix := 0, isDir := true, readOnly := false }

/-- `s9p_handle_tattach` -/
def s9pHandleTattach (srv : Axl9pServer) (conn : S9pConn) (r : Axl9pReader) : Handler := do
  let fid := rU32 r
  let afid := rU32 fid.2
  let uname := rStr 64 afid.2
  let aname := rStr 256 uname.2
  let nUname := rU32 aname.2
  if nUname.2.error then
    fail conn eInval
  else if (s9pFidGet conn fid.1).isSome then
    fail conn eInval
  else
    let info ← axlFileInfo srv.root
    let rootEntry := info.getD syntheticDir
    match s9pFidAlloc conn fid.1 srv.root rootEntry.isDir with
    | none => fail conn eNomem
    | some conn => return (⟨105, s9pQid rootEntry srv.root⟩, conn)

/-- Where a walk stands. -/
structure WalkState where
  cur : Path
  entry : AxlFsEntry
  qids : List UInt8
  nwqid : Nat
deriving DecidableEq, Repr

/-- The step of a walk by one component: where it leads, if it does. -/
def walkStep (srv : Axl9pServer) (here : WalkState) (comp : Path) : FsProg (Option Path) :=
  if comp = [46, 46] then s9pPathUp srv.root here.cur
  else if comp = [46] then pure (some here.cur)
  else if here.entry.isDir then s9pPathAppend here.cur comp
  else pure none

/-- The loop of `s9p_handle_twalk`; `none` for a request that is cut short. -/
def walkLoop (srv : Axl9pServer) : Nat → Axl9pReader → WalkState → FsProg (Option WalkState)
  | 0, _, here => pure (some here)
  | n + 1, r, here => do
    let comp := rStr 256 r
    if comp.2.error then
      return none
    else if !s9pCompIsSafe comp.1.1 comp.1.2 256 then
      return some here
    else
      let next ← walkStep srv here comp.1.1.bytes
      match next with
      | none => return some here
      | some path =>
        let info ← axlFileInfo path
        match info with
        | none => return some here
        | some e =>
          walkLoop srv n comp.2
            { cur := path, entry := e, qids := here.qids ++ s9pQid e path, nwqid := here.nwqid + 1 }

/-- The binding of a walk that went all the way; `none` if the table has no room. -/
def walkBind (conn : S9pConn) (fid newfid i : Nat) (src : S9pFid) (nwname : Nat)
    (stop : WalkState) : Option S9pConn :=
  let isDir := if nwname = 0 then src.isDir else stop.entry.isDir
  if newfid = fid then some (conn.setFid i { src with path := stop.cur, isDir := isDir })
  else s9pFidAlloc conn newfid stop.cur isDir

/-- `s9p_handle_twalk` -/
def s9pHandleTwalk (srv : Axl9pServer) (conn : S9pConn) (r : Axl9pReader) : Handler := do
  let fid := rU32 r
  let newfid := rU32 fid.2
  let nwname := rU16 newfid.2
  if nwname.2.error then
    fail conn eInval
  else if (conn.msize - 9) / 13 < nwname.1 then
    fail conn eInval
  else
    match s9pFidGet conn fid.1 with
    | none => fail conn eBadf
    | some (i, src) =>
      if newfid.1 = fid.1 ∧ nwname.1 ≠ 0 then
        fail conn eInval
      else if newfid.1 ≠ fid.1 ∧ (s9pFidGet conn newfid.1).isSome then
        fail conn eInval
      else
        let info ← (if 0 < nwname.1 then axlFileInfo src.path
          else pure (some { syntheticDir with isDir := false }))
        match info with
        | none => fail conn eNoent
        | some e =>
          let walked ← walkLoop srv nwname.1 nwname.2
            { cur := src.path, entry := e, qids := [], nwqid := 0 }
          match walked with
          | none => fail conn eInval
          | some stop =>
            if stop.nwqid = 0 ∧ 0 < nwname.1 then
              fail conn eNoent
            else if stop.nwqid = nwname.1 then
              match walkBind conn fid.1 newfid.1 i src nwname.1 stop with
              | none => fail conn eNomem
              | some conn => return (⟨111, le 2 stop.nwqid ++ stop.qids⟩, conn)
            else
              return (⟨111, le 2 stop.nwqid ++ stop.qids⟩, conn)

/-- `s9p_handle_tclunk` -/
def s9pHandleTclunk (conn : S9pConn) (r : Axl9pReader) : Handler := do
  let fid := rU32 r
  if fid.2.error then
    fail conn eInval
  else if (s9pFidGet conn fid.1).isNone then
    fail conn eBadf
  else
    let clunked ← s9pFidClunk conn fid.1
    if clunked.1 then
      return (⟨121, []⟩, clunked.2)
    else
      fail clunked.2 eIo

/-- `s9p_handle_tgetattr` -/
def s9pHandleTgetattr (conn : S9pConn) (r : Axl9pReader) : Handler := do
  let fid := rU32 r
  let requestMask := rU64 fid.2
  if requestMask.2.error then
    fail conn eInval
  else
    match s9pFidGet conn fid.1 with
    | none => fail conn eBadf
    | some (_, f) =>
      let info ← axlFileInfo f.path
      match info with
      | none => fail conn eNoent
      | some e =>
        return (⟨25, le 8 (requestMask.1 &&& 0x7ff) ++ s9pQid e f.path ++
          le 4 (if e.isDir then 0o040755 else 0o100644) ++ le 4 0 ++ le 4 0 ++ le 8 1 ++ le 8 0 ++
          le 8 e.size ++ le 8 512 ++ le 8 ((e.size + 511) % 2 ^ 64 / 512) ++ le 8 0 ++ le 8 0 ++
          le 8 e.mtimeUnix ++ le 8 0 ++ le 8 0 ++ le 8 0 ++ le 8 0 ++ le 8 0 ++ le 8 0 ++
          le 8 0⟩, conn)

/-! ## Open files (`axl-9p-server-io-ops.c`) -/

/-- `s9p_read_clamp`: the count and the offset to read at. -/
def s9pReadClamp (offset count fileSize room : Nat) : Nat × Nat :=
  if fileSize ≤ offset then (0, 0)
  else
    let avail := fileSize - offset
    let n := if avail < count then avail else count
    let n := if room < n then room else n
    if n = 0 then (0, 0) else (n, offset)

/-- `s9p_write_bounds` -/
def s9pWriteBounds (offset count avail : Nat) : Bool :=
  count ≤ avail && offset ≤ 2 ^ 64 - 1 - count

/-- `s9p_write_grow_ok` -/
def s9pWriteGrowOk (offset count curSize : Nat) : Bool :=
  offset ≤ 2 ^ 64 - 1 - count &&
    (offset + count ≤ curSize || offset + count - curSize ≤ maxGrow)

/-- `s9p_write_grow_needs_size` -/
def s9pWriteGrowNeedsSize (offset count : Nat) : Bool :=
  offset ≤ 2 ^ 64 - 1 - count && maxGrow < offset + count

/-- `s9p_handle_tlopen` -/
def s9pHandleTlopen (srv : Axl9pServer) (conn : S9pConn) (r : Axl9pReader) : Handler := do
  let fid := rU32 r
  let flags := rU32 fid.2
  if flags.2.error then
    fail conn eInval
  else
    match s9pFidGet conn fid.1 with
    | none => fail conn eBadf
    | some (i, f) =>
      let accmode := flags.1 &&& 3
      if srv.readOnly ∧ accmode ≠ 0 then
        fail conn eRofs
      else
        let info ← axlFileInfo f.path
        match info with
        | none => fail conn eNoent
        | some e =>
          let closed ← s9pFidCloseOpen f
          if !closed.1 then
            fail (conn.setFid i closed.2) eIo
          else
            let f := { closed.2 with isDir := e.isDir }
            if e.isDir then
              if accmode ≠ 0 then
                fail (conn.setFid i f) eIsdir
              else
                let dir ← axlDirOpen f.path
                match dir with
                | none => fail (conn.setFid i f) eIo
                | some d =>
                  return (⟨13, s9pQid e f.path ++ le 4 0⟩,
                    conn.setFid i { f with dir := some d, isOpen := true })
            else
              lopenFile conn i f e flags.1 accmode
where
  /-- The branch of a file: the truncation comes before the handles. -/
  lopenFile (conn : S9pConn) (i : Nat) (f : S9pFid) (e : AxlFsEntry) (flags accmode : Nat) :
      Handler := do
    let stat ← (if flags &&& 0x200 ≠ 0 ∧ accmode ≠ 0 ∧ e.size ≠ 0 then truncateAndStat f.path
      else pure (some e))
    match stat with
    | none => fail (conn.setFid i f) eIo
    | some e =>
      let opened ← s9pFidOpenFile f accmode
      if opened.1 then
        return (⟨13, s9pQid e f.path ++ le 4 0⟩, conn.setFid i opened.2)
      else
        fail (conn.setFid i opened.2) eIo
  truncateAndStat (path : Path) : FsProg (Option AxlFsEntry) := do
    let ok ← axlFileTruncate path 0
    if ok then axlFileInfo path else return none

/-- `s9p_handle_tread` -/
def s9pHandleTread (conn : S9pConn) (r : Axl9pReader) : Handler := do
  let fid := rU32 r
  let offset := rU64 fid.2
  let count := rU32 offset.2
  if count.2.error then
    fail conn eInval
  else
    match s9pFidGet conn fid.1 with
    | none => fail conn eBadf
    | some (_, f) =>
      if !f.isOpen then
        fail conn eBadf
      else if f.dir.isSome then
        fail conn eIsdir
      else
        match f.view with
        | none => fail conn eBadf
        | some view =>
          let fresh ← axlFileViewRefresh view
          if !fresh then
            fail conn eIo
          else
            let room := conn.msize - 11
            let room := if conn.txcap - 11 < room then conn.txcap - 11 else room
            let size ← axlFileViewSize view
            let n := s9pReadClamp offset.1 count.1 size room
            if 0 < n.1 then
              let data ← axlFileViewRead view n.2 n.1
              if conn.txcap - 11 < n.1 ∨ data.length ≠ n.1 then
                fail conn eIo
              else
                return (⟨117, le 4 n.1 ++ data⟩, conn)
            else
              return (⟨117, le 4 0⟩, conn)

/-- `s9p_dirent_put`: the record, if it fits the room and the buffer. -/
def s9pDirentPut (room space : Nat) (qid : List UInt8) (offset dtype : Nat) (name : Path) :
    Option (List UInt8) :=
  if room < 24 + name.length ∨ space < 24 + name.length then none
  else some (qid ++ le 8 offset ++ le 1 dtype ++ wStr name)

/-- A loop that ends with the directory; more turns than a directory has entries. -/
def dirFuel : Nat := 2 ^ 64

/-- The loop of `s9p_handle_treaddir` that brings the iterator to the cursor: the
position it reaches. -/
def skipLoop (dir : Handle) : Nat → Nat → FsProg Nat
  | 0, dirPos => pure dirPos
  | n + 1, dirPos => do
    let e ← axlDirRead dir
    match e with
    | none => return dirPos
    | some _ => skipLoop dir n (dirPos + 1)

/-- Whether a name is that of one of the two entries every directory has. -/
def isDotName (name : Path) : Bool := name == [46] || name == [46, 46]

/-- The loop of `s9p_handle_treaddir` over the real entries: the position it reaches
and the records so far; `room` and `space` are what the reply may hold in all. -/
def entryLoop (path : Path) (dir : Handle) (room space : Nat) :
    Nat → Nat → List UInt8 → FsProg (Nat × List UInt8)
  | 0, dirPos, data => pure (dirPos, data)
  | n + 1, dirPos, data => do
    let e ← axlDirRead dir
    match e with
    | none => return (dirPos, data)
    | some de =>
      if isDotName de.name then
        entryLoop path dir room space n (dirPos + 1) data
      else
        let full ← s9pPathAppend path de.name
        match full with
        | none => entryLoop path dir room space n (dirPos + 1) data
        | some full =>
          match s9pDirentPut (room - data.length) (space - data.length) (s9pQid de full)
              (dirPos + 3) (if de.isDir then 4 else 8) de.name with
          | none => return (dirPos + 1, data)
          | some record => entryLoop path dir room space n (dirPos + 1) (data ++ record)

/-- The record of `"."`; `none` if it does not fit. -/
def dotRecord (path : Path) (room space : Nat) : FsProg (Option (List UInt8)) := do
  let info ← axlFileInfo path
  return s9pDirentPut room space (s9pQid (info.getD syntheticDir) path) 1 4 [46]

/-- The record of `".."`, behind the `data` there is: up from the root is the root. -/
def dotdotRecord (root path : Path) (room space : Nat) (data : List UInt8) :
    FsProg (Option (List UInt8)) := do
  let up ← s9pPathUp root path
  let parent := up.getD path
  let info ← axlFileInfo parent
  return s9pDirentPut (room - data.length) (space - data.length)
    (s9pQid (info.getD syntheticDir) parent) 2 4 [46, 46]

/-- The records of a reply from the cursor on, and the position of the iterator. -/
def readdirFill (root path : Path) (dir : Handle) (offset dirPos room space : Nat) :
    FsProg (Nat × List UInt8) := do
  let dot ← (if offset < 1 then dotRecord path room space else pure (some []))
  match dot with
  | none => return (dirPos, [])
  | some data =>
    let dotdot ← (if offset < 2 then dotdotRecord root path room space data else pure (some []))
    match dotdot with
    | none => return (dirPos, data)
    | some record => entryLoop path dir room space dirFuel dirPos (data ++ record)

/-- `s9p_handle_treaddir`, and the cursor decoded as `s9p_readdir_resume` does it -/
def s9pHandleTreaddir (srv : Axl9pServer) (conn : S9pConn) (r : Axl9pReader) : Handler := do
  let fid := rU32 r
  let offset := rU64 fid.2
  let count := rU32 offset.2
  if count.2.error then
    fail conn eInval
  else
    match s9pFidGet conn fid.1 with
    | none => fail conn eBadf
    | some (i, f) =>
      if !f.isOpen then
        fail conn eBadf
      else
        match f.dir with
        | none => fail conn eNotdir
        | some dir =>
          let skip := if offset.1 < 2 then 0 else offset.1 - 2
          if skip < f.dirPos then
            axlDirClose (some dir)
            let reopened ← axlDirOpen f.path
            match reopened with
            | none =>
              let closed ← s9pFidCloseOpen { f with dir := none, dirPos := 0 }
              fail (conn.setFid i closed.2) eIo
            | some dir =>
              readdirFrom srv conn i { f with dir := some dir, dirPos := 0 } dir offset.1 skip
                count.1
          else
            readdirFrom srv conn i f dir offset.1 skip count.1
where
  /-- The rest, with the iterator at or behind the cursor. -/
  readdirFrom (srv : Axl9pServer) (conn : S9pConn) (i : Nat) (f : S9pFid) (dir : Handle)
      (offset skip count : Nat) : Handler := do
    let dirPos ← skipLoop dir (skip - f.dirPos) f.dirPos
    let room := conn.msize - 11
    let room := if count < room then count else room
    let room := if conn.txcap - 11 < room then conn.txcap - 11 else room
    if dirPos < skip then
      return (⟨41, le 4 0⟩, conn.setFid i { f with dirPos := dirPos })
    else
      let filled ← readdirFill srv.root f.path dir offset dirPos room (conn.txcap - 11)
      return (⟨41, le 4 filled.2.length ++ filled.2⟩, conn.setFid i { f with dirPos := filled.1 })

/-- `s9p_handle_twrite` -/
def s9pHandleTwrite (conn : S9pConn) (r : Axl9pReader) : Handler := do
  let fid := rU32 r
  let offset := rU64 fid.2
  let count := rU32 offset.2
  if count.2.error then
    fail conn eInval
  else
    match s9pFidGet conn fid.1 with
    | none => fail conn eBadf
    | some (_, f) =>
      if !f.isOpen then
        fail conn eBadf
      else if f.dir.isSome then
        fail conn eIsdir
      else
        match f.wstream with
        | none => fail conn eBadf
        | some stream =>
          if !s9pWriteBounds offset.1 count.1 count.2.rest.length then
            fail conn eInval
          else if count.1 = 0 then
            return (⟨119, le 4 0⟩, conn)
          else
            let size ← (if s9pWriteGrowNeedsSize offset.1 count.1 then s9pWstreamSize stream
              else pure (some 0))
            match size with
            | none => fail conn eIo
            | some curSize =>
              if !s9pWriteGrowOk offset.1 count.1 curSize then
                fail conn eFbig
              else
                let n ← axlPwrite stream (count.2.rest.take count.1) offset.1
                if n ≤ 0 then
                  fail conn eIo
                else
                  return (⟨119, le 4 n.toNat⟩, conn)

/-- `s9p_handle_tfsync` -/
def s9pHandleTfsync (conn : S9pConn) (r : Axl9pReader) : Handler := do
  let fid := rU32 r
  let datasync := rU32 fid.2
  if datasync.2.error then
    fail conn eInval
  else
    match s9pFidGet conn fid.1 with
    | none => fail conn eBadf
    | some (_, f) =>
      if !f.isOpen then
        fail conn eBadf
      else
        let ok ← flushStream f.wstream
        if ok then return (⟨51, []⟩, conn) else fail conn eIo

/-! ## The namespace (`axl-9p-server-ns-ops.c`) -/

/-- `s9p_resolve_child`: the path of the child, or the error to answer with. -/
def s9pResolveChild (conn : S9pConn) (dfid : Nat) (name : CString) (nameWireN : Nat) :
    FsProg (Except Nat Path) :=
  match s9pFidGet conn dfid with
  | none => pure (.error eBadf)
  | some (_, d) => do
    let info ← axlFileInfo d.path
    match info with
    | none => return .error eNoent
    | some de =>
      if !de.isDir then
        return .error eNotdir
      else if !s9pCompIsSafe name nameWireN 256 then
        return .error eInval
      else if isDotName name.bytes then
        return .error eInval
      else
        let path ← s9pPathAppend d.path name.bytes
        match path with
        | none => return .error eInval
        | some path => return .ok path

/-- The loop of `s9p_dir_is_empty` -/
def emptyLoop (dir : Handle) : Nat → FsProg Bool
  | 0 => pure true
  | n + 1 => do
    let e ← axlDirRead dir
    match e with
    | none => return true
    | some e => if isDotName e.name then emptyLoop dir n else return false

/-- `s9p_dir_is_empty` -/
def s9pDirIsEmpty (path : Path) : FsProg Bool := do
  let dir ← axlDirOpen path
  match dir with
  | none => return false
  | some d =>
    let empty ← emptyLoop d dirFuel
    axlDirClose (some d)
    return empty

/-- `s9p_setattr_size_ok` -/
def s9pSetattrSizeOk (newSize curSize : Nat) : Bool :=
  newSize ≤ curSize || newSize - curSize ≤ maxGrow

/-- A request that failed after it had created a file. -/
def undoCreate (conn : S9pConn) (path : Path) (ecode : Nat) : Handler := do
  let _ ← axlFileDelete path
  fail conn ecode

/-- `s9p_handle_tlcreate` -/
def s9pHandleTlcreate (conn : S9pConn) (r : Axl9pReader) : Handler := do
  let dfid := rU32 r
  let name := rStr 256 dfid.2
  let flags := rU32 name.2
  let mode := rU32 flags.2
  let gid := rU32 mode.2
  if gid.2.error then
    fail conn eInval
  else
    let resolved ← s9pResolveChild conn dfid.1 name.1.1 name.1.2
    match resolved with
    | .error ecode => fail conn ecode
    | .ok path =>
      let existing ← axlFileInfo path
      if existing.isSome then
        fail conn eExist
      else
        let created ← axlFopen path
        match created with
        | none => fail conn eIo
        | some h =>
          axlFclose (some h)
          let info ← axlFileInfo path
          match info with
          | none => undoCreate conn path eIo
          | some e =>
            match s9pFidGet conn dfid.1 with
            | none => undoCreate conn path eBadf
            | some (i, d) =>
              let accmode := if flags.1 &&& 3 = 0 then 2 else flags.1 &&& 3
              let staged ← s9pFidOpenFile { S9pFid.zero with path := path } accmode
              if !staged.1 then
                undoCreate conn path eIo
              else
                let closed ← s9pFidCloseOpen d
                return (⟨15, s9pQid e path ++ le 4 0⟩,
                  conn.setFid i { closed.2 with path := path, isDir := false,
                                                view := staged.2.view,
                                                wstream := staged.2.wstream, isOpen := true })

/-- `s9p_handle_tmkdir` -/
def s9pHandleTmkdir (conn : S9pConn) (r : Axl9pReader) : Handler := do
  let dfid := rU32 r
  let name := rStr 256 dfid.2
  let mode := rU32 name.2
  let gid := rU32 mode.2
  if gid.2.error then
    fail conn eInval
  else
    let resolved ← s9pResolveChild conn dfid.1 name.1.1 name.1.2
    match resolved with
    | .error ecode => fail conn ecode
    | .ok path =>
      let existing ← axlFileInfo path
      if existing.isSome then
        fail conn eExist
      else
        let made ← axlDirMkdir path
        if !made then
          fail conn eIo
        else
          let info ← axlFileInfo path
          match info with
          | none => fail conn eIo
          | some e => return (⟨73, s9pQid e path⟩, conn)

/-- The end of `s9p_handle_tremove`, the fid being released. -/
def removeNode (conn : S9pConn) (path : Path) (isdir : Bool) : Handler := do
  if isdir then
    let empty ← s9pDirIsEmpty path
    if !empty then
      fail conn eNotempty
    else
      let ok ← axlDirRmdir path
      if ok then return (⟨123, []⟩, conn) else fail conn eIo
  else
    let ok ← axlFileDelete path
    if ok then return (⟨123, []⟩, conn) else fail conn eIo

/-- `s9p_handle_tremove` -/
def s9pHandleTremove (srv : Axl9pServer) (conn : S9pConn) (r : Axl9pReader) : Handler := do
  let fid := rU32 r
  if fid.2.error then
    fail conn eInval
  else
    match s9pFidGet conn fid.1 with
    | none => fail conn eBadf
    | some (_, f) =>
      if f.path = srv.root then
        let clunked ← s9pFidClunk conn fid.1
        fail clunked.2 ePerm
      else
        let info ← axlFileInfo f.path
        let clunked ← s9pFidClunk conn fid.1
        match info with
        | none => fail clunked.2 eNoent
        | some e => removeNode clunked.2 f.path e.isDir

/-- The end of `s9p_handle_trename`: the handles are let go of before the node moves,
and taken again if it does not. -/
def renameNode (conn : S9pConn) (i : Nat) (f : S9pFid) (newpath : Path) : Handler := do
  let closed ← s9pFidCloseOpen f
  let renamed ← (if closed.1 then axlFileRename f.path newpath else pure false)
  if renamed then
    return (⟨21, []⟩, conn.setFid i { closed.2 with path := newpath })
  else
    let restored ← s9pFidRestoreOpen closed.2 f.view.isSome f.wstream.isSome f.dir.isSome
    fail (conn.setFid i restored) eIo

/-- `s9p_handle_trename` -/
def s9pHandleTrename (srv : Axl9pServer) (conn : S9pConn) (r : Axl9pReader) : Handler := do
  let fid := rU32 r
  let dfid := rU32 fid.2
  let name := rStr 256 dfid.2
  if name.2.error then
    fail conn eInval
  else
    match s9pFidGet conn fid.1 with
    | none => fail conn eBadf
    | some (i, f) =>
      if f.path = srv.root then
        fail conn ePerm
      else
        let resolved ← s9pResolveChild conn dfid.1 name.1.1 name.1.2
        match resolved with
        | .error ecode => fail conn ecode
        | .ok newpath =>
          if newpath = f.path then
            return (⟨21, []⟩, conn)
          else
            -- the two directories are strings of the heap
            let src ← axlMalloc
            let dst ← axlMalloc
            if !(src && dst) ∨ axlPathGetDirname f.path ≠ axlPathGetDirname newpath then
              fail conn eXdev
            else
              let existing ← axlFileInfo newpath
              if existing.isSome then
                fail conn eExist
              else
                renameNode conn i f newpath

/-- `s9p_handle_tsetattr` -/
def s9pHandleTsetattr (conn : S9pConn) (r : Axl9pReader) : Handler := do
  let fid := rU32 r
  let valid := rU32 fid.2
  let mode := rU32 valid.2
  let uid := rU32 mode.2
  let gid := rU32 uid.2
  let size := rU64 gid.2
  let atimeSec := rU64 size.2
  let atimeNsec := rU64 atimeSec.2
  let mtimeSec := rU64 atimeNsec.2
  let mtimeNsec := rU64 mtimeSec.2
  if mtimeNsec.2.error then
    fail conn eInval
  else
    match s9pFidGet conn fid.1 with
    | none => fail conn eBadf
    | some (_, f) =>
      if valid.1 &&& 8 = 0 then
        return (⟨27, []⟩, conn)
      else
        let info ← axlFileInfo f.path
        match info with
        | none => fail conn eNoent
        | some e =>
          if e.isDir then
            fail conn eIsdir
          else if e.readOnly then
            fail conn eAcces
          else if !s9pSetattrSizeOk size.1 e.size then
            fail conn eFbig
          else if size.1 = e.size then
            return (⟨27, []⟩, conn)
          else
            let ok ← axlFileTruncate f.path size.1
            if ok then return (⟨27, []⟩, conn) else fail conn eIo

/-! ## Dispatch -/

/-- `s9p_type_is_mutating` -/
def s9pTypeIsMutating (type : Nat) : Bool :=
  type == 14 || type == 118 || type == 72 || type == 122 || type == 20 || type == 26

/-- The `switch` of `s9p_dispatch` -/
def s9pHandle (srv : Axl9pServer) (conn : S9pConn) (type : Nat) (r : Axl9pReader) : Handler :=
  if type = 100 then s9pHandleTversion conn r
  else if type = 104 then s9pHandleTattach srv conn r
  else if type = 110 then s9pHandleTwalk srv conn r
  else if type = 120 then s9pHandleTclunk conn r
  else if type = 24 then s9pHandleTgetattr conn r
  else if type = 12 then s9pHandleTlopen srv conn r
  else if type = 116 then s9pHandleTread conn r
  else if type = 40 then s9pHandleTreaddir srv conn r
  else if type = 118 then s9pHandleTwrite conn r
  else if type = 50 then s9pHandleTfsync conn r
  else if type = 14 then s9pHandleTlcreate conn r
  else if type = 72 then s9pHandleTmkdir conn r
  else if type = 122 then s9pHandleTremove srv conn r
  else if type = 20 then s9pHandleTrename srv conn r
  else if type = 26 then s9pHandleTsetattr conn r
  else fail conn eProto

/-- `s9p_reap`: the slot is free again. -/
def s9pReap (conn : S9pConn) : FsProg S9pConn := do
  if conn.active then
    let _ ← s9pFidResetAll conn.fids
    return .zero
  else
    return conn

/-- `s9p_send_reply`: whether the connection survives it. -/
def s9pSendReply (conn : S9pConn) (tag : Nat) (reply : Reply) : FsProg (Bool × S9pConn) := do
  if conn.txBusy || conn.txcap < 7 + reply.body.length then
    let conn ← s9pReap conn
    return (false, conn)
  else
    let ok ← axlTcpSendAsync (message reply.type tag reply.body)
    if ok then
      return (true, { conn with txBusy := true })
    else
      let conn ← s9pReap { conn with txBusy := true }
      return (false, conn)

/-- `s9p_dispatch` of a message: the reply that was sent, `none` if the connection did
not survive it. -/
def s9pDispatch (srv : Axl9pServer) (conn : S9pConn) (msg : List UInt8) :
    FsProg (Option Reply × S9pConn) := do
  let size := rU32 ⟨msg, false⟩
  let type := rU8 size.2
  let tag := rU16 type.2
  if tag.2.error then
    let conn ← s9pReap conn
    return (none, conn)
  else
    let answer ← (if srv.readOnly ∧ s9pTypeIsMutating type.1 then fail conn eRofs
      else s9pHandle srv conn type.1 tag.2)
    let sent ← s9pSendReply answer.2 tag.1 answer.1
    return (if sent.1 then some answer.1 else none, sent.2)

/-! ## The server -/

/-- `axl_9p_server_new`, the allocations granted: the root without one trailing
separator. -/
def axl9pServerNew (root : Path) (readOnly : Bool) : Option Axl9pServer :=
  if root = [] ∨ 256 ≤ root.length then none
  else
    some { root := if 1 < root.length ∧ endsInSep root then root.dropLast else root,
           readOnly := readOnly }

/-- The connection `s9p_on_accept` sets up in a free slot, before it arms the receive. -/
def S9pConn.accepted : S9pConn :=
  { S9pConn.zero with active := true, msize := defaultMsize, rcap := defaultMsize,
                      txcap := defaultMsize }

end NineP

end AxlSdk
