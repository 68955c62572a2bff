import OfflineFs.Model.PathCache

/-!
# Filesystem operations

The requests that FUSE makes.  A request that fails returns a negative error
code; whatever it wrote before is committed all the same.
-/

namespace OfflineFs

open OfflineFs.Effect
open OfflineFs.Effect.Program (perform)

/-- The caller in `fuse_get_context()`, with the groups that the account files
give it, or none when they cannot be read. -/
structure Context where
  uid : UInt32
  gid : UInt32
  groups : Option (List UInt32)
  deriving DecidableEq, Repr

/-- The members of `FS` that never change.  `fuel` bounds the rounds of the one
loop that follows stored links: past it the loop counts as never ending. -/
structure FS where
  pcache : PathCache
  defmedium : Bytes
  fuel : Nat

/-- The size of the table of open files. -/
def maxOpenFiles : Nat := 512

/-- The flag for an attribute that must not be there. -/
def xattrCreate : Int := 1
/-- The flag for an attribute that must be there. -/
def xattrReplace : Int := 2

/-- The value of `(uid_t)-1`. -/
def noId : UInt32 := UInt32.ofNat (2 ^ 32 - 1)

/-- The fields of `struct stat` that `getattr` fills in. -/
structure Stat where
  ino : UInt64
  dev : UInt64
  nlink : UInt32
  mode : UInt32
  uid : UInt32
  gid : UInt32
  size : UInt64
  atime : UInt64
  mtime : UInt64
  ctime : UInt64
  blocks : UInt64
  deriving DecidableEq, Repr

/-- The credentials of the caller of a request. -/
def userctx (ctx : Context) : FsProg SContext :=
  match ctx.groups with
  | some groups => pure ⟨ctx.uid, ctx.gid, groups ++ [ctx.gid]⟩
  | none => .throw .runtime

/-- The frame of an operation: a transaction for the credentials and the body,
inside a block that turns every exception into a result. -/
def request {α : Type} (ctx : Context) (onError : Err → α) (body : SContext → FsProg α) :
    FsProg α :=
  (fsTxn do
    let sctx ← userctx ctx
    body sctx).catching fun e => pure (onError e)

/-- Throw when the parent is sticky and the caller may not unlink `n`. -/
def checkStickyBit (sctx : SContext) (parent n : NodeRef) : FsProg Unit := do
  let mode ← Node.getattr UInt32 parent.id .mode
  if mode &&& sIsvtx ≠ 0 ∧ sctx.uid ≠ 0 then do
    let owner ← Node.getattr UInt32 parent.id .uid
    if sctx.uid ≠ owner then do
      let uid ← Node.getattr UInt32 n.id .uid
      if sctx.uid ≠ uid then .throw .access else pure ()
    else
      pure ()
  else
    pure ()

/-- Update the ctime and the mtime of a directory. -/
def touchParent (parent : NodeRef) : FsProg Unit := do
  Node.setTime parent.id .ctime
  Node.setTime parent.id .mtime

/-- The handler of `removexattr` and its siblings. -/
def xattrErrcode : Err → Int
  | .attrNotFound => -eNoattr
  | e => errcode e

namespace FS

/-- The source of a file, which is associated with the default medium first if
it has none. -/
def getsource (fs : FS) (fileid : UInt64) (phid : Bytes) (flags : UInt32) : FsProg Source :=
  (Source.getsource fileid flags).catching fun e =>
    match e with
    | .attrNotFound => do
        let m ← Medium.getmediumByLabel fs.defmedium
        m.addfile phid
        Node.setattrv fileid Attr.source.name (str "single")
        let order ← perform .byteOrder
        Node.setattr fileid .mediumid (order.inMemory m.id)
        Node.setattrv fileid Attr.phid.name phid
        Source.getsource fileid flags
    | e => .throw e

/-! ## Reading -/

/-- The fields of `struct stat` for a path. -/
def getattr (fs : FS) (ctx : Context) (path : Bytes) : FsProg (Except Int Stat) :=
  request ctx (fun e => .error (errcode e)) fun sctx => do
    let n ← fs.pcache.getnode sctx path
    let dev ← Node.getattr UInt64 n.id .dev
    let nlink ← Node.getattr UInt32 n.id .nlink
    let mode ← Node.getattr UInt32 n.id .mode
    let uid ← Node.getattr UInt32 n.id .uid
    let gid ← Node.getattr UInt32 n.id .gid
    let size ← Node.getattr UInt64 n.id .size
    let atime ← Node.getattr UInt64 n.id .atime
    let mtime ← Node.getattr UInt64 n.id .mtime
    let ctime ← Node.getattr UInt64 n.id .ctime
    let order ← perform .byteOrder
    pure (.ok { ino := order.inMemory n.id, dev, nlink, mode, uid, gid, size, atime, mtime, ctime,
                blocks := (size.toInt64 / 512).toUInt64 })

/-- The names of a directory. -/
def readdir (fs : FS) (ctx : Context) (path : Bytes) : FsProg (Except Int (List Bytes)) :=
  request ctx (fun e => .error (errcode e)) fun sctx => do
    let n ← Node.cast .directory (← fs.pcache.getnode sctx path)
    Node.access n sctx (rOk ||| xOk)
    Node.setTime n.id .atime
    let l ← Directory.getchildren n
    pure (.ok l)

/-- The bytes written to the buffer, when successful. -/
def readlink (fs : FS) (ctx : Context) (path : Bytes) (bufsiz : Nat) :
    FsProg (Except Int Bytes) :=
  request ctx (fun e => .error (errcode e)) fun sctx => do
    let n ← Node.cast .symlink (← fs.pcache.getnode sctx path)
    let target ← Node.getattrv n.id Attr.symlink.name
    pure (.ok (target.take bufsiz ++ if target.length < bufsiz then [0] else []))

/-- Whether the caller has some permissions.  A path that does not exist counts as denied. -/
def access (fs : FS) (ctx : Context) (path : Bytes) (mode : UInt32) : FsProg Int :=
  let onError : Err → Int
    | .notFound => -eAcces
    | e => errcode e
  request ctx onError fun sctx => do
    let n ← fs.pcache.getnode sctx path
    Node.access n sctx mode
    pure 0

/-- Whether the caller may read a directory. -/
def opendir (fs : FS) (ctx : Context) (path : Bytes) : FsProg Int :=
  request ctx errcode fun sctx => do
    let n ← Node.cast .directory (← fs.pcache.getnode sctx path)
    Node.access n sctx (rOk ||| xOk)
    pure 0

/-- The result and the bytes written to the buffer. -/
def getxattr (fs : FS) (ctx : Context) (path name : Bytes) (size : Nat) :
    FsProg (Int × Bytes) :=
  request ctx (fun e => (xattrErrcode e, [])) fun sctx => do
    let n ← fs.pcache.getnode sctx path
    let b ← Node.getattrv n.id name
    pure (toCInt b.length, b.take size)

/-- One round of the loop of `listxattr`: the count so far and the bytes written. -/
def listxattrStep (size : Nat) (state : Nat × Bytes) (name : Bytes) : Nat × Bytes :=
  let count := state.1 + (name.length + 1)
  if count ≤ size then (count, state.2 ++ name ++ [0]) else (count, state.2)

/-- The result and the bytes written to the buffer. -/
def listxattr (fs : FS) (ctx : Context) (path : Bytes) (size : Nat) : FsProg (Int × Bytes) :=
  request ctx (fun e => (errcode e, [])) fun sctx => do
    let n ← fs.pcache.getnode sctx path
    let l ← Register.getattrs .nodes n.id
    let result := l.foldl (listxattrStep size) (0, [])
    pure (toCInt result.1, result.2)

/-! ## Creating and linking -/

/-- Create a file or another node that is no directory. -/
def mknod (fs : FS) (ctx : Context) (path : Bytes) (mode : UInt32) (dev : UInt64) :
    FsProg Int :=
  request ctx errcode fun sctx => do
    let p ← Path.resolve fs.pcache sctx path
    let n ← p.create sctx Node.create
    Node.setattr n.id .uid ctx.uid
    Node.setattr n.id .gid ctx.gid
    Node.setattr n.id .mode mode
    onlyIf (sIschr mode || sIsblk mode) (Node.setattr n.id .dev dev)
    touchParent p.parent
    pure 0

/-- Create a directory with its own entries. -/
def mkdir (fs : FS) (ctx : Context) (path : Bytes) (mode : UInt32) : FsProg Int :=
  request ctx errcode fun sctx => do
    let p ← Path.resolve fs.pcache sctx path
    let n ← p.create sctx Directory.create
    Directory.addchild n (str "..") p.parent
    Node.setattr n.id .uid ctx.uid
    Node.setattr n.id .gid ctx.gid
    Node.setattr n.id .mode (sIfdir ||| mode)
    touchParent p.parent
    pure 0

/-- Create a symbolic link to a path. -/
def symlink (fs : FS) (ctx : Context) (oldpath newpath : Bytes) : FsProg Int :=
  request ctx errcode fun sctx => do
    let p ← Path.resolve fs.pcache sctx newpath
    let sl ← p.create sctx Symlink.create
    Node.setattr sl.id .uid ctx.uid
    Node.setattr sl.id .gid ctx.gid
    Node.setattrv sl.id Attr.symlink.name oldpath
    touchParent p.parent
    pure 0

/-- Give a node another name. -/
def link (fs : FS) (ctx : Context) (oldpath newpath : Bytes) : FsProg Int :=
  request ctx errcode fun sctx => do
    let p ← Path.resolve fs.pcache sctx newpath
    Node.access p.parent sctx wOk
    let n ← fs.pcache.getnode sctx oldpath
    Node.setTime n.id .ctime
    Directory.addchild p.parent p.leaf n
    touchParent p.parent
    pure 0

/-! ## Removing -/

/-- Remove a name that is not of a directory. -/
def unlink (fs : FS) (ctx : Context) (path : Bytes) : FsProg Int :=
  request ctx errcode fun sctx => do
    let p ← Path.resolve fs.pcache sctx path
    Node.access p.parent sctx (wOk ||| xOk)
    let n ← Directory.getchild p.parent p.leaf
    checkStickyBit sctx p.parent n
    let mode ← Node.getattr UInt32 n.id .mode
    if sIsdir mode then
      pure (-eIsdir)
    else do
      fs.pcache.invalidate path
      Node.setTime n.id .ctime
      Directory.delchild p.parent p.leaf
      touchParent p.parent
      pure 0

/-- Remove an empty directory. -/
def rmdir (fs : FS) (ctx : Context) (path : Bytes) : FsProg Int :=
  request ctx errcode fun sctx => do
    let p ← Path.resolve fs.pcache sctx path
    Node.access p.parent sctx (xOk ||| wOk)
    let n ← Node.cast .directory (← Directory.getchild p.parent p.leaf)
    checkStickyBit sctx p.parent n
    let count ← Directory.countchildren n
    if count > 2 then
      pure (-eNotempty)
    else do
      Directory.delchild n (str ".")
      Directory.delchild n (str "..")
      Directory.delchild p.parent p.leaf
      fs.pcache.invalidate path
      touchParent p.parent
      pure 0

/-! ## Renaming -/

/-- The child of a name, or none when there is no such file. -/
def findchild (d : NodeRef) (name : Bytes) : FsProg (Option NodeRef) :=
  (do
    let child ← Directory.getchild d name
    pure (some child) : FsProg (Option NodeRef)).catching fun e =>
      match e with
      | .notFound => pure none
      | e => .throw e

/-- The loop that climbs from a directory to the root: whether it meets `srcid`. -/
def climbMeets (srcid : UInt64) : Nat → NodeRef → FsProg Bool
  | 0, _ => .halt .diverged
  | fuel + 1, n =>
      if n.id = 0 then pure false
      else if n.id = srcid then pure true
      else do
        let up ← Node.cast .directory (← Directory.getchild n (str ".."))
        climbMeets srcid fuel up

/-- The checks on an existing destination.  A destination directory is emptied.
The result is the code to return at once, if any. -/
def clearDestination (fs : FS) (parent src dst : NodeRef) : FsProg (Option Int) := do
  let srcMode ← Node.getattr UInt32 src.id .mode
  let dstMode ← Node.getattr UInt32 dst.id .mode
  if sIsdir srcMode then
    if ¬ sIsdir dstMode then
      pure (some (-eNotdir))
    else do
      let n ← Node.cast .directory (← Node.getnode parent.id)
      if ← climbMeets src.id fs.fuel n then
        pure (some (-eInval))
      else do
        let d ← Node.cast .directory (← Node.getnode dst.id)
        let count ← Directory.countchildren d
        if count > 2 then
          pure (some (-eNotempty))
        else do
          Directory.delchild d (str ".")
          Directory.delchild d (str "..")
          pure none
  else if sIsdir dstMode then
    pure (some (-eIsdir))
  else
    pure none

/-- The treatment of the destination node, if there is one. -/
def removeDestination (fs : FS) (sctx : SContext) (newpath : Bytes) (dstpath : Path)
    (src : NodeRef) : Option NodeRef → FsProg (Option Int)
  | none => pure none
  | some dst => do
      checkStickyBit sctx dstpath.parent dst
      match ← clearDestination fs dstpath.parent src dst with
      | some code => pure (some code)
      | none => do
          fs.pcache.invalidate newpath
          Node.setTime dst.id .ctime
          Directory.delchild dstpath.parent dstpath.leaf
          pure none

/-- Update the parent of a moved directory. -/
def moveDotDot (src parent : NodeRef) : FsProg Unit := do
  let mode ← Node.getattr UInt32 src.id .mode
  if sIsdir mode then do
    Directory.delchild src (str "..")
    Directory.addchild src (str "..") parent
  else
    pure ()

/-- Move a node to another name, in place of what is there. -/
def rename (fs : FS) (ctx : Context) (oldpath newpath : Bytes) : FsProg Int :=
  request ctx errcode fun sctx => do
    let srcpath ← Path.resolve fs.pcache sctx oldpath
    let dstpath ← Path.resolve fs.pcache sctx newpath
    let src ← Directory.getchild srcpath.parent srcpath.leaf
    let dst ← findchild dstpath.parent dstpath.leaf
    if dst.isSome ∧ oldpath = newpath then
      pure 0
    else do
      Node.access srcpath.parent sctx (xOk ||| wOk)
      Node.access dstpath.parent sctx (xOk ||| wOk)
      checkStickyBit sctx srcpath.parent src
      match ← removeDestination fs sctx newpath dstpath src dst with
      | some code => pure code
      | none => do
          moveDotDot src dstpath.parent
          fs.pcache.invalidate oldpath
          Node.setTime src.id .ctime
          Directory.addchild dstpath.parent dstpath.leaf src
          Directory.delchild srcpath.parent srcpath.leaf
          touchParent srcpath.parent
          touchParent dstpath.parent
          pure 0

/-! ## Attributes -/

/-- Change the permission bits. -/
def chmod (fs : FS) (ctx : Context) (path : Bytes) (mode : UInt32) : FsProg Int :=
  request ctx errcode fun sctx => do
    let n ← fs.pcache.getnode sctx path
    let allowed ← (
      if sctx.uid ≠ 0 then do
        let fgid ← Node.getattr UInt32 n.id .gid
        let fuid ← Node.getattr UInt32 n.id .uid
        if sctx.uid ≠ fuid then pure none
        else if fgid ∈ sctx.groups then pure (some mode)
        else pure (some (mode &&& ~~~sIsgid))
      else
        pure (some mode) : FsProg (Option UInt32))
    match allowed with
    | none => pure (-ePerm)
    | some mode => do
        Node.setTime n.id .ctime
        let old ← Node.getattr UInt32 n.id .mode
        Node.setattr n.id .mode ((mode &&& ~~~sIfmt) ||| (old &&& sIfmt))
        fs.pcache.invalidate path
        pure 0

/-- The change of owner: whether it was permitted. -/
def chownOwner (sctx : SContext) (n : NodeRef) (owner : UInt32) : FsProg Bool := do
  if owner ≠ noId then do
    let uid ← Node.getattr UInt32 n.id .uid
    if owner ≠ uid then
      if sctx.uid ≠ 0 then
        pure false
      else do
        Node.setattr n.id .uid owner
        pure true
    else
      pure true
  else
    pure true

/-- Clear the setuid and setgid bits that a change of group takes away. -/
def clearSetid (n : NodeRef) : FsProg Unit := do
  let m ← Node.getattr UInt32 n.id .mode
  if m &&& sIfreg ≠ 0 then
    let m := m &&& ~~~sIsuid
    Node.setattr n.id .mode (if m &&& sIxgrp ≠ 0 then m &&& ~~~sIsgid else m)
  else
    pure ()

/-- The change of group: whether it was permitted. -/
def chownGroup (sctx : SContext) (n : NodeRef) (group : UInt32) : FsProg Bool := do
  if group ≠ noId then do
    let gid ← Node.getattr UInt32 n.id .gid
    if group ≠ gid then
      if sctx.uid ≠ 0 then do
        let uid ← Node.getattr UInt32 n.id .uid
        if sctx.uid ≠ uid ∨ group ∉ sctx.groups then
          pure false
        else do
          clearSetid n
          Node.setattr n.id .gid group
          pure true
      else do
        Node.setattr n.id .gid group
        pure true
    else
      pure true
  else
    pure true

/-- Change the owner and the group. -/
def chown (fs : FS) (ctx : Context) (path : Bytes) (owner group : UInt32) : FsProg Int :=
  request ctx errcode fun sctx => do
    let n ← fs.pcache.getnode sctx path
    if ← chownOwner sctx n owner then
      if ← chownGroup sctx n group then do
        Node.setTime n.id .ctime
        fs.pcache.invalidate path
        pure 0
      else
        pure (-ePerm)
    else
      pure (-ePerm)

/-- Whether the caller may not change the extended attribute. -/
def xattrDenied (sctx : SContext) (n : NodeRef) (name : Bytes) : FsProg Bool := do
  if sctx.uid ≠ 0 then
    if reservedPrefix.isPrefixOf name then
      pure true
    else do
      let uid ← Node.getattr UInt32 n.id .uid
      pure (sctx.uid ≠ uid)
  else
    pure false

/-- The test of the flags of `setxattr`: the code to return at once, if any. -/
def checkXattrFlags (n : NodeRef) (name : Bytes) (flags : Int) : FsProg (Option Int) :=
  if flags = 0 then
    pure none
  else if flags = xattrCreate then
    (do
      let _ ← Node.getattrv n.id name
      pure (some (-eExist)) : FsProg (Option Int)).catching fun e =>
        match e with
        | .attrNotFound => pure none
        | e => .throw e
  else if flags = xattrReplace then do
    let _ ← Node.getattrv n.id name
    pure none
  else
    pure (some (-eInval))

/-- Store an extended attribute. -/
def setxattr (fs : FS) (ctx : Context) (path name value : Bytes) (flags : Int) : FsProg Int :=
  request ctx xattrErrcode fun sctx => do
    let n ← fs.pcache.getnode sctx path
    if ← xattrDenied sctx n name then
      pure (-eAcces)
    else do
      Node.setTime n.id .ctime
      match ← checkXattrFlags n name flags with
      | some code => pure code
      | none => do
          Node.setattrv n.id name value
          onlyIf (name = Attr.uid.name ∨ name = Attr.gid.name ∨ name = Attr.mode.name)
            (fs.pcache.invalidate path)
          pure 0

/-- Remove an extended attribute. -/
def removexattr (fs : FS) (ctx : Context) (path name : Bytes) : FsProg Int :=
  request ctx xattrErrcode fun sctx => do
    let n ← fs.pcache.getnode sctx path
    if ← xattrDenied sctx n name then
      pure (-eAcces)
    else do
      Node.setTime n.id .ctime
      Register.delattr .nodes n.id name
      pure 0

/-- The times are given in seconds, or not at all for the current time. -/
def utimens (fs : FS) (ctx : Context) (path : Bytes) (tv : Option (UInt64 × UInt64)) :
    FsProg Int :=
  request ctx errcode fun sctx => do
    let n ← fs.pcache.getnode sctx path
    match tv with
    | some (atime, mtime) => do
        let owned ← (
          if sctx.uid ≠ 0 then do
            let uid ← Node.getattr UInt32 n.id .uid
            pure (sctx.uid = uid)
          else
            pure true : FsProg Bool)
        if owned then do
          Node.setattr n.id .atime atime
          Node.setattr n.id .mtime mtime
          pure 0
        else
          pure (-eAcces)
    | none => do
        Node.access n sctx wOk
        Node.setTime n.id .atime
        Node.setTime n.id .mtime
        pure 0

/-! ## File data -/

/-- Change the size of the stored file. -/
def truncate (fs : FS) (ctx : Context) (path : Bytes) (length : UInt64) : FsProg Int :=
  request ctx errcode fun sctx => do
    let n ← Node.cast .file (← fs.pcache.getnode sctx path)
    Node.access n sctx wOk
    Node.setTime n.id .mtime
    Node.setTime n.id .ctime
    let source ← fs.getsource n.id path oWronly
    commitTxn
    let _ ← source.ftruncate length
    source.destroy
    pure 0

/-- The loop that takes the first free slot, looked at again with the mutex held. -/
def takeSlot (source : Source) : Nat → Nat → FsProg (Option Nat)
  | _, 0 => pure none
  | fh, remaining + 1 => do
      match ← perform (.getSlot fh) with
      | some _ => takeSlot source (fh + 1) remaining
      | none => do
          perform .lockOpen
          match ← perform (.getSlot fh) with
          | none => do
              perform (.setSlot fh (some source))
              perform .unlockOpen
              pure (some fh)
          | some _ => do
              perform .unlockOpen
              takeSlot source (fh + 1) remaining

/-- Enter a source into the table.  It is destroyed when there is no room. -/
def install (source : Source) : FsProg (Int × Nat) := do
  match ← takeSlot source 0 maxOpenFiles with
  | some fh => pure (0, fh)
  | none => do
      source.destroy
      pure (-eNfile, 0)

/-- The result and, when it is 0, the file handle. -/
def openFile (fs : FS) (ctx : Context) (path : Bytes) (flags : UInt32) : FsProg (Int × Nat) :=
  let onError : Err → Int × Nat
    | .badCast .file => (-eIsdir, 0)
    | e => (errcode e, 0)
  request ctx onError fun sctx => do
    let n ← Node.cast .file (← fs.pcache.getnode sctx path)
    let accmode := flags &&& oAccmode
    onlyIf (accmode = oRdonly ∨ accmode = oRdwr) (Node.access n sctx rOk)
    onlyIf (accmode = oWronly ∨ accmode = oRdwr) (Node.access n sctx wOk)
    let s ← fs.getsource n.id path flags
    install s

/-- The open file of a handle. -/
def handle (fh : Nat) : FsProg (Option Source) :=
  if fh ≥ maxOpenFiles then pure none else perform (.getSlot fh)

/-- The result and the bytes read. -/
def read (fh : Nat) (nbyte offset : UInt64) : FsProg (Int × Bytes) := do
  match ← handle fh with
  | none => pure (-eBadf, [])
  | some source => do
      let result ← source.read nbyte offset
      perform (.setSlot fh (some result.2.2))
      pure (result.1, result.2.1)

/-- The number of bytes written. -/
def write (fh : Nat) (buf : Bytes) (offset : UInt64) : FsProg Int := do
  match ← handle fh with
  | none => pure (-eBadf)
  | some source => do
      let result ← source.write buf offset
      perform (.setSlot fh (some result.2))
      pure result.1

/-- Write back what a handle remembers. -/
def flush (fh : Nat) : FsProg Int := do
  match ← handle fh with
  | none => pure (-eBadf)
  | some source => source.flush

/-- Close a handle and free its slot. -/
def release (fh : Nat) : FsProg Int := do
  match ← handle fh with
  | none => pure (-eBadf)
  | some source => do
      source.destroy
      perform (.setSlot fh none)
      pure 0

/-- Write back what a handle remembers and synchronize its file. -/
def fsync (fh : Nat) (datasync : Bool) : FsProg Int := do
  match ← handle fh with
  | none => pure (-eBadf)
  | some source => source.fsync datasync

end FS

end OfflineFs
