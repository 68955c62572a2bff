import OfflineFs.Model.Register

/-!
# Media and chunks

A medium stores file data as files below a directory of the host, and may first
run a command that makes the directory available.  The exceptions of this part
are never told apart by the filesystem, so they are all `runtime` here.
-/

namespace OfflineFs

open OfflineFs.Effect
open OfflineFs.Effect.Program (perform)

/-- A system call whose result is only inspected. -/
def sys (call : SysCall) : FsProg SysResult :=
  perform (.sys call)

/-- The 32-bit `int` that a wider integer is converted to. -/
def toCInt (value : Int) : Int :=
  Int.bmod value (2 ^ 32)

/-- The byte between the components of a path. -/
def slash : UInt8 := 47

/-! ## Chunks -/

/-- The bits of the access mode. -/
def oAccmode : UInt32 := 0o3
/-- Open for reading. -/
def oRdonly : UInt32 := 0o0
/-- Open for writing. -/
def oWronly : UInt32 := 0o1
/-- Open for both. -/
def oRdwr : UInt32 := 0o2
/-- Create the file if it is missing. -/
def oCreat : UInt32 := 0o100

namespace ChunkFile

/-- The prefixes of a path that end before a slash and are not cut off right
after another one: the directories the constructor tries to create. -/
def parents (path : Bytes) : List Bytes :=
  (List.range path.length).filterMap fun newpos =>
    if path[newpos]? = some slash ∧ newpos ≠ 0 ∧ path[newpos - 1]? ≠ some slash then
      some (path.take newpos)
    else
      none

/-- The loop that creates every missing parent directory. -/
def createParents : List Bytes → FsProg Unit
  | [] => pure ()
  | dir :: rest => do
      let st ← sys (.stat dir)
      match st.errno with
      | none => createParents rest
      | some errno =>
          if errno = eNoent then do
            let made ← sys (.mkdir dir 0o770)
            match made.errno with
            | none => createParents rest
            | some _ => .throw .runtime
          else
            .throw .runtime

/-- `Chunk_file::Chunk_file`. -/
def create (path : Bytes) (mode : UInt32) : FsProg Fd := do
  let first ← sys (.creat path (mode ||| oCreat) 0o660)
  match first.errno with
  | none => pure ⟨first.value, path⟩
  | some errno =>
      if errno = eNoent then do
        createParents (parents path)
        let second ← sys (.creat path (mode ||| oCreat) 0o600)
        match second.errno with
        | none => pure ⟨second.value, path⟩
        | some _ => .throw .runtime
      else
        .throw .runtime

/-- `Chunk_file::~Chunk_file`. -/
def destroy (fd : Fd) : FsProg Unit := do
  let _ ← sys (.close fd)
  pure ()

/-- `Chunk_file::read`. -/
def read (fd : Fd) (nbyte offset : UInt64) : FsProg (Int × Bytes) := do
  let result ← sys (.pread fd nbyte offset)
  match result.errno with
  | none => pure (toCInt result.data.length, result.data)
  | some _ => pure (-1, [])

/-- `Chunk_file::write`. -/
def write (fd : Fd) (buf : Bytes) (offset : UInt64) : FsProg Int := do
  let result ← sys (.pwrite fd buf offset)
  match result.errno with
  | none => pure (toCInt result.value)
  | some _ => pure (-1)

/-- `Chunk_file::fsync`. -/
def fsync (fd : Fd) (datasync : Bool) : FsProg Int := do
  let result ← sys (if datasync then .fdatasync fd else .fsync fd)
  match result.errno with
  | none => pure 0
  | some _ => pure (-1)

/-- `Chunk_file::ftruncate`. -/
def ftruncate (fd : Fd) (length : UInt64) : FsProg Int := do
  let result ← sys (.ftruncate fd length)
  match result.errno with
  | none => pure 0
  | some _ => pure (-1)

end ChunkFile

/-! ## Media -/

/-- The classes of media. -/
inductive MediumKind
  | directory
  | insert
  deriving DecidableEq, Repr

/-- A `Medium` object. -/
structure Medium where
  id : UInt32
  kind : MediumKind
  deriving DecidableEq, Repr

namespace Medium

/-- `getattrv` on a media register. -/
def getattrv (id : UInt32) (name : Bytes) : FsProg Bytes := do
  match ← perform (.getMedia id name) with
  | some value => pure value
  | none => .throw .runtime

/-- Instantiate a medium from its stored type. -/
def getmedium (id : UInt32) : FsProg Medium := do
  match ← perform (.getMedia id (str "type")) with
  | none => .throw .runtime
  | some mediumtype =>
      if mediumtype = str "directory" then
        pure ⟨id, .directory⟩
      else if mediumtype = str "insert" then
        pure ⟨id, .insert⟩
      else
        .throw .runtime

/-- The loop that looks a medium up by label. -/
def findLabel (label : Bytes) : List UInt32 → FsProg Medium
  | [] => .throw .runtime
  | id :: rest => do
      match ← perform (.getMedia id (str "label")) with
      | some found => if found = label then getmedium id else findLabel label rest
      | none => findLabel label rest

/-- Instantiate the first medium with a label. -/
def getmediumByLabel (label : Bytes) : FsProg Medium := do
  let media ← perform .scanMedia
  findLabel label media

/-- `Medium_insert::check`. -/
def check (medium : Medium) : FsProg Bool := do
  let checkcmd ← getattrv medium.id (str "checkcmd")
  let status ← sys (.system checkcmd)
  match status.errno with
  | some _ => .throw .runtime
  | none => pure (status.value = 0)

/-- `Medium_insert::insert`. -/
def insert (medium : Medium) : FsProg Unit := do
  if ← check medium then
    pure ()
  else do
    let insertcmd ← getattrv medium.id (str "insertcmd")
    let status ← sys (.system insertcmd)
    match status.errno with
    | some _ => .throw .runtime
    | none =>
        if status.value ≠ 0 then
          .throw .runtime
        else if ← check medium then
          pure ()
        else
          .throw .runtime

/-- `Medium_directory::getchunk`. -/
def getchunkDirectory (medium : Medium) (phid : Bytes) (mode : UInt32) : FsProg Fd := do
  let directory ← getattrv medium.id (str "directory")
  ChunkFile.create (directory ++ [slash] ++ phid) mode

/-- Open a file of a medium, which is made available first. -/
def getchunk (medium : Medium) (phid : Bytes) (mode : UInt32) : FsProg Fd :=
  match medium.kind with
  | .directory => getchunkDirectory medium phid mode
  | .insert => do
      insert medium
      getchunkDirectory medium phid mode

/-- `Medium::addfile`, which no class overrides. -/
def addfile (_medium : Medium) (_phid : Bytes) : FsProg Unit :=
  pure ()

/-- The length of the longest prefix that ends in a byte satisfying a test. -/
def lastWhere (test : UInt8 → Bool) (bytes : Bytes) : Option Nat :=
  (bytes.reverse.findIdx? test).map fun index => bytes.length - index

/-- The directories above a file, innermost first, that `delfile` looks at.  The
fuel bounds the number of slashes. -/
def parentDirs : Nat → Bytes → List Bytes
  | 0, _ => []
  | fuel + 1, phid =>
      match lastWhere (· = slash) phid with
      | none => []
      | some slashEnd =>
          match lastWhere (· ≠ slash) (phid.take slashEnd) with
          | none => []
          | some dirEnd => phid.take dirEnd :: parentDirs fuel (phid.take dirEnd)

/-- The loop that removes each empty parent directory. -/
def removeParents (base : Bytes) : List Bytes → FsProg Unit
  | [] => pure ()
  | dir :: rest => do
      let st ← sys (.stat (base ++ [slash] ++ dir))
      match st.errno with
      | some _ => .throw .runtime
      | none =>
          if st.value > 2 then
            pure ()
          else do
            let removed ← sys (.rmdir (base ++ [slash] ++ dir))
            match removed.errno with
            | some _ => .throw .runtime
            | none => removeParents base rest

/-- `Medium_directory::delfile`. -/
def delfileDirectory (medium : Medium) (phid : Bytes) : FsProg Unit := do
  let unlinkFiles ← getattrv medium.id (str "unlink_files")
  if unlinkFiles = str "true" then do
    let base ← getattrv medium.id (str "directory")
    let _ ← sys (.unlink (base ++ [slash] ++ phid))
    removeParents base (parentDirs phid.length phid)
  else
    pure ()

/-- Remove a file of a medium, which is made available first. -/
def delfile (medium : Medium) (phid : Bytes) : FsProg Unit :=
  match medium.kind with
  | .directory => delfileDirectory medium phid
  | .insert => do
      let unlinkFiles ← getattrv medium.id (str "unlink_files")
      if unlinkFiles = str "true" then do
        insert medium
        delfileDirectory medium phid
      else
        delfileDirectory medium phid

end Medium

end OfflineFs
