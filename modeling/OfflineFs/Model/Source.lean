import OfflineFs.Model.Medium

/-!
# Sources

The file data behind a regular file.  A `Source_single` keeps the size it last
knew and the times of its own last accesses, and writes them back on a flush.
-/

namespace OfflineFs

open OfflineFs.Effect
open OfflineFs.Effect.Program (perform)

/-- `FsTxn` around a block.  Its destructor commits, also when the block throws,
in the reverse of the order of declaration. -/
def fsTxn {α : Type} (body : FsProg α) : FsProg α := do
  let result ← body.catching fun e => do
    perform (.commit .media)
    perform (.commit .directories)
    perform (.commit .nodes)
    .throw e
  perform (.commit .media)
  perform (.commit .directories)
  perform (.commit .nodes)
  pure result

/-- `FsTxn::commit`. -/
def commitTxn : FsProg Unit := do
  perform (.commit .nodes)
  perform (.commit .directories)
  perform (.commit .media)

namespace Source

/-- `Source_single::Source_single`.  The chunk is closed again when the size
cannot be read. -/
def single (fileid : UInt64) (mode : UInt32) : FsProg Source := do
  let mediumid ← Node.getattr UInt32 fileid .mediumid
  let order ← perform .byteOrder
  let medium ← Medium.getmedium (order.inMemory mediumid)
  let phid ← Node.getattrv fileid Attr.phid.name
  let chunk ← medium.getchunk phid mode
  let size ← (Node.getattr UInt64 fileid .size).catching fun e => do
    ChunkFile.destroy chunk
    .throw e
  pure { fileid, mode, chunk, size, atime := 0, mtime := 0 }

/-- Instantiate the source of a file. -/
def getsource (fileid : UInt64) (mode : UInt32) : FsProg Source := do
  let source ← Node.getattrv fileid Attr.source.name
  if source = str "single" then single fileid mode else .throw .runtime

/-- `Source_single::remove`. -/
def removeSingle (fileid : UInt64) : FsProg Unit := do
  let mediumid ← Node.getattr UInt32 fileid .mediumid
  let order ← perform .byteOrder
  let medium ← Medium.getmedium (order.inMemory mediumid)
  let phid ← Node.getattrv fileid Attr.phid.name
  medium.delfile phid

/-- Free the storage of a file. -/
def remove (fileid : UInt64) : FsProg Unit := do
  let source ← Node.getattrv fileid Attr.source.name
  if source = str "single" then removeSingle fileid else .throw .runtime

/-- The virtual destructor. -/
def destroy (source : Source) : FsProg Unit :=
  ChunkFile.destroy source.chunk

/-- `Source_single::read`: the result, the bytes read and the changed source. -/
def read (source : Source) (nbyte offset : UInt64) : FsProg (Int × Bytes × Source) := do
  let atime ← perform .time
  let result ← ChunkFile.read source.chunk nbyte offset
  pure (result.1, result.2, { source with atime })

/-- The size after bytes were written up to `nbyte + offset`. -/
def grown (source : Source) (nbyte offset : UInt64) : UInt64 :=
  if nbyte + offset > source.size then nbyte + offset else source.size

/-- `Source_single::write`. -/
def write (source : Source) (buf : Bytes) (offset : UInt64) : FsProg (Int × Source) := do
  let mtime ← perform .time
  let size := source.grown (UInt64.ofNat buf.length) offset
  let result ← ChunkFile.write source.chunk buf offset
  pure (result, { source with mtime, size })

/-- Store a cached value that exceeds the stored one. -/
def writeBack (fileid : UInt64) (attr : Attr) (cached : UInt64) : FsProg Unit := do
  let stored ← Node.getattr UInt64 fileid attr
  if cached > stored then Node.setattr fileid attr cached else pure ()

/-- `Source_single::flush`. -/
def flush (source : Source) : FsProg Int :=
  fsTxn do
    writeBack source.fileid .size source.size
    writeBack source.fileid .atime source.atime
    writeBack source.fileid .mtime source.mtime
    pure 0

/-- `Source_single::fsync`. -/
def fsync (source : Source) (datasync : Bool) : FsProg Int := do
  if datasync then
    ChunkFile.fsync source.chunk datasync
  else do
    let _ ← flush source
    ChunkFile.fsync source.chunk datasync

/-- `Source_single::ftruncate`. -/
def ftruncate (source : Source) (length : UInt64) : FsProg (Int × Source) :=
  fsTxn do
    let mtime ← perform .time
    Node.setattr source.fileid .mtime mtime
    Node.setattr source.fileid .size length
    let result ← ChunkFile.ftruncate source.chunk length
    pure (result, { source with mtime, size := length })

end Source

end OfflineFs
