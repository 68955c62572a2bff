import OfflineFs.Database.Store
import OfflineFs.Effect.Program
import OfflineFs.Map.Tables

/-!
# The effects of the filesystem

The filesystem code is written as programs over the calls it makes to what lies
outside it: the databases, the clock, the two mutexes and the state they guard,
and the operating system.  One program text then has several meanings.  A
request can be run alone, stopped at any call, or interleaved with another.
-/

namespace OfflineFs

open Std OfflineFs.Effect

/-! ## The operating system -/

/-- A file descriptor.  The path it was opened at is kept with the number. -/
structure Fd where
  number : Nat
  path : Bytes
  deriving DecidableEq, Repr

/-- The system calls the library makes. -/
inductive SysCall
  | creat (path : Bytes) (flags perm : UInt32)
  | close (fd : Fd)
  | pread (fd : Fd) (nbyte offset : UInt64)
  | pwrite (fd : Fd) (data : Bytes) (offset : UInt64)
  | fsync (fd : Fd)
  | fdatasync (fd : Fd)
  | ftruncate (fd : Fd) (length : UInt64)
  | stat (path : Bytes)
  | mkdir (path : Bytes) (perm : UInt32)
  | unlink (path : Bytes)
  | rmdir (path : Bytes)
  | statvfs (path : Bytes)
  | system (command : Bytes)
  deriving DecidableEq, Repr

/-- What a system call gives back: an error number when it failed, and otherwise
whichever of the other fields the call fills in. -/
structure SysResult where
  errno : Option Int := none
  value : Nat := 0
  data : Bytes := []
  total : UInt64 := 0
  free : UInt64 := 0
  deriving DecidableEq, Repr

/-- A system call that was made, with its result. -/
structure SysEvent where
  call : SysCall
  result : SysResult
  deriving DecidableEq, Repr

/-! ## Shared objects -/

/-- A `Source_single`, whose chunk is a `Chunk_file` holding a descriptor. -/
structure Source where
  fileid : UInt64
  mode : UInt32
  chunk : Fd
  size : UInt64
  atime : UInt64
  mtime : UInt64
  deriving DecidableEq, Repr

/-- `PathCache_hash::CEntry::Data`.  An entry is named by its address. -/
structure CEntryData where
  path : Bytes
  nodeid : UInt64
  parent : Option Nat
  uid : UInt32
  gid : UInt32
  mode : UInt32
  queueIt : Nat
  deriving DecidableEq, Repr

/-- The members of a `PathCache_hash`.  An entry missing from `heap` has no data,
and one whose constructor has run and nothing else has data without values.  A
queue element is an iterator, which stays valid when others are erased, with the
entry it refers to.  The map of paths is a hash table of so many buckets. -/
structure PathCacheState where
  heap : ExtTreeMap Nat (Option CEntryData)
  paths : ExtTreeMap Bytes Nat
  buckets : Nat
  queue : List (Nat × Nat)
  maxentries : Int
  nentries : Int
  nextEntry : Nat
  nextIt : Nat

/-- The limit of the cache. -/
def pathcacheMaxEntries : Int := 4096

/-- The bucket counts of `std::tr1::unordered_map`, from the one that `rehash(4096)` asks for
on.  Each is the first prime in the list of the library that is at least twice the one before. -/
def bucketCounts : List Nat :=
  [4349, 8783, 17749, 35933, 72817, 147793, 299951, 608903, 1236397, 2510653, 5098259, 10352717,
    21023161, 42691603, 86693767, 176048909, 357502601, 725980837, 1474249943, 2993761039]

/-- The bucket count after a rehash. -/
def nextBuckets (buckets : Nat) : Nat :=
  (bucketCounts.find? (buckets < ·)).getD (2 * buckets + 1)

namespace PathCacheState

/-- The state the constructor leaves. -/
def initial : PathCacheState :=
  { heap := ∅, paths := ∅, buckets := 4349, queue := [], maxentries := pathcacheMaxEntries,
    nentries := 0, nextEntry := 0, nextIt := 0 }

/-- The hash table behind the map of paths. -/
def table (cache : PathCacheState) : Map.Table :=
  ⟨cache.buckets, cache.paths.size⟩

end PathCacheState

/-! ## Effects -/

/-- The databases of an `FsDb`. -/
inductive Database
  | nodes
  | directories
  | media
  deriving DecidableEq, Repr

/-- The calls of a request. -/
inductive FsEff : Type → Type
  /-- A cursor read with `DB_SET|DB_RMW`. -/
  | get (table : Table) (id : UInt64) (name : Bytes) : FsEff (Option Bytes)
  | put (table : Table) (id : UInt64) (name value : Bytes) : FsEff Unit
  | del (table : Table) (id : UInt64) (name : Bytes) : FsEff Unit
  /-- A scan of one register with `DB_SET_RANGE` and `DB_NEXT`. -/
  | scan (table : Table) (id : UInt64) : FsEff (List Bytes)
  /-- The id of the record found by `DB_LAST`. -/
  | last (table : Table) : FsEff (Option UInt64)
  | lockCreate (table : Table) : FsEff Unit
  | unlockCreate (table : Table) : FsEff Unit
  | getMedia (id : UInt32) (name : Bytes) : FsEff (Option Bytes)
  | scanMedia : FsEff (List UInt32)
  | commit (database : Database) : FsEff Unit
  | time : FsEff UInt64
  /-- What the conversions of the library are compiled for. -/
  | byteOrder : FsEff ByteOrder
  | sys (call : SysCall) : FsEff SysResult
  | lockCache : FsEff Unit
  | unlockCache : FsEff Unit
  | getCache : FsEff PathCacheState
  | setCache (cache : PathCacheState) : FsEff Unit
  | lockOpen : FsEff Unit
  | unlockOpen : FsEff Unit
  | getSlot (fh : Nat) : FsEff (Option Source)
  | setSlot (fh : Nat) (source : Option Source) : FsEff Unit

/-- Filesystem code. -/
abbrev FsProg := Program FsEff Err

/-- An `if` statement without an `else`. -/
def onlyIf (condition : Prop) [Decidable condition] (action : FsProg Unit) : FsProg Unit :=
  if condition then action else pure ()

end OfflineFs
