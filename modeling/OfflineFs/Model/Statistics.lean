import OfflineFs.Model.Format
import OfflineFs.Model.Fs

/-!
# Statistics

What the filesystem reports about the space on its media.  What the host answers about a
directory is a parameter.
-/

namespace OfflineFs

open OfflineFs.Effect
open OfflineFs.Effect.Program (perform)

/-- The members of `struct statvfs` that are filled in. -/
structure Statvfs where
  f_bsize : UInt64
  f_frsize : UInt64
  f_blocks : UInt64
  f_bfree : UInt64
  f_bavail : UInt64
  f_namemax : UInt64
  deriving DecidableEq, Repr

/-- `Medium::Stats`. -/
structure Stats where
  total : UInt64 := 0
  free : UInt64 := 0
  deriving DecidableEq, Repr

/-- What a stream leaves in a `uint64_t`: 0 without a number, and the greatest value where the
number is too large. -/
def extractUnsigned (text : Bytes) : UInt64 :=
  match readInteger 10 text with
  | none => 0
  | some _ => (readUnsigned UInt64 10 text).getD (UInt64.ofNat (2 ^ 64 - 1))

namespace Medium

variable (statvfs : Bytes → Option Statvfs)

/-- `Medium_directory::getstats`. -/
def getstatsDirectory (medium : Medium) : FsProg Stats := do
  let directory ← getattrv medium.id (str "directory")
  match statvfs directory with
  | none => .throw .runtime
  | some st => pure ⟨st.f_blocks * st.f_frsize, st.f_bfree * st.f_frsize⟩

/-- `Medium_insert::getstats`: what was read before an exception stays. -/
def getstatsInsert (medium : Medium) : FsProg Stats :=
  (do
    let total ← getattrv medium.id (str "total_size")
    (do
      let free ← getattrv medium.id (str "free_size")
      pure { total := extractUnsigned total, free := extractUnsigned free : Stats }).catching
        fun _ => pure { total := extractUnsigned total : Stats }).catching
          fun _ => pure {}

/-- The sizes of a medium, as its class measures them. -/
def getstats (medium : Medium) : FsProg Stats :=
  match medium.kind with
  | .directory => getstatsDirectory statvfs medium
  | .insert => getstatsInsert medium

end Medium

namespace FS

/-- The loop of `statfs`. -/
def sumStats (statvfs : Bytes → Option Statvfs) (st : Stats) : List UInt32 → FsProg Stats
  | [] => pure st
  | mid :: rest => do
      let m ← Medium.getmedium mid
      let own ← m.getstats statvfs
      sumStats statvfs ⟨st.total + own.total, st.free + own.free⟩ rest

/-- The result and what the buffer is filled with. -/
def statfs (statvfs : Bytes → Option Statvfs) : FsProg (Int × Option Statvfs) :=
  (fsTxn do
    let ms ← perform .scanMedia
    let st ← sumStats statvfs {} ms
    pure (0, some { f_bsize := 4096, f_frsize := 4096, f_blocks := st.total / 4096,
                    f_bfree := st.free / 4096, f_bavail := st.free / 4096,
                    f_namemax := 0 })).catching fun e => pure (errcode e, none)

end FS

end OfflineFs
