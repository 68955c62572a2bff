import OfflineFs.Files.WriteBack
import OfflineFs.Run.Files
import OfflineFs.Transition.Run

/-!
# Runs on one file

The requests on one file, through its handles and by its paths, in any order.
Beside the world, a run records which handles were used since their last flush
and the times that a write-through implementation would have stored.
-/

namespace OfflineFs

open OfflineFs.Effect OfflineFs.WriteBack

/-- A request on a file. -/
inductive FileOp
  | openFile (ctx : Context) (path : Bytes) (flags : UInt32)
  | read (fh : Nat) (nbyte offset : UInt64)
  | write (fh : Nat) (buf : Bytes) (offset : UInt64)
  | flush (fh : Nat)
  | fsync (fh : Nat) (datasync : Bool)
  | release (fh : Nat)
  | truncate (ctx : Context) (path : Bytes) (length : UInt64)
  | utimens (ctx : Context) (path : Bytes) (atime mtime : UInt64)
  deriving DecidableEq

namespace FileOp

/-- The code of a request, reduced to its result. -/
def prog (fs : FS) : FileOp → FsProg Int
  | openFile ctx path flags => do
      let result ← fs.openFile ctx path flags
      pure result.1
  | read fh nbyte offset => do
      let result ← FS.read fh nbyte offset
      pure result.1
  | write fh buf offset => FS.write fh buf offset
  | flush fh => FS.flush fh
  | fsync fh datasync => FS.fsync fh datasync
  | release fh => FS.release fh
  | truncate ctx path length => fs.truncate ctx path length
  | utimens ctx path atime mtime => fs.utimens ctx path (some (atime, mtime))

/-- The requests on the file `fileid`: the paths lead to it, and the handles that
are open are handles of it. -/
def On (fs : FS) (fileid : UInt64) (world : World) : FileOp → Prop
  | openFile ctx path _ | truncate ctx path _ | utimens ctx path _ _ =>
      fs.pcache.LeadsTo ctx world path fileid
  | read fh _ _ | write fh _ _ | flush fh | fsync fh _ | release fh =>
      ∀ source, world.opened fh = some source → source.fileid = fileid

end FileOp

/-- A world with what was observed of the requests so far. -/
structure Observed where
  world : World
  /-- The handles written since they were last flushed. -/
  written : Nat → Bool
  /-- The handles read since they were last flushed. -/
  wasRead : Nat → Bool
  /-- A handle was released before it was flushed. -/
  lost : Bool
  /-- The time of the last event that sets the modification time. -/
  mtime : UInt64
  /-- The time of the last event that sets the access time. -/
  atime : UInt64

namespace Observed

/-- Nothing observed yet. -/
def start (world : World) (mtime atime : UInt64) : Observed :=
  { world, written := fun _ => false, wasRead := fun _ => false, lost := false, mtime, atime }

variable (state : Observed)

/-- Whether a handle is written and not yet flushed, after an operation. -/
def nextWritten : FileOp → Nat → Bool
  | .write fh _ _ => Function.update state.written fh (state.world.opened fh).isSome
  | .flush fh | .fsync fh false | .release fh => Function.update state.written fh false
  | _ => state.written

/-- Whether a handle is read and not yet flushed, after an operation. -/
def nextRead : FileOp → Nat → Bool
  | .read fh _ _ => Function.update state.wasRead fh (state.world.opened fh).isSome
  | .flush fh | .fsync fh false | .release fh => Function.update state.wasRead fh false
  | _ => state.wasRead

/-- Whether an operation drops a handle that was not flushed. -/
def nextLost : FileOp → Bool
  | .release fh => state.lost || state.written fh || state.wasRead fh
  | _ => state.lost

/-- A truncation carried out counts from its last reading of the clock, and one
that failed half way from its first. -/
def nextMtime (result : Outcome Err Int × World) : FileOp → UInt64
  | .write fh _ _ => if (state.world.opened fh).isSome then state.world.now else state.mtime
  | .truncate _ _ _ =>
      if result.1 = .ok 0 then state.world.clock (state.world.ticks + 2)
      else if result.2.ticks = state.world.ticks then state.mtime
      else state.world.now
  | .utimens _ _ _ mtime => if result.1 = .ok 0 then mtime else state.mtime
  | _ => state.mtime

/-- The access time of the last event, after an operation. -/
def nextAtime (result : Outcome Err Int × World) : FileOp → UInt64
  | .read fh _ _ => if (state.world.opened fh).isSome then state.world.now else state.atime
  | .utimens _ _ atime _ => if result.1 = .ok 0 then atime else state.atime
  | _ => state.atime

/-- One request. -/
def step (fs : FS) (state : Observed) (op : FileOp) : Observed :=
  let result := exec (op.prog fs) state.world
  { world := result.2
    written := state.nextWritten op
    wasRead := state.nextRead op
    lost := state.nextLost op
    mtime := state.nextMtime result op
    atime := state.nextAtime result op }

@[simp]
theorem step_written (fs : FS) (op : FileOp) : (state.step fs op).written = state.nextWritten op :=
  rfl

@[simp]
theorem step_wasRead (fs : FS) (op : FileOp) : (state.step fs op).wasRead = state.nextRead op :=
  rfl

end Observed

/-! ## What the handles remember -/

/-- What each handle of a file remembers in a field. -/
def World.remembered (world : World) (fileid : UInt64) (field : Source → UInt64) (fh : Nat) :
    Option Nat :=
  (world.opened fh).bind fun source =>
    if source.fileid = fileid then some (field source).toNat else none

section Remembered

variable {world : World} {fileid : UInt64} {field : Source → UInt64} {fh : Nat}
variable {source : Source}

theorem World.opened_lt (opened : world.opened fh = some source) : fh < maxOpenFiles := by
  unfold World.opened at opened
  split at opened
  · contradiction
  · omega

theorem World.opened_of_lt (inTable : fh < maxOpenFiles) :
    world.opened fh = world.openFiles fh := by
  rw [World.opened, if_neg (by omega)]

@[simp]
theorem World.opened_congr {other : World} (same : other.openFiles = world.openFiles) :
    other.opened = world.opened := by
  funext fh
  rw [World.opened, World.opened, same]

theorem World.remembered_congr {other : World} (same : other.openFiles = world.openFiles) :
    other.remembered fileid field = world.remembered fileid field := by
  funext fh
  rw [World.remembered, World.remembered, World.opened_congr same]

theorem World.field_of_opened {β : Type} {read : Source → β} {value : β}
    (known : (world.opened fh).map read = some value) (opened : world.opened fh = some source) :
    read source = value := by
  rw [opened] at known
  exact Option.some.inj known

theorem World.remembered_of_opened (opened : world.opened fh = some source)
    (ofFile : source.fileid = fileid) :
    world.remembered fileid field fh = some (field source).toNat := by
  simp [World.remembered, opened, ofFile]

theorem World.remembered_of_not_opened (notOpened : world.opened fh = none) :
    world.remembered fileid field fh = none := by
  simp [World.remembered, notOpened]

/-- What is remembered is remembered by an open handle of the file. -/
theorem World.remembered_eq_some {value : Nat}
    (remembers : world.remembered fileid field fh = some value) :
    ∃ source, world.opened fh = some source ∧ source.fileid = fileid ∧
      (field source).toNat = value := by
  unfold World.remembered at remembers
  cases opened : world.opened fh with
  | none => simp [opened] at remembers
  | some source =>
      rw [opened, Option.bind_some] at remembers
      split at remembers
      · rename_i ofFile
        exact ⟨source, rfl, ofFile, Option.some.inj remembers⟩
      · contradiction

theorem World.opened_update {other : World} {slot : Option Source} (inTable : fh < maxOpenFiles)
    (updated : other.openFiles = Function.update world.openFiles fh slot) :
    other.opened = Function.update world.opened fh slot := by
  funext handle
  by_cases same : handle = fh
  · subst handle
    rw [World.opened_of_lt inTable, updated, Function.update_self, Function.update_self]
  · rw [Function.update_of_ne same]
    simp only [World.opened, updated, Function.update_of_ne same]

theorem World.remembered_update_some {other : World} (field : Source → UInt64)
    (inTable : fh < maxOpenFiles)
    (updated : other.openFiles = Function.update world.openFiles fh (some source))
    (ofFile : source.fileid = fileid) :
    other.remembered fileid field =
      Function.update (world.remembered fileid field) fh (some (field source).toNat) := by
  funext handle
  by_cases same : handle = fh
  · subst handle
    simp [World.remembered, World.opened_update inTable updated, ofFile]
  · simp [World.remembered, World.opened_update inTable updated, same]

theorem World.remembered_update_none {other : World} (inTable : fh < maxOpenFiles)
    (updated : other.openFiles = Function.update world.openFiles fh none) :
    other.remembered fileid field =
      Function.update (world.remembered fileid field) fh none := by
  funext handle
  by_cases same : handle = fh
  · subst handle
    simp [World.remembered, World.opened_update inTable updated]
  · simp [World.remembered, World.opened_update inTable updated, same]

end Remembered

end OfflineFs
