import Mathlib.Logic.Function.Basic
import OfflineFs.Model.Fs

/-!
# Concurrent opens and releases

The steps that `FS::open` and `FS::release` make on the table of open files, when many calls
are under way.  A call of `open` and the `release` of its handle are one thread of steps; the
`Source` of an open file is named by the call that created it.
-/

namespace OfflineFs

/-- Where a call of `open` is, or the `release` of the handle it returned. -/
inductive OpenPhase
  /-- The `Source` is not created yet. -/
  | starting
  /-- Before the test of a slot, or after the last one. -/
  | testing (fh : Nat)
  /-- Before the mutex is locked. -/
  | locking (fh : Nat)
  /-- Before the slot is tested again. -/
  | retesting (fh : Nat)
  /-- Before the `Source` is stored. -/
  | storing (fh : Nat)
  /-- Before the mutex is unlocked, the slot being taken. -/
  | passing (fh : Nat)
  /-- Before the mutex is unlocked, the `Source` being stored. -/
  | unlocking (fh : Nat)
  /-- `open` returned the handle. -/
  | live (fh : Nat)
  /-- `open` returned `-ENFILE`. -/
  | refused
  /-- Before the `Source` is deleted. -/
  | deleting (fh : Nat)
  /-- Before the slot is cleared. -/
  | clearing (fh : Nat)
  /-- `release` returned 0. -/
  | released
  /-- `release` returned `-EBADF`. -/
  | missed
  deriving DecidableEq, Repr

/-- The table of open files, its mutex and the calls.  `deleted` counts how often the `Source`
of a call was deleted. -/
structure OpenTable (ι : Type) where
  slots : Nat → Option ι
  mutex : Option ι
  phase : ι → OpenPhase
  deleted : ι → Nat

namespace OpenTable

variable {ι : Type} [DecidableEq ι]

/-- No file is open and no call is under way. -/
def initial (ι : Type) : OpenTable ι where
  slots _ := none
  mutex := none
  phase _ := .starting
  deleted _ := 0

/-- The call goes on at another phase. -/
def go (table : OpenTable ι) (call : ι) (phase : OpenPhase) : OpenTable ι :=
  { table with phase := Function.update table.phase call phase }

/-- The table with another value in a slot. -/
def withSlot (table : OpenTable ι) (fh : Nat) (source : Option ι) : OpenTable ι :=
  { table with slots := Function.update table.slots fh source }

/-- The table with another holder of the mutex. -/
def withMutex (table : OpenTable ι) (holder : Option ι) : OpenTable ι :=
  { table with mutex := holder }

/-- The table after the `Source` of a call was deleted. -/
def delete (table : OpenTable ι) (source : ι) : OpenTable ι :=
  { table with deleted := Function.update table.deleted source (table.deleted source + 1) }

section Updates

variable (table : OpenTable ι) (call source : ι) (phase : OpenPhase) (fh : Nat) (slot : Option ι)

@[simp]
theorem slots_go : (table.go call phase).slots = table.slots :=
  rfl

@[simp]
theorem deleted_go : (table.go call phase).deleted = table.deleted :=
  rfl

@[simp]
theorem phase_go (other : ι) :
    (table.go call phase).phase other = if other = call then phase else table.phase other :=
  Function.update_apply _ _ _ _

omit [DecidableEq ι] in
@[simp]
theorem slots_withMutex (holder : Option ι) : (table.withMutex holder).slots = table.slots :=
  rfl

omit [DecidableEq ι] in
@[simp]
theorem slots_withSlot (other : Nat) :
    (table.withSlot fh slot).slots other = if other = fh then slot else table.slots other :=
  Function.update_apply _ _ _ _

@[simp]
theorem deleted_delete (other : ι) :
    (table.delete source).deleted other =
      if other = source then table.deleted source + 1 else table.deleted other :=
  Function.update_apply _ _ _ _

end Updates

/-- The next step of a call.  A call that waits for the mutex, or that has ended, stays. -/
def step (table : OpenTable ι) (call : ι) : OpenTable ι :=
  match table.phase call with
  | .starting => table.go call (.testing 0)
  | .testing fh =>
      if fh < maxOpenFiles then
        match table.slots fh with
        | none => table.go call (.locking fh)
        | some _ => table.go call (.testing (fh + 1))
      else
        -- the `auto_ptr` still owns the `Source`
        (table.delete call).go call .refused
  | .locking fh =>
      match table.mutex with
      | none => (table.withMutex (some call)).go call (.retesting fh)
      | some _ => table
  | .retesting fh =>
      match table.slots fh with
      | none => table.go call (.storing fh)
      | some _ => table.go call (.passing fh)
  | .storing fh => (table.withSlot fh (some call)).go call (.unlocking fh)
  | .passing fh => (table.withMutex none).go call (.testing (fh + 1))
  | .unlocking fh => (table.withMutex none).go call (.live fh)
  | .live fh =>
      if maxOpenFiles ≤ fh ∨ table.slots fh = none then
        table.go call .missed
      else
        table.go call (.deleting fh)
  | .deleting fh =>
      match table.slots fh with
      | none => table.go call (.clearing fh)
      | some source => (table.delete source).go call (.clearing fh)
  | .clearing fh => (table.withSlot fh none).go call .released
  | .refused | .released | .missed => table

end OpenTable

end OfflineFs
