import OfflineFs.Model.Effects
import Mathlib.Tactic.Simps.Basic

/-!
# Running a request alone

The world is everything the effects act on.  The clock and the operating system
answer from arbitrary functions, so a result about every world is a result about
every clock, every behaviour of the backend and both byte orders of the host.

Reads and writes go to the working contents of the databases.  A commit copies
one database to the disk, and the disk keeps all the contents it has ever had.
-/

namespace OfflineFs

open Std OfflineFs.Effect

/-- Everything that the effects act on. -/
structure World where
  dbs : Dbs
  /-- The committed contents, latest first. -/
  disk : List Dbs
  cache : PathCacheState
  openFiles : Nat → Option Source
  clock : Nat → UInt64
  ticks : Nat
  reply : List SysEvent → SysCall → SysResult
  order : ByteOrder
  /-- The system calls made so far, latest first. -/
  events : List SysEvent

/-- Copy one database. -/
def Dbs.transfer (source target : Dbs) : Database → Dbs
  | .nodes => { target with nodes := source.nodes }
  | .directories => { target with directories := source.directories }
  | .media => { target with media := source.media }

/-- The id of the greatest key of a table. -/
def Dbs.lastId (dbs : Dbs) (table : Table) : Option UInt64 :=
  (Map.lastKey? (dbs.table table)).map Key.id

/-- The ids that `getregisters` reports for the media. -/
def Dbs.mediaIds (dbs : Dbs) : List UInt32 :=
  Db.scanIds (UInt32.ofNat (2 ^ 32 - 1)) dbs.media.keys

namespace World

/-- The committed contents. -/
def durable (world : World) : Dbs :=
  world.disk.head?.getD world.dbs

/-- The world with other databases. -/
@[simps]
def withDbs (world : World) (dbs : Dbs) : World :=
  { world with dbs := dbs }

/-- The world with another state of the path cache. -/
@[simps]
def withCache (world : World) (cache : PathCacheState) : World :=
  { world with cache := cache }

/-- The world after the clock was read. -/
@[simps]
def tick (world : World) : World :=
  { world with ticks := world.ticks + 1 }

/-- The time the next reading of the clock gives. -/
def now (world : World) : UInt64 :=
  world.clock world.ticks

/-- The answer to a system call. -/
def answer (world : World) (call : SysCall) : SysResult :=
  world.reply world.events call

/-- The world after a system call. -/
@[simps]
def called (world : World) (call : SysCall) : World :=
  { world with events := ⟨call, world.answer call⟩ :: world.events }

/-- The world after one database was committed. -/
@[simps]
def committed (world : World) (database : Database) : World :=
  { world with disk := world.dbs.transfer world.durable database :: world.disk }

/-- The world with another open file in a slot. -/
@[simps]
def withSlot (world : World) (fh : Nat) (source : Option Source) : World :=
  { world with openFiles := Function.update world.openFiles fh source }

end World

/-- What each effect returns and does when no other request is running. -/
def fsHandler : Handler FsEff World := fun _ effect world =>
  match effect with
  | .get table id name => (world.dbs.get table id name, world)
  | .put table id name value => ((), world.withDbs (world.dbs.put table id name value))
  | .del table id name => ((), world.withDbs (world.dbs.del table id name))
  | .scan table id => ((world.dbs.table table).attrs id, world)
  | .last table => (world.dbs.lastId table, world)
  | .lockCreate _ => ((), world)
  | .unlockCreate _ => ((), world)
  | .getMedia id name => (world.dbs.media[(⟨id, name⟩ : Key UInt32)]?, world)
  | .scanMedia => (world.dbs.mediaIds, world)
  | .commit database => ((), world.committed database)
  | .time => (world.now, world.tick)
  | .byteOrder => (world.order, world)
  | .sys call => (world.answer call, world.called call)
  | .lockCache => ((), world)
  | .unlockCache => ((), world)
  | .getCache => (world.cache, world)
  | .setCache cache => ((), world.withCache cache)
  | .lockOpen => ((), world)
  | .unlockOpen => ((), world)
  | .getSlot fh => (world.openFiles fh, world)
  | .setSlot fh source => ((), world.withSlot fh source)

/-- Run filesystem code alone. -/
def exec {α : Type} (prog : FsProg α) (world : World) : Outcome Err α × World :=
  prog.run fsHandler world

section Exec

variable {α β : Type} (world : World)

@[simp]
theorem exec_pure (value : α) : exec (pure value) world = (.ok value, world) :=
  rfl

@[simp]
theorem exec_throw (exn : Err) : exec (α := α) (.throw exn) world = (.error exn, world) :=
  rfl

@[simp]
theorem exec_halt (stop : Fault) : exec (α := α) (.halt stop) world = (.fault stop, world) :=
  rfl

@[simp]
theorem exec_perform (effect : FsEff α) :
    exec (Program.perform effect) world =
      (.ok (fsHandler effect world).1, (fsHandler effect world).2) :=
  rfl

@[simp]
theorem exec_bind (first : FsProg α) (next : α → FsProg β) :
    exec (first >>= next) world =
      Outcome.andThen (exec first world) fun value middle => exec (next value) middle :=
  Program.run_bind _ _ _ _

@[simp]
theorem exec_catching (body : FsProg α) (recover : Err → FsProg α) :
    exec (body.catching recover) world =
      Outcome.orElse (exec body world) fun exn middle => exec (recover exn) middle :=
  Program.run_catching _ _ _ _

/-- A program that only computes from a result changes the world no further. -/
theorem exec_map_snd (prog : FsProg α) (compute : α → β) :
    (exec (prog >>= fun result => pure (compute result)) world).2 = (exec prog world).2 := by
  rw [exec_bind]
  rcases exec prog world with ⟨outcome, after⟩
  cases outcome <;> rfl

end Exec

end OfflineFs
