import OfflineFs.Run.Files
import OfflineFs.Run.PathCaches

/-!
# Where runs start

The filesystem as `FsDb::rebuild` leaves it, with the media that were set up
before, and a small instance of it.
-/

namespace OfflineFs

open OfflineFs.Effect

namespace World

/-- A world whose databases hold nothing but the media. -/
def erased (media : Db UInt32) (clock : Nat → UInt64)
    (reply : List SysEvent → SysCall → SysResult) (order : ByteOrder) : World :=
  { dbs := ⟨∅, ∅, media⟩
    disk := [⟨∅, ∅, media⟩]
    cache := .initial
    openFiles := fun _ => none
    clock
    ticks := 0
    reply
    order
    events := [] }

/-- The world after `FsDb::rebuild`. -/
def rebuilt (media : Db UInt32) (getuid getgid : UInt32) (clock : Nat → UInt64)
    (reply : List SysEvent → SysCall → SysResult) (order : ByteOrder) : World :=
  (exec (FsDb.rebuild getuid getgid) (erased media clock reply order)).2

/-- The world after the process was started again: files are no longer open and
nothing is cached. -/
def restarted (world : World) : World :=
  { world with cache := .initial, openFiles := fun _ => none }

@[simp]
theorem restarted_cache (world : World) : world.restarted.cache = .initial :=
  rfl

end World

/-! ## A small instance -/

/-- One medium of class `directory`. -/
def directoryMedium (id : UInt32) (label directory : Bytes) : Db UInt32 :=
  ((((∅ : Db UInt32).insert ⟨id, str "label"⟩ label).insert ⟨id, str "type"⟩
    (str "directory")).insert ⟨id, str "directory"⟩ directory).insert
      ⟨id, str "unlink_files"⟩ (str "true")

/-- A backend on which everything succeeds and no write is short. -/
def willingReply (_ : List SysEvent) : SysCall → SysResult
  | .pwrite _ data _ => { value := data.length }
  | _ => {}

/-- The superuser. -/
def rootContext : Context :=
  { uid := 0, gid := 0, groups := some [] }

/-- A mount with the default medium `m` at `/b`. -/
def mounted : FS :=
  { pcache := PathCache_hash, defmedium := str "m", fuel := 16 }

/-- The mounted filesystem just after it was rebuilt, at a time that stands still. -/
def mountedWorld : World :=
  .rebuilt (directoryMedium 0 (str "m") (str "/b")) 0 0 (fun _ => 100) willingReply .little

/-- One after another, whatever they return. -/
def runAll (progs : List (FsProg Int)) (world : World) : World :=
  progs.foldl (fun world prog => (exec prog world).2) world

/-- An empty file that was opened before. -/
def smallFile : World :=
  (runAll [mounted.mknod rootContext (str "/f") 0o100644 0,
    do
      let result ← mounted.openFile rootContext (str "/f") oRdwr
      pure result.1] mountedWorld).restarted

/-- What no effect changes is as before. -/
theorem exec_unchanged {α β : Type} {field : World → β}
    (kept : ∀ {γ : Type} (effect : FsEff γ) (state : World),
      field (fsHandler effect state).2 = field state) (prog : FsProg α) (world : World) :
    field (exec prog world).2 = field world :=
  (Program.calls_all prog).run fsHandler (fun before after => field after = field before)
    (fun _ => rfl) (fun early late => late.trans early) (fun effect state _ => kept effect state)
    world

/-- No code changes the clock itself. -/
theorem exec_clock {α : Type} (prog : FsProg α) (world : World) :
    (exec prog world).2.clock = world.clock := by
  refine exec_unchanged (fun effect state => ?_) prog world
  cases effect <;> rfl

/-- No code changes how the backend answers. -/
theorem exec_reply {α : Type} (prog : FsProg α) (world : World) :
    (exec prog world).2.reply = world.reply := by
  refine exec_unchanged (fun effect state => ?_) prog world
  cases effect <;> rfl

/-- No code changes the order of bytes. -/
theorem exec_order {α : Type} (prog : FsProg α) (world : World) :
    (exec prog world).2.order = world.order := by
  refine exec_unchanged (fun effect state => ?_) prog world
  cases effect <;> rfl

theorem smallFile_clock : smallFile.clock = fun _ => 100 := by
  simp only [smallFile, World.restarted, runAll, List.foldl, exec_clock, mountedWorld,
    World.rebuilt]
  rfl

theorem smallFile_opened (fh : Nat) : smallFile.opened fh = none := by
  simp [smallFile, World.restarted, World.opened]

set_option maxRecDepth 100000 in
theorem smallFile_leads : mounted.pcache.LeadsTo rootContext smallFile (str "/f") 1 :=
  PathCache.leadsTo_of_found (n := ⟨1, .file⟩) rfl (by decide +kernel)

end OfflineFs
