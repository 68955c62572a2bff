import OfflineFs.Run.Reads
import OfflineFs.Run.Registers

/-!
# Running the code of media and chunks

Media are only read, and chunks are reached by system calls.  So this code
leaves everything as it is but the record of the system calls made, and which of
these it can make is known.
-/

namespace OfflineFs

open OfflineFs.Effect OfflineFs.Effect.Program

/-- Reading the databases, or a permitted system call. -/
def Backend (permitted : SysCall → Prop) ⦃γ : Type⦄ : FsEff γ → Prop
  | .get _ _ _ => True
  | .getMedia _ _ => True
  | .scanMedia => True
  | .byteOrder => True
  | .sys made => permitted made
  | _ => False

/-- Two worlds that differ by system calls alone. -/
structure World.CallsSince (permitted : SysCall → Prop) (before after : World) : Prop where
  dbs : after.dbs = before.dbs
  disk : after.disk = before.disk
  cache : after.cache = before.cache
  openFiles : after.openFiles = before.openFiles
  clock : after.clock = before.clock
  ticks : after.ticks = before.ticks
  reply : after.reply = before.reply
  order : after.order = before.order
  events : ∃ made, after.events = made ++ before.events ∧
    ∀ event ∈ made, permitted event.call

namespace World.CallsSince

variable {permitted : SysCall → Prop} {first second third : World}

theorem refl (world : World) : CallsSince permitted world world where
  dbs := rfl
  disk := rfl
  cache := rfl
  openFiles := rfl
  clock := rfl
  ticks := rfl
  reply := rfl
  order := rfl
  events := ⟨[], rfl, by simp⟩

/-- Calls after calls. -/
theorem trans (early : CallsSince permitted first second)
    (late : CallsSince permitted second third) : CallsSince permitted first third where
  dbs := late.dbs.trans early.dbs
  disk := late.disk.trans early.disk
  cache := late.cache.trans early.cache
  openFiles := late.openFiles.trans early.openFiles
  clock := late.clock.trans early.clock
  ticks := late.ticks.trans early.ticks
  reply := late.reply.trans early.reply
  order := late.order.trans early.order
  events := by
    obtain ⟨earlyMade, earlyEq, earlyPermitted⟩ := early.events
    obtain ⟨lateMade, lateEq, latePermitted⟩ := late.events
    refine ⟨lateMade ++ earlyMade, by rw [lateEq, earlyEq, List.append_assoc], ?_⟩
    intro event member
    rcases List.mem_append.mp member with isLate | isEarly
    · exact latePermitted event isLate
    · exact earlyPermitted event isEarly

theorem called {world : World} {call : SysCall} (allowed : permitted call) :
    CallsSince permitted world (world.called call) where
  dbs := rfl
  disk := rfl
  cache := rfl
  openFiles := rfl
  clock := rfl
  ticks := rfl
  reply := rfl
  order := rfl
  events := ⟨[⟨call, world.answer call⟩], rfl, by simpa using allowed⟩

theorem withDbs (calls : CallsSince permitted first second) (dbs : Dbs) :
    CallsSince permitted (first.withDbs dbs) (second.withDbs dbs) :=
  ⟨rfl, calls.disk, calls.cache, calls.openFiles, calls.clock, calls.ticks, calls.reply,
    calls.order, calls.events⟩

end World.CallsSince

/-- Backend code leaves the world as it was but for its system calls. -/
theorem callsSince_exec {α : Type} {permitted : SysCall → Prop} {prog : FsProg α}
    (calls : Calls (Backend permitted) prog) (world : World) :
    World.CallsSince permitted world (exec prog world).2 := by
  refine calls.run fsHandler (World.CallsSince permitted) World.CallsSince.refl
    World.CallsSince.trans ?_ world
  intro γ effect state allowed
  cases effect with
  | get | getMedia | scanMedia | byteOrder => exact World.CallsSince.refl state
  | sys call => exact World.CallsSince.called allowed
  | _ => exact allowed.elim

section Calls

variable {permitted : SysCall → Prop}

theorem calls_sys {call : SysCall} (allowed : permitted call) :
    Calls (Backend permitted) (sys call) :=
  calls_perform allowed

theorem calls_node_getattrv (id : UInt64) (name : Bytes) :
    Calls (Backend permitted) (Node.getattrv id name) :=
  calls_getattrv (fun _ _ _ => trivial) .nodes id name

theorem calls_node_getattr (T : Type) [HostInt T] (id : UInt64) (attr : Attr) :
    Calls (Backend permitted) (Node.getattr T id attr) :=
  calls_getattr (fun _ _ _ => trivial) T .nodes id attr.name

theorem calls_medium_getattrv (id : UInt32) (name : Bytes) :
    Calls (Backend permitted) (Medium.getattrv id name) := by
  apply calls_bind (calls_perform trivial)
  intro found
  cases found <;> trivial

theorem calls_getmedium (id : UInt32) :
    Calls (Backend permitted) (Medium.getmedium id) := by
  apply calls_bind (calls_perform trivial)
  intro found
  cases found with
  | none => trivial
  | some mediumtype =>
      simp only
      split
      · trivial
      · split <;> trivial

/-- Looking for a label reads the media. -/
theorem calls_findLabel (label : Bytes) (ids : List UInt32) :
    Calls (Backend permitted) (Medium.findLabel label ids) := by
  induction ids with
  | nil => trivial
  | cons id rest ih =>
      apply calls_bind (calls_perform trivial)
      intro found
      cases found with
      | none => exact ih
      | some other =>
          simp only
          split
          · exact calls_getmedium id
          · exact ih

theorem calls_getmediumByLabel (label : Bytes) :
    Calls (Backend permitted) (Medium.getmediumByLabel label) :=
  calls_bind (calls_perform trivial) fun ids => calls_findLabel label ids

section Insert

variable (runs : ∀ command, permitted (.system command))

include runs

theorem calls_check (medium : Medium) : Calls (Backend permitted) medium.check := by
  apply calls_bind (calls_medium_getattrv _ _)
  intro checkcmd
  apply calls_bind (calls_sys (runs _))
  intro status
  cases status.errno <;> trivial

/-- Waiting for a medium to be inserted. -/
theorem calls_insert (medium : Medium) : Calls (Backend permitted) medium.insert := by
  apply calls_bind (calls_check runs medium)
  intro present
  split
  · trivial
  · apply calls_bind (calls_medium_getattrv _ _)
    intro insertcmd
    apply calls_bind (calls_sys (runs _))
    intro status
    cases status.errno with
    | some => trivial
    | none =>
        simp only
        split
        · trivial
        · apply calls_bind (calls_check runs medium)
          intro inserted
          split <;> trivial

end Insert

/-- Making the directories above a path looks and makes them. -/
theorem calls_createParents (looks : ∀ path, permitted (.stat path))
    (makes : ∀ path perm, permitted (.mkdir path perm)) (dirs : List Bytes) :
    Calls (Backend permitted) (ChunkFile.createParents dirs) := by
  induction dirs with
  | nil => trivial
  | cons dir rest ih =>
      apply calls_bind (calls_sys (looks _))
      intro st
      cases st.errno with
      | none => exact ih
      | some errno =>
          simp only
          split
          · apply calls_bind (calls_sys (makes _ _))
            intro made
            cases made.errno with
            | none => exact ih
            | some => trivial
          · trivial

end Calls

/-- The system calls of opening a chunk with some flags. -/
def Opens (mode : UInt32) : SysCall → Prop
  | .creat _ flags _ => flags = mode ||| oCreat
  | .stat _ | .mkdir _ _ | .system _ | .close _ => True
  | _ => False

/-- Creating a backing file opens it, and makes what is missing above it. -/
theorem calls_chunk_create (path : Bytes) (mode : UInt32) :
    Calls (Backend (Opens mode)) (ChunkFile.create path mode) := by
  have creates : ∀ perm, Opens mode (.creat path (mode ||| oCreat) perm) := fun _ => rfl
  apply calls_bind (calls_sys (creates _))
  intro first
  cases first.errno with
  | none => trivial
  | some errno =>
      simp only
      split
      · apply calls_bind (calls_createParents (fun _ => trivial) (fun _ _ => trivial) _)
        intro _
        apply calls_bind (calls_sys (creates _))
        intro second
        cases second.errno <;> trivial
      · trivial

theorem calls_getchunkDirectory (medium : Medium) (phid : Bytes) (mode : UInt32) :
    Calls (Backend (Opens mode)) (medium.getchunkDirectory phid mode) :=
  calls_bind (calls_medium_getattrv _ _) fun _ => calls_chunk_create _ mode

theorem calls_getchunk (medium : Medium) (phid : Bytes) (mode : UInt32) :
    Calls (Backend (Opens mode)) (medium.getchunk phid mode) := by
  unfold Medium.getchunk
  cases medium.kind with
  | directory => exact calls_getchunkDirectory medium phid mode
  | insert =>
      exact calls_bind (calls_insert (fun _ => trivial) medium) fun _ =>
        calls_getchunkDirectory medium phid mode

/-- Opening the chunk of a file. -/
theorem calls_single (fileid : UInt64) (mode : UInt32) :
    Calls (Backend (Opens mode)) (Source.single fileid mode) := by
  apply calls_bind (calls_node_getattr _ _ _)
  intro mediumid
  apply calls_bind (calls_perform trivial)
  intro order
  apply calls_bind (calls_getmedium _)
  intro medium
  apply calls_bind (calls_node_getattrv _ _)
  intro phid
  apply calls_bind (calls_getchunk medium phid mode)
  intro chunk
  refine calls_bind (calls_catching (calls_node_getattr _ _ _) ?_) fun _ => trivial
  intro exn
  exact calls_bind (calls_bind (calls_sys trivial) fun _ => trivial) fun _ => trivial

theorem calls_getsource (fileid : UInt64) (mode : UInt32) :
    Calls (Backend (Opens mode)) (Source.getsource fileid mode) := by
  apply calls_bind (calls_node_getattrv _ _)
  intro source
  split
  · exact calls_single fileid mode
  · trivial

/-! ## How the code of media ends -/

theorem ends_exec {α : Type} {returned : α → Prop} {thrown : Err → Prop} {prog : FsProg α}
    (ends : Ends returned thrown prog) (world : World) :
    (∀ value, (exec prog world).1 = .ok value → returned value) ∧
      ∀ e, (exec prog world).1 = .error e → thrown e :=
  ends.run fsHandler world

/-- Every exception of this code is an input/output error. -/
abbrev EndsIo {α : Type} (returned : α → Prop) (prog : FsProg α) : Prop :=
  Ends returned (· = .runtime) prog

theorem ends_medium_getattrv (id : UInt32) (name : Bytes) :
    EndsIo (fun _ => True) (Medium.getattrv id name) := by
  apply ends_bind (ends_perform _)
  intro found _
  cases found <;> trivial

theorem ends_check (medium : Medium) : EndsIo (fun _ => True) medium.check := by
  apply ends_bind (ends_medium_getattrv _ _)
  intro checkcmd _
  apply ends_bind (ends_perform _)
  intro status _
  cases status.errno <;> trivial

/-- Waiting for a medium throws `std::runtime_error` alone. -/
theorem ends_insert (medium : Medium) : EndsIo (fun _ => True) medium.insert := by
  apply ends_bind (ends_check medium)
  intro present _
  split
  · trivial
  · apply ends_bind (ends_medium_getattrv _ _)
    intro insertcmd _
    apply ends_bind (ends_perform _)
    intro status _
    cases status.errno with
    | some => trivial
    | none =>
        simp only
        split
        · trivial
        · apply ends_bind (ends_check medium)
          intro inserted _
          split <;> trivial

/-- Making the directories throws `std::runtime_error` alone. -/
theorem ends_createParents (dirs : List Bytes) :
    EndsIo (fun _ => True) (ChunkFile.createParents dirs) := by
  induction dirs with
  | nil => trivial
  | cons dir rest ih =>
      apply ends_bind (ends_perform _)
      intro st _
      cases st.errno with
      | none => exact ih
      | some errno =>
          simp only
          split
          · apply ends_bind (ends_perform _)
            intro made _
            cases made.errno with
            | none => exact ih
            | some => trivial
          · trivial

/-- The descriptor is of the path. -/
theorem ends_chunk_create (path : Bytes) (mode : UInt32) :
    EndsIo (fun fd => fd.path = path) (ChunkFile.create path mode) := by
  apply ends_bind (ends_perform _)
  intro first _
  cases first.errno with
  | none => exact ends_pure rfl
  | some errno =>
      simp only
      split
      · apply ends_bind (ends_createParents _)
        intro _ _
        apply ends_bind (ends_perform _)
        intro second _
        cases second.errno with
        | none => exact ends_pure rfl
        | some => exact ends_throw rfl
      · exact ends_throw rfl

section Remove

/-- Removing the directories above a path looks at them and removes them. -/
theorem calls_removeParents {permitted : SysCall → Prop} (base : Bytes) (dirs : List Bytes)
    (allowed : ∀ dir ∈ dirs, permitted (.stat (base ++ [slash] ++ dir)) ∧
      permitted (.rmdir (base ++ [slash] ++ dir))) :
    Calls (Backend permitted) (Medium.removeParents base dirs) := by
  induction dirs with
  | nil => trivial
  | cons dir rest ih =>
      obtain ⟨⟨looks, removes⟩, others⟩ := List.forall_mem_cons.mp allowed
      apply calls_bind (calls_sys looks)
      intro st
      cases st.errno with
      | some => trivial
      | none =>
          simp only
          split
          · trivial
          · apply calls_bind (calls_sys removes)
            intro removed
            cases removed.errno with
            | some => trivial
            | none => exact ih others

theorem calls_delfileDirectory (medium : Medium) (phid : Bytes) :
    Calls (Backend fun _ => True) (medium.delfileDirectory phid) := by
  apply calls_bind (calls_medium_getattrv _ _)
  intro unlinkFiles
  split
  · apply calls_bind (calls_medium_getattrv _ _)
    intro base
    exact calls_bind (calls_sys trivial) fun _ =>
      calls_removeParents _ _ fun _ _ => ⟨trivial, trivial⟩
  · trivial

theorem calls_delfile (medium : Medium) (phid : Bytes) :
    Calls (Backend fun _ => True) (medium.delfile phid) := by
  unfold Medium.delfile
  cases medium.kind with
  | directory => exact calls_delfileDirectory medium phid
  | insert =>
      apply calls_bind (calls_medium_getattrv _ _)
      intro unlinkFiles
      split
      · exact calls_bind (calls_insert (fun _ => trivial) medium) fun _ =>
          calls_delfileDirectory medium phid
      · exact calls_delfileDirectory medium phid

/-- Freeing the storage of a file uses the backend alone. -/
theorem calls_source_remove (fileid : UInt64) :
    Calls (Backend fun _ => True) (Source.remove fileid) := by
  apply calls_bind (calls_node_getattrv _ _)
  intro source
  split
  · apply calls_bind (calls_node_getattr _ _ _)
    intro mediumid
    apply calls_bind (calls_perform trivial)
    intro order
    apply calls_bind (calls_getmedium _)
    intro medium
    exact calls_bind (calls_node_getattrv _ _) fun phid => calls_delfile medium phid
  · trivial

/-! ### Removing always ends -/

theorem finishes_medium_getattrv (id : UInt32) (name : Bytes) :
    Finishes (Medium.getattrv id name) := by
  apply finishes_bind (finishes_perform _)
  intro found
  cases found <;> trivial

theorem finishes_node_getattrv (id : UInt64) (name : Bytes) : Finishes (Node.getattrv id name) := by
  apply finishes_bind (finishes_perform _)
  intro found
  cases found <;> trivial

theorem finishes_check (medium : Medium) : Finishes medium.check := by
  apply finishes_bind (finishes_medium_getattrv _ _)
  intro checkcmd
  apply finishes_bind (finishes_perform _)
  intro status
  cases status.errno <;> trivial

/-- Waiting for a medium has an end. -/
theorem finishes_insert (medium : Medium) : Finishes medium.insert := by
  apply finishes_bind (finishes_check medium)
  intro inserted
  refine finishes_ite ?_ ?_
  · trivial
  apply finishes_bind (finishes_medium_getattrv _ _)
  intro insertcmd
  apply finishes_bind (finishes_perform _)
  intro status
  cases status.errno with
  | some => trivial
  | none =>
      refine finishes_ite ?_ ?_
      · trivial
      exact finishes_bind (finishes_check medium) fun again => finishes_ite trivial trivial

/-- Removing the directories has an end. -/
theorem finishes_removeParents (base : Bytes) (dirs : List Bytes) :
    Finishes (Medium.removeParents base dirs) := by
  induction dirs with
  | nil => trivial
  | cons dir rest ih =>
      apply finishes_bind (finishes_perform _)
      intro st
      cases st.errno with
      | some => trivial
      | none =>
          refine finishes_ite ?_ ?_
          · trivial
          apply finishes_bind (finishes_perform _)
          intro removed
          cases removed.errno with
          | some => trivial
          | none => exact ih

theorem finishes_delfileDirectory (medium : Medium) (phid : Bytes) :
    Finishes (medium.delfileDirectory phid) := by
  apply finishes_bind (finishes_medium_getattrv _ _)
  intro unlinkFiles
  refine finishes_ite ?_ trivial
  apply finishes_bind (finishes_medium_getattrv _ _)
  intro base
  exact finishes_bind (finishes_perform _) fun _ => finishes_removeParents _ _

theorem finishes_delfile (medium : Medium) (phid : Bytes) : Finishes (medium.delfile phid) := by
  unfold Medium.delfile
  cases medium.kind with
  | directory => exact finishes_delfileDirectory medium phid
  | insert =>
      apply finishes_bind (finishes_medium_getattrv _ _)
      intro unlinkFiles
      apply finishes_ite
      · exact finishes_bind (finishes_insert medium) fun _ => finishes_delfileDirectory medium phid
      · exact finishes_delfileDirectory medium phid

/-- Freeing the storage of a file has an end. -/
theorem finishes_source_remove (fileid : UInt64) : Finishes (Source.remove fileid) := by
  apply finishes_bind (finishes_node_getattrv _ _)
  intro source
  refine finishes_ite ?_ trivial
  apply finishes_bind
  · apply finishes_bind (finishes_node_getattrv _ _)
    intro bytes
    cases dbToHost UInt32 bytes <;> trivial
  · intro mediumid
    apply finishes_bind (finishes_perform _)
    intro order
    apply finishes_bind
    · apply finishes_bind (finishes_perform _)
      intro found
      cases found with
      | none => trivial
      | some => exact finishes_ite trivial (finishes_ite trivial trivial)
    · intro medium
      exact finishes_bind (finishes_node_getattrv _ _) fun phid => finishes_delfile medium phid

end Remove

end OfflineFs
