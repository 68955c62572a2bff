import OfflineFs.Run.Operations

/-!
# What a request may change

The attributes of nodes that the code of a request may store, and whether it enters and
erases, uses the path cache or the table of open files, and commits.  Every function is
gone through once, for any scope that has what it does.
-/

namespace OfflineFs

open OfflineFs.Effect OfflineFs.Effect.Program

/-- The times and the size of a node. -/
abbrev stamps : List Attr :=
  [.atime, .mtime, .ctime, .size]

section Frames

variable {permitted : ∀ ⦃γ : Type⦄, FsEff γ → Prop}
variable (commits : ∀ database, permitted (.commit database))

include commits

theorem calls_commitTxn : Calls permitted commitTxn :=
  calls_bind (calls_perform (commits _)) fun _ => calls_bind (calls_perform (commits _)) fun _ =>
    calls_perform (commits _)

theorem calls_fsTxn {α : Type} {body : FsProg α} (calls : Calls permitted body) :
    Calls permitted (fsTxn body) := by
  have committed : ∀ {β : Type} (last : FsProg β), Calls permitted last → Calls permitted (do
      perform (.commit .media); perform (.commit .directories); perform (.commit .nodes); last) :=
    fun last lastCalls => calls_bind (calls_perform (commits _)) fun _ =>
      calls_bind (calls_perform (commits _)) fun _ =>
        calls_bind (calls_perform (commits _)) fun _ => lastCalls
  apply calls_bind
  · exact calls_catching calls fun e => committed _ trivial
  · exact fun result => committed _ trivial

theorem calls_request {α : Type} {ctx : Context} {onError : Err → α}
    {body : SContext → FsProg α} (calls : ∀ sctx, Calls permitted (body sctx)) :
    Calls permitted (request ctx onError body) := by
  refine calls_catching (calls_fsTxn commits (calls_bind ?_ calls)) fun _ => trivial
  unfold userctx
  cases ctx.groups <;> trivial

end Frames

/-- What code may change, other than by using the backend. -/
structure Scope where
  /-- The names and the values that it may store as attributes of nodes. -/
  stores : Bytes → Bytes → Prop
  /-- Whether it may store entries and erase from the databases. -/
  shapes : Prop
  /-- Whether it may change the path cache. -/
  caches : Prop
  /-- Whether it may change the table of open files. -/
  opens : Prop
  /-- Whether it may commit. -/
  commits : Prop

namespace Scope

/-- The effects of a scope.  Reading, locking and using the backend are in every scope. -/
def Allows (scope : Scope) ⦃γ : Type⦄ : FsEff γ → Prop
  | .put .nodes _ name value => scope.stores name value
  | .put .directories _ _ _ | .del _ _ _ => scope.shapes
  | .setCache _ => scope.caches
  | .setSlot _ _ => scope.opens
  | .commit _ => scope.commits
  | _ => True

/-- A scope with the times and the sizes. -/
def Stamps (scope : Scope) : Prop :=
  ∀ attr ∈ stamps, ∀ value : UInt64, scope.stores attr.name (hostToDb value)

/-- A scope with all attributes but those that tie a file to a chunk. -/
def Adorns (scope : Scope) : Prop :=
  ∀ attr ∉ placing, ∀ value, scope.stores attr.name value

/-- A scope in which nodes are created, linked and removed. -/
structure Builds (scope : Scope) : Prop where
  adorns : scope.Adorns
  registers : scope.stores [] []
  shapes : scope.shapes

variable {scope : Scope} {α : Type} {prog : FsProg α}

theorem reads (table : Table) (id : UInt64) (name : Bytes) :
    scope.Allows (.get table id name) :=
  trivial

theorem of_backend {permitted : SysCall → Prop} (calls : Calls (Backend permitted) prog) :
    Calls scope.Allows prog := by
  refine calls.mono fun effect allowed => ?_
  cases effect with
  | put | del | setCache | setSlot | commit => exact allowed.elim
  | _ => trivial

theorem of_cacheOnly (caches : scope.caches) (calls : Calls CacheOnly prog) :
    Calls scope.Allows prog := by
  refine calls.mono fun effect allowed => ?_
  cases effect with
  | setCache => exact caches
  | get | lockCache | unlockCache | getCache => trivial
  | _ => exact allowed.elim

theorem Adorns.stamps (adorns : scope.Adorns) : scope.Stamps := by
  intro attr listed value
  apply adorns
  revert listed
  cases attr <;> decide

/-! ## Registers and nodes -/

theorem Stamps.setattr (stamped : scope.Stamps) (id : UInt64) {attr : Attr}
    (listed : attr ∈ stamps) (value : UInt64) : Calls scope.Allows (Node.setattr id attr value) :=
  calls_perform (stamped attr listed value)

theorem Stamps.setTime (stamped : scope.Stamps) (id : UInt64) {attr : Attr}
    (listed : attr ∈ stamps) : Calls scope.Allows (Node.setTime id attr) :=
  calls_bind (calls_perform trivial) fun _ => stamped.setattr id listed _

theorem Stamps.touchParent (stamped : scope.Stamps) (parent : NodeRef) :
    Calls scope.Allows (touchParent parent) :=
  calls_bind (stamped.setTime _ (by decide)) fun _ => stamped.setTime _ (by decide)

theorem Adorns.setattr {T : Type} [HostInt T] (adorns : scope.Adorns) (id : UInt64) {attr : Attr}
    (other : attr ∉ placing) (value : T) : Calls scope.Allows (Node.setattr id attr value) :=
  calls_perform (adorns attr other _)

section Shapes

variable (shapes : scope.shapes)

include shapes

theorem delattr (table : Table) (id : UInt64) (name : Bytes) :
    Calls scope.Allows (Register.delattr table id name) := by
  apply calls_bind (calls_perform trivial)
  intro found
  cases found with
  | none => trivial
  | some => exact calls_perform shapes

theorem delattrs (table : Table) (id : UInt64) (names : List Bytes) :
    Calls scope.Allows (Register.delattrs table id names) := by
  induction names with
  | nil => trivial
  | cons name names ih => exact calls_bind (delattr shapes table id name) fun _ => ih

theorem register_remove (table : Table) (id : UInt64) :
    Calls scope.Allows (Register.remove table id) := by
  apply calls_bind (calls_perform trivial)
  intro names
  apply calls_bind (delattrs shapes table id names)
  intro _
  apply calls_catching (delattr shapes table id [])
  intro e
  cases e <;> trivial

theorem node_remove (n : NodeRef) : Calls scope.Allows (Node.remove n) := by
  unfold Node.remove
  cases n.kind with
  | file =>
      apply calls_bind
      · exact calls_catching (of_backend (calls_source_remove n.id)) fun _ => trivial
      · exact fun _ => register_remove shapes _ _
  | directory =>
      exact calls_bind (register_remove shapes _ _) fun _ => register_remove shapes _ _
  | node | symlink => exact register_remove shapes _ _

end Shapes

namespace Builds

variable (builds : scope.Builds)

include builds

theorem stamps : scope.Stamps :=
  builds.adorns.stamps

theorem setattr {T : Type} [HostInt T] (id : UInt64) {attr : Attr} (other : attr ∉ placing)
    (value : T) : Calls scope.Allows (Node.setattr id attr value) :=
  builds.adorns.setattr id other value

theorem unlink (n : NodeRef) : Calls scope.Allows (Node.unlink n) := by
  apply calls_bind (calls_getattr reads _ _ _ _)
  intro nlink
  exact calls_ite (node_remove builds.shapes n) (builds.setattr _ (by decide) _)

/-- Linking a node at a name, which is undone when the name is taken. -/
theorem addchild (d : NodeRef) (name : Bytes) (n : NodeRef) :
    Calls scope.Allows (Directory.addchild d name n) := by
  apply calls_bind
  · exact calls_bind (calls_getattr reads _ _ _ _) fun nlink => builds.setattr _ (by decide) _
  · intro _
    apply calls_catching
    · apply calls_catching
      · exact calls_bind (calls_getattrv reads _ _ _) fun _ => trivial
      · intro e
        cases e with
        | attrNotFound => exact calls_perform builds.shapes
        | _ => trivial
    · exact fun e => calls_bind (builds.unlink n) fun _ => trivial

theorem delchild (d : NodeRef) (name : Bytes) :
    Calls scope.Allows (Directory.delchild d name) := by
  apply calls_bind (calls_getchild reads _ _)
  intro child
  exact calls_bind (delattr builds.shapes _ _ _) fun _ => builds.unlink child

theorem createregister : Calls scope.Allows (createregister .nodes) := by
  apply calls_bind (calls_perform trivial)
  intro _
  apply calls_bind (calls_perform trivial)
  intro last
  apply calls_bind (calls_perform builds.registers)
  intro _
  exact calls_bind (calls_perform trivial) fun _ => trivial

theorem node_create : Calls scope.Allows Node.create := by
  apply calls_bind builds.createregister
  intro id
  apply calls_bind (builds.setattr id (by decide) _)
  intro _
  apply calls_bind (builds.setattr id (by decide) _)
  intro _
  apply calls_bind (builds.setattr id (by decide) _)
  intro _
  apply calls_bind (builds.stamps.setTime id (by decide))
  intro _
  apply calls_bind (builds.stamps.setTime id (by decide))
  intro _
  exact calls_bind (builds.stamps.setTime id (by decide)) fun _ => trivial

theorem directory_create : Calls scope.Allows Directory.create := by
  apply calls_bind builds.node_create
  intro base
  apply calls_bind (builds.setattr base.id (by decide) _)
  intro _
  exact calls_bind (builds.addchild _ _ _) fun _ => trivial

theorem symlink_create : Calls scope.Allows Symlink.create := by
  apply calls_bind builds.node_create
  intro base
  apply calls_bind (builds.setattr base.id (by decide) _)
  intro _
  exact calls_bind (calls_perform (builds.adorns .symlink (by decide) _)) fun _ => trivial

theorem path_create (p : Path) (sctx : SContext) {createT : FsProg NodeRef}
    (creates : Calls scope.Allows createT) : Calls scope.Allows (p.create sctx createT) := by
  apply calls_bind (calls_access reads _ _ _)
  intro _
  apply calls_bind creates
  intro n
  apply calls_bind (calls_catching (builds.addchild _ _ _) ?_)
  · exact fun _ => trivial
  · exact fun e => calls_bind (node_remove builds.shapes n) fun _ => trivial

/-- The checks on the destination of `rename`. -/
theorem clearDestination (fs : FS) (parent src dst : NodeRef) :
    Calls scope.Allows (fs.clearDestination parent src dst) := by
  apply calls_bind (calls_getattr reads _ _ _ _)
  intro srcMode
  apply calls_bind (calls_getattr reads _ _ _ _)
  intro dstMode
  refine calls_ite (calls_ite trivial ?_) (calls_ite trivial trivial)
  apply calls_bind (calls_getnode reads _)
  intro base
  apply calls_bind (calls_cast _ _)
  intro n
  apply calls_bind (calls_climbMeets reads _ _ _)
  intro meets
  refine calls_ite trivial ?_
  apply calls_bind (calls_getnode reads _)
  intro target
  apply calls_bind (calls_cast _ _)
  intro d
  apply calls_bind (calls_bind (calls_perform trivial) fun _ => trivial :
    Calls _ (Directory.countchildren d))
  intro count
  refine calls_ite trivial ?_
  apply calls_bind (builds.delchild _ _)
  intro _
  exact calls_bind (builds.delchild _ _) fun _ => trivial

theorem moveDotDot (src parent : NodeRef) : Calls scope.Allows (FS.moveDotDot src parent) := by
  apply calls_bind (calls_getattr reads _ _ _ _)
  intro mode
  refine calls_ite ?_ trivial
  exact calls_bind (builds.delchild _ _) fun _ => builds.addchild _ _ _

theorem rebuild (commits : scope.commits) (getuid getgid : UInt32) :
    Calls scope.Allows (FsDb.rebuild getuid getgid) := by
  apply calls_fsTxn (fun _ => commits)
  apply calls_bind builds.directory_create
  intro root
  apply calls_bind (builds.setattr root.id (by decide) _)
  intro _
  apply calls_bind (builds.setattr root.id (by decide) _)
  intro _
  apply calls_bind (builds.setattr root.id (by decide) _)
  exact fun _ => builds.addchild _ _ _

end Builds

/-! ## Open files -/

section Handles

variable (source : Source)

theorem sys (call : SysCall) : Calls scope.Allows (sys call) :=
  calls_perform trivial

theorem destroy : Calls scope.Allows source.destroy :=
  calls_bind (sys _) fun _ => trivial

theorem chunk_fsync (fd : Fd) (datasync : Bool) :
    Calls scope.Allows (ChunkFile.fsync fd datasync) := by
  apply calls_bind (sys _)
  intro result
  cases result.errno <;> trivial

theorem handle {fh : Nat} {missing : α} {body : Source → FsProg α}
    (calls : ∀ source, Calls scope.Allows (body source)) :
    Calls scope.Allows (do
      match ← FS.handle fh with
      | none => Pure.pure missing
      | some source => body source) := by
  refine calls_bind (calls_ite trivial (calls_perform trivial)) fun found => ?_
  cases found with
  | none => trivial
  | some source => exact calls source

theorem Stamps.writeBack (stamped : scope.Stamps) (fileid : UInt64) {attr : Attr}
    (listed : attr ∈ stamps) (cached : UInt64) :
    Calls scope.Allows (Source.writeBack fileid attr cached) := by
  apply calls_bind (calls_getattr reads _ _ _ _)
  intro stored
  exact calls_ite (stamped.setattr fileid listed cached) trivial

theorem Stamps.flush (stamped : scope.Stamps) (commits : scope.commits) :
    Calls scope.Allows source.flush := by
  apply calls_fsTxn (fun _ => commits)
  apply calls_bind (stamped.writeBack _ (by decide) _)
  intro _
  apply calls_bind (stamped.writeBack _ (by decide) _)
  intro _
  exact calls_bind (stamped.writeBack _ (by decide) _) fun _ => trivial

theorem Stamps.fsync (stamped : scope.Stamps) (commits : scope.commits) (datasync : Bool) :
    Calls scope.Allows (source.fsync datasync) :=
  calls_ite (chunk_fsync _ _)
    (calls_bind (stamped.flush source commits) fun _ => chunk_fsync _ _)

theorem Stamps.ftruncate (stamped : scope.Stamps) (commits : scope.commits) (length : UInt64) :
    Calls scope.Allows (source.ftruncate length) := by
  apply calls_fsTxn (fun _ => commits)
  apply calls_bind (calls_perform trivial)
  intro mtime
  apply calls_bind (stamped.setattr source.fileid (by decide) mtime)
  intro _
  apply calls_bind (stamped.setattr source.fileid (by decide) length)
  intro _
  refine calls_bind (calls_bind (sys _) ?_) fun _ => trivial
  intro result
  cases result.errno <;> trivial

section Opens

variable (opens : scope.opens)

include opens

theorem read (fh : Nat) (nbyte offset : UInt64) :
    Calls scope.Allows (FS.read fh nbyte offset) := by
  apply handle
  intro source
  refine calls_bind ?_ fun result => calls_bind (calls_perform opens) fun _ => trivial
  apply calls_bind (calls_perform trivial)
  intro atime
  refine calls_bind (calls_bind (sys _) ?_) fun _ => trivial
  intro result
  cases result.errno <;> trivial

theorem write (fh : Nat) (buf : Bytes) (offset : UInt64) :
    Calls scope.Allows (FS.write fh buf offset) := by
  apply handle
  intro source
  refine calls_bind ?_ fun result => calls_bind (calls_perform opens) fun _ => trivial
  apply calls_bind (calls_perform trivial)
  intro mtime
  refine calls_bind (calls_bind (sys _) ?_) fun _ => trivial
  intro result
  cases result.errno <;> trivial

theorem release (fh : Nat) : Calls scope.Allows (FS.release fh) := by
  apply handle
  intro source
  apply calls_bind (destroy source)
  exact fun _ => calls_bind (calls_perform opens) fun _ => trivial

/-- The search for a free slot. -/
theorem takeSlot (remaining fh : Nat) :
    Calls scope.Allows (FS.takeSlot source fh remaining) := by
  induction remaining generalizing fh with
  | zero => trivial
  | succ remaining ih =>
      apply calls_bind (calls_perform trivial)
      intro slot
      cases slot with
      | some => exact ih (fh + 1)
      | none =>
          apply calls_bind (calls_perform trivial)
          intro _
          apply calls_bind (calls_perform trivial)
          intro slot
          cases slot with
          | none =>
              apply calls_bind (calls_perform opens)
              exact fun _ => calls_bind (calls_perform trivial) fun _ => trivial
          | some => exact calls_bind (calls_perform trivial) fun _ => ih (fh + 1)

theorem install : Calls scope.Allows (FS.install source) := by
  apply calls_bind (takeSlot source opens _ 0)
  intro slot
  cases slot with
  | some => trivial
  | none => exact calls_bind (destroy source) fun _ => trivial

end Opens

end Handles

/-! ## Bodies -/

/-- A request whose body keeps to a scope. -/
def Holds (scope : Scope) (ctx : Context) (onError : Err → α) (prog : FsProg α) : Prop :=
  ∃ body : SContext → FsProg α, prog = request ctx onError body ∧
    ∀ sctx, Calls scope.Allows (body sctx)

theorem holds_of_body {ctx : Context} {onError : Err → α} {body : SContext → FsProg α}
    (calls : ∀ sctx, Calls scope.Allows (body sctx)) :
    scope.Holds ctx onError (request ctx onError body) :=
  ⟨body, rfl, calls⟩

theorem Holds.calls {ctx : Context} {onError : Err → α} (holds : scope.Holds ctx onError prog)
    (commits : scope.commits) : Calls scope.Allows prog := by
  obtain ⟨body, rfl, calls⟩ := holds
  exact calls_request (fun _ => commits) calls

section Paths

variable {fs : FS} (sound : fs.pcache.Sound) (caches : scope.caches)

include sound caches

theorem getnode (sctx : SContext) (path : Bytes) :
    Calls scope.Allows (fs.pcache.getnode sctx path) :=
  of_cacheOnly caches (sound.calls_getnode sctx path)

theorem invalidate (path : Bytes) : Calls scope.Allows (fs.pcache.invalidate path) :=
  of_cacheOnly caches (sound.calls_invalidate path)

theorem resolve (sctx : SContext) (path : Bytes) :
    Calls scope.Allows (Path.resolve fs.pcache sctx path) := by
  apply calls_bind (getnode sound caches _ _)
  intro n
  exact calls_bind (calls_cast _ _) fun _ => trivial

namespace Builds

variable (builds : scope.Builds) (ctx : Context)

include builds

theorem mknod (path : Bytes) (mode : UInt32) (dev : UInt64) :
    scope.Holds ctx errcode (fs.mknod ctx path mode dev) := by
  apply holds_of_body
  intro sctx
  apply calls_bind (resolve sound caches _ _)
  intro p
  apply calls_bind (builds.path_create p sctx builds.node_create)
  intro n
  apply calls_bind (builds.setattr n.id (by decide) _)
  intro _
  apply calls_bind (builds.setattr n.id (by decide) _)
  intro _
  apply calls_bind (builds.setattr n.id (by decide) _)
  intro _
  refine calls_bind (calls_ite (builds.setattr n.id (by decide) _) trivial) fun _ => ?_
  exact calls_bind (builds.stamps.touchParent _) fun _ => trivial

theorem mkdir (path : Bytes) (mode : UInt32) :
    scope.Holds ctx errcode (fs.mkdir ctx path mode) := by
  apply holds_of_body
  intro sctx
  apply calls_bind (resolve sound caches _ _)
  intro p
  apply calls_bind (builds.path_create p sctx builds.directory_create)
  intro n
  apply calls_bind (builds.addchild _ _ _)
  intro _
  apply calls_bind (builds.setattr n.id (by decide) _)
  intro _
  apply calls_bind (builds.setattr n.id (by decide) _)
  intro _
  apply calls_bind (builds.setattr n.id (by decide) _)
  intro _
  exact calls_bind (builds.stamps.touchParent _) fun _ => trivial

theorem symlink (oldpath newpath : Bytes) :
    scope.Holds ctx errcode (fs.symlink ctx oldpath newpath) := by
  apply holds_of_body
  intro sctx
  apply calls_bind (resolve sound caches _ _)
  intro p
  apply calls_bind (builds.path_create p sctx builds.symlink_create)
  intro n
  apply calls_bind (builds.setattr n.id (by decide) _)
  intro _
  apply calls_bind (builds.setattr n.id (by decide) _)
  intro _
  apply calls_bind (calls_perform (builds.adorns .symlink (by decide) _))
  intro _
  exact calls_bind (builds.stamps.touchParent _) fun _ => trivial

theorem link (oldpath newpath : Bytes) :
    scope.Holds ctx errcode (fs.link ctx oldpath newpath) := by
  apply holds_of_body
  intro sctx
  apply calls_bind (resolve sound caches _ _)
  intro p
  apply calls_bind (calls_access reads _ _ _)
  intro _
  apply calls_bind (getnode sound caches _ _)
  intro n
  apply calls_bind (builds.stamps.setTime n.id (by decide))
  intro _
  apply calls_bind (builds.addchild _ _ _)
  intro _
  exact calls_bind (builds.stamps.touchParent _) fun _ => trivial

theorem fs_unlink (path : Bytes) : scope.Holds ctx errcode (fs.unlink ctx path) := by
  apply holds_of_body
  intro sctx
  apply calls_bind (resolve sound caches _ _)
  intro p
  apply calls_bind (calls_access reads _ _ _)
  intro _
  apply calls_bind (calls_getchild reads _ _)
  intro n
  apply calls_bind (calls_checkStickyBit reads _ _ _)
  intro _
  apply calls_bind (calls_getattr reads _ _ _ _)
  intro mode
  refine calls_ite trivial ?_
  apply calls_bind (invalidate sound caches path)
  intro _
  apply calls_bind (builds.stamps.setTime n.id (by decide))
  intro _
  apply calls_bind (builds.delchild _ _)
  intro _
  exact calls_bind (builds.stamps.touchParent _) fun _ => trivial

theorem rmdir (path : Bytes) : scope.Holds ctx errcode (fs.rmdir ctx path) := by
  apply holds_of_body
  intro sctx
  apply calls_bind (resolve sound caches _ _)
  intro p
  apply calls_bind (calls_access reads _ _ _)
  intro _
  apply calls_bind (calls_getchild reads _ _)
  intro child
  apply calls_bind (calls_cast _ _)
  intro n
  apply calls_bind (calls_checkStickyBit reads _ _ _)
  intro _
  apply calls_bind (calls_bind (calls_perform trivial) fun _ => trivial :
    Calls _ (Directory.countchildren n))
  intro count
  refine calls_ite trivial ?_
  apply calls_bind (builds.delchild _ _)
  intro _
  apply calls_bind (builds.delchild _ _)
  intro _
  apply calls_bind (builds.delchild _ _)
  intro _
  apply calls_bind (invalidate sound caches path)
  intro _
  exact calls_bind (builds.stamps.touchParent _) fun _ => trivial

/-- The treatment of the destination of `rename`. -/
theorem removeDestination (sctx : SContext) (newpath : Bytes) (dstpath : Path) (src : NodeRef)
    (dst : Option NodeRef) :
    Calls scope.Allows (fs.removeDestination sctx newpath dstpath src dst) := by
  cases dst with
  | none => trivial
  | some dst =>
      apply calls_bind (calls_checkStickyBit reads _ _ _)
      intro _
      apply calls_bind (builds.clearDestination _ _ _ _)
      intro cleared
      cases cleared with
      | some code => trivial
      | none =>
          apply calls_bind (invalidate sound caches newpath)
          intro _
          apply calls_bind (builds.stamps.setTime dst.id (by decide))
          intro _
          exact calls_bind (builds.delchild _ _) fun _ => trivial

theorem rename (oldpath newpath : Bytes) :
    scope.Holds ctx errcode (fs.rename ctx oldpath newpath) := by
  apply holds_of_body
  intro sctx
  apply calls_bind (resolve sound caches _ _)
  intro srcpath
  apply calls_bind (resolve sound caches _ _)
  intro dstpath
  apply calls_bind (calls_getchild reads _ _)
  intro src
  apply calls_bind (calls_findchild reads _ _)
  intro dst
  refine calls_ite trivial ?_
  apply calls_bind (calls_access reads _ _ _)
  intro _
  apply calls_bind (calls_access reads _ _ _)
  intro _
  apply calls_bind (calls_checkStickyBit reads _ _ _)
  intro _
  apply calls_bind (removeDestination sound caches builds _ _ _ _ _)
  intro removed
  cases removed with
  | some code => trivial
  | none =>
      apply calls_bind (builds.moveDotDot _ _)
      intro _
      apply calls_bind (invalidate sound caches oldpath)
      intro _
      apply calls_bind (builds.stamps.setTime src.id (by decide))
      intro _
      apply calls_bind (builds.addchild _ _ _)
      intro _
      apply calls_bind (builds.delchild _ _)
      intro _
      apply calls_bind (builds.stamps.touchParent _)
      intro _
      exact calls_bind (builds.stamps.touchParent _) fun _ => trivial

end Builds

end Paths

end Scope

end OfflineFs
