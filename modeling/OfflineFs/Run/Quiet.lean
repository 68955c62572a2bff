import OfflineFs.Run.Scopes

/-!
# The scopes of the requests

What each request may change, and from this which requests change little: reading, using
the path cache, the backend and the table of open files, and storing the times and the
size of a node.  Opening and truncating a file may store what ties it to a chunk as well.
-/

namespace OfflineFs

open OfflineFs.Effect OfflineFs.Effect.Program

/-- Storing a time or a size. -/
def Stamp (name value : Bytes) : Prop :=
  ∃ attr ∈ stamps, name = attr.name ∧ ∃ stored : UInt64, value = hostToDb stored

namespace Scope

/-- Looking paths up, in a request of its own. -/
def looking : Scope where
  stores _ _ := False
  shapes := False
  caches := True
  opens := False
  commits := True

/-- Using an open file. -/
def handling : Scope where
  stores _ _ := False
  shapes := False
  caches := False
  opens := True
  commits := False

/-- Looking paths up and storing times and sizes. -/
def stamping : Scope :=
  { looking with stores := Stamp }

/-- Tying a file to a chunk as well. -/
def tying : Scope :=
  { looking with
    stores := fun name value => Stamp name value ∨ ∃ attr ∈ placing, name = attr.name
    opens := True }

/-- Looking paths up and changing what nodes there are, with or without a commit. -/
def naming (commits : Prop) : Scope where
  stores name _ := name = [] ∨ ∃ attr ∉ placing, name = attr.name
  shapes := True
  caches := True
  opens := False
  commits := commits

end Scope

/-- What a request may change. -/
def Request.scope : Request → Scope
  | getattr _ | readlink _ _ | access _ _ | opendir _ | getxattr _ _ _ | listxattr _ _ => .looking
  | readdir _ | utimens _ _ => .stamping
  | mknod _ _ _ | mkdir _ _ | symlink _ _ | link _ _ | unlink _ | rmdir _ | rename _ _ =>
      .naming True
  | chmod _ _ | chown _ _ _ =>
      { Scope.looking with stores := fun name _ => ∃ attr ∉ placing, name = attr.name }
  | setxattr _ asked given _ =>
      { Scope.looking with
        stores := fun name value => Stamp name value ∨ name = asked ∧ value = given }
  | removexattr _ _ => { Scope.stamping with shapes := True }
  | truncate _ _ | openFile _ _ => .tying
  | read _ _ _ | write _ _ _ | release _ => .handling
  | flush _ | fsync _ _ => { Scope.stamping with caches := False }

/-! ## Bodies -/

namespace Scope

variable {scope : Scope}

theorem place (id : UInt64) {attr : Attr} (stores : ∀ value, scope.stores attr.name value)
    (value : Bytes) : Calls scope.Allows (Node.setattrv id attr.name value) :=
  calls_perform (stores value)

/-- Opening the chunk of a file, which is tied to one before if it has none. -/
theorem getsource (places : ∀ attr ∈ placing, ∀ value, scope.stores attr.name value) (fs : FS)
    (fileid : UInt64) (phid : Bytes) (flags : UInt32) :
    Calls scope.Allows (fs.getsource fileid phid flags) := by
  have opens : Calls scope.Allows (Source.getsource fileid flags) :=
    of_backend (calls_getsource fileid flags)
  apply calls_catching opens
  intro e
  cases e with
  | attrNotFound =>
      have finds : Calls (Backend fun _ => True) (Medium.getmediumByLabel fs.defmedium) :=
        calls_getmediumByLabel _
      apply calls_bind (of_backend finds)
      intro m
      apply calls_bind (calls_pure ())
      intro _
      apply calls_bind (place fileid (places .source (by decide)) _)
      intro _
      apply calls_bind (calls_perform trivial)
      intro order
      apply calls_bind
        (place fileid (places .mediumid (by decide)) (hostToDb (order.inMemory m.id)))
      intro _
      exact calls_bind (place fileid (places .phid (by decide)) phid) fun _ => opens
  | _ => trivial

/-- A request that looks a path up and then keeps to a scope. -/
def Looks (scope : Scope) (pc : PathCache) (ctx : Context) (path : Bytes) {α : Type}
    (prog : FsProg α) : Prop :=
  ∃ (onError : Err → α) (next : SContext → NodeRef → FsProg α),
    prog = (request ctx onError fun sctx => do
      let n ← pc.getnode sctx path
      next sctx n) ∧ ∀ sctx n, Calls scope.Allows (next sctx n)

theorem looks_of_next {pc : PathCache} {ctx : Context} {path : Bytes} {α : Type}
    {onError : Err → α} {next : SContext → NodeRef → FsProg α}
    (calls : ∀ sctx n, Calls scope.Allows (next sctx n)) :
    scope.Looks pc ctx path (request ctx onError fun sctx => do
      let n ← pc.getnode sctx path
      next sctx n) :=
  ⟨onError, next, rfl, calls⟩

theorem Looks.calls {pc : PathCache} (sound : pc.Sound) (caches : scope.caches)
    (commits : scope.commits) {ctx : Context} {path : Bytes} {α : Type} {prog : FsProg α}
    (looks : scope.Looks pc ctx path prog) : Calls scope.Allows prog := by
  obtain ⟨onError, next, rfl, calls⟩ := looks
  refine calls_request (fun _ => commits) fun sctx => ?_
  exact calls_bind (of_cacheOnly caches (sound.calls_getnode sctx path)) fun n => calls sctx n

/-! ### Requests that only look a path up -/

section Looking

variable (fs : FS) (ctx : Context)

theorem getattr (path : Bytes) : scope.Looks fs.pcache ctx path (fs.getattr ctx path) := by
  apply looks_of_next
  intro sctx n
  have reads : ∀ (T : Type) [HostInt T] (attr : Attr),
      Calls scope.Allows (Node.getattr T n.id attr) :=
    fun T _ attr => calls_getattr Scope.reads T .nodes n.id attr.name
  exact calls_bind (reads _ _) fun _ => calls_bind (reads _ _) fun _ => calls_bind (reads _ _)
    fun _ => calls_bind (reads _ _) fun _ => calls_bind (reads _ _) fun _ => calls_bind (reads _ _)
    fun _ => calls_bind (reads _ _) fun _ => calls_bind (reads _ _) fun _ => calls_bind (reads _ _)
    fun _ => calls_bind (calls_perform trivial) fun _ => trivial

theorem readdir (stamped : scope.Stamps) (path : Bytes) :
    scope.Looks fs.pcache ctx path (fs.readdir ctx path) := by
  apply looks_of_next
  intro sctx found
  apply calls_bind (calls_cast _ _)
  intro n
  apply calls_bind (calls_access reads _ _ _)
  intro _
  apply calls_bind (stamped.setTime n.id (by decide))
  intro _
  exact calls_bind (calls_perform trivial) fun _ => trivial

theorem readlink (path : Bytes) (bufsiz : Nat) :
    scope.Looks fs.pcache ctx path (fs.readlink ctx path bufsiz) := by
  apply looks_of_next
  intro sctx found
  apply calls_bind (calls_cast _ _)
  intro n
  exact calls_bind (calls_getattrv reads _ _ _) fun _ => trivial

theorem access (path : Bytes) (mode : UInt32) :
    scope.Looks fs.pcache ctx path (fs.access ctx path mode) := by
  apply looks_of_next
  intro sctx n
  exact calls_bind (calls_access reads _ _ _) fun _ => trivial

theorem opendir (path : Bytes) : scope.Looks fs.pcache ctx path (fs.opendir ctx path) := by
  apply looks_of_next
  intro sctx found
  apply calls_bind (calls_cast _ _)
  intro n
  exact calls_bind (calls_access reads _ _ _) fun _ => trivial

theorem getxattr (path name : Bytes) (size : Nat) :
    scope.Looks fs.pcache ctx path (fs.getxattr ctx path name size) := by
  apply looks_of_next
  intro sctx n
  exact calls_bind (calls_getattrv reads _ _ _) fun _ => trivial

theorem listxattr (path : Bytes) (size : Nat) :
    scope.Looks fs.pcache ctx path (fs.listxattr ctx path size) := by
  apply looks_of_next
  intro sctx n
  exact calls_bind (calls_perform trivial) fun _ => trivial

theorem utimens (stamped : scope.Stamps) (path : Bytes) (tv : Option (UInt64 × UInt64)) :
    scope.Looks fs.pcache ctx path (fs.utimens ctx path tv) := by
  apply looks_of_next
  intro sctx n
  cases tv with
  | some times =>
      refine calls_bind ?_ fun owned => calls_ite ?_ trivial
      · refine calls_ite ?_ trivial
        exact calls_bind (calls_getattr reads _ _ _ _) fun uid => trivial
      · apply calls_bind (stamped.setattr n.id (by decide) _)
        intro _
        exact calls_bind (stamped.setattr n.id (by decide) _) fun _ => trivial
  | none =>
      apply calls_bind (calls_access reads _ _ _)
      intro _
      apply calls_bind (stamped.setTime n.id (by decide))
      intro _
      exact calls_bind (stamped.setTime n.id (by decide)) fun _ => trivial

theorem openFile (ties : ∀ attr ∈ placing, ∀ value, scope.stores attr.name value)
    (opens : scope.opens) (path : Bytes) (flags : UInt32) :
    scope.Looks fs.pcache ctx path (fs.openFile ctx path flags) := by
  apply looks_of_next
  intro sctx found
  apply calls_bind (calls_cast _ _)
  intro n
  apply calls_bind (calls_ite (calls_access reads _ _ _) (calls_pure ()))
  intro _
  apply calls_bind (calls_ite (calls_access reads _ _ _) (calls_pure ()))
  intro _
  exact calls_bind (getsource ties fs n.id path flags) fun source => install source opens

theorem truncate (ties : ∀ attr ∈ placing, ∀ value, scope.stores attr.name value)
    (commits : scope.commits) (stamped : scope.Stamps) (path : Bytes) (length : UInt64) :
    scope.Looks fs.pcache ctx path (fs.truncate ctx path length) := by
  apply looks_of_next
  intro sctx found
  apply calls_bind (calls_cast _ _)
  intro n
  apply calls_bind (calls_access reads _ _ _)
  intro _
  apply calls_bind (stamped.setTime n.id (by decide))
  intro _
  apply calls_bind (stamped.setTime n.id (by decide))
  intro _
  apply calls_bind (getsource ties fs n.id path _)
  intro source
  apply calls_bind (calls_commitTxn fun _ => commits)
  intro _
  apply calls_bind (stamped.ftruncate source commits length)
  exact fun result => calls_bind (destroy source) fun _ => trivial

end Looking

/-! ### Requests that change attributes -/

section Paths

variable {fs : FS} (sound : fs.pcache.Sound) (caches : scope.caches) (commits : scope.commits)
variable (ctx : Context)

include sound caches commits

theorem chmod (adorns : scope.Adorns) (path : Bytes) (mode : UInt32) :
    Calls scope.Allows (fs.chmod ctx path mode) := by
  apply calls_request fun _ => commits
  intro sctx
  apply calls_bind (getnode sound caches _ _)
  intro n
  refine calls_bind ?_ fun allowed => ?_
  · refine calls_ite ?_ trivial
    apply calls_bind (calls_getattr reads _ _ _ _)
    intro fgid
    apply calls_bind (calls_getattr reads _ _ _ _)
    intro fuid
    exact calls_ite trivial (calls_ite trivial trivial)
  · cases allowed with
    | none => trivial
    | some mode =>
        apply calls_bind (adorns.stamps.setTime n.id (by decide))
        intro _
        apply calls_bind (calls_getattr reads _ _ _ _)
        intro old
        apply calls_bind (adorns.setattr n.id (by decide) _)
        intro _
        exact calls_bind (invalidate sound caches path) fun _ => trivial

omit sound caches commits in
theorem chownOwner (adorns : scope.Adorns) (sctx : SContext) (n : NodeRef) (owner : UInt32) :
    Calls scope.Allows (FS.chownOwner sctx n owner) := by
  refine calls_ite ?_ trivial
  apply calls_bind (calls_getattr reads _ _ _ _)
  intro uid
  refine calls_ite (calls_ite trivial ?_) trivial
  exact calls_bind (adorns.setattr n.id (by decide) _) fun _ => trivial

omit sound caches commits in
theorem chownGroup (adorns : scope.Adorns) (sctx : SContext) (n : NodeRef) (group : UInt32) :
    Calls scope.Allows (FS.chownGroup sctx n group) := by
  refine calls_ite ?_ trivial
  apply calls_bind (calls_getattr reads _ _ _ _)
  intro gid
  refine calls_ite (calls_ite ?_ ?_) trivial
  · apply calls_bind (calls_getattr reads _ _ _ _)
    intro uid
    refine calls_ite trivial (calls_bind ?_ fun _ => ?_)
    · apply calls_bind (calls_getattr reads _ _ _ _)
      intro m
      exact calls_ite (adorns.setattr n.id (by decide) _) trivial
    · exact calls_bind (adorns.setattr n.id (by decide) _) fun _ => trivial
  · exact calls_bind (adorns.setattr n.id (by decide) _) fun _ => trivial

theorem chown (adorns : scope.Adorns) (path : Bytes) (owner group : UInt32) :
    Calls scope.Allows (fs.chown ctx path owner group) := by
  apply calls_request fun _ => commits
  intro sctx
  apply calls_bind (getnode sound caches _ _)
  intro n
  apply calls_bind (chownOwner adorns sctx n owner)
  intro permitted
  refine calls_ite ?_ trivial
  apply calls_bind (chownGroup adorns sctx n group)
  intro permitted
  refine calls_ite ?_ trivial
  apply calls_bind (adorns.stamps.setTime n.id (by decide))
  intro _
  exact calls_bind (invalidate sound caches path) fun _ => trivial

omit sound caches commits in
theorem xattrDenied (sctx : SContext) (n : NodeRef) (name : Bytes) :
    Calls scope.Allows (FS.xattrDenied sctx n name) := by
  refine calls_ite (calls_ite trivial ?_) trivial
  exact calls_bind (calls_getattr reads _ _ _ _) fun uid => trivial

theorem setxattr (stamped : scope.Stamps) {name value : Bytes} (stores : scope.stores name value)
    (path : Bytes) (flags : Int) :
    Calls scope.Allows (fs.setxattr ctx path name value flags) := by
  apply calls_request fun _ => commits
  intro sctx
  apply calls_bind (getnode sound caches _ _)
  intro n
  apply calls_bind (xattrDenied sctx n name)
  intro denied
  refine calls_ite trivial ?_
  apply calls_bind (stamped.setTime n.id (by decide))
  intro _
  refine calls_bind ?_ fun refused => ?_
  · refine calls_ite trivial (calls_ite ?_ (calls_ite ?_ trivial))
    · apply calls_catching
      · exact calls_bind (calls_getattrv reads _ _ _) fun _ => trivial
      · intro e
        cases e <;> trivial
    · exact calls_bind (calls_getattrv reads _ _ _) fun _ => trivial
  · cases refused with
    | some code => trivial
    | none =>
        apply calls_bind (calls_perform stores)
        intro _
        exact calls_bind (calls_ite (invalidate sound caches path) trivial) fun _ => trivial

theorem removexattr (stamped : scope.Stamps) (shapes : scope.shapes) (path name : Bytes) :
    Calls scope.Allows (fs.removexattr ctx path name) := by
  apply calls_request fun _ => commits
  intro sctx
  apply calls_bind (getnode sound caches _ _)
  intro n
  apply calls_bind (xattrDenied sctx n name)
  intro denied
  refine calls_ite trivial ?_
  apply calls_bind (stamped.setTime n.id (by decide))
  intro _
  exact calls_bind (delattr shapes _ _ _) fun _ => trivial

end Paths

theorem calls_code {α : Type} {prog : FsProg α} (calls : Calls scope.Allows prog)
    (compute : α → Int) :
    Calls scope.Allows (prog >>= fun result => Pure.pure (compute result)) :=
  calls_bind calls fun _ => trivial

theorem naming_builds (commits : Prop) : (naming commits).Builds where
  adorns attr other _ := .inr ⟨attr, other, rfl⟩
  registers := .inl rfl
  shapes := trivial

end Scope

/-! ## Requests -/

/-- A request keeps to its scope. -/
theorem Request.calls_scope {fs : FS} (sound : fs.pcache.Sound) (ctx : Context)
    (request : Request) : Calls request.scope.Allows (request.prog fs ctx) := by
  have builds := Scope.naming_builds True
  have stamped : Scope.stamping.Stamps := fun attr listed value => ⟨attr, listed, rfl, value, rfl⟩
  have ties : ∀ attr ∈ placing, ∀ value, Scope.tying.stores attr.name value :=
    fun attr listed _ => .inr ⟨attr, listed, rfl⟩
  cases request with
  | getattr path =>
      exact Scope.calls_code ((Scope.getattr fs ctx path).calls sound trivial trivial) _
  | readdir path =>
      exact Scope.calls_code ((Scope.readdir fs ctx stamped path).calls sound trivial trivial) _
  | readlink path bufsiz =>
      exact Scope.calls_code ((Scope.readlink fs ctx path bufsiz).calls sound trivial trivial) _
  | access path mode => exact (Scope.access fs ctx path mode).calls sound trivial trivial
  | opendir path => exact (Scope.opendir fs ctx path).calls sound trivial trivial
  | getxattr path name size =>
      exact Scope.calls_code ((Scope.getxattr fs ctx path name size).calls sound trivial trivial) _
  | listxattr path size =>
      exact Scope.calls_code ((Scope.listxattr fs ctx path size).calls sound trivial trivial) _
  | mknod path mode dev => exact (builds.mknod sound trivial ctx path mode dev).calls trivial
  | mkdir path mode => exact (builds.mkdir sound trivial ctx path mode).calls trivial
  | symlink oldpath newpath =>
      exact (builds.symlink sound trivial ctx oldpath newpath).calls trivial
  | link oldpath newpath => exact (builds.link sound trivial ctx oldpath newpath).calls trivial
  | unlink path => exact (builds.fs_unlink sound trivial ctx path).calls trivial
  | rmdir path => exact (builds.rmdir sound trivial ctx path).calls trivial
  | rename oldpath newpath =>
      exact (builds.rename sound trivial ctx oldpath newpath).calls trivial
  | chmod path mode =>
      have adorns : (chmod path mode).scope.Adorns := fun attr other _ => ⟨attr, other, rfl⟩
      exact Scope.chmod sound trivial trivial ctx adorns path mode
  | chown path owner group =>
      have adorns : (chown path owner group).scope.Adorns := fun attr other _ => ⟨attr, other, rfl⟩
      exact Scope.chown sound trivial trivial ctx adorns path owner group
  | setxattr path name value flags =>
      have stamps : (setxattr path name value flags).scope.Stamps :=
        fun attr listed stored => .inl (stamped attr listed stored)
      exact Scope.setxattr sound trivial trivial ctx stamps (Or.inr ⟨rfl, rfl⟩) path flags
  | removexattr path name =>
      have stamps : (removexattr path name).scope.Stamps := stamped
      exact Scope.removexattr sound trivial trivial ctx stamps trivial path name
  | utimens path tv =>
      exact (Scope.utimens fs ctx stamped path tv).calls sound trivial trivial
  | truncate path length =>
      have stamps : (truncate path length).scope.Stamps :=
        fun attr listed stored => .inl (stamped attr listed stored)
      exact (Scope.truncate fs ctx ties trivial stamps path length).calls sound trivial trivial
  | openFile path flags =>
      have opens := Scope.openFile fs ctx ties trivial path flags
      exact Scope.calls_code (opens.calls sound trivial trivial) _
  | read fh nbyte offset => exact Scope.calls_code (Scope.read trivial fh nbyte offset) _
  | write fh buf offset => exact Scope.write trivial fh buf offset
  | flush fh =>
      have stamps : (flush fh).scope.Stamps := stamped
      exact Scope.handle fun source => stamps.flush source trivial
  | fsync fh datasync =>
      have stamps : (fsync fh datasync).scope.Stamps := stamped
      exact Scope.handle fun source => stamps.fsync source trivial datasync
  | release fh => exact Scope.release trivial fh

/-! ## The quiet requests -/

/-- Anything but changing an entry or an attribute that is neither free nor a time
or a size. -/
def Quiet (free : List Attr) ⦃γ : Type⦄ : FsEff γ → Prop
  | .put table _ name value => table = .nodes ∧
      ((∃ attr ∈ stamps, name = attr.name ∧ ∃ stored : UInt64, value = hostToDb stored) ∨
        ∃ attr ∈ free, name = attr.name)
  | .del _ _ _ => False
  | _ => True

theorem Scope.quiet_of_calls {scope : Scope} {free : List Attr} {prog : FsProg Int}
    (calls : Calls scope.Allows prog) (shapes : ¬ scope.shapes)
    (stores : ∀ name value, scope.stores name value →
      Stamp name value ∨ ∃ attr ∈ free, name = attr.name) : Calls (Quiet free) prog := by
  refine calls.mono fun effect allowed => ?_
  cases effect with
  | put table id name value =>
      cases table with
      | nodes => exact ⟨rfl, stores name value allowed⟩
      | directories => exact absurd allowed shapes
  | del => exact absurd allowed shapes
  | _ => trivial

/-- The requests that change no more than times, sizes and what is free. -/
def Request.Quietly : Request → List Attr → Prop
  | getattr _, _ | readdir _, _ | readlink _ _, _ | access _ _, _ | opendir _, _
  | getxattr _ _ _, _ | listxattr _ _, _ | utimens _ _, _ | read _ _ _, _ | write _ _ _, _
  | flush _, _ | fsync _ _, _ | release _, _ => True
  | truncate _ _, free | openFile _ _, free => placing ⊆ free
  | _, _ => False

/-- A quiet request makes quiet effects. -/
theorem Request.calls_quiet {fs : FS} (sound : fs.pcache.Sound) (ctx : Context) {free : List Attr}
    {request : Request} (quietly : request.Quietly free) :
    Calls (Quiet free) (request.prog fs ctx) := by
  have calls := request.calls_scope sound ctx
  cases request with
  | getattr | readlink | access | opendir | getxattr | listxattr | read | write | release =>
      exact Scope.quiet_of_calls calls not_false fun _ _ stores => stores.elim
  | readdir | utimens | flush | fsync =>
      exact Scope.quiet_of_calls calls not_false fun _ _ stores => .inl stores
  | truncate | openFile =>
      refine Scope.quiet_of_calls calls not_false fun name value stores => stores.imp_right ?_
      rintro ⟨attr, listed, isName⟩
      exact ⟨attr, quietly listed, isName⟩
  | _ => exact quietly.elim

end OfflineFs
