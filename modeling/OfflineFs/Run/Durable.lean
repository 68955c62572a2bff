import OfflineFs.Run.Uncached

/-!
# What is on disk

A request commits one database after the other when its body has ended.  The requests that
change names commit nothing before, so the disk shows what they wrote only in those steps.
-/

namespace OfflineFs

open OfflineFs.Effect OfflineFs.Effect.Program

/-- Anything but a commit. -/
def Uncommitted ⦃γ : Type⦄ : FsEff γ → Prop
  | .commit _ => False
  | _ => True

/-- Anything but writing to the databases and committing them. -/
def Detached ⦃γ : Type⦄ : FsEff γ → Prop
  | .put _ _ _ _ | .del _ _ _ | .commit _ => False
  | _ => True

variable {α β : Type} {prog : FsProg α} {world : World}

theorem disk_exec (calls : Calls Uncommitted prog) (world : World) :
    (exec prog world).2.disk = world.disk := by
  apply calls.run fsHandler (fun before after => after.disk = before.disk) (fun _ => rfl)
    (fun early late => late.trans early)
  intro γ effect state allowed
  cases effect with
  | commit => exact allowed.elim
  | _ => rfl

/-- No code changes the media. -/
theorem exec_media (prog : FsProg α) (world : World) :
    (exec prog world).2.dbs.media = world.dbs.media := by
  refine @exec_unchanged _ _ (fun state => state.dbs.media) (fun effect state => ?_) prog world
  cases effect with
  | put => exact Dbs.media_put _ _ _ _ _
  | del => exact Dbs.media_del _ _ _ _
  | _ => rfl

theorem uncommitted_of_scope {scope : Scope} (commits : ¬ scope.commits)
    (calls : Calls scope.Allows prog) : Calls Uncommitted prog := by
  refine calls.mono fun effect allowed => ?_
  cases effect with
  | commit => exact commits allowed
  | _ => trivial

theorem detached_of_scope {scope : Scope} (stores : ∀ name value, ¬ scope.stores name value)
    (shapes : ¬ scope.shapes) (commits : ¬ scope.commits) (calls : Calls scope.Allows prog) :
    Calls Detached prog := by
  refine calls.mono fun effect allowed => ?_
  cases effect with
  | put table id name value =>
      cases table with
      | nodes => exact stores name value allowed
      | directories => exact shapes allowed
  | del => exact shapes allowed
  | commit => exact commits allowed
  | _ => trivial

/-! ## Bodies without a commit -/

/-- A request whose body commits nothing. -/
def Withheld (ctx : Context) (prog : FsProg Int) : Prop :=
  ∃ body : SContext → FsProg Int, prog = request ctx errcode body ∧
    ∀ sctx, Calls Uncommitted (body sctx)

namespace Request

/-- The requests that change names. -/
def Names : Request → Bool
  | mknod _ _ _ | mkdir _ _ | symlink _ _ | link _ _ | unlink _ | rmdir _ | rename _ _ => true
  | _ => false

theorem withheld_of_holds {ctx : Context} {prog : FsProg Int}
    (holds : (Scope.naming False).Holds ctx errcode prog) : Withheld ctx prog := by
  obtain ⟨body, isBody, calls⟩ := holds
  exact ⟨body, isBody, fun sctx => uncommitted_of_scope not_false (calls sctx)⟩

/-- A request that changes names commits nothing before it has ended. -/
theorem withheld {fs : FS} (sound : fs.pcache.Sound) (ctx : Context) {request : Request}
    (names : request.Names = true) : Withheld ctx (request.prog fs ctx) := by
  have builds := Scope.naming_builds False
  apply withheld_of_holds
  cases request with
  | mknod path mode dev => exact builds.mknod sound trivial ctx path mode dev
  | mkdir path mode => exact builds.mkdir sound trivial ctx path mode
  | symlink oldpath newpath => exact builds.symlink sound trivial ctx oldpath newpath
  | link oldpath newpath => exact builds.link sound trivial ctx oldpath newpath
  | unlink path => exact builds.fs_unlink sound trivial ctx path
  | rmdir path => exact builds.rmdir sound trivial ctx path
  | rename oldpath newpath => exact builds.rename sound trivial ctx oldpath newpath
  | _ => cases names

end Request

/-! ## What a crash leaves -/

/-- The contents after a change, but for the nodes, which are as before. -/
def Dbs.torn (before after : Dbs) : Dbs :=
  { after with nodes := before.nodes }

namespace World

/-- Everything is committed. -/
def Saved (world : World) : Prop :=
  world.disk.head? = some world.dbs

/-- The committed contents that a step leaves when it is cut off: those before it, or those
after one of its commits. -/
def Leavings (before after : World) (dbs : Dbs) : Prop :=
  dbs = before.durable ∨ ∃ made, after.disk = made ++ before.disk ∧ dbs ∈ made

/-- What a request puts on disk: the media, the directories and the nodes, in this order,
when its body has ended, and nothing when it stops before. -/
inductive Commits (world after : World) (outcome : Outcome Err Int) : Prop
  | ended (disk : after.disk =
      [after.dbs, { after.dbs with nodes := world.dbs.nodes },
        { world.dbs with media := after.dbs.media }] ++ world.disk)
  | stopped (stop : Fault) (faults : outcome = .fault stop) (disk : after.disk = world.disk)

/-- The three commits, the last one first. -/
theorem committedAll_disk (world : World) : world.committedAll.disk =
    [world.dbs, { world.dbs with nodes := world.durable.nodes },
      { world.durable with media := world.dbs.media }] ++ world.disk :=
  rfl

/-- When a request ends, everything is committed. -/
theorem saved_request {ctx : Context} {onError : Err → α} {body : SContext → FsProg α}
    (world : World) (returns : ∀ stop, (exec (request ctx onError body) world).1 ≠ .fault stop) :
    (exec (request ctx onError body) world).2.Saved := by
  rw [exec_request] at returns ⊢
  cases caller : ctx.sctx with
  | none => rfl
  | some sctx =>
      rw [caller] at returns
      simp only at returns ⊢
      rcases result : exec (body sctx) world with ⟨outcome, after⟩
      rw [result] at returns
      cases outcome with
      | ok => rfl
      | error => rfl
      | fault stop => exact absurd rfl (returns stop)

end World

/-- Code that returns leaves everything committed, if it was so before. -/
def Saves (prog : FsProg α) : Prop :=
  ∀ world : World, world.Saved → (∀ stop, (exec prog world).1 ≠ .fault stop) →
    (exec prog world).2.Saved

theorem saves_request {ctx : Context} {onError : Err → α} {body : SContext → FsProg α} :
    Saves (request ctx onError body) :=
  fun world _ returns => World.saved_request world returns

theorem saves_fsTxn (body : FsProg α) : Saves (fsTxn body) := by
  intro world _ returns
  rw [exec_fsTxn] at returns ⊢
  rcases result : exec body world with ⟨outcome, after⟩
  rw [result] at returns
  cases outcome with
  | ok => rfl
  | error => rfl
  | fault stop => exact absurd rfl (returns stop)

theorem saves_bind {first : FsProg α} {next : α → FsProg β} (begins : Saves first)
    (continues : ∀ value, Saves (next value)) : Saves (first >>= next) := by
  intro world saved returns
  have begun := begins world saved
  rw [exec_bind] at returns ⊢
  rcases result : exec first world with ⟨outcome, after⟩
  rw [result] at begun returns
  cases outcome with
  | ok value => exact continues value after (begun fun stop faults => by cases faults) returns
  | error e => exact begun fun stop faults => by cases faults
  | fault stop => exact absurd rfl (returns stop)

/-- What neither writes nor commits leaves the databases and the disk. -/
theorem saves_detached (calls : Calls Detached prog) : Saves prog := by
  intro world saved _
  have kept : (exec prog world).2.dbs = world.dbs ∧ (exec prog world).2.disk = world.disk := by
    apply calls.run fsHandler
      (fun before after => after.dbs = before.dbs ∧ after.disk = before.disk)
      (fun _ => ⟨rfl, rfl⟩)
      (fun early late => ⟨late.1.trans early.1, late.2.trans early.2⟩)
    intro γ effect state allowed
    cases effect with
    | put | del | commit => exact allowed.elim
    | _ => exact ⟨rfl, rfl⟩
  rw [World.Saved, kept.1, kept.2]
  exact saved

theorem saves_handle {fh : Nat} {missing : α} {body : Source → FsProg α}
    (saves : ∀ source, Saves (body source)) : Saves (do
      match ← FS.handle fh with
      | none => Pure.pure missing
      | some source => body source) := by
  have looks : Calls Detached (FS.handle fh) := calls_ite trivial (calls_perform trivial)
  apply saves_bind (saves_detached looks)
  intro found
  cases found with
  | none => exact saves_detached (calls_pure missing)
  | some source => exact saves source

theorem saves_handling (calls : Calls Scope.handling.Allows prog) : Saves prog :=
  saves_detached (detached_of_scope (fun _ _ => not_false) not_false not_false calls)

/-- Every request leaves everything committed when it returns. -/
theorem Request.saves {fs : FS} (ctx : Context) (request : Request) :
    Saves (request.prog fs ctx) := by
  have returning {α β : Type} {prog : FsProg α} (saves : Saves prog) (compute : α → β) :
      Saves (prog >>= fun result => Pure.pure (compute result)) :=
    saves_bind saves fun _ => saves_detached (calls_pure _)
  cases request with
  | getattr path => exact returning saves_request _
  | readdir path => exact returning saves_request _
  | readlink path bufsiz => exact returning saves_request _
  | getxattr path name size => exact returning saves_request _
  | listxattr path size => exact returning saves_request _
  | openFile path flags => exact returning saves_request _
  | read fh nbyte offset =>
      exact returning (saves_handling (Scope.read trivial fh nbyte offset)) _
  | write fh buf offset => exact saves_handling (Scope.write trivial fh buf offset)
  | flush fh => exact saves_handle fun source => saves_fsTxn _
  | fsync fh datasync =>
      apply saves_handle
      intro source
      unfold Source.fsync
      split
      · exact saves_handling (Scope.chunk_fsync _ _)
      · exact saves_bind (saves_fsTxn _) fun _ => saves_handling (Scope.chunk_fsync _ _)
  | release fh => exact saves_handling (Scope.release trivial fh)
  | _ => exact saves_request

namespace World

/-- A call that returns leaves everything committed. -/
theorem Saved.after {fs : FS} {world : World} (saved : world.Saved) {call : Call}
    (returns : ∀ stop, (exec (call.2.prog fs call.1) world).1 ≠ .fault stop) :
    (world.after fs call).Saved :=
  call.2.saves call.1 world saved returns

theorem Saved.durable {world : World} (saved : world.Saved) : world.durable = world.dbs := by
  rw [World.durable, saved]
  rfl

/-- A request that changes names commits everything at its end, or never ends. -/
theorem exists_withheld {fs : FS} (sound : fs.pcache.Sound) (world : World) {call : Call}
    (names : call.2.Names = true) : ∃ ended : World, ended.disk = world.disk ∧
      (world.after fs call = ended.committedAll ∨ world.after fs call = ended ∧
        ∃ stop, (exec (call.2.prog fs call.1) world).1 = .fault stop) := by
  obtain ⟨body, isBody, calls⟩ := call.2.withheld sound call.1 names
  rw [World.after, isBody, exec_request]
  cases caller : call.1.sctx with
  | none => exact ⟨world, rfl, .inl rfl⟩
  | some sctx =>
      have disk := disk_exec (calls sctx) world
      simp only
      rcases result : exec (body sctx) world with ⟨outcome, ended⟩
      rw [result] at disk
      cases outcome with
      | ok => exact ⟨ended, disk, .inl rfl⟩
      | error => exact ⟨ended, disk, .inl rfl⟩
      | fault stop => exact ⟨ended, disk, .inr ⟨rfl, stop, rfl⟩⟩

section Names

variable {fs : FS} (sound : fs.pcache.Sound) {world ended : World} (saved : world.Saved)
variable {call : Call}

include saved

/-- What three commits put on a disk that had everything. -/
theorem disk_committedAll (disk : ended.disk = world.disk)
    (isAfter : world.after fs call = ended.committedAll) :
    (world.after fs call).disk =
      [(world.after fs call).dbs, world.dbs.torn (world.after fs call).dbs, world.dbs] ++
        world.disk := by
  have media : (world.after fs call).dbs.media = world.dbs.media := exec_media _ world
  have durable : ended.durable = world.dbs := by
    rw [World.durable, disk, saved]
    rfl
  rw [isAfter, committedAll_dbs] at media ⊢
  rw [committedAll_disk, disk, durable, media]
  rfl

include sound

theorem commits_after (names : call.2.Names = true) :
    world.Commits (world.after fs call) (exec (call.2.prog fs call.1) world).1 := by
  obtain ⟨ended, disk, isCommitted | ⟨isEnded, stop, faults⟩⟩ := exists_withheld sound world names
  · apply Commits.ended
    rw [disk_committedAll saved disk isCommitted]
    have media : (world.after fs call).dbs.media = world.dbs.media := exec_media _ world
    rw [media]
    rfl
  · exact .stopped stop faults (isEnded ▸ disk)

/-- What a request that changes names leaves when it is cut off: the databases before it,
those after it, or those after it with the nodes as they were before. -/
theorem Leavings.cases (names : call.2.Names = true) {dbs : Dbs}
    (leaves : world.Leavings (world.after fs call) dbs) :
    dbs = world.dbs ∨ dbs = (world.after fs call).dbs ∨
      dbs = world.dbs.torn (world.after fs call).dbs := by
  obtain ⟨ended, disk, ends⟩ := exists_withheld sound world names
  rcases leaves with isBefore | ⟨made, grows, member⟩
  · exact .inl (isBefore.trans saved.durable)
  · rcases ends with isCommitted | ⟨isEnded, -⟩
    · rw [disk_committedAll saved disk isCommitted] at grows
      rw [← List.append_cancel_right grows] at member
      rcases List.mem_cons.mp member with isLast | member
      · exact .inr (.inl isLast)
      · rcases List.mem_cons.mp member with isMiddle | isFirst
        · exact .inr (.inr isMiddle)
        · exact .inl (List.mem_singleton.mp isFirst)
    · rw [isEnded, disk, List.self_eq_append_left] at grows
      rw [grows] at member
      exact absurd member List.not_mem_nil

/-- Before the nodes are committed, the disk has them as they were before the request. -/
theorem leaves_torn (names : call.2.Names = true)
    (returns : ∀ stop, (exec (call.2.prog fs call.1) world).1 ≠ .fault stop) :
    world.Leavings (world.after fs call) (world.dbs.torn (world.after fs call).dbs) := by
  obtain ⟨ended, disk, isCommitted | ⟨-, stop, faults⟩⟩ := exists_withheld sound world names
  · exact .inr ⟨_, disk_committedAll saved disk isCommitted, List.mem_cons_of_mem _
      List.mem_cons_self⟩
  · exact absurd faults (returns stop)

end Names

end World

end OfflineFs
