import OfflineFs.Changes.Sites

/-!
# Handles whose file was removed

A handle names its file by the id of the node.  Nothing keeps the node while the
handle is open, and the id may be given to another node later.  A flush reads three
attributes of whatever node has the id then, and writes to it.
-/

namespace OfflineFs

open OfflineFs.Effect OfflineFs.Effect.Program OfflineFs.Transition

/-! ## The attributes that a flush reads -/

/-- The attributes that a flush merges. -/
abbrev merged : List Attr :=
  [.size, .atime, .mtime]

/-- Every node that has a mode or a count of links has what a flush reads. -/
def Dbs.Dated (dbs : Dbs) : Prop :=
  ∀ id, dbs.Begins id → dbs.Has merged id

namespace Dbs.Dated

variable {now : Dbs} {id : UInt64} {name value : Bytes}

theorem of_same {dbs : Dbs} (dated : now.Dated)
    (same : ∀ id, (∀ attr : Attr, dbs.get .nodes id attr.name = now.get .nodes id attr.name) ∨
      ∀ name, dbs.get .nodes id name = none) : dbs.Dated := by
  intro id begins
  rcases same id with kept | gone
  · exact (dated id ((begins_congr (kept .nlink) (kept .mode)).mp begins)).congr
      fun attr _ => kept attr
  · exact absurd begins (not_begins_of_gone gone)

/-- Storing an attribute, of a node that is there when it is one by which a node
begins. -/
theorem put (dated : now.Dated) (fits : ∀ attr ∈ merged, name = attr.name → attr.Fits value)
    (begun : name = Attr.nlink.name ∨ name = Attr.mode.name → now.Begins id) :
    (now.put .nodes id name value).Dated := by
  intro other begins
  apply Has.put _ fits
  apply dated
  by_cases isBeginning : other = id ∧ (name = Attr.nlink.name ∨ name = Attr.mode.name)
  · rw [isBeginning.1]
    exact begun isBeginning.2
  · have kept : ∀ attr ∈ [Attr.nlink, .mode],
        (now.put .nodes id name value).get .nodes other attr.name =
          now.get .nodes other attr.name := by
      intro attr listed
      rw [get_put, if_neg]
      rintro ⟨-, rfl, rfl⟩
      apply isBeginning
      constructor
      · rfl
      · simpa [Attr.name_inj] using listed
    exact (begins_congr (kept .nlink (by decide)) (kept .mode (by decide))).mp begins

theorem putAttr {attr : Attr} (dated : now.Dated) (fits : attr.Fits value)
    (begun : attr = .nlink ∨ attr = .mode → now.Begins id) :
    (now.put .nodes id attr.name value).Dated := by
  have listed : merged ⊆ vital := by decide
  apply dated.put
  · intro read member
    exact Warrant.fits_self fits read (listed member)
  · simpa [Attr.name_inj] using begun

theorem setattr {T : Type} [HostInt T] {attr : Attr} (dated : now.Dated)
    (sized : attr.width = some (HostInt.size T)) (stored : T)
    (begun : attr = .nlink ∨ attr = .mode → now.Begins id) : (now.setattr id attr stored).Dated :=
  dated.putAttr (Attr.fits_hostToDb sized stored) begun

/-- Taking an attribute that a flush does not read. -/
theorem del (dated : now.Dated) (other : ∀ attr ∈ merged, name ≠ attr.name) :
    (now.del .nodes id name).Dated := by
  intro node begins
  have kept : ∀ attr : Attr, (now.del .nodes id name).get .nodes node attr.name ≠ none →
      (now.del .nodes id name).get .nodes node attr.name = now.get .nodes node attr.name := by
    intro attr present
    rw [get_del] at present ⊢
    split at present
    · contradiction
    · rw [if_neg ‹_›]
  have begun : now.Begins node := by
    rcases begins with links | mode
    · left
      rwa [kept _ links] at links
    · right
      rwa [kept _ mode] at mode
  apply (dated node begun).congr
  intro attr listed
  rw [get_del, if_neg]
  rintro ⟨-, -, same⟩
  exact other attr listed same

theorem created (dated : now.Dated) (atime mtime ctime : UInt64) :
    (now.created id atime mtime ctime).Dated := by
  intro other begins
  by_cases isNew : id = other
  · subst isNew
    exact (has_created atime mtime ctime).mono (by decide)
  · have kept := get_created_of_ne now isNew atime mtime ctime .nodes
    exact (dated other ((begins_congr (kept _) (kept _)).mp begins)).congr fun attr _ => kept _

theorem entered {d n : UInt64} {nlink : UInt32} (dated : now.Dated)
    (counted : now.attr UInt32 n .nlink = .ok nlink) : (now.entered d name n nlink).Dated := by
  have linked : (now.setattr n .nlink (1 + nlink)).Dated := by
    apply dated.setattr rfl
    intro _
    left
    rw [getattr_eq_ok_iff.mp counted]
    exact Option.some_ne_none _
  exact linked.of_same fun id => .inl fun attr => get_nodes_put_directories

theorem erased (dated : now.Dated) (d : UInt64) (name : Bytes) :
    (now.del .directories d name).Dated :=
  dated.of_same fun _ => .inl fun attr => get_nodes_del d name attr.name

theorem removed (dated : now.Dated) (n : NodeRef) : (now.removed n).Dated :=
  dated.of_same fun id => (get_nodes_removed now n id).imp_left fun kept attr => kept attr.name

theorem left {d : UInt64} {n : NodeRef} {nlink : UInt32} (dated : now.Dated)
    (counted : now.attr UInt32 n.id .nlink = .ok nlink) : (now.left d name n nlink).Dated := by
  have erased := dated.erased d name
  unfold Dbs.left Dbs.unlinked
  split
  · exact erased.removed n
  · apply erased.setattr rfl
    intro _
    left
    rw [get_nodes_del, getattr_eq_ok_iff.mp counted]
    exact Option.some_ne_none _

end Dbs.Dated

namespace Warrant

variable {w : Warrant} {now : Dbs}

/-- One permitted change. -/
theorem dated_change {change : Change} (dated : now.Dated) (permits : w.Permits now change)
    (locked : ¬ w.Unlocked) : (change.apply now).Dated := by
  have unreserved : ∀ {name : Bytes}, (reservedPrefix.isPrefixOf name = true → w.Unlocked) →
      ∀ attr : Attr, name ≠ attr.name := by
    rintro name free attr rfl
    exact locked (free attr.reservedPrefix_isPrefix)
  cases permits with
  | @stamp attr listed id value =>
      have sized : attr.width = some (HostInt.size UInt64) := by
        revert listed
        cases attr <;> decide
      apply dated.setattr sized value
      rintro (rfl | rfl)
      · exact absurd listed (by decide)
      · exact absurd listed (by decide)
  | @place attr listed id value =>
      apply dated.put
      · intro read member same
        have distinct : ∀ placed ∈ placing, placed ∉ merged := by decide
        rw [Attr.name_inj] at same
        exact absurd (same ▸ member) (distinct attr listed)
      · rw [Attr.name_inj, Attr.name_inj]
        rintro (rfl | rfl)
        · exact absurd listed (by decide)
        · exact absurd listed (by decide)
  | mark free id value =>
      apply dated.put
      · exact fun attr _ same => absurd same (unreserved free attr)
      · rintro (same | same)
        · exact absurd same (unreserved free _)
        · exact absurd same (unreserved free _)
  | unmark free id => exact dated.del fun attr _ => unreserved free attr
  | imported importing listed fits present =>
      exact dated.putAttr fits fun _ => .inr present
  | create first births atime mtime ctime => exact dated.created atime mtime ctime
  | own listed fits alive => exact dated.putAttr fits fun _ => .inl alive
  | guarded guards =>
      obtain ⟨notLinks, looked⟩ := guards.looked
      apply dated.putAttr guards.fits
      rintro (isLinks | isMode)
      · exact absurd isLinks notLinks
      · exact .inr (looked.resolve_left fun notMode => notMode isMode)
  | enter absent counted entering => exact dated.entered counted
  | leave child counted leaving => exact dated.left counted
  | strip child uncounted leaving => exact dated.erased _ _
  | unused counted last => exact dated.removed _
  | abandon isFresh enclosed => exact dated.removed _

theorem Written.dated {count : Nat} (written : w.Written count now) (dated : w.start.Dated)
    (locked : ¬ w.Unlocked) : now.Dated := by
  induction written with
  | start => exact dated
  | change _ permits ih => exact dated_change ih permits locked

end Warrant

/-! ## Requests -/

/-- What holds before a request that looks a path up first, and after the rest of it,
holds after the request. -/
theorem dbs_looking (property : Dbs → Prop) {pc : PathCache} (sound : pc.Sound) {ctx : Context}
    {α : Type} {onError : Err → α} {path : Bytes} {next : SContext → NodeRef → FsProg α}
    {world : World} (start : property world.dbs)
    (continues : ∀ sctx n begun, begun.dbs = world.dbs → ctx.sctx = some sctx →
      world.dbs.getnode n.id = .ok n → property (exec (next sctx n) begun).2.dbs) :
    property (exec (request ctx onError fun sctx => do
      let n ← pc.getnode sctx path
      next sctx n) world).2.dbs := by
  rw [exec_request]
  cases caller : ctx.sctx with
  | none => exact start
  | some sctx =>
      obtain ⟨outcome, cache, result, present⟩ := sound.getnode sctx path world
      simp only [exec_bind, result]
      cases outcome with
      | error e => exact start
      | fault stop => exact start
      | ok n =>
          have ended := continues sctx n (world.withCache cache) rfl caller (present n rfl)
          rw [Outcome.andThen_ok]
          rcases final : exec (next sctx n) (world.withCache cache) with ⟨outcome, after⟩
          rw [final] at ended
          cases outcome with
          | ok value => exact ended
          | error e => exact ended
          | fault stop => exact ended

theorem Context.uid_of_sctx {ctx : Context} {sctx : SContext} (caller : ctx.sctx = some sctx) :
    sctx.uid = ctx.uid := by
  obtain ⟨groups, -, rfl⟩ := Option.map_eq_some_iff.mp caller
  rfl

section Xattrs

variable {fs : FS} {ctx : Context} {world : World} {path name : Bytes}

/-- The superuser may set the attributes that a flush reads, to values that can be
read. -/
theorem dated_setxattr (sound : fs.pcache.Sound) (root : ctx.uid = 0) (dated : world.dbs.Dated)
    {value : Bytes} {flags : Int} (fits : ∀ attr ∈ merged, name = attr.name → attr.Fits value) :
    (exec (fs.setxattr ctx path name value flags) world).2.dbs.Dated := by
  refine dbs_looking Dbs.Dated sound dated fun sctx n begun same caller isNode => ?_
  have isRoot : sctx.uid = 0 := (Context.uid_of_sctx caller).trans root
  have stamped : (begun.stamped n.id .ctime).dbs.Dated := by
    rw [World.stamped_dbs, same]
    exact dated.setattr rfl _ (by simp)
  have begins : (begun.stamped n.id .ctime).dbs.Begins n.id := by
    have found := Dbs.begins_of_getnode isNode
    rw [World.stamped_dbs, same]
    exact (Dbs.begins_congr (Dbs.get_put_of_ne (.inr (by decide)))
      (Dbs.get_put_of_ne (.inr (by decide)))).mpr found
  have checks := withCache_exec (Warrant.calls_checkXattrFlags n name flags)
    (begun.stamped n.id .ctime)
  simp only [FS.xattrDenied, isRoot, ne_eq, not_true_eq_false, if_false, exec_bind, exec_pure,
    Outcome.andThen_ok, Bool.false_eq_true, Node.exec_setTime_eq_stamped]
  rcases checked : exec (FS.checkXattrFlags n name flags) (begun.stamped n.id .ctime) with
    ⟨outcome, after⟩
  rw [checked] at checks
  have afterEq : after.dbs = (begun.stamped n.id .ctime).dbs := (congrArg World.dbs checks :)
  cases outcome with
  | error e => exact afterEq ▸ stamped
  | fault stop => exact afterEq ▸ stamped
  | ok refused =>
      cases refused with
      | some code => exact afterEq ▸ stamped
      | none =>
          have written : (after.dbs.put .nodes n.id name value).Dated := by
            rw [afterEq]
            exact stamped.put fits fun _ => begins
          have invalidates : Calls CacheOnly (onlyIf
              (name = Attr.uid.name ∨ name = Attr.gid.name ∨ name = Attr.mode.name)
              (fs.pcache.invalidate path)) := calls_ite (sound.calls_invalidate path) trivial
          have cached := withCache_exec invalidates
            (after.withDbs (after.dbs.put .nodes n.id name value))
          simp only [Outcome.andThen_ok, exec_bind, Node.exec_setattrv]
          rcases invalidated : exec (onlyIf
            (name = Attr.uid.name ∨ name = Attr.gid.name ∨ name = Attr.mode.name)
            (fs.pcache.invalidate path)) (after.withDbs (after.dbs.put .nodes n.id name value)) with
            ⟨outcome, last⟩
          rw [invalidated] at cached
          have lastEq : last.dbs = after.dbs.put .nodes n.id name value :=
            (congrArg World.dbs cached :)
          cases outcome with
          | ok => exact lastEq ▸ written
          | error e => exact lastEq ▸ written
          | fault stop => exact lastEq ▸ written

/-- Removing another attribute keeps the times. -/
theorem dated_removexattr (sound : fs.pcache.Sound) (root : ctx.uid = 0) (dated : world.dbs.Dated)
    (other : ∀ attr ∈ merged, name ≠ attr.name) :
    (exec (fs.removexattr ctx path name) world).2.dbs.Dated := by
  refine dbs_looking Dbs.Dated sound dated fun sctx n begun same caller isNode => ?_
  have isRoot : sctx.uid = 0 := (Context.uid_of_sctx caller).trans root
  have stamped : (begun.stamped n.id .ctime).dbs.Dated := by
    rw [World.stamped_dbs, same]
    exact dated.setattr rfl _ (by simp)
  simp only [FS.xattrDenied, isRoot, ne_eq, not_true_eq_false, if_false, exec_bind, exec_pure,
    Outcome.andThen_ok, Bool.false_eq_true, Node.exec_setTime_eq_stamped, Register.exec_delattr]
  cases (begun.stamped n.id .ctime).dbs.get .nodes n.id name with
  | none => exact stamped
  | some value => exact stamped.del other

end Xattrs

/-! ## Runs -/

instance (dbs : Dbs) (id : UInt64) : Decidable (dbs.Begins id) :=
  inferInstanceAs (Decidable (_ ∨ _))

/-- A world with what became of the files of the open handles. -/
structure Watched where
  world : World
  /-- The handles whose file was removed after they were opened. -/
  orphaned : Nat → Bool

namespace Watched

/-- A process that starts on the databases that `FsDb::rebuild` has left. -/
def rebuilt (media : Db UInt32) (getuid getgid : UInt32) (clock : Nat → UInt64)
    (reply : List SysEvent → SysCall → SysResult) (order : ByteOrder) : Watched :=
  ⟨(World.rebuilt media getuid getgid clock reply order).restarted, fun _ => false⟩

/-- One request.  A handle that stays open stays orphaned. -/
def step (fs : FS) (state : Watched) (call : Call) : Watched where
  world := state.world.after fs call
  orphaned fh :=
    match (state.world.after fs call).opened fh with
    | none => false
    | some source =>
        (state.world.opened fh).isSome && state.orphaned fh ||
          decide (¬ (state.world.after fs call).dbs.Begins source.fileid)

/-- Requests that neither flush a handle whose file was removed nor take an attribute
that a flush reads away from a node. -/
def Careful (state : Watched) : Call → Prop
  | (ctx, .setxattr _ name value _) =>
      ctx.uid = 0 → ∀ attr ∈ merged, name = attr.name → attr.Fits value
  | (ctx, .removexattr _ name) => ctx.uid = 0 → ∀ attr ∈ merged, name ≠ attr.name
  | (_, .flush fh) | (_, .fsync fh false) => state.orphaned fh = false
  | _ => True

/-- A flush returns, and changes attributes of the file that the handle was opened on
only. -/
def Contained (fs : FS) (state : Watched) (call : Call) : Prop :=
  ∀ fh, (call.2 = .flush fh ∨ ∃ datasync, call.2 = .fsync fh datasync) →
    (∃ value, (exec (call.2.prog fs call.1) state.world).1 = .ok value) ∧
    ∀ id name, (∀ source, state.world.opened fh = some source → state.orphaned fh = false →
      source.fileid ≠ id) →
      (state.world.after fs call).dbs.get .nodes id name = state.world.dbs.get .nodes id name

/-- Nodes have what a flush reads, and a handle that is no orphan has its node. -/
structure Sound (state : Watched) : Prop where
  dated : state.world.dbs.Dated
  present : ∀ fh source, state.world.opened fh = some source → state.orphaned fh = false →
    state.world.dbs.Begins source.fileid

end Watched

/-- A careful call keeps the times of all nodes. -/
theorem World.dated_after {fs : FS} (sound : fs.pcache.Sound) {state : Watched} {call : Call}
    (dated : state.world.dbs.Dated) (careful : state.Careful call) :
    (state.world.after fs call).dbs.Dated := by
  obtain ⟨-, count, -, written⟩ := state.world.within_after sound call
  by_cases unlocked : (state.world.warrant fs call).Unlocked
  · obtain ⟨root, reserved⟩ := unlocked
    rcases call with ⟨ctx, request⟩
    have isRoot : ctx.uid = 0 := ctx.caller_uid ▸ root
    cases request with
    | setxattr path name value flags => exact dated_setxattr sound isRoot dated (careful isRoot)
    | removexattr path name => exact dated_removexattr sound isRoot dated (careful isRoot)
    | _ => exact reserved.elim
  · exact written.dated dated unlocked

/-- What a flush does to a node that has what it reads. -/
theorem Source.exec_flush_merged {source : Source} {world : World}
    (has : world.dbs.Has merged source.fileid) :
    ∃ after, exec source.flush world = (.ok 0, after) ∧
      world.dbs.SameExcept source.fileid merged after.dbs := by
  obtain ⟨size, sized⟩ := has.read (T := UInt64) (by decide : .size ∈ merged) rfl
  obtain ⟨accessed, accessedAt⟩ := has.read (T := UInt64) (by decide : .atime ∈ merged) rfl
  obtain ⟨modified, modifiedAt⟩ := has.read (T := UInt64) (by decide : .mtime ∈ merged) rfl
  refine ⟨_, exec_flush_times sized accessedAt modifiedAt, ?_⟩
  exact ((Dbs.SameExcept.raised (by decide) _ _).trans (.raised (by decide) _ _)).trans
    (.raised (by decide) _ _)

namespace Watched

variable {fs : FS} {state : Watched} {call : Call}

theorem Sound.step (sound : fs.pcache.Sound) (inv : state.Sound) (careful : state.Careful call) :
    (state.step fs call).Sound where
  dated := World.dated_after sound inv.dated careful
  present fh source opened alive := by
    simp only [Watched.step] at opened alive ⊢
    rw [opened] at alive
    simp only [Bool.or_eq_false_iff, decide_eq_false_iff_not, not_not] at alive
    exact alive.2

/-- A careful call has no exception that leaves a handle. -/
theorem Sound.contained (inv : state.Sound) (careful : state.Careful call) :
    state.Contained fs call := by
  rcases call with ⟨ctx, request⟩
  have flushes : ∀ fh source, state.world.opened fh = some source → state.orphaned fh = false →
      ∃ after, exec source.flush state.world = (.ok 0, after) ∧
        state.world.dbs.SameExcept source.fileid merged after.dbs :=
    fun fh source opened alive =>
      Source.exec_flush_merged (inv.dated _ (inv.present fh source opened alive))
  rintro fh (rfl | ⟨datasync, rfl⟩)
  · cases opened : state.world.opened fh with
    | none =>
        have ran : exec (FS.flush fh) state.world = (.ok (-eBadf), state.world) := by
          simp [FS.flush, opened]
        simp only [World.after, Request.prog, ran]
        exact ⟨⟨_, rfl⟩, fun _ _ _ => trivial⟩
    | some source =>
        obtain ⟨after, ran, same⟩ := flushes fh source opened careful
        simp only [World.after, Request.prog, FS.exec_flush opened, ran]
        refine ⟨⟨_, rfl⟩, fun id name other => ?_⟩
        exact same.get _ _ _ fun _ isFile => absurd isFile.symm (other source rfl careful)
  · cases opened : state.world.opened fh with
    | none =>
        have ran : exec (FS.fsync fh datasync) state.world = (.ok (-eBadf), state.world) := by
          simp [FS.fsync, opened]
        simp only [World.after, Request.prog, ran]
        exact ⟨⟨_, rfl⟩, fun _ _ _ => trivial⟩
    | some source =>
        cases datasync with
        | true =>
            obtain ⟨result, ran⟩ := FS.exec_fsync_data opened
            simp only [World.after, Request.prog, ran]
            exact ⟨⟨_, rfl⟩, fun _ _ _ => rfl⟩
        | false =>
            obtain ⟨result, ran⟩ := FS.exec_fsync_all opened
            obtain ⟨after, flushed, same⟩ := flushes fh source opened careful
            simp only [World.after, Request.prog, ran, flushed, Outcome.andThen_ok]
            refine ⟨⟨_, rfl⟩, fun id name other => ?_⟩
            exact same.get _ _ _ fun _ isFile => absurd isFile.symm (other source rfl careful)

theorem sound_restarted {world : World} (dated : world.dbs.Dated) :
    Watched.Sound ⟨world.restarted, fun _ => false⟩ where
  dated := dated
  present fh source opened _ := by simp [World.restarted, World.opened] at opened

/-- In a run in which no orphaned handle is flushed and no node loses what a flush
reads, a flush returns and stays with its file. -/
theorem handles_contained (sound : fs.pcache.Sound) {media : Db UInt32} {getuid getgid : UInt32}
    {clock : Nat → UInt64} {reply : List SysEvent → SysCall → SysResult} {order : ByteOrder}
    (reached : Reaches (Watched.step fs) Watched.Careful
      (.rebuilt media getuid getgid clock reply order) state)
    (careful : state.Careful call) : state.Contained fs call := by
  have dated : (World.rebuilt media getuid getgid clock reply order).dbs.Dated := by
    obtain ⟨atime, mtime, ctime, same⟩ :=
      World.exists_rebuilt_eq media getuid getgid clock reply order
    rw [same]
    intro id begins
    exact ((Dbs.complete_rooted _ _ _ _ _ _).whole id begins).mono (by decide)
  have initial : (Watched.rebuilt media getuid getgid clock reply order).Sound :=
    sound_restarted dated
  have kept : state.Sound :=
    reached.invariant initial fun _ _ inv careful => inv.step sound careful
  exact kept.contained careful

end Watched

/-! ## An id that is used again -/

/-- The process that serves `mounted`, just after the databases were rebuilt. -/
def watchedStart : Watched :=
  .rebuilt (directoryMedium 0 (str "m") (str "/b")) 0 0 (fun _ => 100) willingReply .little

/-- A file is made, opened and written. -/
def watchedWrites : List Call :=
  [(rootContext, .mknod (str "/f") 0o100644 0), (rootContext, .openFile (str "/f") oRdwr),
    (rootContext, .write 0 (str "xy") 0)]

/-- The file is removed while it is open. -/
def watchedRemoval : List Call :=
  watchedWrites ++ [(rootContext, .unlink (str "/f"))]

/-- Another file is made after that. -/
def watchedReuse : List Call :=
  watchedRemoval ++ [(rootContext, .mknod (str "/g") 0o100600 0)]

theorem watchedReuse_meets :
    Meets (Watched.step mounted) Watched.Careful watchedStart watchedReuse :=
  .cons trivial (.cons trivial (.cons trivial (.cons trivial (.cons trivial (.nil _)))))

theorem watchedRemoval_meets :
    Meets (Watched.step mounted) Watched.Careful watchedStart watchedRemoval :=
  .cons trivial (.cons trivial (.cons trivial (.cons trivial (.nil _))))

theorem watchedWrites_meets :
    Meets (Watched.step mounted) Watched.Careful watchedStart watchedWrites :=
  .cons trivial (.cons trivial (.cons trivial (.nil _)))

set_option maxRecDepth 100000 in
theorem handles_contained_watchedWrites :
    (watchedWrites.foldl (Watched.step mounted) watchedStart).Contained mounted
      (rootContext, .flush 0) :=
  Watched.handles_contained PathCache_hash.sound watchedWrites_meets.reaches
    (by decide +kernel :
      (watchedWrites.foldl (Watched.step mounted) watchedStart).orphaned 0 = false)

set_option maxRecDepth 100000 in
/-- Flushing a handle whose file was removed throws, and once the id is used again it
changes the node that has it now. -/
theorem orphan_flushed :
    (Reaches (Watched.step mounted) Watched.Careful watchedStart
        (watchedRemoval.foldl (Watched.step mounted) watchedStart) ∧
      ¬ (watchedRemoval.foldl (Watched.step mounted) watchedStart).Contained mounted
        (rootContext, .flush 0)) ∧
    Reaches (Watched.step mounted) Watched.Careful watchedStart
        (watchedReuse.foldl (Watched.step mounted) watchedStart) ∧
      ¬ (watchedReuse.foldl (Watched.step mounted) watchedStart).Contained mounted
        (rootContext, .flush 0) := by
  refine ⟨⟨watchedRemoval_meets.reaches, ?_⟩, watchedReuse_meets.reaches, ?_⟩
  · intro contained
    obtain ⟨⟨value, returned⟩, -⟩ := contained 0 (.inl rfl)
    have throws : (exec (FS.flush 0)
        (watchedRemoval.foldl (Watched.step mounted) watchedStart).world).1 =
          .error .attrNotFound := by decide +kernel
    exact absurd (returned.symm.trans throws) nofun
  · intro contained
    obtain ⟨-, same⟩ := contained 0 (.inl rfl)
    have orphaned : (watchedReuse.foldl (Watched.step mounted) watchedStart).orphaned 0 = true := by
      decide +kernel
    have kept := same 1 Attr.size.name fun _ _ alive => by
      rw [orphaned] at alive
      contradiction
    exact absurd kept (by decide +kernel)

end OfflineFs
