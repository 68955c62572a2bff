import OfflineFs.Changes.Completeness

/-!
# How new nodes come about

What the classes make before a node is entered, what entering it leaves, and that the
requests which make a node either give it every attribute or leave nothing of it.
-/

namespace OfflineFs

open OfflineFs.Effect OfflineFs.Effect.Program

/-! ## The classes -/

namespace Dbs

/-- A neutral node of a type. -/
def typed (dbs : Dbs) (id atime mtime ctime : UInt64) (mode : UInt32) : Dbs :=
  (dbs.created id atime mtime ctime).setattr id .mode mode

variable {dbs : Dbs} {id atime mtime ctime : UInt64} {mode : UInt32}

theorem attr_nlink_created (dbs : Dbs) (id atime mtime ctime : UInt64) :
    (dbs.created id atime mtime ctime).attr UInt32 id .nlink = .ok 0 := by
  rw [created, attr_setattr_of_ne _ (.inr (by decide)), attr_setattr_of_ne _ (.inr (by decide)),
    attr_setattr_of_ne _ (.inr (by decide)), attr_setattr_of_ne _ (.inr (by decide)),
    attr_setattr_self]

theorem attr_nlink_typed : (dbs.typed id atime mtime ctime mode).attr UInt32 id .nlink = .ok 0 := by
  rw [typed, attr_setattr_of_ne _ (.inr (by decide)), attr_nlink_created]

theorem get_directories_typed (other : UInt64) (name : Bytes) :
    (dbs.typed id atime mtime ctime mode).get .directories other name =
      dbs.get .directories other name := by
  rw [typed, get_directories_setattr, get_directories_created]

theorem has_typed : (dbs.typed id atime mtime ctime mode).Has (.mode :: neutral) id :=
  (has_created atime mtime ctime).add .mode rfl mode

/-- A link target is none of the attributes that are read. -/
theorem Has.put_symlink {attrs : List Attr} {other : UInt64} {target : Bytes}
    (has : dbs.Has attrs id) (unlisted : .symlink ∉ attrs) :
    (dbs.put .nodes other Attr.symlink.name target).Has attrs id := by
  apply has.put
  intro attr listed same
  rw [Attr.name_inj] at same
  exact absurd (same ▸ listed) unlisted

end Dbs

theorem File.exec_create (world : World) : ∃ after atime mtime ctime,
    exec create world = (.ok ⟨world.dbs.nodes.nextId, .file⟩, after) ∧
      after.dbs = world.dbs.typed world.dbs.nodes.nextId atime mtime ctime sIfreg := by
  obtain ⟨after, atime, mtime, ctime, creates, afterEq⟩ := Node.exec_create world
  refine ⟨after.withDbs (after.dbs.setattr world.dbs.nodes.nextId .mode sIfreg),
    atime, mtime, ctime,
    ?_, ?_⟩
  · simp only [create, exec_bind, creates, Outcome.andThen_ok, Node.exec_setattr, exec_pure]
  · rw [World.withDbs_dbs, afterEq]
    rfl

theorem Symlink.exec_create (world : World) : ∃ after atime mtime ctime,
    exec create world = (.ok ⟨world.dbs.nodes.nextId, .symlink⟩, after) ∧
      after.dbs = (world.dbs.typed world.dbs.nodes.nextId atime mtime ctime sIflnk).put .nodes
        world.dbs.nodes.nextId Attr.symlink.name [] := by
  obtain ⟨after, atime, mtime, ctime, creates, afterEq⟩ := Node.exec_create world
  refine ⟨after.withDbs ((after.dbs.setattr world.dbs.nodes.nextId .mode sIflnk).put .nodes
    world.dbs.nodes.nextId Attr.symlink.name []), atime, mtime, ctime, ?_, ?_⟩
  · simp only [create, exec_bind, creates, Outcome.andThen_ok, Node.exec_setattr,
      Node.exec_setattrv, exec_pure]
    rfl
  · rw [World.withDbs_dbs, afterEq]
    rfl

namespace Directory

/-- A new directory has an entry for itself. -/
theorem exec_create (world : World)
    (absent : world.dbs.get .directories world.dbs.nodes.nextId (str ".") = none) :
    ∃ after atime mtime ctime,
      exec create world = (.ok ⟨world.dbs.nodes.nextId, .directory⟩, after) ∧
        after.dbs = (world.dbs.typed world.dbs.nodes.nextId atime mtime ctime sIfdir).entered
          world.dbs.nodes.nextId (str ".") world.dbs.nodes.nextId 0 := by
  obtain ⟨after, atime, mtime, ctime, creates, afterEq⟩ := Node.exec_create world
  let typed := after.withDbs (after.dbs.setattr world.dbs.nodes.nextId .mode sIfdir)
  have typedEq : typed.dbs = world.dbs.typed world.dbs.nodes.nextId atime mtime ctime sIfdir := by
    rw [World.withDbs_dbs, afterEq]
    rfl
  have counted : typed.dbs.attr UInt32 world.dbs.nodes.nextId .nlink = .ok 0 := by
    rw [typedEq, Dbs.attr_nlink_typed]
  have free : typed.dbs.get .directories world.dbs.nodes.nextId (str ".") = none := by
    rw [typedEq, Dbs.get_directories_typed, absent]
  have adds := exec_addchild (d := ⟨world.dbs.nodes.nextId, .directory⟩)
    (n := ⟨world.dbs.nodes.nextId, .directory⟩) counted free
  refine ⟨typed.withDbs (typed.dbs.entered world.dbs.nodes.nextId (str ".")
    world.dbs.nodes.nextId 0), atime, mtime, ctime, ?_, ?_⟩
  · simp only [create, exec_bind, creates, Outcome.andThen_ok, Node.exec_setattr]
    change Outcome.andThen (exec (addchild _ _ _) typed) _ = _
    rw [adds]
    rfl
  · rw [World.withDbs_dbs, typedEq]

/-- A register that is left over keeps a new directory from being made. -/
theorem exec_create_taken {world : World} {value : Bytes}
    (taken : world.dbs.get .directories world.dbs.nodes.nextId (str ".") = some value) :
    ∃ after atime mtime ctime, exec create world = (.error .exists, after) ∧
      after.dbs = (world.dbs.typed world.dbs.nodes.nextId atime mtime ctime sIfdir).removed
        ⟨world.dbs.nodes.nextId, .directory⟩ := by
  obtain ⟨after, atime, mtime, ctime, creates, afterEq⟩ := Node.exec_create world
  let typed := after.withDbs (after.dbs.setattr world.dbs.nodes.nextId .mode sIfdir)
  have typedEq : typed.dbs = world.dbs.typed world.dbs.nodes.nextId atime mtime ctime sIfdir := by
    rw [World.withDbs_dbs, afterEq]
    rfl
  have counted : typed.dbs.attr UInt32 world.dbs.nodes.nextId .nlink = .ok 0 := by
    rw [typedEq, Dbs.attr_nlink_typed]
  have present : typed.dbs.get .directories world.dbs.nodes.nextId (str ".") = some value := by
    rw [typedEq, Dbs.get_directories_typed, taken]
  obtain ⟨last, adds, lastEq⟩ := exec_addchild_exists (d := ⟨world.dbs.nodes.nextId, .directory⟩)
    (n := ⟨world.dbs.nodes.nextId, .directory⟩) counted present
  refine ⟨last, atime, mtime, ctime, ?_, ?_⟩
  · simp only [create, exec_bind, creates, Outcome.andThen_ok, Node.exec_setattr]
    change Outcome.andThen (exec (addchild _ _ _) typed) _ = _
    rw [adds]
    rfl
  · rw [lastEq, typedEq, if_pos (by decide)]

end Directory

/-! ## Entering a new node -/

namespace Path

variable {p : Path} {sctx : SContext} {createT : FsProg NodeRef} {world made : World} {n : NodeRef}
  {nlink : UInt32}

theorem exec_create_refused {e : Err}
    (refused : world.dbs.access p.parent.id sctx (wOk ||| xOk) = .error e) :
    exec (p.create sctx createT) world = (.error e, world) := by
  simp only [create, exec_bind, Node.exec_access, refused, Outcome.ofExcept_error,
    Outcome.andThen_error]

theorem exec_create_failed {e : Err}
    (granted : world.dbs.access p.parent.id sctx (wOk ||| xOk) = .ok ())
    (failed : exec createT world = (.error e, made)) :
    exec (p.create sctx createT) world = (.error e, made) := by
  simp only [create, exec_bind, Node.exec_access, granted, Outcome.ofExcept_ok,
    Outcome.andThen_ok, failed, Outcome.andThen_error]

/-- A free name gets the new node. -/
theorem exec_create (granted : world.dbs.access p.parent.id sctx (wOk ||| xOk) = .ok ())
    (makes : exec createT world = (.ok n, made))
    (counted : made.dbs.attr UInt32 n.id .nlink = .ok nlink)
    (free : made.dbs.get .directories p.parent.id p.leaf = none) :
    exec (p.create sctx createT) world =
      (.ok n, made.withDbs (made.dbs.entered p.parent.id p.leaf n.id nlink)) := by
  simp only [create, exec_bind, Node.exec_access, granted, Outcome.ofExcept_ok,
    Outcome.andThen_ok, makes, exec_catching, Directory.exec_addchild counted free,
    Outcome.orElse_ok, exec_pure]

/-- A new node whose name is taken is removed. -/
theorem exec_create_taken {value : Bytes}
    (granted : world.dbs.access p.parent.id sctx (wOk ||| xOk) = .ok ())
    (makes : exec createT world = (.ok n, made))
    (counted : made.dbs.attr UInt32 n.id .nlink = .ok nlink)
    (taken : made.dbs.get .directories p.parent.id p.leaf = some value) :
    ∃ after, exec (p.create sctx createT) world = (.error .exists, after) ∧
      after.dbs = made.dbs.removed n := by
  obtain ⟨last, adds, lastEq⟩ := Directory.exec_addchild_exists counted taken
  obtain ⟨after, removes, afterEq⟩ := Node.exec_remove n last
  refine ⟨after, ?_, ?_⟩
  · simp only [create, exec_bind, Node.exec_access, granted, Outcome.ofExcept_ok,
      Outcome.andThen_ok, makes, exec_catching, adds, Outcome.orElse_error, removes, exec_throw,
      Outcome.andThen_error]
  · rw [afterEq, lastEq]
    split
    · exact Dbs.removed_removed
    · rfl

end Path

/-! ## Requests that make a node -/

/-- A node that is whole if it is there at all. -/
def Dbs.Settled (dbs : Dbs) (id : UInt64) : Prop :=
  dbs.Begins id → dbs.Whole id

namespace Dbs

variable {dbs : Dbs} {id : UInt64}

theorem not_begins_nextId (idsLeft : dbs.nodes.IdsLeft) : ¬ dbs.Begins dbs.nodes.nextId :=
  not_begins_of_gone (Db.getElem?_nextId idsLeft)

theorem settled_removed {n : NodeRef} (same : n.id = id) : (dbs.removed n).Settled id := by
  intro begins
  exact absurd begins (not_begins_of_gone fun name => by
    rw [get_removed, if_pos ⟨same.symm, .inl rfl⟩])

end Dbs

section Settles

variable {fs : FS} {ctx : Context} {world : World}

/-- What holds before a node is made, and after a node whose name is taken was removed,
and after the rest of the code, holds when a node was made. -/
theorem dbs_creating (property : Dbs → Prop) {α : Type} {p : Path} {sctx : SContext}
    {createT : FsProg NodeRef} {next : NodeRef → FsProg α} {made : World} {n : NodeRef}
    {nlink : UInt32} (start : property world.dbs) (makes : exec createT world = (.ok n, made))
    (counted : made.dbs.attr UInt32 n.id .nlink = .ok nlink)
    (abandoned : property (made.dbs.removed n))
    (continues : made.dbs.get .directories p.parent.id p.leaf = none →
      property (exec (next n) (made.withDbs
        (made.dbs.entered p.parent.id p.leaf n.id nlink))).2.dbs) :
    property (exec (do
      let n ← p.create sctx createT
      next n) world).2.dbs := by
  rw [exec_bind]
  cases granted : world.dbs.access p.parent.id sctx (wOk ||| xOk) with
  | error e =>
      rw [Path.exec_create_refused granted]
      exact start
  | ok =>
      cases taken : made.dbs.get .directories p.parent.id p.leaf with
      | some value =>
          obtain ⟨after, creates, afterEq⟩ := Path.exec_create_taken granted makes counted taken
          rw [creates, Outcome.andThen_error, afterEq]
          exact abandoned
      | none =>
          rw [Path.exec_create granted makes counted taken]
          exact continues taken

/-- The end of a request that made a node. -/
theorem settled_touched {attrs : List Attr} {id : UInt64} (has : world.dbs.Has attrs id)
    (all : vital ⊆ attrs) (parent : NodeRef) :
    (exec (do
      touchParent parent
      Pure.pure (0 : Int)) world).2.dbs.Settled id :=
  fun _ => ((has.setattr .ctime rfl _).setattr .mtime rfl _).mono all

/-- A node that `mknod` created has all attributes. -/
theorem settled_mknod (sound : fs.pcache.Sound) (idsLeft : world.dbs.nodes.IdsLeft) (path : Bytes)
    (mode : UInt32) (dev : UInt64) :
    (exec (fs.mknod ctx path mode dev) world).2.dbs.Settled world.dbs.nodes.nextId := by
  have unborn : world.dbs.Settled world.dbs.nodes.nextId :=
    fun begins => absurd begins (Dbs.not_begins_nextId idsLeft)
  refine dbs_resolving (Dbs.Settled · world.dbs.nodes.nextId) sound unborn
    fun sctx p begun same _ _ _ _ => ?_
  obtain ⟨made, atime, mtime, ctime, makes, madeEq⟩ := Node.exec_create begun
  rw [same] at makes madeEq
  apply dbs_creating (Dbs.Settled · world.dbs.nodes.nextId) (same ▸ unborn) makes
  · rw [madeEq]
    exact Dbs.attr_nlink_created _ _ _ _ _
  · exact Dbs.settled_removed rfl
  · intro _
    have entered : (made.dbs.entered p.parent.id p.leaf world.dbs.nodes.nextId 0).Has neutral
        world.dbs.nodes.nextId :=
      (madeEq ▸ Dbs.has_created atime mtime ctime).entered
    have owned := ((entered.add .uid rfl ctx.uid).add .gid rfl ctx.gid).add .mode rfl mode
    simp only [exec_bind, Node.exec_setattr, Outcome.andThen_ok, World.withDbs_dbs]
    unfold onlyIf
    split
    · exact settled_touched (owned.setattr .dev rfl dev) (by decide) p.parent
    · exact settled_touched owned (by decide) p.parent

/-- A node that `symlink` created has all attributes. -/
theorem settled_symlink (sound : fs.pcache.Sound) (idsLeft : world.dbs.nodes.IdsLeft)
    (oldpath newpath : Bytes) :
    (exec (fs.symlink ctx oldpath newpath) world).2.dbs.Settled world.dbs.nodes.nextId := by
  have unborn : world.dbs.Settled world.dbs.nodes.nextId :=
    fun begins => absurd begins (Dbs.not_begins_nextId idsLeft)
  refine dbs_resolving (Dbs.Settled · world.dbs.nodes.nextId) sound unborn
    fun sctx p begun same _ _ _ _ => ?_
  obtain ⟨made, atime, mtime, ctime, makes, madeEq⟩ := Symlink.exec_create begun
  rw [same] at makes madeEq
  have counted : made.dbs.attr UInt32 world.dbs.nodes.nextId .nlink = .ok 0 := by
    rw [madeEq, Dbs.attr_congr (Dbs.get_put_of_ne (.inr _)), Dbs.attr_nlink_typed]
    decide
  apply dbs_creating (Dbs.Settled · world.dbs.nodes.nextId) (same ▸ unborn) makes counted
  · exact Dbs.settled_removed rfl
  · intro _
    have typed : made.dbs.Has (.mode :: neutral) world.dbs.nodes.nextId := by
      rw [madeEq]
      exact Dbs.has_typed.put_symlink (by decide)
    have entered : (made.dbs.entered p.parent.id p.leaf world.dbs.nodes.nextId 0).Has
        (.mode :: neutral) world.dbs.nodes.nextId := typed.entered
    have owned := (entered.add .uid rfl ctx.uid).add .gid rfl ctx.gid
    simp only [exec_bind, Node.exec_setattr, Node.exec_setattrv, Outcome.andThen_ok,
      World.withDbs_dbs]
    exact settled_touched (owned.put_symlink (by decide)) (by decide) p.parent

/-- A new directory gets all its attributes when the one it comes into has them, and
its register holds no entry for a parent. -/
theorem settled_mkdir (sound : fs.pcache.Sound) (idsLeft : world.dbs.nodes.IdsLeft)
    (complete : world.dbs.Complete) (path : Bytes) (mode : UInt32)
    (clean : world.dbs.get .directories world.dbs.nodes.nextId (str "..") = none) :
    (exec (fs.mkdir ctx path mode) world).2.dbs.Settled world.dbs.nodes.nextId := by
  have unborn : world.dbs.Settled world.dbs.nodes.nextId :=
    fun begins => absurd begins (Dbs.not_begins_nextId idsLeft)
  refine dbs_resolving (Dbs.Settled · world.dbs.nodes.nextId) sound unborn
    fun sctx p begun same _ _ isParent _ => ?_
  obtain ⟨parentMode, isMode, -⟩ := Dbs.getnode_eq_ok_iff.mp isParent
  have apart : p.parent.id ≠ world.dbs.nodes.nextId := by
    intro isFresh
    have stored := Dbs.getattr_eq_ok_iff.mp isMode
    rw [isFresh] at stored
    exact absurd (stored.symm.trans (Db.getElem?_nextId idsLeft Attr.mode.name)) nofun
  cases leftover : world.dbs.get .directories world.dbs.nodes.nextId (str ".") with
  | some value =>
      have taken : begun.dbs.get .directories begun.dbs.nodes.nextId (str ".") = some value := by
        rw [same, leftover]
      obtain ⟨made, atime, mtime, ctime, fails, madeEq⟩ := Directory.exec_create_taken taken
      rw [exec_bind]
      cases granted : begun.dbs.access p.parent.id sctx (wOk ||| xOk) with
      | error e =>
          rw [Path.exec_create_refused granted, Outcome.andThen_error]
          exact same ▸ unborn
      | ok =>
          rw [Path.exec_create_failed granted fails, Outcome.andThen_error, madeEq, same]
          exact Dbs.settled_removed rfl
  | none =>
      obtain ⟨made, atime, mtime, ctime, makes, madeEq⟩ :=
        Directory.exec_create begun (by rw [same, leftover])
      rw [same] at makes madeEq
      have counted : made.dbs.attr UInt32 world.dbs.nodes.nextId .nlink = .ok 1 := by
        rw [madeEq]
        exact Dbs.attr_entered_self _ _ _ _
      apply dbs_creating (Dbs.Settled · world.dbs.nodes.nextId) (same ▸ unborn) makes counted
      · exact Dbs.settled_removed rfl
      · intro _
        let entered := made.dbs.entered p.parent.id p.leaf world.dbs.nodes.nextId 1
        have typed : entered.Has (.mode :: neutral) world.dbs.nodes.nextId :=
          (madeEq ▸ Dbs.has_typed.entered).entered
        have whole : made.dbs.Whole p.parent.id := by
          have begins : world.dbs.Begins p.parent.id := by
            right
            rw [Dbs.getattr_eq_ok_iff.mp isMode]
            exact Option.some_ne_none _
          have created := (complete.whole p.parent.id begins).congr fun attr _ =>
            Dbs.get_created_of_ne world.dbs apart.symm atime mtime ctime .nodes attr.name
          rw [madeEq]
          exact (created.setattr .mode rfl sIfdir).entered
        obtain ⟨nlink, isCount⟩ : ∃ nlink, entered.attr UInt32 p.parent.id .nlink = .ok nlink :=
          whole.entered.read (by decide : .nlink ∈ vital) rfl
        have free : entered.get .directories world.dbs.nodes.nextId (str "..") = none := by
          rw [Dbs.get_directories_entered, if_neg fun both => apart both.1.symm, madeEq,
            Dbs.get_directories_entered, if_neg fun both => absurd both.2 (by decide),
            Dbs.get_directories_typed, clean]
        have adds : exec
            (Directory.addchild ⟨world.dbs.nodes.nextId, .directory⟩ (str "..") p.parent)
            (made.withDbs entered) = _ := Directory.exec_addchild isCount free
        have linked : (entered.entered world.dbs.nodes.nextId (str "..") p.parent.id nlink).Has
            (.mode :: neutral) world.dbs.nodes.nextId := typed.entered
        have owned := ((linked.add .uid rfl ctx.uid).add .gid rfl ctx.gid).add .mode rfl
          (sIfdir ||| mode)
        simp only [exec_bind]
        rw [adds]
        simp only [Node.exec_setattr, Outcome.andThen_ok, World.withDbs_dbs]
        exact settled_touched owned (by decide) p.parent

end Settles

end OfflineFs
