import OfflineFs.Changes.Births
import OfflineFs.Database.Allocation

/-!
# The root directory

What `FsDb::rebuild` leaves in the databases: one node, of the first id, with two
entries for itself.
-/

namespace OfflineFs

open OfflineFs.Effect OfflineFs.Effect.Program OfflineFs.Transition

/-- The databases with nothing but the root directory. -/
def Dbs.rooted (media : Db UInt32) (getuid getgid : UInt32) (atime mtime ctime : UInt64) : Dbs :=
  let base := ((⟨∅, ∅, media⟩ : Dbs).typed 0 atime mtime ctime sIfdir).entered 0 (str ".") 0 0
  let owned := ((base.setattr 0 .mode (sIfdir ||| 0o755)).setattr 0 .uid getuid).setattr 0 .gid
    getgid
  owned.entered 0 (str "..") 0 1

/-- Rebuilding makes the root directory and nothing else, and commits it. -/
theorem World.exec_rebuild (media : Db UInt32) (getuid getgid : UInt32) (clock : Nat → UInt64)
    (reply : List SysEvent → SysCall → SysResult) (order : ByteOrder) :
    ∃ ended atime mtime ctime, exec (FsDb.rebuild getuid getgid) (.erased media clock reply order) =
        (.ok (), World.committedAll ended) ∧
      ended.dbs = .rooted media getuid getgid atime mtime ctime := by
  obtain ⟨after, atime, mtime, ctime, creates, afterEq⟩ :=
    Directory.exec_create (.erased media clock reply order) rfl
  have first : (World.erased media clock reply order).dbs.nodes.nextId = 0 := rfl
  rw [first] at creates afterEq
  let owned := ((after.dbs.setattr 0 .mode (sIfdir ||| 0o755)).setattr 0 .uid getuid).setattr 0
    .gid getgid
  have counted : (after.withDbs owned).dbs.attr UInt32 0 .nlink = .ok 1 := by
    simp only [World.withDbs_dbs, owned, afterEq]
    rw [Dbs.attr_setattr_of_ne _ (.inr (by decide)), Dbs.attr_setattr_of_ne _ (.inr (by decide)),
      Dbs.attr_setattr_of_ne _ (.inr (by decide)), Dbs.attr_entered_self]
    rfl
  have absent : (after.withDbs owned).dbs.get .directories 0 (str "..") = none := by
    simp only [World.withDbs_dbs, owned, Dbs.get_directories_setattr, afterEq,
      Dbs.get_directories_entered, Dbs.get_directories_typed]
    rfl
  have adds := Directory.exec_addchild (d := ⟨0, .directory⟩) (n := ⟨0, .directory⟩) counted absent
  refine ⟨(after.withDbs owned).withDbs (owned.entered 0 (str "..") 0 1), atime, mtime, ctime, ?_,
    ?_⟩
  · rw [FsDb.rebuild, exec_fsTxn]
    simp only [exec_bind, creates, Outcome.andThen_ok, Node.exec_setattr]
    change committing (exec (Directory.addchild ⟨0, .directory⟩ (str "..") ⟨0, .directory⟩)
      (after.withDbs owned)) = _
    rw [adds, committing_ok]
    rfl
  · simp only [World.withDbs_dbs, owned, afterEq]
    rfl

theorem World.exists_rebuilt_eq (media : Db UInt32) (getuid getgid : UInt32)
    (clock : Nat → UInt64) (reply : List SysEvent → SysCall → SysResult) (order : ByteOrder) :
    ∃ atime mtime ctime, (World.rebuilt media getuid getgid clock reply order).dbs =
      .rooted media getuid getgid atime mtime ctime := by
  obtain ⟨ended, atime, mtime, ctime, rebuilds, isRooted⟩ :=
    World.exec_rebuild media getuid getgid clock reply order
  refine ⟨atime, mtime, ctime, ?_⟩
  rw [World.rebuilt, rebuilds, World.committedAll_dbs, isRooted]

/-! ## The first id -/

namespace Dbs

variable (media : Db UInt32) (getuid getgid : UInt32) (atime mtime ctime : UInt64)

theorem getnode_rooted :
    (rooted media getuid getgid atime mtime ctime).getnode 0 = .ok ⟨0, .directory⟩ := by
  rw [getnode_eq_ok_iff]
  refine ⟨sIfdir ||| 0o755, ?_, rfl⟩
  have same : (rooted media getuid getgid atime mtime ctime).attr UInt32 0 .mode = _ :=
    attr_congr (get_nodes_entered 0 (str "..") 0 1 (by decide))
  rw [same, attr_setattr_of_ne _ (.inr (by decide)), attr_setattr_of_ne _ (.inr (by decide)),
    attr_setattr_self]

/-- There is no other node. -/
theorem get_nodes_rooted_of_ne {id : UInt64} (other : 0 ≠ id) (name : Bytes) :
    (rooted media getuid getgid atime mtime ctime).get .nodes id name = none := by
  simp [rooted, entered, get_put, get_setattr, typed, created, other]
  rfl

end Dbs

/-- In every run on a database that starts empty and never reaches the all-ones id,
each new id is free and the greatest, and the listing has each id in use once, in
increasing order.  The first id is zero, which is the root directory's. -/
theorem identifiers_allocated {IdT : Type} [HostInt IdT] [DecidableEq IdT] {db : Database.BTree}
    (reached : Reaches Database.RegisterOp.apply
      (fun db (op : Database.RegisterOp IdT) => Database.Unreached IdT (op.apply db)) ∅ db) :
    Database.Allocates IdT db ∧ (Database.createregister IdT ∅).1 = HostInt.ofNat 0 ∧
      ∀ media getuid getgid clock reply order,
        (World.rebuilt media getuid getgid clock reply order).dbs.getnode 0 = .ok ⟨0, .directory⟩ ∧
        ∀ id name,
          (World.rebuilt media getuid getgid clock reply order).dbs.get .nodes id name ≠ none →
          id = 0 := by
  refine ⟨Database.reaches_allocates reached, Database.createregister_empty, ?_⟩
  intro media getuid getgid clock reply order
  obtain ⟨atime, mtime, ctime, same⟩ :=
    World.exists_rebuilt_eq media getuid getgid clock reply order
  rw [same]
  refine ⟨Dbs.getnode_rooted _ _ _ _ _ _, fun id name present => ?_⟩
  by_contra other
  exact present (Dbs.get_nodes_rooted_of_ne _ _ _ _ _ _ (Ne.symm other) name)

/-- Two ids are handed out, the first is used and the second freed. -/
def twoIds : List (Database.RegisterOp UInt64) :=
  [.createregister, .setattrv 0 (str "a") (str "x"), .createregister, .remove 1]

set_option maxRecDepth 100000 in
theorem twoIds_meets :
    Meets Database.RegisterOp.apply
      (fun db (op : Database.RegisterOp UInt64) => Database.Unreached UInt64 (op.apply db)) ∅
      twoIds :=
  .cons (Database.unreached_of_keys (by decide +kernel))
    (.cons (Database.unreached_of_keys (by decide +kernel))
      (.cons (Database.unreached_of_keys (by decide +kernel))
        (.cons (Database.unreached_of_keys (by decide +kernel)) (.nil _))))

theorem identifiers_allocated_twoIds :
    Database.Allocates UInt64 (twoIds.foldl Database.RegisterOp.apply ∅) :=
  (identifiers_allocated twoIds_meets.reaches).1

end OfflineFs
