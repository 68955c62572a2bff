import OfflineFs.Changes.Lineage
import OfflineFs.Changes.Root

/-!
# Refused creations

By the time a taken name is found the new node has an id and attributes, and a new
directory an entry for itself.  Taking the node back erases the registers of its id,
which were empty before.
-/

namespace OfflineFs

open OfflineFs.Effect OfflineFs.Effect.Program

namespace Dbs

variable {dbs : Dbs}

/-- Every id with a directories register is that of a node. -/
def DirectoriesOfNodes (dbs : Dbs) : Prop :=
  ∀ id name, dbs.get .directories id name ≠ none → ∃ attr, dbs.get .nodes id attr ≠ none

/-- A new id has no register in either database. -/
theorem get_nextId (idsLeft : dbs.nodes.IdsLeft) (owned : dbs.DirectoriesOfNodes) (table : Table)
    (name : Bytes) : dbs.get table dbs.nodes.nextId name = none := by
  have free : ∀ attr, dbs.get .nodes dbs.nodes.nextId attr = none :=
    fun attr => Db.getElem?_nextId idsLeft attr
  cases table with
  | nodes => exact free name
  | directories =>
      by_contra present
      obtain ⟨attr, owner⟩ := owned _ name present
      exact owner (free attr)

/-- Removing a node that has no register changes nothing. -/
theorem removed_of_absent {n : NodeRef} (absent : ∀ table name, dbs.get table n.id name = none) :
    dbs.removed n = dbs := by
  apply ext_get
  · unfold removed
    cases n.kind <;> simp
  · intro table id name
    rw [get_removed]
    split
    · rename_i erased
      rw [erased.1, absent]
    · rfl

end Dbs

/-- The `create` of a class. -/
def NodeKind.create : NodeKind → FsProg NodeRef
  | .node => Node.create
  | .file => File.create
  | .directory => Directory.create
  | .symlink => Symlink.create

theorem NodeKind.makesClass (kind : NodeKind) : MakesClass kind kind.create := by
  cases kind with
  | node => exact makesClass_node
  | file => exact makesClass_file
  | directory => exact makesClass_directory
  | symlink => exact makesClass_symlink

/-- A creation that throws leaves the databases as they were. -/
theorem Path.create_unchanged {world : World} (idsLeft : world.dbs.nodes.IdsLeft)
    (owned : world.dbs.DirectoriesOfNodes) (kind : NodeKind) (p : Path) (sctx : SContext) (e : Err)
    (throws : (exec (p.create sctx kind.create) world).1 = .error e) :
    (exec (p.create sctx kind.create) world).2.dbs = world.dbs := by
  have absent := Dbs.get_nextId idsLeft owned
  obtain ⟨made, atime, mtime, ctime, creates, madeEq⟩ :=
    kind.makesClass.makes world fun _ => absent .directories _
  have counted : made.dbs.attr UInt32 world.dbs.nodes.nextId .nlink =
      .ok (Dbs.ownLinks kind) := by
    rw [madeEq, Dbs.attr_nlink_made]
  rcases @exec_create_cases p sctx _ _ _ _ _ creates counted with
    ⟨_, refused⟩ | ⟨after, taken, afterEq⟩ | ⟨-, enters⟩
  · rw [refused]
  · rw [taken, afterEq, madeEq, Dbs.removed_made]
    exact Dbs.removed_of_absent absent
  · rw [enters] at throws
    cases throws

/-- The root has the only register after a rebuild. -/
theorem World.directoriesOfNodes_rebuilt (media : Db UInt32) (getuid getgid : UInt32)
    (clock : Nat → UInt64) (reply : List SysEvent → SysCall → SysResult) (order : ByteOrder) :
    (World.rebuilt media getuid getgid clock reply order).dbs.DirectoriesOfNodes := by
  obtain ⟨atime, mtime, ctime, same⟩ := exists_rebuilt_eq media getuid getgid clock reply order
  rw [same]
  intro id name present
  by_cases isRoot : 0 = id
  · subst isRoot
    obtain ⟨mode, stored, -⟩ :=
      Dbs.getnode_eq_ok_iff.mp (Dbs.getnode_rooted media getuid getgid atime mtime ctime)
    exact ⟨Attr.mode.name, fun absent => by
      have found := Dbs.getattr_eq_ok_iff.mp stored
      rw [absent] at found
      cases found⟩
  · refine absurd ?_ present
    simp [Dbs.rooted, Dbs.entered, Dbs.get_put, Dbs.get_setattr, Dbs.typed, Dbs.created, isRoot]
    rfl

/-- A directory cannot be created under the name of the entry of the root for itself. -/
theorem Path.create_unchanged_mountedWorld :
    (exec (Path.create ⟨⟨0, .directory⟩, str "."⟩ ⟨0, 0, []⟩ NodeKind.directory.create)
      mountedWorld).2.dbs = mountedWorld.dbs :=
  Path.create_unchanged (Db.idsLeft_of_keys (by decide +kernel))
    (World.directoriesOfNodes_rebuilt _ _ _ _ _ _) .directory ⟨⟨0, .directory⟩, str "."⟩ ⟨0, 0, []⟩
    .exists (by decide +kernel)

end OfflineFs
