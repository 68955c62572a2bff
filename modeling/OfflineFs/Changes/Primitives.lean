import OfflineFs.Changes.Kinds
import OfflineFs.Run.Requests

/-!
# Running the code that links and unlinks

What the operations on nodes and directories do to the databases, as the changes
that describe them.
-/

namespace OfflineFs

open OfflineFs.Effect OfflineFs.Effect.Program

namespace Dbs

variable {dbs : Dbs} {id d : UInt64} {name : Bytes} {n : NodeRef} {nlink : UInt32}

/-- Erasing a node hides what was stored for it before. -/
theorem removed_setattr {T : Type} [HostInt T] (attr : Attr) (value : T) :
    (dbs.setattr n.id attr value).removed n = dbs.removed n := by
  apply ext_get
  · unfold removed
    cases n.kind <;> simp
  · intro table other read
    rw [get_removed, get_removed, get_setattr]
    by_cases erased : other = n.id ∧ (table = .nodes ∨ n.kind = .directory)
    · rw [if_pos erased, if_pos erased]
    · rw [if_neg erased, if_neg erased, if_neg]
      rintro ⟨rfl, rfl, -⟩
      exact erased ⟨rfl, .inl rfl⟩

/-- Nothing is left to erase the second time. -/
theorem removed_removed : (dbs.removed n).removed n = dbs.removed n := by
  apply ext_get
  · unfold removed
    cases n.kind <;> simp
  · intro table other read
    rw [get_removed, get_removed]
    split <;> rfl

theorem setattr_setattr {T : Type} [HostInt T] (attr : Attr) (first second : T) :
    (dbs.setattr id attr first).setattr id attr second = dbs.setattr id attr second := by
  apply ext_get (by simp)
  intro table other read
  simp only [get_setattr]
  split <;> rfl

/-- Storing what is stored changes nothing. -/
theorem setattr_of_attr {T : Type} [HostInt T] {attr : Attr} {value : T}
    (stored : dbs.attr T id attr = .ok value) : dbs.setattr id attr value = dbs := by
  apply ext_get (by simp)
  intro table other read
  rw [get_setattr]
  split
  · rename_i same
    obtain ⟨rfl, rfl, rfl⟩ := same
    exact (getattr_eq_ok_iff.mp stored).symm
  · rfl

theorem attr_del_directories {T : Type} [HostInt T] (d : UInt64) (name : Bytes) (attr : Attr) :
    (dbs.del .directories d name).attr T id attr = dbs.attr T id attr := by
  have same : (dbs.del .directories d name).get .nodes id attr.name =
      dbs.get .nodes id attr.name := by
    rw [get_del, if_neg]
    rintro ⟨impossible, -⟩
    cases impossible
  rw [Dbs.attr, Dbs.attr, getattr, getattr, same]

/-- A child is stored as its id. -/
theorem getchild_eq_ok_iff :
    dbs.getchild d name = .ok n ↔
      dbs.get .directories d name = some (hostToDb n.id) ∧ dbs.getnode n.id = .ok n := by
  unfold getchild
  cases read : dbs.getattr UInt64 .directories d name with
  | ok id =>
      rw [getattr_eq_ok_iff] at read
      rw [read, Option.some.injEq, hostToDb_inj]
      constructor
      · intro found
        obtain ⟨mode, -, rfl⟩ := getnode_eq_ok_iff.mp found
        exact ⟨rfl, found⟩
      · rintro ⟨rfl, found⟩
        exact found
  | error e =>
      have unread : dbs.get .directories d name ≠ some (hostToDb n.id) := by
        intro stored
        rw [getattr_eq_ok_iff.mpr stored] at read
        cases read
      cases e <;> simp [unread]

end Dbs

namespace Node

variable (n : NodeRef) (world : World)

/-- Removing a node always returns; what it does beside the databases is left open. -/
theorem exec_remove : ∃ after, exec (remove n) world = (.ok (), after) ∧
    after.dbs = world.dbs.removed n := by
  unfold remove Dbs.removed
  cases n.kind with
  | file =>
      have freed := (callsSince_exec (calls_source_remove n.id) world).dbs
      have ends := (finishes_source_remove n.id).run fsHandler world
      change ∀ stop, (exec (Source.remove n.id) world).1 ≠ .fault stop at ends
      rcases result : exec (Source.remove n.id) world with ⟨outcome, after⟩
      rw [result] at freed ends
      refine ⟨after.withDbs (after.dbs.wipe .nodes n.id), ?_, ?_⟩
      · simp only [exec_bind, exec_catching, result]
        cases outcome with
        | ok => simp
        | error e => simp
        | fault stop => exact absurd rfl (ends stop)
      · rw [World.withDbs_dbs, freed]
  | directory =>
      refine ⟨world.withDbs ((world.dbs.wipe .directories n.id).wipe .nodes n.id), ?_, rfl⟩
      simp only [exec_bind, Register.exec_remove, Outcome.andThen_ok]
      rfl
  | node => exact ⟨_, Register.exec_remove _ _ _, rfl⟩
  | symlink => exact ⟨_, Register.exec_remove _ _ _, rfl⟩

variable {n world}

theorem exec_link {nlink : UInt32} (counted : world.dbs.attr UInt32 n.id .nlink = .ok nlink) :
    exec (link n) world = (.ok (), world.withDbs (world.dbs.setattr n.id .nlink (1 + nlink))) := by
  simp [link, counted]

theorem exec_link_error {e : Err} (uncounted : world.dbs.attr UInt32 n.id .nlink = .error e) :
    exec (link n) world = (.error e, world) := by
  simp [link, uncounted]

theorem exec_unlink {nlink : UInt32} (counted : world.dbs.attr UInt32 n.id .nlink = .ok nlink) :
    ∃ after, exec (unlink n) world = (.ok (), after) ∧ after.dbs = world.dbs.unlinked n nlink := by
  simp only [unlink, exec_bind, exec_getattr, counted, Outcome.ofExcept_ok, Outcome.andThen_ok,
    Dbs.unlinked]
  split
  · exact exec_remove n world
  · exact ⟨_, exec_setattr _ _ _ _, rfl⟩

theorem exec_unlink_error {e : Err} (uncounted : world.dbs.attr UInt32 n.id .nlink = .error e) :
    exec (unlink n) world = (.error e, world) := by
  simp [unlink, uncounted]

/-- A neutral node of the next id. -/
theorem exec_create (world : World) : ∃ after atime mtime ctime,
    exec create world = (.ok ⟨world.dbs.nodes.nextId, .node⟩, after) ∧
      after.dbs = world.dbs.created world.dbs.nodes.nextId atime mtime ctime := by
  refine ⟨(exec create world).2, world.clock world.ticks, world.clock (world.ticks + 1),
    world.clock (world.ticks + 1 + 1), ?_, ?_⟩
  · simp only [create, exec_bind, exec_createregister, Outcome.andThen_ok, exec_setattr,
      exec_setTime, exec_pure]
    rfl
  · simp only [create, exec_bind, exec_createregister, Outcome.andThen_ok, exec_setattr,
      exec_setTime, exec_pure]
    rfl

end Node

namespace Directory

variable {d n : NodeRef} {name : Bytes} {world : World} {nlink : UInt32}

/-- A name that is free gets the node. -/
theorem exec_addchild (counted : world.dbs.attr UInt32 n.id .nlink = .ok nlink)
    (absent : world.dbs.get .directories d.id name = none) :
    exec (addchild d name n) world =
      (.ok (), world.withDbs (world.dbs.entered d.id name n.id nlink)) := by
  have stillAbsent : (world.dbs.setattr n.id .nlink (1 + nlink)).getattrv .directories d.id name =
      .error .attrNotFound := by
    rw [Dbs.getattrv, Dbs.get_directories_setattr, absent]
  simp only [addchild, exec_bind, Node.exec_link counted, Outcome.andThen_ok, exec_catching,
    Register.exec_getattrv, World.withDbs_dbs, stillAbsent, Outcome.ofExcept_error,
    Outcome.andThen_error, Outcome.orElse_error, Register.exec_setattr, Outcome.orElse_ok]
  rfl

/-- A name that is taken keeps its node, and the other one loses the link again. -/
theorem exec_addchild_exists {value : Bytes}
    (counted : world.dbs.attr UInt32 n.id .nlink = .ok nlink)
    (taken : world.dbs.get .directories d.id name = some value) :
    ∃ after, exec (addchild d name n) world = (.error .exists, after) ∧
      after.dbs = if UInt32.toCInt nlink ≤ 0 then world.dbs.removed n else world.dbs := by
  have stillTaken : (world.dbs.setattr n.id .nlink (1 + nlink)).getattrv .directories d.id name =
      .ok value := by
    rw [Dbs.getattrv, Dbs.get_directories_setattr, taken]
  have recounted : (world.withDbs (world.dbs.setattr n.id .nlink (1 + nlink))).dbs.attr UInt32
      n.id .nlink = .ok (1 + nlink) :=
    Dbs.attr_setattr_self _ _ _ _
  obtain ⟨after, unlinks, afterEq⟩ := Node.exec_unlink recounted
  refine ⟨after, ?_, ?_⟩
  · simp only [addchild, exec_bind, Node.exec_link counted, Outcome.andThen_ok, exec_catching,
      Register.exec_getattrv, World.withDbs_dbs, stillTaken, Outcome.ofExcept_ok, exec_throw,
      Outcome.orElse_error, unlinks]
  · have restored : 1 + nlink - 1 = nlink := by
      rw [UInt32.add_comm, UInt32.add_sub_cancel]
    rw [afterEq, Dbs.unlinked, restored, World.withDbs_dbs, Dbs.removed_setattr,
      Dbs.setattr_setattr, Dbs.setattr_of_attr counted]

theorem exec_addchild_error {e : Err}
    (uncounted : world.dbs.attr UInt32 n.id .nlink = .error e) :
    exec (addchild d name n) world = (.error e, world) := by
  simp only [addchild, exec_bind, Node.exec_link_error uncounted, Outcome.andThen_error]

/-- The entry of a child goes with one of its links. -/
theorem exec_delchild (child : world.dbs.getchild d.id name = .ok n)
    (counted : world.dbs.attr UInt32 n.id .nlink = .ok nlink) :
    ∃ after, exec (delchild d name) world = (.ok (), after) ∧
      after.dbs = world.dbs.left d.id name n nlink := by
  have stored := (Dbs.getchild_eq_ok_iff.mp child).1
  have recounted : (world.withDbs (world.dbs.del .directories d.id name)).dbs.attr UInt32 n.id
      .nlink = .ok nlink := by
    rw [World.withDbs_dbs, Dbs.attr_del_directories, counted]
  obtain ⟨after, unlinks, afterEq⟩ := Node.exec_unlink recounted
  refine ⟨after, ?_, afterEq⟩
  simp only [delchild, exec_bind, exec_getchild, child, Outcome.ofExcept_ok, Outcome.andThen_ok,
    Register.exec_delattr, stored, unlinks]

/-- A child whose links cannot be counted loses its entry all the same. -/
theorem exec_delchild_uncounted {e : Err} (child : world.dbs.getchild d.id name = .ok n)
    (uncounted : world.dbs.attr UInt32 n.id .nlink = .error e) :
    exec (delchild d name) world =
      (.error e, world.withDbs (world.dbs.del .directories d.id name)) := by
  have stored := (Dbs.getchild_eq_ok_iff.mp child).1
  have still : (world.withDbs (world.dbs.del .directories d.id name)).dbs.attr UInt32 n.id
      .nlink = .error e := by
    rw [World.withDbs_dbs, Dbs.attr_del_directories, uncounted]
  simp only [delchild, exec_bind, exec_getchild, child, Outcome.ofExcept_ok, Outcome.andThen_ok,
    Register.exec_delattr, stored, Node.exec_unlink_error still]

theorem exec_delchild_error {e : Err} (missing : world.dbs.getchild d.id name = .error e) :
    exec (delchild d name) world = (.error e, world) := by
  simp only [delchild, exec_bind, exec_getchild, missing, Outcome.ofExcept_error,
    Outcome.andThen_error]

end Directory

end OfflineFs
