import OfflineFs.Model.PathCache
import OfflineFs.Model.World

/-!
# Running the register operations

What each operation of a register returns and does in a world.  Reading an
attribute depends on the working contents alone and is described by a function
of them that returns or throws.
-/

namespace OfflineFs

open OfflineFs.Effect OfflineFs.Map

/-! ## Reading -/

namespace Dbs

/-- `getattrv` as a function of the contents. -/
def getattrv (dbs : Dbs) (table : Table) (id : UInt64) (name : Bytes) : Except Err Bytes :=
  match dbs.get table id name with
  | some value => .ok value
  | none => .error .attrNotFound

/-- `getattr<T>` as a function of the contents. -/
def getattr (T : Type) [HostInt T] (dbs : Dbs) (table : Table) (id : UInt64) (name : Bytes) :
    Except Err T :=
  match dbs.get table id name with
  | some value =>
      match dbToHost T value with
      | some value => .ok value
      | none => .error .runtime
  | none => .error .attrNotFound

/-- `getattr<T>` of a node. -/
def attr (T : Type) [HostInt T] (dbs : Dbs) (id : UInt64) (attr : Attr) : Except Err T :=
  dbs.getattr T .nodes id attr.name

/-- `setattr<T>` of a node. -/
def setattr {T : Type} [HostInt T] (dbs : Dbs) (id : UInt64) (attr : Attr) (value : T) : Dbs :=
  dbs.put .nodes id attr.name (hostToDb value)

section Values

variable {T : Type} [HostInt T] {dbs : Dbs} {table : Table} {id : UInt64} {name : Bytes}

theorem getattr_eq_ok_iff {value : T} :
    dbs.getattr T table id name = .ok value ↔ dbs.get table id name = some (hostToDb value) := by
  unfold getattr
  cases stored : dbs.get table id name with
  | none => simp
  | some bytes =>
      simp only [Option.some.injEq, ← dbToHost_eq_some_iff]
      cases dbToHost T bytes <;> simp

/-- Reading an attribute throws one of two exceptions. -/
theorem getattr_error {e : Err} (failed : dbs.getattr T table id name = .error e) :
    e = .attrNotFound ∨ e = .runtime := by
  unfold getattr at failed
  cases stored : dbs.get table id name with
  | none =>
      rw [stored] at failed
      left
      cases failed
      rfl
  | some bytes =>
      rw [stored] at failed
      right
      cases read : dbToHost T bytes with
      | none =>
          simp only [read] at failed
          cases failed
          rfl
      | some value =>
          simp only [read] at failed
          cases failed

@[simp]
theorem attr_setattr_self (dbs : Dbs) (id : UInt64) (attr : Attr) (value : T) :
    (dbs.setattr id attr value).attr T id attr = .ok value := by
  rw [Dbs.attr, getattr_eq_ok_iff, setattr, get_put, if_pos ⟨rfl, rfl, rfl⟩]

/-- Setting one attribute of one node leaves every other attribute. -/
theorem attr_setattr_of_ne {U : Type} [HostInt U] (value : U) {other : UInt64}
    {written read : Attr} (distinct : id ≠ other ∨ written ≠ read) :
    (dbs.setattr id written value).attr T other read = dbs.attr T other read := by
  have unchanged : (dbs.setattr id written value).get .nodes other read.name =
      dbs.get .nodes other read.name := by
    rw [setattr, get_put, if_neg]
    rintro ⟨_, sameId, sameName⟩
    rw [Attr.name_inj] at sameName
    rcases distinct with idNe | attrNe
    · exact idNe sameId
    · exact attrNe sameName
  rw [Dbs.attr, Dbs.attr, getattr, getattr, unchanged]

@[simp]
theorem media_setattr (dbs : Dbs) (id : UInt64) (attr : Attr) (value : T) :
    (dbs.setattr id attr value).media = dbs.media :=
  media_put _ _ _ _ _

end Values

end Dbs

namespace Register

@[simp]
theorem exec_getattrv (table : Table) (id : UInt64) (name : Bytes) (world : World) :
    exec (getattrv table id name) world =
      (.ofExcept (world.dbs.getattrv table id name), world) := by
  simp only [getattrv, Dbs.getattrv, exec_bind, exec_perform, Outcome.andThen_ok,
    fsHandler]
  cases world.dbs.get table id name <;> rfl

@[simp]
theorem exec_getattr (T : Type) [HostInt T] (table : Table) (id : UInt64) (name : Bytes)
    (world : World) :
    exec (getattr T table id name) world =
      (.ofExcept (world.dbs.getattr T table id name), world) := by
  simp only [getattr, Dbs.getattr, Dbs.getattrv, exec_bind, exec_getattrv]
  cases world.dbs.get table id name with
  | none => rfl
  | some bytes =>
      simp only [Outcome.ofExcept_ok, Outcome.andThen_ok]
      cases dbToHost T bytes <;> rfl

@[simp]
theorem exec_setattrv (table : Table) (id : UInt64) (name value : Bytes) (world : World) :
    exec (setattrv table id name value) world =
      (.ok (), world.withDbs (world.dbs.put table id name value)) :=
  rfl

@[simp]
theorem exec_setattr {T : Type} [HostInt T] (table : Table) (id : UInt64) (name : Bytes)
    (value : T) (world : World) :
    exec (setattr table id name value) world =
      (.ok (), world.withDbs (world.dbs.put table id name (hostToDb value))) :=
  rfl

@[simp]
theorem exec_delattr (table : Table) (id : UInt64) (name : Bytes) (world : World) :
    exec (delattr table id name) world =
      match world.dbs.get table id name with
      | some _ => (.ok (), world.withDbs (world.dbs.del table id name))
      | none => (.error .attrNotFound, world) := by
  simp only [delattr, exec_bind, exec_perform, Outcome.andThen_ok, fsHandler]
  cases world.dbs.get table id name <;> rfl

@[simp]
theorem exec_getattrs (table : Table) (id : UInt64) (world : World) :
    exec (getattrs table id) world = (.ok ((world.dbs.table table).attrs id), world) :=
  rfl

@[simp]
theorem exec_countattrs (table : Table) (id : UInt64) (world : World) :
    exec (countattrs table id) world = (.ok ((world.dbs.table table).attrs id).length, world) :=
  rfl

/-- The loop of `remove` erases the listed names, all of them present. -/
theorem exec_delattrs {table : Table} {id : UInt64} {names : List Bytes} {world : World}
    (distinct : names.Nodup) (present : ∀ name ∈ names, world.dbs.get table id name ≠ none) :
    exec (delattrs table id names) world =
      (.ok (), world.withDbs
        (names.foldl (fun dbs name => dbs.del table id name) world.dbs)) := by
  induction names generalizing world with
  | nil => rfl
  | cons name names ih =>
      rw [List.nodup_cons] at distinct
      obtain ⟨value, found⟩ := Option.ne_none_iff_exists'.mp (present name (by simp))
      have stillPresent : ∀ other ∈ names,
          (world.withDbs (world.dbs.del table id name)).dbs.get table id other ≠ none := by
        intro other member
        rw [World.withDbs_dbs, Dbs.get_del, if_neg]
        · exact present other (List.mem_cons_of_mem _ member)
        · rintro ⟨_, _, rfl⟩
          exact distinct.1 member
      simp only [delattrs, exec_bind, exec_delattr, found, Outcome.andThen_ok]
      rw [ih distinct.2 stillPresent]
      rfl

private theorem foldl_del (names : List Bytes) (dbs : Dbs) (table : Table) (id : UInt64) :
    names.foldl (fun dbs name => dbs.del table id name) dbs =
      dbs.update (fun db => names.foldl (fun rest name => rest.erase ⟨id, name⟩) db) table := by
  induction names generalizing dbs with
  | nil => cases table <;> rfl
  | cons name names ih =>
      rw [List.foldl_cons, ih]
      cases table <;> rfl

/-- `remove` never throws. -/
@[simp]
theorem exec_remove (table : Table) (id : UInt64) (world : World) :
    exec (remove table id) world = (.ok (), world.withDbs (world.dbs.wipe table id)) := by
  have present : ∀ name ∈ (world.dbs.table table).attrs id,
      world.dbs.get table id name ≠ none := by
    intro name member
    exact (Db.mem_attrs_iff.mp member).2
  have named := exec_delattrs (Db.nodup_attrs _ _) present
  have wiped : ((((world.dbs.table table).attrs id).foldl
      (fun dbs name => dbs.del table id name) world.dbs).del table id []) =
        world.dbs.wipe table id := by
    rw [foldl_del]
    cases table
    · simp only [Dbs.wipe, ← Db.erase_attrs]
      rfl
    · simp only [Dbs.wipe, ← Db.erase_attrs]
      rfl
  simp only [remove, exec_bind, exec_getattrs, Outcome.andThen_ok, named, exec_catching,
    exec_delattr, World.withDbs_dbs]
  split
  · rw [wiped]
    rfl
  · rename_i absent
    simp only [Outcome.orElse_error, exec_pure]
    rw [← wiped]
    congr 2
    apply (Dbs.ext_get (by simp) ?_).symm
    intro other otherId name
    rw [Dbs.get_del]
    split
    · rename_i same
      rw [← same.1, ← same.2.1, ← same.2.2, absent]
    · rfl

end Register

/-- `createregister` never throws. -/
@[simp]
theorem exec_createregister (table : Table) (world : World) :
    exec (createregister table) world =
      (.ok (world.dbs.table table).nextId,
        world.withDbs (world.dbs.put table (world.dbs.table table).nextId [] [])) := by
  simp only [createregister, exec_bind, exec_perform, Outcome.andThen_ok, exec_pure, fsHandler,
    Dbs.lastId, Db.nextId]
  cases lastKey? (world.dbs.table table) <;> rfl

namespace Node

@[simp]
theorem exec_getattrv (id : UInt64) (name : Bytes) (world : World) :
    exec (getattrv id name) world = (.ofExcept (world.dbs.getattrv .nodes id name), world) :=
  Register.exec_getattrv _ _ _ _

@[simp]
theorem exec_getattr (T : Type) [HostInt T] (id : UInt64) (attr : Attr) (world : World) :
    exec (getattr T id attr) world = (.ofExcept (world.dbs.attr T id attr), world) :=
  Register.exec_getattr _ _ _ _ _

@[simp]
theorem exec_setattrv (id : UInt64) (name value : Bytes) (world : World) :
    exec (setattrv id name value) world =
      (.ok (), world.withDbs (world.dbs.put .nodes id name value)) :=
  rfl

@[simp]
theorem exec_setattr {T : Type} [HostInt T] (id : UInt64) (attr : Attr) (value : T)
    (world : World) :
    exec (setattr id attr value) world =
      (.ok (), world.withDbs (world.dbs.setattr id attr value)) :=
  rfl

@[simp]
theorem exec_setTime (id : UInt64) (attr : Attr) (world : World) :
    exec (setTime id attr) world =
      (.ok (), world.tick.withDbs (world.dbs.setattr id attr world.now)) :=
  rfl

end Node

end OfflineFs
