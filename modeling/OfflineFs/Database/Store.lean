import OfflineFs.Map.Ordered
import OfflineFs.Types

/-!
# Registers in an ordered store

A database maps a register id and an attribute name to a value, ordered by id and
then by name.  This is what the layout of Berkeley DB keys amounts to; the file
`OfflineFs.Database.Layout` proves it for the byte keys the code really writes.

Ids are the numbers that `db_to_host` gives for the stored ids.
-/

namespace OfflineFs

open Std OfflineFs.Map

/-- The key of one attribute of one register. -/
structure Key (IdT : Type) where
  id : IdT
  name : Bytes
  deriving DecidableEq, Repr

namespace Key

variable {IdT : Type} [Ord IdT]

/-- Keys are ordered by register, and by name within a register. -/
def cmp : Key IdT → Key IdT → Ordering :=
  compareLex (compareOn Key.id) (compareOn Key.name)

instance [TransOrd IdT] : TransCmp (cmp : Key IdT → Key IdT → Ordering) :=
  inferInstanceAs (TransCmp (compareLex _ _))

instance [LawfulEqOrd IdT] : LawfulEqCmp (cmp : Key IdT → Key IdT → Ordering) where
  compare_self := by
    intro key
    simp [cmp, compareLex, compareOn, ReflCmp.compare_self]
  eq_of_compare := by
    rintro ⟨firstId, firstName⟩ ⟨secondId, secondName⟩ equal
    simp only [cmp, compareLex, compareOn, Ordering.then_eq_eq,
      LawfulEqCmp.compare_eq_iff_eq] at equal
    rw [equal.1, equal.2]

theorem cmp_eq_lt_iff [LawfulEqOrd IdT] {first second : Key IdT} :
    cmp first second = .lt ↔ compare first.id second.id = .lt ∨
      first.id = second.id ∧ compare first.name second.name = .lt := by
  simp only [cmp, compareLex, compareOn, Ordering.then_eq_lt, LawfulEqCmp.compare_eq_iff_eq]

end Key

/-- The contents of a `Database<IdT>`. -/
abbrev Db (IdT : Type) [Ord IdT] := ExtTreeMap (Key IdT) Bytes Key.cmp

namespace Db

variable {IdT : Type} [Ord IdT] [TransOrd IdT] [LawfulEqOrd IdT] [DecidableEq IdT]

/-- The attribute names of a register, without the empty name that reserves its id. -/
def attrs (db : Db IdT) (id : IdT) : List Bytes :=
  (db.keys.filter fun key => key.id = id ∧ key.name ≠ []).map Key.name

/-- The ids met in a scan of the keys, each reported when it differs from the
one before it. -/
def scanIds : IdT → List (Key IdT) → List IdT
  | _, [] => []
  | lastid, key :: rest =>
      if key.id = lastid then scanIds lastid rest else key.id :: scanIds key.id rest

/-- All the keys of a register, erased. -/
def eraseRegister (db : Db IdT) (id : IdT) : Db IdT :=
  db.filter fun key _ => key.id ≠ id

theorem mem_attrs_iff {db : Db IdT} {id : IdT} {name : Bytes} :
    name ∈ db.attrs id ↔ name ≠ [] ∧ db[(⟨id, name⟩ : Key IdT)]? ≠ none := by
  simp only [attrs, List.mem_map, List.mem_filter, ExtTreeMap.mem_keys, decide_eq_true_eq,
    Option.ne_none_iff_isSome, ← ExtTreeMap.contains_eq_isSome_getElem?,
    ExtTreeMap.contains_iff_mem]
  constructor
  · rintro ⟨⟨keyId, keyName⟩, ⟨member, rfl, nonempty⟩, rfl⟩
    exact ⟨nonempty, member⟩
  · rintro ⟨nonempty, member⟩
    exact ⟨⟨id, name⟩, ⟨member, rfl, nonempty⟩, rfl⟩

/-- No attribute is listed twice. -/
theorem nodup_attrs (db : Db IdT) (id : IdT) : (db.attrs id).Nodup := by
  have distinct := ExtTreeMap.ordered_keys (t := db)
  rw [attrs, List.Nodup, List.pairwise_map, List.pairwise_filter]
  refine distinct.imp ?_
  intro first second before firstOf secondOf sameName
  simp only [decide_eq_true_eq] at firstOf secondOf
  have same : first = second := by
    rcases first with ⟨firstId, firstName⟩
    rcases second with ⟨secondId, secondName⟩
    simp only at firstOf secondOf sameName
    rw [firstOf.1, secondOf.1, sameName]
  have self : Key.cmp second second = .eq := ReflCmp.compare_self
  rw [same, self] at before
  contradiction

theorem getElem?_eraseRegister (db : Db IdT) (id : IdT) (key : Key IdT) :
    (db.eraseRegister id)[key]? = if key.id = id then none else db[key]? := by
  rw [eraseRegister, ExtTreeMap.getElem?_filter']
  by_cases same : key.id = id
  · simp [same]
  · cases db[key]? <;> simp [same]

/-- Erasing the listed names and then the empty name erases the register. -/
theorem erase_attrs (db : Db IdT) (id : IdT) :
    (((db.attrs id).foldl (fun rest name => rest.erase ⟨id, name⟩) db).erase ⟨id, []⟩) =
      db.eraseRegister id := by
  have folded : ∀ (names : List Bytes) (start : Db IdT) (key : Key IdT),
      (names.foldl (fun rest name => rest.erase ⟨id, name⟩) start)[key]? =
        if key.id = id ∧ key.name ∈ names then none else start[key]? := by
    intro names
    induction names with
    | nil => simp
    | cons name names ih =>
        rintro start ⟨keyId, keyName⟩
        rw [List.foldl_cons, ih, getElem?_erase_eq_ite]
        by_cases sameId : keyId = id
        · by_cases sameName : keyName = name
          · simp [sameId, sameName]
          · simp [sameId, sameName, Ne.symm sameName]
        · simp [sameId, Ne.symm sameId]
  apply ExtTreeMap.ext_getElem?
  rintro ⟨keyId, keyName⟩
  rw [getElem?_erase_eq_ite, folded, getElem?_eraseRegister]
  by_cases sameId : keyId = id
  · subst keyId
    by_cases empty : keyName = []
    · simp [empty]
    · by_cases present : db[(⟨id, keyName⟩ : Key IdT)]? = none
      · simp [present]
      · simp [mem_attrs_iff, empty, present]
  · simp [sameId, Ne.symm sameId]

end Db

/-! ## Allocation -/

namespace Db

/-- The id that `createregister` hands out: one more than the last. -/
def nextId (db : Db UInt64) : UInt64 :=
  match lastKey? db with
  | none => 0
  | some key => key.id + 1

/-- The last id has a successor, so the allocator does not wrap around. -/
def IdsLeft (db : Db UInt64) : Prop :=
  ∀ key : Key UInt64, db[key]? ≠ none → key.id ≠ UInt64.ofNat (2 ^ 64 - 1)

theorem idsLeft_of_keys {db : Db UInt64}
    (small : ∀ key ∈ db.keys, key.id ≠ UInt64.ofNat (2 ^ 64 - 1)) : db.IdsLeft := by
  intro key present
  apply small
  rw [Std.ExtTreeMap.mem_keys, Std.ExtTreeMap.mem_iff_isSome_getElem?]
  exact Option.isSome_iff_ne_none.mpr present

/-- While ids are left, a new id exceeds every id in use. -/
theorem lt_nextId {db : Db UInt64} (idsLeft : db.IdsLeft) {key : Key UInt64}
    (present : db[key]? ≠ none) : key.id < db.nextId := by
  obtain ⟨value, found⟩ := Option.ne_none_iff_exists'.mp present
  unfold nextId
  cases isLast : lastKey? db with
  | none =>
      rw [lastKey?_eq_none_iff] at isLast
      simp [isLast] at found
  | some last =>
      obtain ⟨lastValue, lastFound⟩ := mem_of_lastKey?_eq_some isLast
      have lastFits := idsLeft last (by simp [lastFound])
      have keyLe : key.id ≤ last.id := by
        rcases le_lastKey? isLast found with same | before
        · rw [same]
          exact UInt64.le_refl _
        · rcases Key.cmp_eq_lt_iff.mp before with idLt | ⟨idEq, _⟩
          · rw [Std.compare_eq_lt] at idLt
            exact UInt64.le_of_lt idLt
          · rw [idEq]
            exact UInt64.le_refl _
      simp only
      rw [UInt64.le_iff_toNat_le] at keyLe
      rw [UInt64.lt_iff_toNat_lt, UInt64.toNat_add]
      have lastNe : last.id.toNat ≠ 2 ^ 64 - 1 := by
        intro full
        apply lastFits
        rw [← full]
        exact (UInt64.ofNat_toNat).symm
      have lastLt := last.id.toNat_lt
      have one : (1 : UInt64).toNat = 1 := rfl
      omega

/-- A new id owns no key. -/
theorem getElem?_nextId {db : Db UInt64} (idsLeft : db.IdsLeft) (name : Bytes) :
    db[(⟨db.nextId, name⟩ : Key UInt64)]? = none := by
  by_contra present
  exact UInt64.lt_irrefl _ (lt_nextId idsLeft present)

end Db

/-! ## The three databases -/

/-- The databases whose ids are 64-bit. -/
inductive Table
  | nodes
  | directories
  deriving DecidableEq, Repr

/-- The contents of an `FsDb`. -/
structure Dbs where
  nodes : Db UInt64
  directories : Db UInt64
  media : Db UInt32

namespace Dbs

/-- A table's contents. -/
def table (dbs : Dbs) : Table → Db UInt64
  | .nodes => dbs.nodes
  | .directories => dbs.directories

/-- Change a table's contents. -/
def update (dbs : Dbs) (change : Db UInt64 → Db UInt64) : Table → Dbs
  | .nodes => { dbs with nodes := change dbs.nodes }
  | .directories => { dbs with directories := change dbs.directories }

/-- The stored value of an attribute. -/
def get (dbs : Dbs) (table : Table) (id : UInt64) (name : Bytes) : Option Bytes :=
  (dbs.table table)[(⟨id, name⟩ : Key UInt64)]?

/-- Store an attribute. -/
def put (dbs : Dbs) (table : Table) (id : UInt64) (name value : Bytes) : Dbs :=
  dbs.update (·.insert ⟨id, name⟩ value) table

/-- Erase an attribute. -/
def del (dbs : Dbs) (table : Table) (id : UInt64) (name : Bytes) : Dbs :=
  dbs.update (·.erase ⟨id, name⟩) table

/-- Erase a register. -/
def wipe (dbs : Dbs) (table : Table) (id : UInt64) : Dbs :=
  dbs.update (·.eraseRegister id) table

@[simp]
theorem media_put (dbs : Dbs) (table : Table) (id : UInt64) (name value : Bytes) :
    (dbs.put table id name value).media = dbs.media := by
  cases table <;> rfl

@[simp]
theorem media_del (dbs : Dbs) (table : Table) (id : UInt64) (name : Bytes) :
    (dbs.del table id name).media = dbs.media := by
  cases table <;> rfl

@[simp]
theorem media_wipe (dbs : Dbs) (table : Table) (id : UInt64) :
    (dbs.wipe table id).media = dbs.media := by
  cases table <;> rfl

theorem get_put (dbs : Dbs) (table other : Table) (id otherId : UInt64)
    (name otherName value : Bytes) :
    (dbs.put table id name value).get other otherId otherName =
      if table = other ∧ id = otherId ∧ name = otherName then some value
      else dbs.get other otherId otherName := by
  cases table <;> cases other <;>
    simp [put, update, get, Dbs.table, getElem?_insert_eq_ite]

theorem get_del (dbs : Dbs) (table other : Table) (id otherId : UInt64)
    (name otherName : Bytes) :
    (dbs.del table id name).get other otherId otherName =
      if table = other ∧ id = otherId ∧ name = otherName then none
      else dbs.get other otherId otherName := by
  cases table <;> cases other <;>
    simp [del, update, get, Dbs.table, getElem?_erase_eq_ite]

theorem get_wipe (dbs : Dbs) (table other : Table) (id otherId : UInt64) (otherName : Bytes) :
    (dbs.wipe table id).get other otherId otherName =
      if table = other ∧ id = otherId then none else dbs.get other otherId otherName := by
  cases table <;> cases other <;>
    simp [wipe, update, get, Dbs.table, Db.getElem?_eraseRegister, eq_comm]

/-- Databases with the same attributes in every table are the same. -/
theorem ext_get {first second : Dbs} (media : first.media = second.media)
    (agree : ∀ table id name, first.get table id name = second.get table id name) :
    first = second := by
  rcases first with ⟨firstNodes, firstDirectories, firstMedia⟩
  rcases second with ⟨secondNodes, secondDirectories, secondMedia⟩
  have nodesEq : firstNodes = secondNodes := by
    apply ExtTreeMap.ext_getElem?
    rintro ⟨id, name⟩
    exact agree .nodes id name
  have directoriesEq : firstDirectories = secondDirectories := by
    apply ExtTreeMap.ext_getElem?
    rintro ⟨id, name⟩
    exact agree .directories id name
  simp only at media
  rw [nodesEq, directoriesEq, media]

end Dbs

end OfflineFs
