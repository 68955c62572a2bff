import OfflineFs.Database.Bytes

/-!
# What a run of register operations leaves

A history of operations determines what was last stored under each id and name.
The flat key space of the B-tree holds exactly that, and every enumeration by
cursor agrees with it.
-/

namespace OfflineFs.Database

open Std OfflineFs.Map

variable {IdT : Type} [HostInt IdT]

namespace Register

theorem getElem?_setattrv (db : BTree) (id other : IdT) (name otherName value : Bytes) :
    (setattrv db id name value)[getkey other otherName]? =
      if getkey id name = getkey other otherName then some value
      else db[getkey other otherName]? :=
  getElem?_insert_eq_ite _

/-- Erasing names that are all present never throws. -/
theorem delattrs_eq_ok {db : BTree} {id : IdT} {names : List Bytes} (distinct : names.Nodup)
    (present : ∀ name ∈ names, db[getkey id name]? ≠ none) :
    ∃ rest, delattrs db id names = .ok rest ∧
      ∀ key, rest[key]? = if ∃ name ∈ names, key = getkey id name then none else db[key]? := by
  induction names generalizing db with
  | nil => exact ⟨db, rfl, by simp⟩
  | cons name names ih =>
      rw [List.nodup_cons] at distinct
      obtain ⟨value, found⟩ := Option.ne_none_iff_exists'.mp (present name (by simp))
      have erased : delattr db id name = .ok (db.erase (getkey id name)) := by
        rw [delattr, found]
      have stillPresent : ∀ other ∈ names,
          (db.erase (getkey id name))[getkey id other]? ≠ none := by
        intro other member
        rw [getElem?_erase_eq_ite, if_neg]
        · exact present other (List.mem_cons_of_mem _ member)
        · intro same
          rw [(getkey_inj.mp same).2] at distinct
          exact distinct.1 member
      obtain ⟨rest, deleted, contents⟩ := ih distinct.2 stillPresent
      refine ⟨rest, by rw [delattrs, erased]; exact deleted, ?_⟩
      intro key
      rw [contents, getElem?_erase_eq_ite]
      by_cases first : getkey id name = key
      · simp [first.symm]
      · simp [first, Ne.symm first]

/-- `remove` never throws, and erases exactly the keys of the register. -/
theorem remove_eq_ok (db : BTree) (id : IdT) :
    ∃ rest, remove db id = .ok rest ∧
      ∀ key, rest[key]? = if ofRegister id key = true then none else db[key]? := by
  obtain ⟨named, deleted, contents⟩ := delattrs_eq_ok (nodup_getattrs db id)
    fun name member => (mem_getattrs_iff.mp member).2
  have erased : ∀ key, (named.erase (getkey id []))[key]? =
      if ofRegister id key = true then none else db[key]? := by
    intro key
    rw [getElem?_erase_eq_ite, contents]
    by_cases ofIt : ofRegister id key = true
    · obtain ⟨name, rfl⟩ := ofRegister_iff.mp ofIt
      rw [if_pos ofIt]
      by_cases absent : db[getkey id name]? = none
      · simp [absent]
      · by_cases empty : name = []
        · simp [empty]
        · have listed := mem_getattrs_iff.mpr ⟨empty, absent⟩
          rw [if_pos (⟨name, listed, rfl⟩ : ∃ other ∈ getattrs db id,
            getkey id name = getkey id other), ite_self]
    · have notNamed : ¬ ∃ name ∈ getattrs db id, key = getkey id name := by
        rintro ⟨name, _, rfl⟩
        exact ofIt (ofRegister_iff.mpr ⟨name, rfl⟩)
      have notDummy : getkey id [] ≠ key := by
        rintro rfl
        exact ofIt (ofRegister_iff.mpr ⟨[], rfl⟩)
      rw [if_neg ofIt, if_neg notDummy, if_neg notNamed]
  cases dummy : named[getkey id []]? with
  | none =>
      refine ⟨named, ?_, ?_⟩
      · simp only [remove, deleted, delattr, bind, Except.bind, dummy]
      · rw [← erase_eq_self dummy]
        exact erased
  | some value =>
      refine ⟨named.erase (getkey id []), ?_, erased⟩
      simp only [remove, deleted, delattr, bind, Except.bind, dummy]

end Register

/-! ## Histories -/

/-- The operations on a database. -/
inductive RegisterOp (IdT : Type) : Type 1
  | createregister
  | setattrv (id : IdT) (name value : Bytes)
  | setattr {T : Type} [HostInt T] (id : IdT) (name : Bytes) (value : T)
  | delattr (id : IdT) (name : Bytes)
  | remove (id : IdT)

namespace RegisterOp

/-- The contents after an operation; one that throws changes nothing. -/
def apply (db : BTree) : RegisterOp IdT → BTree
  | .createregister => (Database.createregister IdT db).2
  | .setattrv id name value => Register.setattrv db id name value
  | @setattr _ _ _ id name value => Register.setattr db id name value
  | .delattr id name => (Register.delattr db id name).toOption.getD db
  | .remove id => (Register.remove db id).toOption.getD db

/-- The id an operation is about: for `createregister`, the one it issues. -/
def target (db : BTree) : RegisterOp IdT → IdT
  | .createregister => (Database.createregister IdT db).1
  | .setattrv id _ _ | @setattr _ _ _ id _ _ | .delattr id _ | .remove id => id

/-- The value an operation leaves under a name of its target, given what was
there. -/
def leaves (name : Bytes) (before : Option Bytes) : RegisterOp IdT → Option Bytes
  | .createregister => if name = [] then some [] else before
  | .setattrv _ written value => if name = written then some value else before
  | @setattr _ _ _ _ written value => if name = written then some (hostToDb value) else before
  | .delattr _ erased => if name = erased then none else before
  | .remove _ => none

end RegisterOp

/-- The contents after a sequence of operations, the latest first, on an empty
database. -/
def contents : List (RegisterOp IdT) → BTree
  | [] => ∅
  | op :: earlier => op.apply (contents earlier)

/-- The value last stored under an id and a name, if it was not erased since. -/
def lastStored [DecidableEq IdT] : List (RegisterOp IdT) → IdT → Bytes → Option Bytes
  | [], _, _ => none
  | op :: earlier, id, name =>
      if op.target (contents earlier) = id then op.leaves name (lastStored earlier id name)
      else lastStored earlier id name

omit [HostInt IdT] in
private theorem stored_eq_leaves [DecidableEq IdT] {first second : IdT}
    {name written value : Bytes} {before : Option Bytes} :
    (if first = second ∧ written = name then some value else before) =
      if first = second then if name = written then some value else before else before := by
  by_cases sameId : first = second
  · simp [sameId, eq_comm]
  · simp [sameId]

/-- One operation changes its own register as it says, and no other. -/
theorem getElem?_apply [DecidableEq IdT] (op : RegisterOp IdT) (db : BTree) (id : IdT)
    (name : Bytes) :
    (op.apply db)[Register.getkey id name]? =
      if op.target db = id then op.leaves name db[Register.getkey id name]?
      else db[Register.getkey id name]? := by
  cases op with
  | createregister =>
      change (Register.setattrv db _ [] [])[Register.getkey id name]? = _
      rw [Register.getElem?_setattrv]
      simp only [Register.getkey_inj]
      exact stored_eq_leaves
  | setattrv written stored value =>
      change (Register.setattrv db written stored value)[Register.getkey id name]? = _
      rw [Register.getElem?_setattrv]
      simp only [Register.getkey_inj]
      exact stored_eq_leaves
  | setattr written stored value =>
      change (Register.setattrv db written stored (hostToDb value))[Register.getkey id name]? = _
      rw [Register.getElem?_setattrv]
      simp only [Register.getkey_inj]
      exact stored_eq_leaves
  | delattr erased gone =>
      change ((Register.delattr db erased gone).toOption.getD db)[Register.getkey id name]? =
        if erased = id then if name = gone then none else _ else _
      rw [Register.delattr]
      cases present : db[Register.getkey erased gone]? with
      | none =>
          simp only [Except.toOption, Option.getD_none]
          by_cases sameId : erased = id
          · by_cases sameName : name = gone
            · subst sameId sameName
              simp [present]
            · simp [sameId, sameName]
          · simp [sameId]
      | some value =>
          simp only [Except.toOption, Option.getD_some, getElem?_erase_eq_ite, Register.getkey_inj]
          by_cases sameId : erased = id
          · simp [sameId, eq_comm]
          · simp [sameId]
  | remove removed =>
      obtain ⟨rest, equal, contents⟩ := Register.remove_eq_ok db removed
      change ((Register.remove db removed).toOption.getD db)[Register.getkey id name]? =
        if removed = id then none else _
      rw [equal]
      simp only [Except.toOption, Option.getD_some, contents]
      by_cases sameId : removed = id
      · rw [if_pos sameId, if_pos (Register.ofRegister_iff.mpr ⟨name, by rw [sameId]⟩)]
      · rw [if_neg sameId, if_neg]
        intro ofIt
        obtain ⟨other, equal⟩ := Register.ofRegister_iff.mp ofIt
        exact sameId (Register.getkey_inj.mp equal).1.symm

/-- The flat key space holds what was last stored. -/
theorem getElem?_contents [DecidableEq IdT] (ops : List (RegisterOp IdT)) (id : IdT)
    (name : Bytes) :
    (contents ops)[Register.getkey id name]? = lastStored ops id name := by
  induction ops with
  | nil => simp [contents, lastStored]
  | cons op earlier ih => rw [contents, getElem?_apply, ih, lastStored]

/-! ## What is observed of a register -/

/-- Everything the reading operations return for an id. -/
structure Observes (db : BTree) (id : IdT) (stored : Bytes → Option Bytes) : Prop where
  getattrv : ∀ name, Register.getattrv db id name =
    match stored name with
    | some value => .ok value
    | none => .error .attrNotFound
  getattr : ∀ (T : Type) [HostInt T] (name : Bytes) (value : T),
    stored name = some (hostToDb value) → Register.getattr T db id name = .ok value
  nodup : (Register.getattrs db id).Nodup
  mem_getattrs : ∀ name, name ∈ Register.getattrs db id ↔ name ≠ [] ∧ stored name ≠ none
  countattrs : Register.countattrs db id = (Register.getattrs db id).length

/-- The reading operations return what the keys of the register say. -/
theorem observes (db : BTree) (id : IdT) :
    Observes db id fun name => db[Register.getkey id name]? where
  getattrv _ := rfl
  getattr T _ name value stored := by
    simp only [Register.getattr, Register.getattrv, stored, bind, Except.bind, dbToHost_hostToDb]
  nodup := Register.nodup_getattrs db id
  mem_getattrs _ := Register.mem_getattrs_iff
  countattrs := Register.countattrs_eq db id

/-- Databases with the same keys of a register enumerate it alike. -/
theorem getattrs_congr {first second : BTree} {id : IdT}
    (agree : ∀ name, first[Register.getkey id name]? = second[Register.getkey id name]?) :
    Register.getattrs first id = Register.getattrs second id := by
  have blockEq : Register.block first id = Register.block second id := by
    apply ExtTreeMap.ext_getElem?
    intro key
    rw [Register.block, Register.block, ExtTreeMap.getElem?_filter', ExtTreeMap.getElem?_filter']
    by_cases ofIt : Register.ofRegister id key = true
    · obtain ⟨name, rfl⟩ := Register.ofRegister_iff.mp ofIt
      rw [agree]
    · simp [ofIt, Option.filter_eq_none_iff.mpr]
  rw [Register.getattrs_eq, Register.getattrs_eq, blockEq]

/-- What an operation on one id does not change for another. -/
structure SameReads (first second : BTree) (id : IdT) : Prop where
  getattrv : ∀ name, Register.getattrv first id name = Register.getattrv second id name
  getattr : ∀ (T : Type) [HostInt T] (name : Bytes),
    Register.getattr T first id name = Register.getattr T second id name
  getattrs : Register.getattrs first id = Register.getattrs second id
  countattrs : Register.countattrs first id = Register.countattrs second id

/-- An operation on one register leaves what the others read. -/
theorem sameReads_apply [DecidableEq IdT] {op : RegisterOp IdT} {db : BTree} {id : IdT}
    (elsewhere : op.target db ≠ id) : SameReads (op.apply db) db id := by
  have agree : ∀ name, (op.apply db)[Register.getkey id name]? =
      db[Register.getkey id name]? := by
    intro name
    rw [getElem?_apply, if_neg elsewhere]
  have getattrvEq : ∀ name,
      Register.getattrv (op.apply db) id name = Register.getattrv db id name := by
    intro name
    rw [Register.getattrv, Register.getattrv, agree]
  have getattrsEq := getattrs_congr agree
  exact {
    getattrv := getattrvEq
    getattr := fun T _ name => by rw [Register.getattr, Register.getattr, getattrvEq]
    getattrs := getattrsEq
    countattrs := by rw [Register.countattrs_eq, Register.countattrs_eq, getattrsEq] }

/-- The register store implements a map from ids and names to values: after any
history the reading operations return what was last stored, `remove` leaves no
key of its id, and an operation on one id is invisible through every other. -/
theorem registers_store_attributes [DecidableEq IdT] (ops : List (RegisterOp IdT)) :
    (∀ id : IdT, Observes (contents ops) id (lastStored ops id)) ∧
    (∀ id : IdT, ∃ rest, Register.remove (contents ops) id = .ok rest ∧
      ∀ key, rest[key]? ≠ none → Register.ofRegister id key = false) ∧
    ∀ (op : RegisterOp IdT) (id : IdT), op.target (contents ops) ≠ id →
      SameReads (op.apply (contents ops)) (contents ops) id := by
  refine ⟨?_, ?_, ?_⟩
  · intro id
    have observed := observes (contents ops) id
    simpa only [getElem?_contents] using observed
  · intro id
    obtain ⟨rest, removed, left⟩ := Register.remove_eq_ok (contents ops) id
    refine ⟨rest, removed, ?_⟩
    intro key present
    rw [left] at present
    by_contra ofIt
    simp [ofIt] at present
  · intro op id elsewhere
    exact sameReads_apply elsewhere

end OfflineFs.Database
