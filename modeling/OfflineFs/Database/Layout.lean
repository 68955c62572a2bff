import OfflineFs.Database.Allocation
import OfflineFs.Database.Store

/-!
# From ordered stores to byte keys

A store ordered by id and name and a B-tree of byte keys hold the same records in
the same order, and after any history of operations they still do.  So what the cursors
of the code find in the B-tree is what the operations on the store return.
-/

namespace OfflineFs.Database

open Std OfflineFs.Map

variable {IdT : Type} [HostInt IdT] [Ord IdT] [TransOrd IdT] [LawfulEqOrd IdT] [DecidableEq IdT]

/-- The byte key of a key of a store. -/
def encode (key : Key IdT) : Bytes :=
  Register.getkey key.id key.name

/-- The ids are compared as the numbers they are. -/
def NumericOrd (IdT : Type) [HostInt IdT] [Ord IdT] : Prop :=
  ∀ first second : IdT,
    compare first second = compare (HostInt.toNat first) (HostInt.toNat second)

theorem numericOrd_uint64 : NumericOrd UInt64 := by
  intro first second
  change compare first second = compare first.toNat second.toNat
  rcases Nat.lt_trichotomy first.toNat second.toNat with less | same | more
  · rw [Nat.compare_eq_lt.mpr less, Std.compare_eq_lt]
    exact UInt64.lt_iff_toNat_lt.mpr less
  · rw [Nat.compare_eq_eq.mpr same, LawfulEqCmp.compare_eq_iff_eq]
    exact UInt64.toNat_inj.mp same
  · rw [Nat.compare_eq_gt.mpr more, Std.compare_eq_gt]
    exact UInt64.lt_iff_toNat_lt.mpr more

omit [Ord IdT] [TransOrd IdT] [LawfulEqOrd IdT] [DecidableEq IdT] in
theorem encode_injective : Function.Injective (encode : Key IdT → Bytes) := by
  rintro ⟨id, name⟩ ⟨other, otherName⟩ equal
  obtain ⟨rfl, rfl⟩ := Register.getkey_inj.mp equal
  rfl

omit [Ord IdT] [TransOrd IdT] [LawfulEqOrd IdT] [DecidableEq IdT] in
theorem ofRegister_encode {id : IdT} {key : Key IdT} :
    Register.ofRegister id (encode key) = true ↔ key.id = id := by
  rw [Register.ofRegister_iff]
  constructor
  · rintro ⟨name, equal⟩
    exact (Register.getkey_inj.mp equal).1
  · rintro rfl
    exact ⟨key.name, rfl⟩

/-- What follows a common start decides the order. -/
theorem compare_append_left (front rest other : Bytes) :
    compare (front ++ rest) (front ++ other) = compare rest other := by
  induction front with
  | nil => rfl
  | cons byte front ih =>
      have self : compare byte byte = .eq := ReflCmp.compare_self
      change List.compareLex compare (byte :: (front ++ rest)) (byte :: (front ++ other)) = _
      rw [List.compareLex_cons_cons, self, Ordering.eq_then]
      exact ih

omit [TransOrd IdT] [DecidableEq IdT] in
/-- The encoding keeps the order of the keys. -/
theorem compare_encode (numeric : NumericOrd IdT) {first second : Key IdT}
    (before : Key.cmp first second = .lt) : compare (encode first) (encode second) = .lt := by
  rcases Key.cmp_eq_lt_iff.mp before with idLt | ⟨idEq, nameLt⟩
  · rw [numeric, Nat.compare_eq_lt] at idLt
    exact Register.compare_getkey_of_lt idLt _ _
  · rw [encode, encode, idEq, Register.getkey, Register.getkey, compare_append_left]
    exact nameLt

/-- A store and a B-tree with the same records. -/
structure Holds (tree : BTree) (db : Db IdT) : Prop where
  shaped : Shaped IdT tree
  stored : ∀ key : Key IdT, tree[encode key]? = db[key]?

namespace Holds

variable {tree : BTree} {db : Db IdT}

omit [LawfulEqOrd IdT] [DecidableEq IdT] in
theorem empty : Holds (∅ : BTree) (∅ : Db IdT) where
  shaped := .empty
  stored key := by simp

theorem setattrv (holds : Holds tree db) (id : IdT) (name value : Bytes) :
    Holds (Register.setattrv tree id name value) (db.insert ⟨id, name⟩ value) where
  shaped := holds.shaped.setattrv id name value
  stored key := by
    have same : Register.getkey id name = encode key ↔ (⟨id, name⟩ : Key IdT) = key :=
      encode_injective.eq_iff (a := (⟨id, name⟩ : Key IdT))
    rw [Register.setattrv, getElem?_insert_eq_ite, getElem?_insert_eq_ite, holds.stored]
    simp only [same]

/-- Erasing an attribute erases its key. -/
theorem delattr (holds : Holds tree db) {id : IdT} {name : Bytes} {rest : BTree}
    (erased : Register.delattr tree id name = .ok rest) : Holds rest (db.erase ⟨id, name⟩) := by
  have same : ∀ key : Key IdT, Register.getkey id name = encode key ↔
      (⟨id, name⟩ : Key IdT) = key :=
    fun key => encode_injective.eq_iff (a := (⟨id, name⟩ : Key IdT))
  unfold Register.delattr at erased
  split at erased
  · cases erased
    refine ⟨holds.shaped.of_erased ?_, ?_⟩
    · intro key present
      rw [getElem?_erase_eq_ite] at present
      split at present
      · exact absurd rfl present
      · exact present
    · intro key
      rw [getElem?_erase_eq_ite, getElem?_erase_eq_ite, holds.stored]
      simp only [same]
  · cases erased

theorem remove (holds : Holds tree db) (id : IdT) :
    ∃ rest, Register.remove tree id = .ok rest ∧ Holds rest (db.eraseRegister id) := by
  obtain ⟨rest, removed, contents⟩ := Register.remove_eq_ok tree id
  refine ⟨rest, removed, holds.shaped.of_erased ?_, ?_⟩
  · intro key present
    rw [contents] at present
    split at present
    · exact absurd rfl present
    · exact present
  · rintro ⟨other, name⟩
    rw [contents, Db.getElem?_eraseRegister, holds.stored]
    simp only [ofRegister_encode]

omit [DecidableEq IdT] in
/-- The records are listed in the same order. -/
theorem toList_eq (holds : Holds tree db) (numeric : NumericOrd IdT) :
    tree.toList = db.toList.map fun entry => (encode entry.1, entry.2) := by
  have treeOrdered := ExtTreeMap.ordered_keys_toList (t := tree)
  have dbOrdered : (db.toList.map fun entry => (encode entry.1, entry.2)).Pairwise
      fun first second => compare first.1 second.1 = .lt := by
    rw [List.pairwise_map]
    exact ExtTreeMap.ordered_keys_toList.imp fun before => compare_encode numeric before
  refine List.Perm.eq_of_pairwise ?_ treeOrdered dbOrdered ?_
  · intro first second _ _ before after
    rw [OrientedCmp.gt_of_lt before] at after
    cases after
  · rw [List.perm_ext_iff_of_nodup]
    · rintro ⟨key, value⟩
      rw [ExtTreeMap.mem_toList_iff_getElem?_eq_some, List.mem_map]
      constructor
      · intro present
        obtain ⟨id, name, rfl⟩ := holds.shaped.exists_getkey (by rw [present]; exact nofun)
        refine ⟨(⟨id, name⟩, value), ?_, rfl⟩
        rw [ExtTreeMap.mem_toList_iff_getElem?_eq_some, ← holds.stored]
        exact present
      · rintro ⟨⟨stored, value⟩, member, equal⟩
        cases equal
        rw [holds.stored]
        exact ExtTreeMap.mem_toList_iff_getElem?_eq_some.mp member
    · refine treeOrdered.imp ?_
      rintro first _ before rfl
      have self : compare first.1 first.1 = .eq := ReflCmp.compare_self
      rw [self] at before
      cases before
    · refine dbOrdered.imp ?_
      rintro first _ before rfl
      have self : compare first.1 first.1 = .eq := ReflCmp.compare_self
      rw [self] at before
      cases before

/-- The scan of a register returns the names that the store lists. -/
theorem getattrs_eq (holds : Holds tree db) (numeric : NumericOrd IdT) (id : IdT) :
    Register.getattrs tree id = db.attrs id := by
  have test : ∀ key : Key IdT, Register.ofRegister id (encode key) = decide (key.id = id) := by
    intro key
    rw [Bool.eq_iff_iff, ofRegister_encode, decide_eq_true_eq]
  rw [Register.getattrs_eq, Register.block, ExtTreeMap.toList_filter, holds.toList_eq numeric,
    Db.attrs, ← ExtTreeMap.map_fst_toList_eq_keys]
  induction db.toList with
  | nil => rfl
  | cons entry rest ih =>
      rcases entry with ⟨⟨other, name⟩, value⟩
      have named : Register.nameOf IdT (encode ⟨other, name⟩) =
          if name = [] then none else some name :=
        Register.nameOf_getkey other name
      by_cases same : other = id
      · subst same
        by_cases empty : name = []
        · subst empty
          rw [if_pos rfl] at named
          simpa [test, named] using ih
        · rw [if_neg empty] at named
          simpa [test, named, empty] using ih
      · simpa [test, same] using ih

theorem countattrs_eq (holds : Holds tree db) (numeric : NumericOrd IdT) (id : IdT) :
    Register.countattrs tree id = (db.attrs id).length := by
  rw [Register.countattrs_eq, holds.getattrs_eq numeric]

/-- The scan of all the keys returns the ids that the store lists. -/
theorem getregisters_eq (holds : Holds tree db) (numeric : NumericOrd IdT) :
    getregisters IdT tree = Db.scanIds (HostInt.allOnes IdT) db.keys := by
  rw [Database.getregisters_eq holds.shaped, holds.toList_eq numeric, List.map_map,
    ← ExtTreeMap.map_fst_toList_eq_keys]
  generalize HostInt.allOnes IdT = lastid
  induction db.toList generalizing lastid with
  | nil => rfl
  | cons entry rest ih =>
      have idEq : Register.idOf IdT (encode entry.1) = entry.1.id := Register.idOf_getkey _ _
      simp only [List.map_cons, Function.comp_apply, changes, Db.scanIds, idEq, ih]
      by_cases same : entry.1.id = lastid
      · rw [if_neg (not_not_intro same), if_pos same]
      · rw [if_pos same, if_neg same]

end Holds

/-- The id that the code hands out is the one that the store does. -/
theorem Holds.createregister_eq {tree : BTree} {db : Db UInt64} (holds : Holds tree db) :
    (createregister UInt64 tree).1 = db.nextId := by
  have lastEq : Cursor.last tree =
      (db.toList.map fun entry => (encode entry.1, entry.2)).getLast? := by
    rw [Cursor.last, holds.toList_eq numericOrd_uint64]
  have lastKeyEq : lastKey? db = (db.toList.map Prod.fst).getLast? := by
    rw [ExtTreeMap.map_fst_toList_eq_keys]
    rfl
  rw [createregister, Db.nextId, lastEq, lastKeyEq, List.getLast?_map, List.getLast?_map]
  cases db.toList.getLast? with
  | none => rfl
  | some entry =>
      have idEq : beNat ((encode entry.1).take (HostInt.size UInt64)) = entry.1.id.toNat := by
        rw [encode, Register.getkey, List.take_left' (length_hostToDb entry.1.id), hostToDb,
          beNat_beBytes, Nat.mod_eq_of_lt (HostInt.toNat_lt entry.1.id)]
        rfl
      simp only [Option.map_some, idEq]
      apply UInt64.toNat_inj.mp
      rw [UInt64.toNat_add]
      exact HostInt.toNat_ofNat (T := UInt64) _ (Nat.mod_lt _ (by decide))

/-! ## Histories -/

/-- What an operation makes of a store that hands out this id. -/
def RegisterOp.onStore (issued : IdT) (db : Db IdT) : RegisterOp IdT → Db IdT
  | .createregister => db.insert ⟨issued, []⟩ []
  | .setattrv id name value => db.insert ⟨id, name⟩ value
  | @setattr _ _ _ id name value => db.insert ⟨id, name⟩ (hostToDb value)
  | .delattr id name => db.erase ⟨id, name⟩
  | .remove id => db.eraseRegister id

/-- An operation on the B-tree is the operation on the store. -/
theorem Holds.apply {tree : BTree} {db : Db IdT} (holds : Holds tree db) (op : RegisterOp IdT) :
    Holds (op.apply tree) (op.onStore (createregister IdT tree).1 db) := by
  cases op with
  | createregister => exact holds.setattrv _ [] []
  | setattrv id name value => exact holds.setattrv id name value
  | setattr id name value => exact holds.setattrv id name (hostToDb value)
  | delattr id name =>
      change Holds ((Register.delattr tree id name).toOption.getD tree) (db.erase ⟨id, name⟩)
      cases erased : Register.delattr tree id name with
      | ok rest => exact holds.delattr erased
      | error e =>
          -- The attribute is not there, and the store has nothing to erase either.
          have absent : db[(⟨id, name⟩ : Key IdT)]? = none := by
            rw [← holds.stored]
            unfold Register.delattr at erased
            split at erased
            · cases erased
            · assumption
          rw [erase_eq_self absent]
          exact holds
  | remove id =>
      obtain ⟨rest, removed, left⟩ := holds.remove id
      change Holds ((Register.remove tree id).toOption.getD tree) (db.eraseRegister id)
      rw [removed]
      exact left

/-- The store after a sequence of operations, the latest first, on an empty one. -/
def stored : List (RegisterOp UInt64) → Db UInt64
  | [] => ∅
  | op :: earlier => op.onStore (stored earlier).nextId (stored earlier)

/-- After any history the B-tree and the store hold the same records. -/
theorem holds_contents (ops : List (RegisterOp UInt64)) : Holds (contents ops) (stored ops) := by
  induction ops with
  | nil => exact .empty
  | cons op earlier ih =>
      have applied := ih.apply op
      rw [ih.createregister_eq] at applied
      exact applied

/-- After any history the store answers as the cursors do: it lists the same attributes
and ids in the same order, and hands out the same next id. -/
theorem contents_read (ops : List (RegisterOp UInt64)) :
    (∀ id, Register.getattrs (contents ops) id = (stored ops).attrs id ∧
      Register.countattrs (contents ops) id = ((stored ops).attrs id).length) ∧
      getregisters UInt64 (contents ops) =
        Db.scanIds (HostInt.allOnes UInt64) (stored ops).keys ∧
      (createregister UInt64 (contents ops)).1 = (stored ops).nextId := by
  have holds := holds_contents ops
  refine ⟨fun id => ⟨?_, ?_⟩, ?_, ?_⟩
  · exact holds.getattrs_eq numericOrd_uint64 id
  · exact holds.countattrs_eq numericOrd_uint64 id
  · exact holds.getregisters_eq numericOrd_uint64
  · exact holds.createregister_eq

end OfflineFs.Database
