import OfflineFs.Database.History
import OfflineFs.Transition.Run

/-!
# Identifiers

The ids are stored in big-endian order at a fixed width, so the byte order of the
keys is the numeric order of their ids.  The last key is then one of the greatest
id, and a scan from the first key meets the ids in increasing order.
-/

namespace OfflineFs

variable {T : Type} [HostInt T]

/-- The value whose encoding is all ones. -/
def HostInt.allOnes (T : Type) [HostInt T] : T :=
  HostInt.ofNat (256 ^ HostInt.size T - 1)

theorem HostInt.toNat_allOnes : HostInt.toNat (HostInt.allOnes T) = 256 ^ HostInt.size T - 1 :=
  HostInt.toNat_ofNat _ (Nat.sub_lt (Nat.pos_of_ne_zero (by simp)) Nat.one_pos)

theorem HostInt.toNat_injective : Function.Injective (HostInt.toNat (T := T)) := by
  intro first second equal
  rw [← HostInt.ofNat_toNat first, ← HostInt.ofNat_toNat second, equal]

/-! ## Byte order and numeric order -/

theorem beNat_cons (byte : UInt8) (bytes : Bytes) :
    beNat (byte :: bytes) = byte.toNat * 256 ^ bytes.length + beNat bytes := by
  induction bytes using List.reverseRecOn with
  | nil => simp [beNat]
  | append_singleton bytes last ih =>
      rw [← List.cons_append, beNat_concat, ih, beNat_concat, List.length_append,
        List.length_singleton, pow_succ]
      ring

/-- Between byte strings of one length the numbers decide the order, whatever
follows them. -/
theorem compare_append_of_beNat_lt {first second : Bytes}
    (sameLength : first.length = second.length)
    (below : beNat first < beNat second) (rest other : Bytes) :
    compare (first ++ rest) (second ++ other) = .lt := by
  induction first generalizing second with
  | nil =>
      cases second with
      | nil => exact absurd below (Nat.lt_irrefl _)
      | cons byte second => simp at sameLength
  | cons byte first ih =>
      cases second with
      | nil => simp at sameLength
      | cons otherByte second =>
          have lengths : first.length = second.length := by simpa using sameLength
          rw [beNat_cons, beNat_cons, lengths] at below
          have firstLt := beNat_lt first
          have secondLt := beNat_lt second
          rw [lengths] at firstLt
          change List.compareLex compare (byte :: (first ++ rest))
            (otherByte :: (second ++ other)) = .lt
          rw [List.compareLex_cons_cons]
          rcases Nat.lt_trichotomy byte.toNat otherByte.toNat with less | same | more
          · have order : compare byte otherByte = .lt :=
              Std.compare_eq_lt.mpr (UInt8.lt_iff_toNat_lt.mpr less)
            rw [order, Ordering.then_eq_lt]
            exact .inl rfl
          · have order : compare byte otherByte = .eq :=
              Std.LawfulEqCmp.compare_eq_iff_eq.mpr (UInt8.toNat_inj.mp same)
            rw [order, Ordering.eq_then]
            rw [same] at below
            exact ih lengths (by omega)
          · have step : otherByte.toNat * 256 ^ second.length + 256 ^ second.length ≤
                byte.toNat * 256 ^ second.length := by
              rw [← Nat.succ_mul]
              exact Nat.mul_le_mul_right _ more
            omega

namespace Database

open Std OfflineFs.Map OfflineFs.Transition

variable {IdT : Type} [HostInt IdT]

namespace Register

/-- The id that a key starts with. -/
def idOf (IdT : Type) [HostInt IdT] (key : Bytes) : IdT :=
  HostInt.ofNat (beNat (key.take (HostInt.size IdT)))

@[simp]
theorem idOf_getkey (id : IdT) (name : Bytes) : idOf IdT (getkey id name) = id := by
  rw [idOf, getkey, List.take_left' (length_hostToDb id), hostToDb, beNat_beBytes,
    Nat.mod_eq_of_lt (HostInt.toNat_lt id), HostInt.ofNat_toNat]

/-- A key that is long enough is the key of its id and of the bytes after it. -/
theorem getkey_idOf {key : Bytes} (long : HostInt.size IdT ≤ key.length) :
    getkey (idOf IdT key) (key.drop (HostInt.size IdT)) = key := by
  have sized : (key.take (HostInt.size IdT)).length = HostInt.size IdT := by
    rw [List.length_take, Nat.min_eq_left long]
  have bound : beNat (key.take (HostInt.size IdT)) < 256 ^ HostInt.size IdT := by
    have small := beNat_lt (key.take (HostInt.size IdT))
    rwa [sized] at small
  have encoded : beBytes (HostInt.size IdT) (beNat (key.take (HostInt.size IdT))) =
      key.take (HostInt.size IdT) := by
    have roundTrip := beBytes_beNat (key.take (HostInt.size IdT))
    rwa [sized] at roundTrip
  rw [getkey, idOf, hostToDb, HostInt.toNat_ofNat _ bound, encoded, List.take_append_drop]

/-- The keys of a lower id come first. -/
theorem compare_getkey_of_lt {first second : IdT}
    (below : HostInt.toNat first < HostInt.toNat second) (name other : Bytes) :
    compare (getkey first name) (getkey second other) = .lt := by
  apply compare_append_of_beNat_lt (by simp)
  rw [hostToDb, hostToDb, beNat_beBytes, beNat_beBytes, Nat.mod_eq_of_lt (HostInt.toNat_lt first),
    Nat.mod_eq_of_lt (HostInt.toNat_lt second)]
  exact below

theorem toNat_le_of_compare {first second : IdT} {name other : Bytes}
    (before : compare (getkey first name) (getkey second other) = .lt) :
    HostInt.toNat first ≤ HostInt.toNat second := by
  by_contra above
  have after := compare_getkey_of_lt (Nat.lt_of_not_le above) other name
  rw [OrientedCmp.gt_of_lt after] at before
  cases before

end Register

/-! ## Listing the registers -/

namespace Cursor

/-- `DB_FIRST`. -/
def first (db : BTree) : Option (Bytes × Bytes) :=
  db.toList.head?

end Cursor

section Listing

variable [DecidableEq IdT]

/-- The loop of `getregisters` from the cursor's record. -/
def getregistersLoop (db : BTree) : Nat → IdT → Option (Bytes × Bytes) → List IdT
  | 0, _, _ => []
  | _ + 1, _, none => []
  | fuel + 1, lastid, some (key, _) =>
      if HostInt.size IdT ≤ key.length then
        let id := Register.idOf IdT key
        if id ≠ lastid then id :: getregistersLoop db fuel id (Cursor.next db key)
        else getregistersLoop db fuel lastid (Cursor.next db key)
      else
        []

/-- Every round of the loop moves the cursor to a later record. -/
def getregisters (IdT : Type) [HostInt IdT] [DecidableEq IdT] (db : BTree) : List IdT :=
  getregistersLoop db (db.size + 1) (HostInt.allOnes IdT) (Cursor.first db)

/-- The ids met one after another, each when it differs from the one before it. -/
def changes : IdT → List IdT → List IdT
  | _, [] => []
  | lastid, id :: rest => if id ≠ lastid then id :: changes id rest else changes lastid rest

/-- Among ids that never decrease, each is met once. -/
theorem changes_increasing {lastid : IdT} {ids : List IdT}
    (ordered : (lastid :: ids).Pairwise (HostInt.toNat · ≤ HostInt.toNat ·)) :
    (changes lastid ids).Pairwise (HostInt.toNat · < HostInt.toNat ·) ∧
      ∀ id, id ∈ changes lastid ids ↔ HostInt.toNat lastid < HostInt.toNat id ∧ id ∈ ids := by
  induction ids generalizing lastid with
  | nil => simp [changes]
  | cons first rest ih =>
      rw [List.pairwise_cons] at ordered
      obtain ⟨increasing, listed⟩ := ih ordered.2
      have firstBelow := (List.pairwise_cons.mp ordered.2).1
      have lastBelow := ordered.1 first (by simp)
      by_cases same : first = lastid
      · subst same
        rw [changes, if_neg (not_not_intro rfl)]
        refine ⟨increasing, ?_⟩
        intro id
        rw [listed, List.mem_cons]
        constructor
        · exact fun ⟨above, inRest⟩ => ⟨above, .inr inRest⟩
        · rintro ⟨above, rfl | inRest⟩
          · exact absurd above (Nat.lt_irrefl _)
          · exact ⟨above, inRest⟩
      · have lastLt : HostInt.toNat lastid < HostInt.toNat first :=
          Nat.lt_of_le_of_ne lastBelow fun equal =>
            same (HostInt.toNat_injective equal).symm
        rw [changes, if_pos same]
        constructor
        · rw [List.pairwise_cons]
          exact ⟨fun id member => ((listed id).mp member).1, increasing⟩
        · intro id
          rw [List.mem_cons, listed, List.mem_cons]
          constructor
          · rintro (rfl | ⟨above, inRest⟩)
            · exact ⟨lastLt, .inl rfl⟩
            · exact ⟨Nat.lt_trans lastLt above, .inr inRest⟩
          · rintro ⟨-, rfl | inRest⟩
            · exact .inl rfl
            · by_cases again : id = first
              · exact .inl again
              · refine .inr ⟨Nat.lt_of_le_of_ne (firstBelow id inRest) ?_, inRest⟩
                exact fun equal => again (HostInt.toNat_injective equal).symm

/-- Started from an id that is not among them, every id is met. -/
theorem changes_of_notMem {lastid : IdT} {ids : List IdT}
    (ordered : ids.Pairwise (HostInt.toNat · ≤ HostInt.toNat ·)) (outside : lastid ∉ ids) :
    (changes lastid ids).Pairwise (HostInt.toNat · < HostInt.toNat ·) ∧
      ∀ id, id ∈ changes lastid ids ↔ id ∈ ids := by
  cases ids with
  | nil => simp [changes]
  | cons first rest =>
      have differs : first ≠ lastid := fun same => outside (by simp [same])
      obtain ⟨increasing, listed⟩ := changes_increasing ordered
      have firstBelow := (List.pairwise_cons.mp ordered).1
      rw [changes, if_pos differs]
      constructor
      · rw [List.pairwise_cons]
        exact ⟨fun id member => ((listed id).mp member).1, increasing⟩
      · intro id
        rw [List.mem_cons, listed, List.mem_cons]
        constructor
        · exact fun member => member.imp_right And.right
        · rintro (rfl | inRest)
          · exact .inl rfl
          · by_cases same : id = first
            · exact .inl same
            · refine .inr ⟨Nat.lt_of_le_of_ne (firstBelow id inRest) ?_, inRest⟩
              exact fun equal => same (HostInt.toNat_injective equal).symm

/-- Every key starts with an id. -/
def Shaped (IdT : Type) [HostInt IdT] (db : BTree) : Prop :=
  ∀ key : Bytes, db[key]? ≠ none → HostInt.size IdT ≤ key.length

omit [DecidableEq IdT] in
theorem Shaped.exists_getkey {db : BTree} (shaped : Shaped IdT db) {key : Bytes}
    (present : db[key]? ≠ none) : ∃ (id : IdT) (name : Bytes), key = Register.getkey id name :=
  ⟨_, _, (Register.getkey_idOf (shaped key present)).symm⟩

/-- The loop that scans the ids finds where they change. -/
theorem getregistersLoop_eq {db : BTree} {front rest : List (Bytes × Bytes)} {fuel : Nat}
    {lastid : IdT} (shaped : Shaped IdT db) (contents : db.toList = front ++ rest)
    (enough : rest.length < fuel) :
    getregistersLoop db fuel lastid rest.head? =
      changes lastid (rest.map fun entry => Register.idOf IdT entry.1) := by
  induction rest generalizing front fuel lastid with
  | nil =>
      cases fuel with
      | zero => simp at enough
      | succ fuel => rfl
  | cons entry rest ih =>
      cases fuel with
      | zero => simp at enough
      | succ fuel =>
          rcases entry with ⟨key, value⟩
          have nextEq := Cursor.next_eq_head? contents
          have extended : db.toList = (front ++ [(key, value)]) ++ rest := by simpa using contents
          have long : HostInt.size IdT ≤ key.length := by
            apply shaped
            have member : (key, value) ∈ db.toList := by rw [contents]; simp
            rw [ExtTreeMap.mem_toList_iff_getElem?_eq_some.mp member]
            exact nofun
          simp only [List.head?_cons, getregistersLoop, if_pos long, nextEq, List.map_cons, changes]
          rw [ih extended (by simpa using enough), ih extended (by simpa using enough)]

end Listing

/-! ## Allocation -/

/-- The all-ones id has no key. -/
def Unreached (IdT : Type) [HostInt IdT] (db : BTree) : Prop :=
  ∀ name, db[Register.getkey (HostInt.allOnes IdT) name]? = none

theorem unreached_of_keys {db : BTree} (apart : ∀ key ∈ db.keys,
    key.take (HostInt.size IdT) ≠ hostToDb (HostInt.allOnes IdT)) : Unreached IdT db := by
  intro name
  by_contra present
  have member : Register.getkey (HostInt.allOnes IdT) name ∈ db.keys := by
    rw [ExtTreeMap.mem_keys, ExtTreeMap.mem_iff_isSome_getElem?]
    exact Option.isSome_iff_ne_none.mpr present
  exact apart _ member (List.take_left' (length_hostToDb _))

/-- Without the all-ones id, the ids of the keys in order never decrease, and all
are below it. -/
theorem Shaped.ids_ordered {db : BTree} (shaped : Shaped IdT db) :
    (db.toList.map fun entry => Register.idOf IdT entry.1).Pairwise
      (HostInt.toNat · ≤ HostInt.toNat ·) := by
  rw [List.pairwise_map]
  refine (ExtTreeMap.ordered_keys_toList (t := db)).imp_of_mem ?_
  intro first second firstMember secondMember before
  have isPresent : ∀ entry ∈ db.toList, db[entry.1]? ≠ none := by
    intro entry member
    rw [ExtTreeMap.mem_toList_iff_getElem?_eq_some.mp member]
    exact nofun
  obtain ⟨id, name, firstKey⟩ := shaped.exists_getkey (isPresent first firstMember)
  obtain ⟨other, otherName, secondKey⟩ := shaped.exists_getkey (isPresent second secondMember)
  rw [firstKey, secondKey] at before
  rw [firstKey, secondKey, Register.idOf_getkey, Register.idOf_getkey]
  exact Register.toNat_le_of_compare before

/-- An id is met by the scan exactly when it has an attribute. -/
theorem mem_ids_iff {db : BTree} (shaped : Shaped IdT db) (id : IdT) :
    (id ∈ db.toList.map fun entry => Register.idOf IdT entry.1) ↔
      ∃ name, db[Register.getkey id name]? ≠ none := by
  rw [List.mem_map]
  constructor
  · rintro ⟨⟨key, value⟩, member, rfl⟩
    have stored := ExtTreeMap.mem_toList_iff_getElem?_eq_some.mp member
    have present : db[key]? ≠ none := by rw [stored]; exact nofun
    refine ⟨key.drop (HostInt.size IdT), ?_⟩
    rwa [Register.getkey_idOf (shaped key present)]
  · rintro ⟨name, present⟩
    obtain ⟨value, stored⟩ := Option.ne_none_iff_exists'.mp present
    exact ⟨(Register.getkey id name, value),
      ExtTreeMap.mem_toList_iff_getElem?_eq_some.mpr stored, Register.idOf_getkey id name⟩

theorem Unreached.notMem {db : BTree} (unreached : Unreached IdT db) (shaped : Shaped IdT db) :
    HostInt.allOnes IdT ∉ db.toList.map fun entry => Register.idOf IdT entry.1 := by
  rw [mem_ids_iff shaped]
  rintro ⟨name, present⟩
  exact present (unreached name)

theorem getregisters_eq [DecidableEq IdT] {db : BTree} (shaped : Shaped IdT db) :
    getregisters IdT db =
      changes (HostInt.allOnes IdT) (db.toList.map fun entry => Register.idOf IdT entry.1) := by
  have contents : db.toList = [] ++ db.toList := rfl
  exact getregistersLoop_eq shaped contents (by simp)

/-- What the allocation and the listing of ids promise. -/
structure Allocates (IdT : Type) [HostInt IdT] [DecidableEq IdT] (db : BTree) : Prop where
  fresh : ∀ name, db[Register.getkey (createregister IdT db).1 name]? = none
  greatest : ∀ (id : IdT) (name : Bytes), db[Register.getkey id name]? ≠ none →
    HostInt.toNat id < HostInt.toNat (createregister IdT db).1
  listed : ∀ id, id ∈ getregisters IdT db ↔ ∃ name, db[Register.getkey id name]? ≠ none
  increasing : (getregisters IdT db).Pairwise (HostInt.toNat · < HostInt.toNat ·)

section Allocation

variable {db : BTree}

/-- A new id exceeds every id in use. -/
theorem toNat_lt_createregister (shaped : Shaped IdT db) (unreached : Unreached IdT db) {id : IdT}
    {name : Bytes} (present : db[Register.getkey id name]? ≠ none) :
    HostInt.toNat id < HostInt.toNat (createregister IdT db).1 := by
  have listed := (mem_ids_iff shaped id).mpr ⟨name, present⟩
  have ordered : List.Pairwise _ (db.toList.map fun entry => Register.idOf IdT entry.1) :=
    shaped.ids_ordered
  obtain ⟨front, last, contents⟩ : ∃ front last, db.toList = front ++ [last] := by
    rcases List.eq_nil_or_concat db.toList with empty | ⟨front, last, contents⟩
    · simp [empty] at listed
    · exact ⟨front, last, by simpa using contents⟩
  have isLast : Cursor.last db = some last := by
    rw [Cursor.last, contents, List.getLast?_concat]
  have lastPresent : db[last.1]? ≠ none := by
    have member : (last.1, last.2) ∈ db.toList := by rw [contents]; simp
    rw [ExtTreeMap.mem_toList_iff_getElem?_eq_some.mp member]
    exact nofun
  obtain ⟨lastId, lastName, lastKey⟩ :
      ∃ (lastId : IdT) (lastName : Bytes), last.1 = Register.getkey lastId lastName :=
    shaped.exists_getkey lastPresent
  have idLe : HostInt.toNat id ≤ HostInt.toNat lastId := by
    have lastIdEq : Register.idOf IdT last.1 = lastId := by rw [lastKey, Register.idOf_getkey]
    rw [contents, List.map_append, List.map_singleton, lastIdEq] at listed ordered
    rcases List.mem_append.mp listed with inFront | isFinal
    · exact (List.pairwise_append.mp ordered).2.2 id inFront lastId (by simp)
    · rw [List.mem_singleton.mp isFinal]
  have lastNe : HostInt.toNat lastId ≠ 256 ^ HostInt.size IdT - 1 := by
    intro full
    rw [← HostInt.toNat_allOnes (T := IdT)] at full
    rw [lastKey, HostInt.toNat_injective full] at lastPresent
    exact lastPresent (unreached lastName)
  have lastLt := HostInt.toNat_lt lastId
  have number : beNat (last.1.take (HostInt.size IdT)) = HostInt.toNat lastId := by
    rw [lastKey, Register.getkey, List.take_left' (length_hostToDb lastId), hostToDb,
      beNat_beBytes, Nat.mod_eq_of_lt lastLt]
  have issued : (createregister IdT db).1 = HostInt.ofNat (HostInt.toNat lastId + 1) := by
    rw [createregister, isLast]
    simp only [number]
    rw [Nat.mod_eq_of_lt (by omega)]
  rw [issued, HostInt.toNat_ofNat _ (by omega)]
  omega

theorem allocates [DecidableEq IdT] (shaped : Shaped IdT db) (unreached : Unreached IdT db) :
    Allocates IdT db where
  fresh name := by
    by_contra present
    exact Nat.lt_irrefl _ (toNat_lt_createregister shaped unreached present)
  greatest id name := toNat_lt_createregister shaped unreached
  listed id := by
    rw [getregisters_eq shaped,
      (changes_of_notMem shaped.ids_ordered (unreached.notMem shaped)).2, mem_ids_iff shaped]
  increasing := by
    rw [getregisters_eq shaped]
    exact (changes_of_notMem shaped.ids_ordered (unreached.notMem shaped)).1

end Allocation

/-! ## Runs -/

namespace Shaped

variable {db : BTree}

theorem empty : Shaped IdT ∅ := by
  intro key present
  simp at present

theorem setattrv (shaped : Shaped IdT db) (id : IdT) (name value : Bytes) :
    Shaped IdT (Register.setattrv db id name value) := by
  intro key present
  rw [Register.setattrv, getElem?_insert_eq_ite] at present
  split at present
  · rename_i same
    rw [← same, Register.getkey, List.length_append, length_hostToDb]
    exact Nat.le_add_right _ _
  · exact shaped key present

/-- Erasing keys gives no key. -/
theorem of_erased {rest : BTree} (shaped : Shaped IdT db)
    (erased : ∀ key : Bytes, rest[key]? ≠ none → db[key]? ≠ none) : Shaped IdT rest :=
  fun key present => shaped key (erased key present)

theorem delattr (shaped : Shaped IdT db) (id : IdT) (name : Bytes) :
    Shaped IdT ((Register.delattr db id name).toOption.getD db) := by
  apply shaped.of_erased
  intro key present
  rw [Register.delattr] at present
  cases stored : db[Register.getkey id name]? with
  | none => simpa [stored, Except.toOption] using present
  | some value =>
      simp only [stored, Except.toOption, Option.getD_some, getElem?_erase_eq_ite] at present
      split at present
      · exact absurd rfl present
      · exact present

theorem remove (shaped : Shaped IdT db) (id : IdT) :
    Shaped IdT ((Register.remove db id).toOption.getD db) := by
  apply shaped.of_erased
  intro key present
  obtain ⟨rest, removed, contents⟩ := Register.remove_eq_ok db id
  simp only [removed, Except.toOption, Option.getD_some, contents] at present
  split at present
  · exact absurd rfl present
  · exact present

theorem apply (shaped : Shaped IdT db) (op : RegisterOp IdT) : Shaped IdT (op.apply db) := by
  cases op with
  | createregister => exact shaped.setattrv _ [] []
  | setattrv id name value => exact shaped.setattrv id name value
  | setattr id name value => exact shaped.setattrv id name (hostToDb value)
  | delattr id name => exact shaped.delattr id name
  | remove id => exact shaped.remove id

end Shaped

/-- In every run that starts empty and never reaches the all-ones id, each id
handed out is new and the greatest, and the listing has each id in use once, in
increasing order. -/
theorem reaches_allocates [DecidableEq IdT] {db : BTree}
    (reached : Reaches RegisterOp.apply
      (fun (db : BTree) (op : RegisterOp IdT) => Unreached IdT (op.apply db)) ∅ db) :
    Allocates IdT db := by
  have invariant : Shaped IdT db ∧ Unreached IdT db := by
    induction reached with
    | start => exact ⟨.empty, fun name => by simp⟩
    | step op _ unreached ih => exact ⟨ih.1.apply op, unreached⟩
  exact allocates invariant.1 invariant.2

/-- The first id is zero. -/
theorem createregister_empty : (createregister IdT ∅).1 = HostInt.ofNat 0 := by
  have none : Cursor.last ∅ = none := rfl
  rw [createregister, none]

end Database

end OfflineFs
