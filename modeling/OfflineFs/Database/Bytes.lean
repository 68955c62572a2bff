import OfflineFs.Map.Ordered
import OfflineFs.Types

/-!
# Registers in a B-tree

The code of `Database<IdT>::Register` over the byte keys it really uses: the
encoded id followed by the attribute name, in a B-tree ordered by bytes.  The
registers are enumerated by cursor scans, so what a scan returns rests on the
keys of a register being consecutive.
-/

namespace OfflineFs.Database

open Std OfflineFs.Map

/-- The contents of a B-tree database. -/
abbrev BTree := ExtTreeMap Bytes Bytes

namespace Cursor

/-- `DB_SET_RANGE`: the first record at or after a key. -/
def setRange (db : BTree) (key : Bytes) : Option (Bytes × Bytes) :=
  db.toList.find? fun entry => compare entry.1 key ≠ .lt

/-- `DB_NEXT` from a record's key. -/
def next (db : BTree) (key : Bytes) : Option (Bytes × Bytes) :=
  db.toList.find? fun entry => compare entry.1 key = .gt

/-- `DB_LAST`. -/
def last (db : BTree) : Option (Bytes × Bytes) :=
  db.toList.getLast?

end Cursor

namespace Register

variable {IdT : Type} [HostInt IdT]

/-- The key of an attribute: the bytes of the id and then the name. -/
def getkey (id : IdT) (name : Bytes) : Bytes :=
  hostToDb id ++ name

/-- The value of an attribute. -/
def getattrv (db : BTree) (id : IdT) (name : Bytes) : Except Err Bytes :=
  match db[getkey id name]? with
  | some value => .ok value
  | none => .error .attrNotFound

/-- The value of an attribute as a `T`. -/
def getattr (T : Type) [HostInt T] (db : BTree) (id : IdT) (name : Bytes) : Except Err T := do
  let b ← getattrv db id name
  match dbToHost T b with
  | some value => .ok value
  | none => .error .runtime

/-- Store the value of an attribute. -/
def setattrv (db : BTree) (id : IdT) (name value : Bytes) : BTree :=
  db.insert (getkey id name) value

/-- Store a `T` as the value of an attribute. -/
def setattr {T : Type} [HostInt T] (db : BTree) (id : IdT) (name : Bytes) (value : T) : BTree :=
  setattrv db id name (hostToDb value)

/-- Erase an attribute, which must be there. -/
def delattr (db : BTree) (id : IdT) (name : Bytes) : Except Err BTree :=
  match db[getkey id name]? with
  | some _ => .ok (db.erase (getkey id name))
  | none => .error .attrNotFound

/-- The test that ends a scan of a register. -/
def ofRegister (id : IdT) (key : Bytes) : Bool :=
  HostInt.size IdT ≤ key.length ∧ key.take (HostInt.size IdT) = hostToDb id

/-- The name a key contributes to a scan: the dummy key contributes none. -/
def nameOf (IdT : Type) [HostInt IdT] (key : Bytes) : Option Bytes :=
  if key.length > HostInt.size IdT then some (key.drop (HostInt.size IdT)) else none

/-- The loop of `getattrs` from the cursor's record. -/
def getattrsLoop (db : BTree) (id : IdT) : Nat → Option (Bytes × Bytes) → List Bytes
  | 0, _ => []
  | _ + 1, none => []
  | fuel + 1, some (key, _) =>
      if ofRegister id key then
        (nameOf IdT key).toList ++ getattrsLoop db id fuel (Cursor.next db key)
      else
        []

/-- Every round of the loop moves the cursor to a later record. -/
def getattrs (db : BTree) (id : IdT) : List Bytes :=
  getattrsLoop db id (db.size + 1) (Cursor.setRange db (hostToDb id))

/-- The loop of `countattrs`. -/
def countattrsLoop (db : BTree) (id : IdT) : Nat → Option (Bytes × Bytes) → Nat → Nat
  | 0, _, count => count
  | _ + 1, none, count => count
  | fuel + 1, some (key, _), count =>
      if ofRegister id key then
        countattrsLoop db id fuel (Cursor.next db key)
          (if key.length > HostInt.size IdT then count + 1 else count)
      else
        count

/-- How many named attributes there are. -/
def countattrs (db : BTree) (id : IdT) : Nat :=
  countattrsLoop db id (db.size + 1) (Cursor.setRange db (hostToDb id)) 0

/-- The loop of `remove`. -/
def delattrs (db : BTree) (id : IdT) : List Bytes → Except Err BTree
  | [] => .ok db
  | name :: rest => do
      let db ← delattr db id name
      delattrs db id rest

/-- Erase all attributes, the one without a name included. -/
def remove (db : BTree) (id : IdT) : Except Err BTree := do
  let db ← delattrs db id (getattrs db id)
  match delattr db id [] with
  | .ok db => .ok db
  | .error .attrNotFound => .ok db
  | .error e => .error e

end Register

/-- Reserve the id after the last one, in the arithmetic of `IdT`. -/
def createregister (IdT : Type) [HostInt IdT] (db : BTree) : IdT × BTree :=
  let id : IdT := match Cursor.last db with
    | none => HostInt.ofNat 0
    | some (key, _) =>
        HostInt.ofNat ((beNat (key.take (HostInt.size IdT)) + 1) % 256 ^ HostInt.size IdT)
  (id, Register.setattrv db id [] [])

/-! ## Consecutive keys -/

/-- Whatever lies between a prefix and one of its extensions extends it too. -/
theorem prefix_of_between {front key rest : Bytes} (lower : compare key front ≠ .lt)
    (upper : compare key (front ++ rest) ≠ .gt) : front <+: key := by
  induction front generalizing key with
  | nil => exact List.nil_prefix
  | cons byte front ih =>
      cases key with
      | nil => exact absurd rfl lower
      | cons first key =>
          change List.compareLex compare (first :: key) (byte :: front) ≠ .lt at lower
          change List.compareLex compare (first :: key) (byte :: (front ++ rest)) ≠ .gt at upper
          rw [List.compareLex_cons_cons] at lower upper
          cases order : compare first byte with
          | lt => simp [order] at lower
          | gt => simp [order] at upper
          | eq =>
              simp only [order, Ordering.eq_then] at lower upper
              rw [LawfulEqCmp.compare_eq_iff_eq] at order
              rw [order, List.cons_prefix_cons]
              exact ⟨rfl, ih lower upper⟩

theorem not_lt_prefix (front rest : Bytes) : compare (front ++ rest) front ≠ .lt := by
  induction front with
  | nil =>
      cases rest with
      | nil => exact (by decide : compare ([] : Bytes) [] ≠ .lt)
      | cons byte rest => exact fun impossible => nomatch impossible
  | cons byte front ih =>
      have self : compare byte byte = .eq := ReflCmp.compare_self
      change List.compareLex compare (byte :: (front ++ rest)) (byte :: front) ≠ .lt
      rw [List.compareLex_cons_cons, self, Ordering.eq_then]
      exact ih

namespace Register

variable {IdT : Type} [HostInt IdT]

theorem ofRegister_iff {id : IdT} {key : Bytes} :
    ofRegister id key = true ↔ ∃ name, key = getkey id name := by
  simp only [ofRegister, decide_eq_true_eq, getkey]
  constructor
  · rintro ⟨_, takeEq⟩
    exact ⟨key.drop (HostInt.size IdT), by rw [← takeEq, List.take_append_drop]⟩
  · rintro ⟨name, rfl⟩
    constructor
    · simp
    · rw [List.take_left']
      simp

@[simp]
theorem nameOf_getkey (id : IdT) (name : Bytes) :
    nameOf IdT (getkey id name) = if name = [] then none else some name := by
  unfold nameOf getkey
  by_cases empty : name = []
  · simp [empty]
  · have positive := List.length_pos_iff.mpr empty
    rw [if_pos (by simp; exact positive), if_neg empty, List.drop_left' (by simp)]

theorem getkey_inj {first second : IdT} {name other : Bytes} :
    getkey first name = getkey second other ↔ first = second ∧ name = other := by
  constructor
  · intro equal
    have parts := List.append_inj equal (by simp)
    exact ⟨hostToDb_inj.mp parts.1, parts.2⟩
  · rintro ⟨rfl, rfl⟩
    rfl

/-- No key of a register lies before the place where its scan starts. -/
theorem not_lt_start {id : IdT} {key : Bytes} (ofIt : ofRegister id key = true) :
    compare key (hostToDb id) ≠ .lt := by
  obtain ⟨name, rfl⟩ := ofRegister_iff.mp ofIt
  exact not_lt_prefix _ _

/-- A key between the start of the scan and a key of the register is of it too. -/
theorem ofRegister_of_lt {id : IdT} {key later : Bytes}
    (started : compare key (hostToDb id) ≠ .lt) (before : compare key later = .lt)
    (ofIt : ofRegister id later = true) : ofRegister id key = true := by
  obtain ⟨name, rfl⟩ := ofRegister_iff.mp ofIt
  have notAfter : compare key (hostToDb id ++ name) ≠ .gt := by
    intro after
    rw [getkey, after] at before
    contradiction
  obtain ⟨rest, rfl⟩ := prefix_of_between started notAfter
  exact ofRegister_iff.mpr ⟨rest, rfl⟩

end Register

/-! ## Scans -/

section Lists

variable {α : Type} {before : α → α → Prop} {test : α → Bool}

/-- In an ordered list whose passing elements form an initial part, filtering
stops at the first failure. -/
theorem filter_eq_takeWhile {entries : List α} (ordered : entries.Pairwise before)
    (initial : ∀ first ∈ entries, ∀ second, before first second → test second = true →
      test first = true) :
    entries.filter test = entries.takeWhile test := by
  induction entries with
  | nil => rfl
  | cons entry entries ih =>
      rw [List.pairwise_cons] at ordered
      by_cases passes : test entry = true
      · rw [List.filter_cons_of_pos passes, List.takeWhile_cons_of_pos passes,
          ih ordered.2 fun first member => initial first (List.mem_cons_of_mem _ member)]
      · rw [List.filter_cons_of_neg passes, List.takeWhile_cons_of_neg passes,
          List.filter_eq_nil_iff]
        intro later member laterPasses
        exact passes (initial entry (by simp) later (ordered.1 later member) laterPasses)

end Lists

namespace Cursor

theorem setRange_eq_head? (db : BTree) (key : Bytes) :
    setRange db key = (db.toList.dropWhile fun entry => compare entry.1 key = .lt).head? := by
  unfold setRange
  induction db.toList with
  | nil => rfl
  | cons entry rest ih =>
      by_cases below : compare entry.1 key = .lt
      · rw [List.dropWhile_cons_of_pos (by simpa using below), ← ih]
        exact List.find?_cons_of_neg (by simpa using below)
      · rw [List.dropWhile_cons_of_neg (by simpa using below)]
        exact List.find?_cons_of_pos (by simpa using below)

/-- From the record at some place in the order, the cursor moves to the next. -/
theorem next_eq_head? {db : BTree} {front rest : List (Bytes × Bytes)} {key value : Bytes}
    (contents : db.toList = front ++ (key, value) :: rest) :
    next db key = rest.head? := by
  have ordered := ExtTreeMap.ordered_keys_toList (t := db)
  rw [contents, List.pairwise_append, List.pairwise_cons] at ordered
  obtain ⟨_, ⟨after, _⟩, across⟩ := ordered
  have frontBefore : ∀ entry ∈ front, ¬ compare entry.1 key = .gt := by
    intro entry member isAfter
    have isBefore := across entry member (key, value) (by simp)
    rw [isAfter] at isBefore
    contradiction
  rw [next, contents, List.find?_append, List.find?_eq_none.mpr (by simpa using frontBefore)]
  cases rest with
  | nil => simp
  | cons entry rest =>
      have isAfter : compare entry.1 key = .gt :=
        OrientedCmp.gt_of_lt (after entry (by simp))
      simp [isAfter]

end Cursor

namespace Register

variable {IdT : Type} [HostInt IdT]

/-- The records of a register. -/
def block (db : BTree) (id : IdT) : BTree :=
  db.filter fun key _ => ofRegister id key

/-- What is left after the records before a key were dropped is not before it. -/
theorem not_lt_of_mem_dropWhile {entries : List (Bytes × Bytes)} {key : Bytes}
    (ordered : entries.Pairwise fun first second => compare first.1 second.1 = .lt)
    {entry : Bytes × Bytes}
    (member : entry ∈ entries.dropWhile fun entry => compare entry.1 key = .lt) :
    compare entry.1 key ≠ .lt := by
  induction entries with
  | nil => simp at member
  | cons first rest ih =>
      rw [List.pairwise_cons] at ordered
      by_cases below : compare first.1 key = .lt
      · rw [List.dropWhile_cons_of_pos (by simpa using below)] at member
        exact ih ordered.2 member
      · rw [List.dropWhile_cons_of_neg (by simpa using below), List.mem_cons] at member
        rcases member with rfl | inRest
        · exact below
        · intro entryBelow
          exact below (TransCmp.lt_trans (ordered.1 entry inRest) entryBelow)

/-- The keys of a register are next to each other. -/
theorem toList_block (db : BTree) (id : IdT) :
    (block db id).toList = (db.toList.dropWhile fun entry =>
      compare entry.1 (hostToDb id) = .lt).takeWhile fun entry => ofRegister id entry.1 := by
  have ordered := ExtTreeMap.ordered_keys_toList (t := db)
  rw [block, ExtTreeMap.toList_filter]
  rw [← List.takeWhile_append_dropWhile
    (p := fun entry => decide (compare entry.1 (hostToDb id) = .lt)) (l := db.toList)] at ordered
  conv_lhs => rw [← List.takeWhile_append_dropWhile
    (p := fun entry => decide (compare entry.1 (hostToDb id) = .lt)) (l := db.toList)]
  rw [List.filter_append, List.filter_eq_nil_iff.mpr, List.nil_append]
  · apply filter_eq_takeWhile (List.pairwise_append.mp ordered).2.1
    intro first member second before passes
    exact ofRegister_of_lt
      (not_lt_of_mem_dropWhile (ExtTreeMap.ordered_keys_toList (t := db)) member) before passes
  · intro entry member ofIt
    have below := List.all_takeWhile (l := db.toList)
      (p := fun entry => decide (compare entry.1 (hostToDb id) = .lt))
    rw [List.all_eq_true] at below
    exact not_lt_start ofIt (by simpa using below entry member)

/-- The loop of `getattrs` reads the block of the register. -/
theorem getattrsLoop_eq {db : BTree} {id : IdT} {front rest : List (Bytes × Bytes)} {fuel : Nat}
    (contents : db.toList = front ++ rest) (enough : rest.length < fuel) :
    getattrsLoop db id fuel rest.head? =
      (rest.takeWhile fun entry => ofRegister id entry.1).filterMap (nameOf IdT ·.1) := by
  induction rest generalizing front fuel with
  | nil =>
      cases fuel with
      | zero => simp at enough
      | succ fuel => rfl
  | cons entry rest ih =>
      cases fuel with
      | zero => simp at enough
      | succ fuel =>
          rcases entry with ⟨key, value⟩
          have nextEq := Cursor.next_eq_head? contents
          simp only [List.head?_cons, getattrsLoop]
          by_cases ofIt : ofRegister id key = true
          · have extended : db.toList = (front ++ [(key, value)]) ++ rest := by
              simpa using contents
            rw [if_pos ofIt, nextEq, ih extended (by simpa using enough),
              List.takeWhile_cons_of_pos (by simpa using ofIt)]
            cases named : nameOf IdT key <;> simp [named]
          · rw [if_neg ofIt, List.takeWhile_cons_of_neg (by simpa using ofIt)]
            rfl

/-- The loop of `countattrs` counts what that of `getattrs` finds. -/
theorem countattrsLoop_eq {db : BTree} {id : IdT} {fuel count : Nat}
    {cursor : Option (Bytes × Bytes)} :
    countattrsLoop db id fuel cursor count =
      count + (getattrsLoop db id fuel cursor).length := by
  induction fuel generalizing cursor count with
  | zero => rfl
  | succ fuel ih =>
      cases cursor with
      | none => rfl
      | some entry =>
          rcases entry with ⟨key, value⟩
          simp only [countattrsLoop, getattrsLoop]
          by_cases ofIt : ofRegister id key = true
          · rw [if_pos ofIt, if_pos ofIt, ih]
            by_cases named : key.length > HostInt.size IdT
            · simp [nameOf, named]
              omega
            · simp [nameOf, named]
          · simp [ofIt]

/-- The scan of a register returns the names in its block. -/
theorem getattrs_eq (db : BTree) (id : IdT) :
    getattrs db id = (block db id).toList.filterMap (nameOf IdT ·.1) := by
  have contents := List.takeWhile_append_dropWhile
    (p := fun entry => decide (compare entry.1 (hostToDb id) = .lt)) (l := db.toList)
  rw [getattrs, Cursor.setRange_eq_head?, getattrsLoop_eq contents.symm, toList_block]
  have lengthLe := congrArg List.length contents
  rw [List.length_append, ExtTreeMap.length_toList] at lengthLe
  omega

theorem countattrs_eq (db : BTree) (id : IdT) :
    countattrs db id = (getattrs db id).length := by
  rw [countattrs, countattrsLoop_eq, Nat.zero_add]
  rfl

theorem mem_block_iff {db : BTree} {id : IdT} {entry : Bytes × Bytes} :
    entry ∈ (block db id).toList ↔
      ∃ name, entry.1 = getkey id name ∧ db[getkey id name]? = some entry.2 := by
  rcases entry with ⟨key, value⟩
  rw [ExtTreeMap.mem_toList_iff_getElem?_eq_some, block, getElem?_filter_eq_some_iff,
    ofRegister_iff]
  constructor
  · rintro ⟨present, name, rfl⟩
    exact ⟨name, rfl, present⟩
  · rintro ⟨name, rfl, present⟩
    exact ⟨present, name, rfl⟩

/-- The named attributes that are stored. -/
theorem mem_getattrs_iff {db : BTree} {id : IdT} {name : Bytes} :
    name ∈ getattrs db id ↔ name ≠ [] ∧ db[getkey id name]? ≠ none := by
  rw [getattrs_eq, List.mem_filterMap, Option.ne_none_iff_exists']
  constructor
  · rintro ⟨⟨key, value⟩, member, named⟩
    obtain ⟨stored, keyEq, present⟩ := mem_block_iff.mp member
    simp only at keyEq
    rw [keyEq, nameOf_getkey] at named
    split at named
    · contradiction
    · rename_i nonempty
      cases named
      exact ⟨nonempty, value, present⟩
  · rintro ⟨nonempty, value, present⟩
    refine ⟨(getkey id name, value), mem_block_iff.mpr ⟨name, rfl, present⟩, ?_⟩
    rw [nameOf_getkey, if_neg nonempty]

/-- No attribute is listed twice. -/
theorem nodup_getattrs (db : BTree) (id : IdT) : (getattrs db id).Nodup := by
  rw [getattrs_eq, List.Nodup, List.pairwise_filterMap]
  have ordered := ExtTreeMap.ordered_keys_toList (t := block db id)
  refine ordered.imp_of_mem ?_
  intro first second firstMember secondMember before firstName firstNamed secondName secondNamed
  obtain ⟨firstStored, firstKey, _⟩ := mem_block_iff.mp firstMember
  obtain ⟨secondStored, secondKey, _⟩ := mem_block_iff.mp secondMember
  rintro rfl
  rw [firstKey, nameOf_getkey] at firstNamed
  rw [secondKey, nameOf_getkey] at secondNamed
  have sameName : firstStored = secondStored := by
    split at firstNamed <;> split at secondNamed <;> simp_all
  rw [firstKey, secondKey, sameName] at before
  have self : compare (getkey id secondStored) (getkey id secondStored) = .eq :=
    ReflCmp.compare_self
  rw [self] at before
  contradiction

end Register

end OfflineFs.Database
