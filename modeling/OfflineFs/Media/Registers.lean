import OfflineFs.Database.Allocation
import OfflineFs.Model.Offmedia

/-!
# Registers of media

A new medium gets an id above all others, a removed one leaves no key, and a scan meets every id
once, the lowest first.  So a label chooses the lowest medium that has it.
-/

namespace OfflineFs.Offmedia

open Std OfflineFs.Map

/-- The last id has a successor, so the allocator does not wrap around. -/
def IdsLeft (media : Db UInt32) : Prop :=
  ∀ key : Key UInt32, media[key]? ≠ none → key.id ≠ UInt32.ofNat (2 ^ 32 - 1)

variable {media after : Db UInt32} {id mid other : UInt32} {name label value : Bytes}
variable {key : Key UInt32}

theorem present_iff : media[key]? ≠ none ↔ key ∈ media.keys := by
  rw [ExtTreeMap.mem_keys, ExtTreeMap.mem_iff_isSome_getElem?, Option.isSome_iff_ne_none]

theorem idsLeft_of_keys (small : ∀ key ∈ media.keys, key.id ≠ UInt32.ofNat (2 ^ 32 - 1)) :
    IdsLeft media :=
  fun key present => small key (present_iff.mp present)

/-! ## Allocation -/

/-- A new id exceeds every id in use. -/
theorem lt_createregister (idsLeft : IdsLeft media) (present : media[key]? ≠ none) :
    key.id < (createregister media).1 := by
  obtain ⟨value, found⟩ := Option.ne_none_iff_exists'.mp present
  unfold createregister
  cases isLast : lastKey? media with
  | none =>
      rw [lastKey?_eq_none_iff] at isLast
      simp [isLast] at found
  | some last =>
      obtain ⟨lastValue, lastFound⟩ := mem_of_lastKey?_eq_some isLast
      have lastFits := idsLeft last (lastFound ▸ Option.some_ne_none lastValue)
      have keyLe : key.id ≤ last.id := by
        rcases le_lastKey? isLast found with same | before
        · rw [same]
          exact UInt32.le_refl _
        · rcases Key.cmp_eq_lt_iff.mp before with idLt | ⟨idEq, -⟩
          · exact UInt32.le_of_lt (Std.compare_eq_lt.mp idLt)
          · rw [idEq]
            exact UInt32.le_refl _
      simp only
      rw [UInt32.le_iff_toNat_le] at keyLe
      rw [UInt32.lt_iff_toNat_lt, UInt32.toNat_add]
      have lastNe : last.id.toNat ≠ 2 ^ 32 - 1 := by
        intro full
        apply lastFits
        rw [← full]
        exact (UInt32.ofNat_toNat).symm
      have lastLt := last.id.toNat_lt
      have one : (1 : UInt32).toNat = 1 := rfl
      omega

/-- The first id is 0, and any other comes after one in use. -/
theorem createregister_cases (media : Db UInt32) :
    (createregister media).1 = 0 ∨
      ∃ key : Key UInt32, media[key]? ≠ none ∧ (createregister media).1 = key.id + 1 := by
  unfold createregister
  cases isLast : lastKey? media with
  | none => exact .inl rfl
  | some last =>
      obtain ⟨value, found⟩ := mem_of_lastKey?_eq_some isLast
      exact .inr ⟨last, found ▸ Option.some_ne_none value, rfl⟩

/-! ## Removal -/

/-- Erasing names that are all present never throws. -/
theorem delattrs_eq_ok {names : List Bytes} (distinct : names.Nodup)
    (present : ∀ name ∈ names, media[(⟨id, name⟩ : Key UInt32)]? ≠ none) :
    delattrs id names media = .ok (names.foldl (fun rest name => rest.erase ⟨id, name⟩) media) := by
  induction names generalizing media with
  | nil => rfl
  | cons name names ih =>
      rw [List.nodup_cons] at distinct
      obtain ⟨value, found⟩ := Option.ne_none_iff_exists'.mp (present name List.mem_cons_self)
      have still : ∀ other ∈ names,
          (media.erase ⟨id, name⟩)[(⟨id, other⟩ : Key UInt32)]? ≠ none := by
        intro other member
        rw [getElem?_erase_eq_ite, if_neg]
        · exact present other (List.mem_cons_of_mem _ member)
        · intro same
          rw [(Key.mk.inj same).2] at distinct
          exact distinct.1 member
      have rest := ih distinct.2 still
      rw [delattrs, delattr, found]
      exact rest

/-- `remove` never throws, and erases all the keys of the medium. -/
theorem remove_eq_ok (media : Db UInt32) (id : UInt32) :
    remove media id = .ok (media.eraseRegister id) := by
  have deleted : delattrs id (media.attrs id) media = .ok
      ((media.attrs id).foldl (fun rest name => rest.erase ⟨id, name⟩) media) :=
    delattrs_eq_ok (Db.nodup_attrs media id) fun name member => (Db.mem_attrs_iff.mp member).2
  have erased := Db.erase_attrs media id
  rw [remove, deleted]
  generalize (media.attrs id).foldl (fun rest name => rest.erase ⟨id, name⟩) media = named at *
  simp only [delattr]
  cases dummy : named[(⟨id, []⟩ : Key UInt32)]? with
  | some value => exact congrArg Except.ok erased
  | none =>
      rw [← erased]
      apply congrArg Except.ok
      apply ExtTreeMap.ext_getElem?
      intro key
      rw [getElem?_erase_eq_ite]
      split
      · rename_i same
        rw [← same, dummy]
      · rfl

/-! ## Scans -/

theorem scanIds_eq_changes (lastid : UInt32) (keys : List (Key UInt32)) :
    Db.scanIds lastid keys = Database.changes lastid (keys.map Key.id) := by
  induction keys generalizing lastid with
  | nil => rfl
  | cons key keys ih =>
      rw [Db.scanIds, List.map_cons, Database.changes, ih, ih]
      by_cases same : key.id = lastid
      · rw [if_pos same, if_neg (not_not_intro same)]
      · rw [if_neg same, if_pos same]

/-- A scan meets the ids with a key in increasing order. -/
theorem getregisters_spec (idsLeft : IdsLeft media) :
    (getregisters media).Pairwise (· < ·) ∧
      ∀ id, id ∈ getregisters media ↔ ∃ name, media[(⟨id, name⟩ : Key UInt32)]? ≠ none := by
  have ordered : (media.keys.map Key.id).Pairwise (HostInt.toNat · ≤ HostInt.toNat ·) := by
    rw [List.pairwise_map]
    refine (ExtTreeMap.ordered_keys (t := media)).imp ?_
    intro first second before
    rcases Key.cmp_eq_lt_iff.mp before with idLt | ⟨idEq, -⟩
    · exact Nat.le_of_lt (UInt32.lt_iff_toNat_lt.mp (Std.compare_eq_lt.mp idLt))
    · rw [idEq]
  have outside : UInt32.ofNat (2 ^ 32 - 1) ∉ media.keys.map Key.id := by
    intro member
    obtain ⟨key, isKey, isLast⟩ := List.mem_map.mp member
    exact idsLeft key (present_iff.mpr isKey) isLast
  obtain ⟨increasing, listed⟩ := Database.changes_of_notMem ordered outside
  rw [getregisters, scanIds_eq_changes]
  refine ⟨increasing.imp UInt32.lt_iff_toNat_lt.mpr, fun id => ?_⟩
  rw [listed, List.mem_map]
  constructor
  · rintro ⟨key, isKey, rfl⟩
    exact ⟨key.name, present_iff.mpr isKey⟩
  · rintro ⟨name, present⟩
    exact ⟨⟨id, name⟩, present_iff.mp present, rfl⟩

/-! ## Looking media up -/

/-- A medium of the type of a class. -/
theorem known_iff : known media mid = true ↔ ∃ kind, getmedium media mid = .ok ⟨mid, kind⟩ := by
  rw [known, getmedium]
  cases media[(⟨mid, str "type"⟩ : Key UInt32)]? with
  | none => simp
  | some mediumtype =>
      by_cases isDirectory : mediumtype = str "directory"
      · simp [isDirectory]
      · by_cases isInsert : mediumtype = str "insert"
        · subst isInsert
          simp [if_neg isDirectory]
        · simp [isDirectory, isInsert]

theorem getmedium_id {m : Medium} (found : getmedium media mid = .ok m) : m.id = mid := by
  unfold getmedium at found
  split at found
  · cases found
  · split at found
    · rw [← Except.ok.inj found]
    · split at found
      · rw [← Except.ok.inj found]
      · cases found

/-- The lowest medium that has a label. -/
def First (media : Db UInt32) (label : Bytes) (mid : UInt32) : Prop :=
  media[(⟨mid, str "label"⟩ : Key UInt32)]? = some label ∧
    ∀ other, media[(⟨other, str "label"⟩ : Key UInt32)]? = some label → mid ≤ other

theorem findLabel_eq (label : Bytes) (ids : List UInt32) : findLabel media label ids =
    match ids.find? fun id => media[(⟨id, str "label"⟩ : Key UInt32)]? = some label with
    | some mid => getmedium media mid
    | none => .error (.unknownLabel label) := by
  induction ids with
  | nil => rfl
  | cons id rest ih =>
      by_cases same : media[(⟨id, str "label"⟩ : Key UInt32)]? = some label
      · simp [findLabel, same]
      · simp [findLabel, same, ih]

/-- The first in increasing order is the lowest. -/
theorem find?_eq_some_iff_of_increasing {ids : List UInt32} (increasing : ids.Pairwise (· < ·))
    (test : UInt32 → Bool) : ids.find? test = some mid ↔
      mid ∈ ids ∧ test mid = true ∧ ∀ other ∈ ids, test other = true → mid ≤ other := by
  induction ids with
  | nil => simp
  | cons id rest ih =>
      obtain ⟨below, increasing⟩ := List.pairwise_cons.mp increasing
      rw [List.find?_cons]
      cases passes : test id with
      | true =>
          constructor
          · rintro same
            cases same
            refine ⟨List.mem_cons_self, passes, fun other member _ => ?_⟩
            rcases List.mem_cons.mp member with rfl | later
            · exact UInt32.le_refl _
            · exact UInt32.le_of_lt (below other later)
          · rintro ⟨member, -, least⟩
            rcases List.mem_cons.mp member with rfl | later
            · rfl
            · have above := below mid later
              exact absurd (least id List.mem_cons_self passes) (UInt32.not_le.mpr above)
      | false =>
          rw [ih increasing]
          constructor
          · rintro ⟨member, isTest, least⟩
            refine ⟨List.mem_cons_of_mem _ member, isTest, fun other isOther otherTest => ?_⟩
            rcases List.mem_cons.mp isOther with rfl | later
            · rw [passes] at otherTest
              cases otherTest
            · exact least other later otherTest
          · rintro ⟨member, isTest, least⟩
            rcases List.mem_cons.mp member with rfl | later
            · rw [passes] at isTest
              cases isTest
            · exact ⟨later, isTest, fun other isOther =>
                least other (List.mem_cons_of_mem _ isOther)⟩

/-- The first medium with a label has the lowest id. -/
theorem find?_label_iff (idsLeft : IdsLeft media) :
    (getregisters media).find? (fun id => media[(⟨id, str "label"⟩ : Key UInt32)]? = some label) =
      some mid ↔ First media label mid := by
  obtain ⟨increasing, listed⟩ := getregisters_spec idsLeft
  have labelled {id : UInt32} (has : media[(⟨id, str "label"⟩ : Key UInt32)]? = some label) :
      id ∈ getregisters media :=
    (listed id).mpr ⟨str "label", has ▸ Option.some_ne_none label⟩
  rw [find?_eq_some_iff_of_increasing increasing]
  simp only [decide_eq_true_eq]
  constructor
  · rintro ⟨-, has, least⟩
    exact ⟨has, fun other otherHas => least other (labelled otherHas) otherHas⟩
  · rintro ⟨has, least⟩
    exact ⟨labelled has, has, fun other _ => least other⟩

/-- A label chooses the lowest medium that has it, if that is known. -/
theorem getmediumByLabel_eq_ok_iff (idsLeft : IdsLeft media) :
    (∃ kind, getmediumByLabel media label = .ok ⟨mid, kind⟩) ↔
      First media label mid ∧ known media mid = true := by
  rw [getmediumByLabel, findLabel_eq, known_iff]
  cases found : (getregisters media).find? fun id =>
      media[(⟨id, str "label"⟩ : Key UInt32)]? = some label with
  | none =>
      constructor
      · rintro ⟨kind, impossible⟩
        cases impossible
      · rintro ⟨first, -⟩
        rw [← find?_label_iff idsLeft, found] at first
        cases first
  | some chosen =>
      have first := (find?_label_iff idsLeft).mp found
      constructor
      · rintro ⟨kind, isMedium⟩
        have same := getmedium_id isMedium
        simp only at same
        subst same
        exact ⟨first, kind, isMedium⟩
      · rintro ⟨other, isKnown⟩
        have again := (find?_label_iff idsLeft).mpr other
        rw [found, Option.some.injEq] at again
        rw [again]
        exact isKnown

end OfflineFs.Offmedia
