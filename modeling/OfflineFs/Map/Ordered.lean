import Mathlib.Data.List.Induction
import Mathlib.Data.List.Nodup
import Mathlib.Data.Set.Card
import Std.Data.ExtTreeMap

/-!
# Counting and scanning an ordered finite map

Extensional ordered maps come from the standard library.  This file adds what a
store built on them needs: how many entries satisfy a test and how one insertion
or one erasure moves that number, and which key is the greatest.
-/

namespace OfflineFs.Map

open Std

variable {α β : Type} {cmp : α → α → Ordering} [TransCmp cmp] [LawfulEqCmp cmp]
variable {map : ExtTreeMap α β cmp} {test : α → β → Bool} {key : α} {value : β}

/-- The number of entries that satisfy a test. -/
def countIf (test : α → β → Bool) (map : ExtTreeMap α β cmp) : Nat :=
  (map.filter test).size

theorem getElem?_insert_eq_ite [DecidableEq α] (other : α) :
    (map.insert key value)[other]? = if key = other then some value else map[other]? := by
  rw [ExtTreeMap.getElem?_insert]
  simp only [LawfulEqCmp.compare_eq_iff_eq]

theorem getElem?_erase_eq_ite [DecidableEq α] (other : α) :
    (map.erase key)[other]? = if key = other then none else map[other]? := by
  rw [ExtTreeMap.getElem?_erase]
  simp only [LawfulEqCmp.compare_eq_iff_eq]

/-- Inserting into a part of a map. -/
theorem filter_insert (map : ExtTreeMap α β cmp) (test : α → β → Bool) (key : α) (value : β) :
    (map.insert key value).filter test =
      if test key value then (map.filter test).insert key value
      else (map.filter test).erase key := by
  classical
  apply ExtTreeMap.ext_getElem?
  intro other
  rw [ExtTreeMap.getElem?_filter', getElem?_insert_eq_ite]
  by_cases same : key = other
  · subst other
    by_cases passes : test key value <;> simp [passes]
  · by_cases passes : test key value <;>
      simp [passes, same, getElem?_insert_eq_ite, getElem?_erase_eq_ite]

theorem filter_erase (map : ExtTreeMap α β cmp) (test : α → β → Bool) (key : α) :
    (map.erase key).filter test = (map.filter test).erase key := by
  classical
  apply ExtTreeMap.ext_getElem?
  intro other
  rw [ExtTreeMap.getElem?_filter', getElem?_erase_eq_ite, getElem?_erase_eq_ite,
    ExtTreeMap.getElem?_filter']
  split <;> rfl

/-- An entry passes the filter exactly when it is present and passes the test. -/
theorem getElem?_filter_eq_some_iff {found : β} :
    (map.filter test)[key]? = some found ↔ map[key]? = some found ∧ test key found = true := by
  rw [ExtTreeMap.getElem?_filter', Option.filter_eq_some_iff]

omit [LawfulEqCmp cmp] in
theorem contains_eq_false_of_getElem?_eq_none {other : ExtTreeMap α β cmp}
    (absent : other[key]? = none) : other.contains key = false := by
  rw [ExtTreeMap.contains_eq_isSome_getElem?, absent]
  rfl

theorem getElem?_filter_eq_none (absent : map[key]? = none) :
    (map.filter test)[key]? = none := by
  rw [ExtTreeMap.getElem?_filter', absent]
  rfl

theorem erase_eq_self (absent : map[key]? = none) : map.erase key = map := by
  classical
  apply ExtTreeMap.ext_getElem?
  intro other
  rw [getElem?_erase_eq_ite]
  split
  · rename_i same
    rw [← same, absent]
  · rfl

/-- Adding an entry under a new key counts it when it passes the test. -/
theorem countIf_insert (absent : map[key]? = none) :
    countIf test (map.insert key value) =
      countIf test map + (if test key value then 1 else 0) := by
  have filtered : (map.filter test)[key]? = none := getElem?_filter_eq_none absent
  unfold countIf
  rw [filter_insert]
  by_cases passes : test key value
  · simp [passes, ExtTreeMap.size_insert, contains_eq_false_of_getElem?_eq_none filtered]
  · simp [passes, erase_eq_self filtered]

/-- Erasing a present entry uncounts it when it passed the test. -/
theorem countIf_erase (test : α → β → Bool) (present : map[key]? = some value) :
    countIf test (map.erase key) + (if test key value then 1 else 0) = countIf test map := by
  unfold countIf
  rw [filter_erase]
  by_cases passes : test key value
  · have filtered : (map.filter test)[key]? = some value :=
      getElem?_filter_eq_some_iff.mpr ⟨present, passes⟩
    have member : (map.filter test).contains key = true := by
      rw [ExtTreeMap.contains_eq_isSome_getElem?, filtered]
      rfl
    have positive : (map.filter test).size ≠ 0 := by
      intro empty
      rw [← ExtTreeMap.eq_empty_iff_size_eq_zero] at empty
      rw [empty] at filtered
      simp at filtered
    rw [ExtTreeMap.size_erase, if_pos passes, if_pos member]
    omega
  · have filtered : (map.filter test)[key]? = none := by
      rw [ExtTreeMap.getElem?_filter', present]
      simp [passes]
    rw [erase_eq_self filtered, if_neg passes]
    rfl

/-- A count is positive when there is an entry that passes. -/
theorem countIf_pos_iff :
    0 < countIf test map ↔ ∃ key value, map[key]? = some value ∧ test key value = true := by
  constructor
  · intro positive
    obtain ⟨found, passes⟩ := List.exists_mem_of_length_pos
      (l := (map.filter test).toList) (by rw [ExtTreeMap.length_toList]; exact positive)
    obtain ⟨key, value⟩ := found
    rw [ExtTreeMap.mem_toList_iff_getElem?_eq_some, getElem?_filter_eq_some_iff] at passes
    exact ⟨key, value, passes⟩
  · rintro ⟨key, value, present, passes⟩
    have counted := countIf_erase test present
    rw [if_pos passes] at counted
    omega

/-- A filter keeps no more than there was. -/
theorem countIf_filter_le (keep : α → β → Bool) :
    countIf test (map.filter keep) ≤ countIf test map := by
  have commutes : (map.filter keep).filter test = (map.filter test).filter keep := by
    apply ExtTreeMap.ext_getElem?
    intro other
    rw [ExtTreeMap.getElem?_filter', ExtTreeMap.getElem?_filter', ExtTreeMap.getElem?_filter',
      ExtTreeMap.getElem?_filter', Option.filter_filter, Option.filter_filter]
    congr 1
    funext found
    exact Bool.and_comm _ _
  unfold countIf
  rw [commutes]
  exact ExtTreeMap.size_filter_le_size

theorem countIf_empty : countIf test (∅ : ExtTreeMap α β cmp) = 0 := by
  by_contra nonzero
  obtain ⟨key, value, present, _⟩ := countIf_pos_iff.mp (Nat.pos_of_ne_zero nonzero)
  simp at present

/-- The number of entries that pass a test is the number of their keys. -/
theorem countIf_eq_ncard : countIf test map =
    {key | ∃ value, map[key]? = some value ∧ test key value = true}.ncard := by
  classical
  have passing : {key | ∃ value, map[key]? = some value ∧ test key value = true} =
      ↑(map.filter test).keys.toFinset := by
    ext key
    rw [List.coe_toFinset, Set.mem_ofPred_eq, Set.mem_ofPred_eq, ExtTreeMap.mem_keys,
      ExtTreeMap.mem_iff_isSome_getElem?, Option.isSome_iff_exists]
    simp only [getElem?_filter_eq_some_iff]
  rw [passing, Set.ncard_coe_finset, List.toFinset_card_of_nodup ExtTreeMap.nodup_keys,
    ExtTreeMap.length_keys, countIf]

/-! ## The greatest key -/

/-- The greatest key of a map. -/
def lastKey? (map : ExtTreeMap α β cmp) : Option α :=
  map.keys.getLast?

omit [LawfulEqCmp cmp] in
theorem lastKey?_eq_none_iff : lastKey? map = none ↔ map = ∅ := by
  rw [lastKey?, List.getLast?_eq_none_iff, ExtTreeMap.keys_eq_nil_iff]

theorem mem_of_lastKey?_eq_some {last : α} (isLast : lastKey? map = some last) :
    ∃ value, map[last]? = some value := by
  have member : last ∈ map.keys := List.mem_of_getLast? isLast
  rw [ExtTreeMap.mem_keys] at member
  exact ⟨map[last], ExtTreeMap.getElem?_eq_some_getElem member⟩

omit [TransCmp cmp] [LawfulEqCmp cmp] in
/-- The last key of an ordered list is the greatest. -/
private theorem getLast?_greatest {keys : List α} (ordered : keys.Pairwise (cmp · · = .lt))
    {last : α} (isLast : keys.getLast? = some last) {other : α} (member : other ∈ keys) :
    other = last ∨ cmp other last = .lt := by
  induction keys using List.reverseRecOn with
  | nil => simp at member
  | append_singleton front final _ =>
      rw [List.getLast?_concat, Option.some.injEq] at isLast
      subst final
      rcases List.mem_append.mp member with inFront | isFinal
      · right
        rw [List.pairwise_append] at ordered
        exact ordered.2.2 other inFront last (by simp)
      · left
        simpa using isFinal

/-- No present key exceeds the greatest one. -/
theorem le_lastKey? {last other : α} (isLast : lastKey? map = some last)
    (present : map[other]? = some value) : other = last ∨ cmp other last = .lt := by
  apply getLast?_greatest (ExtTreeMap.ordered_keys (t := map)) isLast
  rw [ExtTreeMap.mem_keys, ← ExtTreeMap.contains_iff_mem, ExtTreeMap.contains_eq_isSome_getElem?,
    present]
  rfl

/-! ## Agreeing parts -/

/-- Two maps that list the same entries for some of the keys agree on those keys. -/
theorem getElem?_eq_of_toList {first second : ExtTreeMap α β cmp} (chosen : α → Bool)
    (listed : first.toList.filter (fun entry => chosen entry.1) =
      second.toList.filter fun entry => chosen entry.1)
    (isChosen : chosen key = true) : first[key]? = second[key]? := by
  have present : ∀ value, first[key]? = some value ↔ second[key]? = some value := by
    intro value
    have member := congrArg ((key, value) ∈ ·) listed
    simpa [List.mem_filter, isChosen, ExtTreeMap.mem_toList_iff_getElem?_eq_some] using member
  exact Option.ext present

/-! ## Gained keys -/

/-- A map that gained exactly the keys of a list counts those it did not have. -/
theorem size_of_gained {before after : ExtTreeMap α β cmp} {keys : List α} (nodup : keys.Nodup)
    (gained : ∀ key, (after[key]?).isSome ↔ (before[key]?).isSome ∨ key ∈ keys) :
    after.size = before.size + keys.countP fun key => (before[key]?).isNone := by
  have contents : after.keys.Perm
      (before.keys ++ keys.filter fun key => (before[key]?).isNone) := by
    rw [List.perm_ext_iff_of_nodup ExtTreeMap.nodup_keys]
    · intro key
      rw [ExtTreeMap.mem_keys, ExtTreeMap.mem_iff_isSome_getElem?, gained, List.mem_append,
        ExtTreeMap.mem_keys, ExtTreeMap.mem_iff_isSome_getElem?, List.mem_filter]
      cases before[key]? <;> simp
    · rw [List.nodup_append]
      refine ⟨ExtTreeMap.nodup_keys, nodup.filter _, ?_⟩
      rintro key inBefore _ inNew rfl
      rw [ExtTreeMap.mem_keys, ExtTreeMap.mem_iff_isSome_getElem?] at inBefore
      have absent := (List.mem_filter.mp inNew).2
      cases found : before[key]? <;> simp [found] at inBefore absent
  rw [← ExtTreeMap.length_keys, contents.length_eq, List.length_append, ExtTreeMap.length_keys,
    List.countP_eq_length_filter]

end OfflineFs.Map
