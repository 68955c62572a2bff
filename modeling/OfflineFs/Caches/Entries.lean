import OfflineFs.Caches.Tokens
import OfflineFs.Map.Handles
import OfflineFs.Model.PathCache

/-!
# The entries of a path cache

What links the map of paths, the queue, the count and the entries of a
`PathCache_hash`, and that each change its code makes keeps them linked.  While a
lookup climbs, the keys it has inserted map to entries without values.
-/

namespace OfflineFs

open Std OfflineFs.Map

namespace PathCacheState

variable {cache : PathCacheState} {key : Bytes} {cen : Nat} {data : CEntryData}
variable {blank : Bytes → Prop}

/-- The state after an entry was given its values. -/
def initialized (cache : PathCacheState) (cen : Nat) (data : CEntryData) : PathCacheState :=
  { cache.pushBack cen data with nentries := cache.nentries + 1 }

/-! ## Reading a changed cache -/

section Reading

variable (cache : PathCacheState) (key : Bytes) (cen other : Nat) (data : CEntryData)

theorem heap_insertBlank : (cache.insertBlank key).heap[other]? =
    if cache.nextEntry = other then some none else cache.heap[other]? :=
  getElem?_insert_eq_ite other

theorem paths_insertBlank (path : Bytes) : (cache.insertBlank key).paths[path]? =
    if key = path then some cache.nextEntry else cache.paths[path]? :=
  getElem?_insert_eq_ite path

theorem heap_eraseBlank : (cache.eraseBlank key cen).heap[other]? =
    if cen = other then none else cache.heap[other]? :=
  getElem?_erase_eq_ite other

theorem paths_eraseBlank (path : Bytes) : (cache.eraseBlank key cen).paths[path]? =
    if key = path then none else cache.paths[path]? :=
  getElem?_erase_eq_ite path

theorem heap_pushBack : (cache.pushBack cen data).heap[other]? =
    if cen = other then some (some { data with queueIt := cache.nextIt })
      else cache.heap[other]? :=
  getElem?_insert_eq_ite other

theorem heap_initialized : (cache.initialized cen data).heap[other]? =
    if cen = other then some (some { data with queueIt := cache.nextIt })
      else cache.heap[other]? :=
  getElem?_insert_eq_ite other

theorem heap_deleted : (cache.deleted cen data).heap[other]? =
    if cen = other then none else cache.heap[other]? :=
  getElem?_erase_eq_ite other

theorem paths_deleted (path : Bytes) : (cache.deleted cen data).paths[path]? =
    if data.path = path then none else cache.paths[path]? :=
  getElem?_erase_eq_ite path

theorem heap_setParent (parent : Nat) : (cache.setParent cen parent).heap[other]? =
    if cen = other then
      (cache.heap[other]?).map (·.map fun data => { data with parent := some parent })
    else cache.heap[other]? := by
  rw [setParent, ExtTreeMap.getElem?_modify]
  simp only [LawfulEqCmp.compare_eq_iff_eq]
  by_cases same : cen = other
  · simp [same]
  · simp [same]

end Reading

/-! ## Linked entries -/

/-- An entry with values is stored under its path, stands in the queue where it
says, and points at the entry of its parent as long as that one has data. -/
structure Stored (cache : PathCacheState) (cen : Nat) (data : CEntryData) : Prop where
  keyed : cache.paths[data.path]? = some cen
  queued : (data.queueIt, cen) ∈ cache.queue
  linked : data.path ≠ [] → ∃ parent, data.parent = some parent ∧ parent < cache.nextEntry ∧
    (cache.heap[parent]? ≠ none → cache.paths[parentKey data.path]? = some parent)

/-- Entries that have data later had data before, under the same keys. -/
def Survives (before after : PathCacheState) : Prop :=
  before.nextEntry ≤ after.nextEntry ∧
    ∀ cen, cen < before.nextEntry → after.heap[cen]? ≠ none →
      before.heap[cen]? ≠ none ∧
        ∀ key : Bytes, before.paths[key]? = some cen → after.paths[key]? = some cen

/-- The link of an entry to its parent outlasts a change. -/
theorem Stored.stillLinked {before after : PathCacheState} (stored : before.Stored cen data)
    (survives : Survives before after) (nonroot : data.path ≠ []) :
    ∃ parent, data.parent = some parent ∧ parent < after.nextEntry ∧
      (after.heap[parent]? ≠ none → after.paths[parentKey data.path]? = some parent) := by
  obtain ⟨parent, isParent, parentBelow, valid⟩ := stored.linked nonroot
  refine ⟨parent, isParent, Nat.lt_of_lt_of_le parentBelow survives.1, fun parentPresent => ?_⟩
  have was := survives.2 parent parentBelow parentPresent
  exact was.2 _ (valid was.1)

theorem Stored.survive {before after : PathCacheState} (stored : before.Stored cen data)
    (below : cen < before.nextEntry) (survives : Survives before after)
    (present : after.heap[cen]? ≠ none) (queued : (data.queueIt, cen) ∈ after.queue) :
    after.Stored cen data where
  keyed := (survives.2 cen below present).2 _ stored.keyed
  queued := queued
  linked := stored.stillLinked survives

/-- The representation invariant, with the keys of the entries that are blank. -/
structure Linked (blank : Bytes → Prop) (cache : PathCacheState) : Prop where
  limit : 0 < cache.maxentries
  counted : cache.nentries = cache.queue.length
  handles : Handles cache.queue cache.nextIt
  entry : ∀ cen data, cache.heap[cen]? = some (some data) → cache.Stored cen data
  queued : ∀ it cen, (it, cen) ∈ cache.queue →
    ∃ data, cache.heap[cen]? = some (some data) ∧ data.queueIt = it
  keyed : ∀ (key : Bytes) (cen : Nat), cache.paths[key]? = some cen →
    (blank key ∧ cache.heap[cen]? = some none) ∨
      ¬ blank key ∧ ∃ data, cache.heap[cen]? = some (some data) ∧ data.path = key
  distinct : ∀ (key other : Bytes) (cen : Nat), cache.paths[key]? = some cen →
    cache.paths[other]? = some cen → key = other
  fresh : ∀ cen : Nat, cache.nextEntry ≤ cen → cache.heap[cen]? = none

/-- No entry is blank. -/
def NoBlank : Bytes → Prop :=
  fun _ => False

theorem linked_initial : PathCacheState.initial.Linked NoBlank where
  limit := by decide
  counted := rfl
  handles := .nil _
  entry cen data present := by simp [initial] at present
  queued it cen member := absurd member List.not_mem_nil
  keyed key cen present := by simp [initial] at present
  distinct key other cen present := by simp [initial] at present
  fresh cen _ := by simp [initial]

namespace Linked

/-- The entry of a key that is not blank has values. -/
theorem data_of_key (linked : cache.Linked blank) (stored : cache.paths[key]? = some cen)
    (apart : ¬ blank key) :
    ∃ data, cache.heap[cen]? = some (some data) ∧ data.path = key :=
  ((linked.keyed key cen stored).resolve_left fun left => apart left.1).2

theorem lt_next {state : Option CEntryData} (linked : cache.Linked blank)
    (present : cache.heap[cen]? = some state) : cen < cache.nextEntry := by
  by_contra beyond
  rw [linked.fresh cen (Nat.le_of_not_lt beyond)] at present
  cases present

/-- A new entry without values is linked, and is blank. -/
theorem insertBlank (linked : cache.Linked blank) (missing : cache.paths[key]? = none) :
    (cache.insertBlank key).Linked fun other => blank other ∨ other = key := by
  have old : ∀ path : Bytes, cache.paths[path]? ≠ some cache.nextEntry := by
    intro path found
    rcases linked.keyed path _ found with ⟨_, present⟩ | ⟨_, data, present, _⟩
    · exact absurd (linked.lt_next present) (Nat.lt_irrefl _)
    · exact absurd (linked.lt_next present) (Nat.lt_irrefl _)
  have survives : Survives cache (cache.insertBlank key) := by
    refine ⟨Nat.le_succ _, fun other below present => ⟨?_, fun path found => ?_⟩⟩
    · rwa [heap_insertBlank, if_neg (Nat.ne_of_gt below)] at present
    · rw [paths_insertBlank, if_neg, found]
      rintro rfl
      rw [missing] at found
      cases found
  constructor
  · exact linked.limit
  · exact linked.counted
  · exact linked.handles
  · intro cen data present
    have below : (cache.insertBlank key).heap[cen]? ≠ none := by simp [present]
    rw [heap_insertBlank] at present
    split at present
    · cases present
    · exact (linked.entry cen data present).survive (linked.lt_next present) survives below
        (linked.entry cen data present).queued
  · intro it cen member
    obtain ⟨data, present, handle⟩ := linked.queued it cen member
    refine ⟨data, ?_, handle⟩
    rw [heap_insertBlank, if_neg (Nat.ne_of_gt (linked.lt_next present))]
    exact present
  · intro path cen stored
    rw [paths_insertBlank] at stored
    split at stored
    · rename_i same
      cases stored
      exact .inl ⟨.inr same.symm, by rw [heap_insertBlank, if_pos rfl]⟩
    · rename_i apart
      rcases linked.keyed path cen stored with
        ⟨isBlank, present⟩ | ⟨notBlank, data, present, pathEq⟩
      · refine .inl ⟨.inl isBlank, ?_⟩
        rw [heap_insertBlank, if_neg (Nat.ne_of_gt (linked.lt_next present)), present]
      · refine .inr ⟨?_, data, ?_, pathEq⟩
        · rintro (isBlank | same)
          · exact notBlank isBlank
          · exact apart same.symm
        · rw [heap_insertBlank, if_neg (Nat.ne_of_gt (linked.lt_next present)), present]
  · intro path other cen found otherFound
    rw [paths_insertBlank] at found otherFound
    split at found <;> split at otherFound
    · rename_i first second
      exact first.symm.trans second
    · cases found
      exact absurd otherFound (old other)
    · cases otherFound
      exact absurd found (old path)
    · exact linked.distinct path other cen found otherFound
  · intro cen beyond
    have beyond' : cache.nextEntry + 1 ≤ cen := beyond
    rw [heap_insertBlank, if_neg (by omega)]
    exact linked.fresh cen (by omega)

section Blank

variable (linked : cache.Linked fun other => blank other ∨ other = key)
variable (stored : cache.paths[key]? = some cen) (isBlank : cache.heap[cen]? = some none)
variable (apart : ¬ blank key)

include linked stored isBlank apart

omit apart in
/-- The rollback of a blank entry. -/
theorem eraseBlank : (cache.eraseBlank key cen).Linked blank := by
  have survives : Survives cache (cache.eraseBlank key cen) := by
    refine ⟨Nat.le_refl _, fun other _ present => ?_⟩
    rw [heap_eraseBlank] at present
    split at present
    · exact absurd rfl present
    · rename_i differs
      refine ⟨present, fun path found => ?_⟩
      rw [paths_eraseBlank, if_neg, found]
      rintro rfl
      rw [stored] at found
      exact differs (Option.some.inj found)
  constructor
  · exact linked.limit
  · exact linked.counted
  · exact linked.handles
  · intro other data present
    have there : (cache.eraseBlank key cen).heap[other]? ≠ none := by simp [present]
    rw [heap_eraseBlank] at present
    split at present
    · cases present
    · exact (linked.entry other data present).survive (linked.lt_next present) survives there
        (linked.entry other data present).queued
  · intro it other member
    obtain ⟨data, present, handle⟩ := linked.queued it other member
    refine ⟨data, ?_, handle⟩
    rw [heap_eraseBlank, if_neg, present]
    rintro rfl
    rw [isBlank] at present
    cases present
  · intro path other found
    rw [paths_eraseBlank] at found
    split at found
    · cases found
    · rename_i differs
      have notErased : cen ≠ other := by
        rintro rfl
        exact differs (linked.distinct key path cen stored found)
      rw [heap_eraseBlank, if_neg notErased]
      rcases linked.keyed path other found with ⟨blankPath, present⟩ | ⟨notBlank, present⟩
      · exact .inl ⟨blankPath.resolve_right fun same => differs same.symm, present⟩
      · exact .inr ⟨fun blankPath => notBlank (.inl blankPath), present⟩
  · intro path other entry found otherFound
    rw [paths_eraseBlank] at found otherFound
    split at found
    · cases found
    · split at otherFound
      · cases otherFound
      · exact linked.distinct path other entry found otherFound
  · intro other beyond
    rw [heap_eraseBlank]
    split
    · rfl
    · exact linked.fresh other beyond

/-- The initialization of a blank entry. -/
theorem initialized (pathEq : data.path = key)
    (rooted : key ≠ [] → ∃ parent, data.parent = some parent ∧ parent < cache.nextEntry ∧
      cache.paths[parentKey key]? = some parent) :
    (cache.initialized cen data).Linked blank := by
  have survives : Survives cache (cache.initialized cen data) := by
    refine ⟨Nat.le_refl _, fun other _ present => ⟨?_, fun path found => found⟩⟩
    rw [heap_initialized] at present
    split at present
    · rename_i same
      simp [← same, isBlank]
    · exact present
  have notQueued : ∀ it, (it, cen) ∉ cache.queue := by
    intro it member
    obtain ⟨data, present, _⟩ := linked.queued it cen member
    rw [isBlank] at present
    cases present
  constructor
  · exact linked.limit
  · have counted := linked.counted
    simp only [PathCacheState.initialized, pushBack, List.length_append, List.length_singleton]
    omega
  · exact linked.handles.pushBack cen
  · intro other otherData present
    have there : (cache.initialized cen data).heap[other]? ≠ none := by simp [present]
    rw [heap_initialized] at present
    split at present
    · rename_i same
      subst same
      cases present
      refine ⟨?_, List.mem_append_right _ (List.mem_singleton.mpr rfl), fun nonroot => ?_⟩
      · rw [← pathEq] at stored
        exact stored
      · obtain ⟨parent, isParent, below, found⟩ := rooted (pathEq ▸ nonroot)
        exact ⟨parent, isParent, below, fun _ => by rw [← pathEq] at found; exact found⟩
    · exact (linked.entry other otherData present).survive (linked.lt_next present) survives there
        (List.mem_append_left _ (linked.entry other otherData present).queued)
  · intro it other member
    rw [heap_initialized]
    rcases List.mem_append.mp member with old | new
    · obtain ⟨otherData, present, handle⟩ := linked.queued it other old
      refine ⟨otherData, ?_, handle⟩
      rw [if_neg, present]
      rintro rfl
      exact notQueued it old
    · cases List.mem_singleton.mp new
      exact ⟨_, if_pos rfl, rfl⟩
  · intro path other found
    rw [heap_initialized]
    by_cases same : cen = other
    · subst same
      have isKey := linked.distinct path key cen found stored
      subst isKey
      exact .inr ⟨apart, _, if_pos rfl, pathEq⟩
    · rw [if_neg same]
      rcases linked.keyed path other found with ⟨blankPath, present⟩ | ⟨notBlank, present⟩
      · refine .inl ⟨blankPath.resolve_right ?_, present⟩
        rintro rfl
        exact same (Option.some.inj (stored.symm.trans found))
      · exact .inr ⟨fun blankPath => notBlank (.inl blankPath), present⟩
  · exact linked.distinct
  · intro other beyond
    rw [heap_initialized, if_neg]
    · exact linked.fresh other beyond
    · rintro rfl
      rw [linked.fresh cen beyond] at isBlank
      cases isBlank

end Blank

/-- Pointing an entry at the entry of its parent path. -/
theorem setParent {parent : Nat} (linked : cache.Linked blank)
    (present : cache.heap[cen]? = some (some data)) (below : parent < cache.nextEntry)
    (isParent : cache.paths[parentKey data.path]? = some parent) :
    (cache.setParent cen parent).Linked blank := by
  have survives : Survives cache (cache.setParent cen parent) := by
    refine ⟨Nat.le_refl _, fun other _ there => ⟨?_, fun path found => found⟩⟩
    rw [heap_setParent] at there
    split at there
    · rename_i same
      simp [← same, present]
    · exact there
  constructor
  · exact linked.limit
  · exact linked.counted
  · exact linked.handles
  · intro other otherData otherPresent
    have there : (cache.setParent cen parent).heap[other]? ≠ none := by simp [otherPresent]
    rw [heap_setParent] at otherPresent
    split at otherPresent
    · rename_i same
      subst same
      rw [present] at otherPresent
      cases otherPresent
      have old := linked.entry cen data present
      exact ⟨old.keyed, old.queued, fun _ => ⟨parent, rfl, below, fun _ => isParent⟩⟩
    · exact (linked.entry other otherData otherPresent).survive (linked.lt_next otherPresent)
        survives there (linked.entry other otherData otherPresent).queued
  · intro it other member
    obtain ⟨otherData, otherPresent, handle⟩ := linked.queued it other member
    rw [heap_setParent]
    split
    · exact ⟨{ otherData with parent := some parent }, by rw [otherPresent]; rfl, handle⟩
    · exact ⟨otherData, otherPresent, handle⟩
  · intro path other found
    rw [heap_setParent]
    rcases linked.keyed path other found with
      ⟨blankPath, isBlank⟩ | ⟨notBlank, otherData, otherPresent, pathEq⟩
    · refine .inl ⟨blankPath, ?_⟩
      rw [isBlank]
      split <;> rfl
    · refine .inr ⟨notBlank, ?_⟩
      split
      · exact ⟨{ otherData with parent := some parent }, by rw [otherPresent]; rfl, pathEq⟩
      · exact ⟨otherData, otherPresent, pathEq⟩
  · exact linked.distinct
  · intro other beyond
    rw [heap_setParent, linked.fresh other beyond]
    split <;> rfl

/-- `delEntry`. -/
theorem deleted (linked : cache.Linked blank)
    (present : cache.heap[cen]? = some (some data)) : (cache.deleted cen data).Linked blank := by
  have entry := linked.entry cen data present
  have survives : Survives cache (cache.deleted cen data) := by
    refine ⟨Nat.le_refl _, fun other _ there => ?_⟩
    rw [heap_deleted] at there
    split at there
    · exact absurd rfl there
    · rename_i differs
      refine ⟨there, fun path found => ?_⟩
      rw [paths_deleted, if_neg, found]
      rintro rfl
      rw [entry.keyed] at found
      exact differs (Option.some.inj found)
  have differs : ∀ it other, (it, other) ∈ cache.queue → it ≠ data.queueIt → cen ≠ other := by
    rintro it other member apart rfl
    obtain ⟨otherData, otherPresent, handle⟩ := linked.queued it cen member
    rw [present] at otherPresent
    cases otherPresent
    exact apart handle.symm
  constructor
  · exact linked.limit
  · have counted := linked.counted
    have shorter := linked.handles.length_filter entry.queued
    simp only [PathCacheState.deleted]
    omega
  · exact linked.handles.filter _
  · intro other otherData otherPresent
    have there : (cache.deleted cen data).heap[other]? ≠ none := by simp [otherPresent]
    rw [heap_deleted] at otherPresent
    split at otherPresent
    · cases otherPresent
    · rename_i apart
      have old := linked.entry other otherData otherPresent
      refine old.survive (linked.lt_next otherPresent) survives there
        (Handles.mem_filter_iff.mpr ⟨old.queued, ?_⟩)
      intro sameHandle
      have member := old.queued
      rw [show otherData.queueIt = data.queueIt from sameHandle] at member
      exact apart (linked.handles.unique entry.queued member)
  · intro it other member
    obtain ⟨inQueue, apart⟩ := Handles.mem_filter_iff.mp member
    obtain ⟨otherData, otherPresent, handle⟩ := linked.queued it other inQueue
    refine ⟨otherData, ?_, handle⟩
    rw [heap_deleted, if_neg (differs it other inQueue apart), otherPresent]
  · intro path other found
    rw [paths_deleted] at found
    split at found
    · cases found
    · rename_i apart
      have notDeleted : cen ≠ other := by
        rintro rfl
        exact apart (linked.distinct _ _ _ entry.keyed found)
      rw [heap_deleted, if_neg notDeleted]
      exact linked.keyed path other found
  · intro path other entry found otherFound
    rw [paths_deleted] at found otherFound
    split at found
    · cases found
    · split at otherFound
      · cases otherFound
      · exact linked.distinct path other entry found otherFound
  · intro other beyond
    rw [heap_deleted]
    split
    · rfl
    · exact linked.fresh other beyond

/-- Moving an entry to the back of the queue. -/
theorem promoted (linked : cache.Linked blank)
    (present : cache.heap[cen]? = some (some data)) :
    ((cache.eraseIt data.queueIt).pushBack cen data).Linked blank := by
  have entry := linked.entry cen data present
  have survives : Survives cache ((cache.eraseIt data.queueIt).pushBack cen data) := by
    refine ⟨Nat.le_refl _, fun other _ there => ⟨?_, fun path found => found⟩⟩
    rw [heap_pushBack] at there
    split at there
    · rename_i same
      simp [← same, present]
    · exact there
  have heapEq : ∀ other : Nat, ((cache.eraseIt data.queueIt).pushBack cen data).heap[other]? =
      if cen = other then some (some { data with queueIt := cache.nextIt })
        else cache.heap[other]? :=
    fun other => heap_pushBack _ _ _ _
  constructor
  · exact linked.limit
  · have counted := linked.counted
    have shorter := linked.handles.length_filter entry.queued
    simp only [pushBack, eraseIt, List.length_append, List.length_singleton]
    omega
  · exact (linked.handles.filter _).pushBack cen
  · intro other otherData otherPresent
    have there : ((cache.eraseIt data.queueIt).pushBack cen data).heap[other]? ≠ none := by
      simp [otherPresent]
    rw [heapEq] at otherPresent
    split at otherPresent
    · rename_i same
      subst same
      cases otherPresent
      exact ⟨entry.keyed, List.mem_append_right _ (List.mem_singleton.mpr rfl),
        entry.stillLinked survives⟩
    · rename_i apart
      have old := linked.entry other otherData otherPresent
      refine old.survive (linked.lt_next otherPresent) survives there
        (List.mem_append_left _ (Handles.mem_filter_iff.mpr ⟨old.queued, ?_⟩))
      intro sameHandle
      have member := old.queued
      rw [show otherData.queueIt = data.queueIt from sameHandle] at member
      exact apart (linked.handles.unique entry.queued member)
  · intro it other member
    rw [heapEq]
    rcases List.mem_append.mp member with old | new
    · obtain ⟨inQueue, apart⟩ := Handles.mem_filter_iff.mp old
      obtain ⟨otherData, otherPresent, handle⟩ := linked.queued it other inQueue
      refine ⟨otherData, ?_, handle⟩
      rw [if_neg, otherPresent]
      rintro rfl
      rw [present] at otherPresent
      cases otherPresent
      exact apart handle.symm
    · cases List.mem_singleton.mp new
      exact ⟨_, if_pos rfl, rfl⟩
  · intro path other found
    rw [heapEq]
    rcases linked.keyed path other found with
      ⟨blankPath, isBlank⟩ | ⟨notBlank, otherData, otherPresent, pathEq⟩
    · refine .inl ⟨blankPath, ?_⟩
      rw [if_neg, isBlank]
      rintro rfl
      rw [present] at isBlank
      cases isBlank
    · refine .inr ⟨notBlank, ?_⟩
      split
      · rename_i same
        subst same
        rw [present] at otherPresent
        cases otherPresent
        exact ⟨_, rfl, pathEq⟩
      · exact ⟨otherData, otherPresent, pathEq⟩
  · exact linked.distinct
  · intro other beyond
    rw [heapEq, if_neg]
    · exact linked.fresh other beyond
    · rintro rfl
      rw [linked.fresh cen beyond] at present
      cases present

end Linked

end PathCacheState

end OfflineFs
