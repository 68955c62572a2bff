import Mathlib.Logic.Function.Basic
import OfflineFs.Caches.Lookup

/-!
# What a path cache remembers

What is known of a path follows from the entries of the cache and from the databases: the
nearest entry above the path stands for its directory.  How many entries a climb to the root
adds, and whether a lookup on the way overruns the table of the cache, follow from that.
-/

namespace OfflineFs

open OfflineFs.Effect OfflineFs.Effect.Program

/-! ## What is remembered -/

/-- What the cache remembers of the paths it has an entry for. -/
abbrev Memory : Type :=
  Bytes → Option CEntryInfo

/-- How many keys the lookup of a path inserts. -/
def Memory.gap (memory : Memory) : List Bytes → Nat
  | [] => if (memory (keyOf [])).isSome then 0 else 1
  | leaf :: up => if (memory (keyOf (leaf :: up))).isSome then 0 else gap memory up + 1

theorem lt_nextBuckets (buckets : Nat) : buckets < nextBuckets buckets := by
  unfold nextBuckets
  cases found : bucketCounts.find? (buckets < ·) with
  | none =>
      rw [Option.getD_none]
      omega
  | some larger =>
      have above := List.find?_some found
      rw [decide_eq_true_eq] at above
      exact above

namespace Dbs

variable (dbs : Dbs) (sctx : SContext) (memory : Memory)

/-- What the entry of a path remembers, or would remember: the nearest entry above the
path stands for its directory. -/
def known : List Bytes → Except Err CEntryInfo
  | [] =>
      match memory (keyOf []) with
      | some info => .ok info
      | none => dbs.entryAt []
  | leaf :: up =>
      match memory (keyOf (leaf :: up)) with
      | some info => .ok info
      | none =>
          match known up with
          | .error e => .error e
          | .ok parent => dbs.childInfo parent.nodeid leaf

/-- The path does not exist, or denies the caller the search. -/
def stops (tokens : List Bytes) : Bool :=
  match dbs.known memory tokens with
  | .error _ => true
  | .ok info => info.denies sctx

/-- The entries that looking a path up adds for the path alone. -/
def addedFor (tokens : List Bytes) : Nat :=
  match memory (keyOf tokens), dbs.known memory tokens with
  | none, .ok _ => 1
  | _, _ => 0

/-- The entries that a climb from a path to the root adds.  Once it was stopped it gets
no further than the nearest entry. -/
def added : List Bytes → Bool → Nat
  | [], _ => dbs.addedFor memory []
  | leaf :: up, stopped =>
      if (memory (keyOf (leaf :: up))).isSome ∧
          (stopped || dbs.stops sctx memory (leaf :: up)) then 0
      else dbs.addedFor memory (leaf :: up) +
        added up (stopped || dbs.stops sctx memory (leaf :: up))

/-- What is remembered after a path was looked up. -/
def fill : List Bytes → Memory
  | [] =>
      match dbs.known memory [] with
      | .ok info => Function.update memory (keyOf []) (some info)
      | .error _ => memory
  | leaf :: up =>
      if (memory (keyOf (leaf :: up))).isSome then memory
      else
        match dbs.known memory (leaf :: up) with
        | .ok info => Function.update (fill up) (keyOf (leaf :: up)) (some info)
        | .error _ => fill up

/-- The caller may search every directory on the way to the path, and it exists. -/
def Finds : List Bytes → Prop
  | [] => ∃ info, dbs.known memory [] = .ok info
  | leaf :: up =>
      (∀ higher, higher <:+ up → dbs.stops sctx memory higher = false) ∧
        ∃ info, dbs.known memory (leaf :: up) = .ok info

/-- The entries that a call leaves that does not find its path. -/
def leaves : List Bytes → Nat
  | [] => 0
  | _ :: up => dbs.added sctx memory up false

/-- The lookup of a path erases what it inserted after the table has grown: an iterator that
it uses dangles. -/
def Overruns (table : Map.Table) (tokens : List Bytes) : Prop :=
  (∃ e, dbs.known memory tokens = .error e) ∧ table.Outgrown nextBuckets (memory.gap tokens)

/-- Some lookup of a climb from a path to the root does. -/
def ClimbOverruns (memory : Memory) (table : Map.Table) : List Bytes → Prop
  | [] => dbs.Overruns memory table []
  | leaf :: up =>
      dbs.Overruns memory table (leaf :: up) ∨
        dbs.stops sctx memory (leaf :: up) = false ∧
          ClimbOverruns (dbs.fill memory (leaf :: up))
            (table.enters nextBuckets (memory.gap (leaf :: up))) up

/-- Some lookup of a call does.  The last one inserts no more than one key. -/
def CallOverruns (memory : Memory) (table : Map.Table) : List Bytes → Prop
  | [] => False
  | _ :: up => dbs.ClimbOverruns sctx memory table up

instance {α : Type} (result : Except Err α) : Decidable (∃ e, result = .error e) :=
  match result with
  | .ok _ => isFalse (by rintro ⟨_, same⟩; cases same)
  | .error e => isTrue ⟨e, rfl⟩

instance (table : Map.Table) (tokens : List Bytes) :
    Decidable (dbs.Overruns memory table tokens) :=
  inferInstanceAs (Decidable (_ ∧ _))

instance decidableClimbOverruns (memory : Memory) (table : Map.Table) (tokens : List Bytes) :
    Decidable (dbs.ClimbOverruns sctx memory table tokens) :=
  match tokens with
  | [] => inferInstanceAs (Decidable (dbs.Overruns memory table []))
  | leaf :: up =>
      have := decidableClimbOverruns (dbs.fill memory (leaf :: up))
        (table.enters nextBuckets (memory.gap (leaf :: up))) up
      inferInstanceAs (Decidable (_ ∨ _ ∧ _))

instance (table : Map.Table) (tokens : List Bytes) :
    Decidable (dbs.CallOverruns sctx memory table tokens) :=
  match tokens with
  | [] => inferInstanceAs (Decidable False)
  | _ :: up => inferInstanceAs (Decidable (dbs.ClimbOverruns sctx memory table up))

variable {dbs sctx memory}

theorem known_of_memory {tokens : List Bytes} {info : CEntryInfo}
    (remembered : memory (keyOf tokens) = some info) : dbs.known memory tokens = .ok info := by
  cases tokens <;> simp only [known, remembered]

/-- A path that is not known is known to fail. -/
theorem known_of_missing {tokens : List Bytes}
    (missing : ¬ ∃ info, dbs.known memory tokens = .ok info) :
    ∃ e, dbs.known memory tokens = .error e := by
  cases stated : dbs.known memory tokens with
  | ok info => exact absurd ⟨info, stated⟩ missing
  | error e => exact ⟨e, rfl⟩

/-- Nothing is remembered of a path that is known to fail. -/
theorem memory_of_error {tokens : List Bytes} {e : Err}
    (failed : dbs.known memory tokens = .error e) : memory (keyOf tokens) = none := by
  cases remembered : memory (keyOf tokens) with
  | none => rfl
  | some info =>
      rw [known_of_memory remembered] at failed
      cases failed

theorem known_up {leaf : Bytes} {up : List Bytes} (missing : memory (keyOf (leaf :: up)) = none) :
    dbs.known memory (leaf :: up) =
      match dbs.known memory up with
      | .error e => .error e
      | .ok parent => dbs.childInfo parent.nodeid leaf := by
  simp only [known, missing]

/-- Where nothing is remembered a path has the entry that a walk finds. -/
theorem known_nothing (tokens : List Bytes) :
    dbs.known (fun _ => none) tokens = dbs.entryAt tokens := by
  induction tokens with
  | nil => rfl
  | cons leaf up ih =>
      rw [known_up rfl, ih]
      rfl

/-- Remembering what is known of a path teaches nothing about any other. -/
theorem known_update {tokens others : List Bytes} {info : CEntryInfo} (proper : Proper tokens)
    (found : dbs.known memory tokens = .ok info) (othersProper : Proper others) :
    dbs.known (Function.update memory (keyOf tokens) (some info)) others =
      dbs.known memory others := by
  by_cases same : others = tokens
  · subst same
    rw [found, known_of_memory (Function.update_self _ _ _)]
  · have apart : keyOf others ≠ keyOf tokens := mt (keyOf_inj othersProper proper).mp same
    induction others with
    | nil => simp only [known, Function.update_of_ne apart]
    | cons leaf up ih =>
        have upProper := (Proper.cons_iff.mp othersProper).2
        have above : dbs.known (Function.update memory (keyOf tokens) (some info)) up =
            dbs.known memory up := by
          by_cases sameUp : up = tokens
          · subst sameUp
            rw [found, known_of_memory (Function.update_self _ _ _)]
          · exact ih upProper sameUp (mt (keyOf_inj upProper proper).mp sameUp)
        simp only [known, Function.update_of_ne apart, above]

/-- What is remembered from the databases does not change what is known. -/
theorem known_fill {tokens others : List Bytes} (proper : Proper tokens)
    (othersProper : Proper others) :
    dbs.known (dbs.fill memory tokens) others = dbs.known memory others := by
  induction tokens generalizing others with
  | nil =>
      rw [fill]
      split
      · rename_i info found
        exact known_update proper found othersProper
      · rfl
  | cons leaf up ih =>
      have upProper := (Proper.cons_iff.mp proper).2
      rw [fill]
      split
      · rfl
      · split
        · rename_i info found
          have still : dbs.known (dbs.fill memory up) (leaf :: up) = .ok info :=
            (ih upProper proper).trans found
          rw [known_update proper still othersProper, ih upProper othersProper]
        · exact ih upProper othersProper

theorem stops_fill {tokens others : List Bytes} (proper : Proper tokens)
    (othersProper : Proper others) :
    dbs.stops sctx (dbs.fill memory tokens) others = dbs.stops sctx memory others := by
  rw [stops, known_fill proper othersProper, stops]

/-- Only the path and what is above it matter. -/
theorem added_congr {other : Memory} {tokens : List Bytes} {stopped : Bool}
    (memories : ∀ up, up <:+ tokens → other (keyOf up) = memory (keyOf up))
    (knowledge : ∀ up, up <:+ tokens → dbs.known other up = dbs.known memory up) :
    dbs.added sctx other tokens stopped = dbs.added sctx memory tokens stopped := by
  have own : ∀ up, up <:+ tokens → dbs.addedFor other up = dbs.addedFor memory up := by
    intro up suffix
    rw [addedFor, memories up suffix, knowledge up suffix, addedFor]
  induction tokens generalizing stopped with
  | nil => exact own [] (List.suffix_refl _)
  | cons leaf up ih =>
      have here := List.suffix_refl (leaf :: up)
      have above : ∀ higher, higher <:+ up → higher <:+ leaf :: up :=
        fun higher suffix => suffix.trans (List.suffix_cons leaf up)
      have stopsHere : dbs.stops sctx other (leaf :: up) = dbs.stops sctx memory (leaf :: up) := by
        rw [stops, knowledge _ here, stops]
      rw [added, memories _ here, stopsHere, own _ here,
        ih (fun higher suffix => memories higher (above higher suffix))
        (fun higher suffix => knowledge higher (above higher suffix))
        fun higher suffix => own higher (above higher suffix), added]

theorem addedFor_eq_one {tokens : List Bytes} {info : CEntryInfo}
    (missing : memory (keyOf tokens) = none) (found : dbs.known memory tokens = .ok info) :
    dbs.addedFor memory tokens = 1 := by
  rw [addedFor, missing, found]

theorem addedFor_of_memory {tokens : List Bytes} {info : CEntryInfo}
    (remembered : memory (keyOf tokens) = some info) : dbs.addedFor memory tokens = 0 := by
  rw [addedFor, remembered]

theorem addedFor_of_error {tokens : List Bytes} {e : Err}
    (failed : dbs.known memory tokens = .error e) : dbs.addedFor memory tokens = 0 := by
  rw [addedFor, failed]
  split <;> simp_all

theorem fill_of_memory {tokens : List Bytes} {info : CEntryInfo}
    (remembered : memory (keyOf tokens) = some info) : dbs.fill memory tokens = memory := by
  cases tokens with
  | nil =>
      rw [fill, known_of_memory remembered]
      exact Function.update_eq_self_iff.mpr remembered.symm
  | cons leaf up =>
      rw [fill, if_pos (by rw [remembered]; rfl)]

/-- Looking a path up remembers it. -/
theorem fill_self {tokens : List Bytes} {info : CEntryInfo}
    (found : dbs.known memory tokens = .ok info) :
    dbs.fill memory tokens (keyOf tokens) = some info := by
  cases remembered : memory (keyOf tokens) with
  | some other =>
      have same := (known_of_memory remembered).symm.trans found
      cases same
      rw [fill_of_memory remembered, remembered]
  | none =>
      cases tokens with
      | nil => rw [fill, found]; exact Function.update_self _ _ _
      | cons leaf up =>
          rw [fill, if_neg (by simp [remembered]), found]
          exact Function.update_self _ _ _

/-- Looking a path up remembers the same of what is above as looking that up. -/
theorem fill_above {leaf : Bytes} {up higher : List Bytes} (proper : Proper (leaf :: up))
    (missing : memory (keyOf (leaf :: up)) = none) (suffix : higher <:+ up) :
    dbs.fill memory (leaf :: up) (keyOf higher) = dbs.fill memory up (keyOf higher) := by
  have apart := keyOf_ne_of_suffix proper suffix
  rw [fill, if_neg (by simp [missing])]
  cases dbs.known memory (leaf :: up) with
  | ok info => exact Function.update_of_ne apart _ _
  | error e => rfl

theorem added_of_missing {leaf : Bytes} {up : List Bytes} {stopped : Bool}
    (missing : memory (keyOf (leaf :: up)) = none) :
    dbs.added sctx memory (leaf :: up) stopped = dbs.addedFor memory (leaf :: up) +
      dbs.added sctx memory up (stopped || dbs.stops sctx memory (leaf :: up)) := by
  rw [added, if_neg (by simp [missing])]

theorem added_of_memory {leaf : Bytes} {up : List Bytes} (stopped : Bool) {info : CEntryInfo}
    (remembered : memory (keyOf (leaf :: up)) = some info) :
    dbs.added sctx memory (leaf :: up) stopped =
      if stopped || dbs.stops sctx memory (leaf :: up) then 0
      else dbs.added sctx memory up false := by
  rw [added, addedFor_of_memory remembered, remembered]
  cases stopped || dbs.stops sctx memory (leaf :: up) <;> simp

theorem added_of_stored {tokens : List Bytes} {info : CEntryInfo}
    (remembered : memory (keyOf tokens) = some info) :
    dbs.added sctx memory tokens true = 0 := by
  cases tokens with
  | nil => exact addedFor_of_memory remembered
  | cons leaf up => rw [added_of_memory true remembered, Bool.true_or, if_pos rfl]

/-- Looking a missing path up adds nothing where its parent is remembered. -/
theorem added_of_failed {leaf : Bytes} {up : List Bytes} {info : CEntryInfo} {e : Err}
    (failed : dbs.known memory (leaf :: up) = .error e)
    (remembered : memory (keyOf up) = some info) :
    dbs.added sctx memory (leaf :: up) true = 0 := by
  rw [added_of_missing (memory_of_error failed), addedFor_of_error failed, Bool.true_or,
    added_of_stored remembered]

theorem added_of_stops {tokens : List Bytes} (stops : dbs.stops sctx memory tokens = true) :
    dbs.added sctx memory tokens true = dbs.added sctx memory tokens false := by
  cases tokens with
  | nil => rfl
  | cons leaf up => rw [added, added, stops, Bool.or_true, Bool.or_true]

theorem stops_of_memory {tokens : List Bytes} {info : CEntryInfo}
    (remembered : memory (keyOf tokens) = some info) :
    dbs.stops sctx memory tokens = decide (info.denies sctx) := by
  rw [stops, known_of_memory remembered]

theorem stops_of_error {tokens : List Bytes} {e : Err}
    (failed : dbs.known memory tokens = .error e) : dbs.stops sctx memory tokens = true := by
  rw [stops, failed]

theorem forall_suffix_cons {leaf : Bytes} {up : List Bytes} {property : List Bytes → Prop} :
    (∀ higher, higher <:+ leaf :: up → property higher) ↔
      property (leaf :: up) ∧ ∀ higher, higher <:+ up → property higher := by
  simp only [List.suffix_cons_iff, or_imp, forall_and, forall_eq]

/-- A path that is found and then climbed from adds what climbing from it adds. -/
theorem added_fill {tokens : List Bytes} (proper : Proper tokens) {info : CEntryInfo}
    (found : dbs.known memory tokens = .ok info) :
    dbs.added sctx memory tokens true + dbs.added sctx (dbs.fill memory tokens) tokens false =
      dbs.added sctx memory tokens false := by
  induction tokens generalizing info with
  | nil =>
      have nothing : dbs.addedFor (dbs.fill memory []) [] = 0 :=
        addedFor_of_memory (fill_self found)
      simp only [added, nothing, Nat.add_zero]
  | cons leaf up ih =>
      have upProper := (Proper.cons_iff.mp proper).2
      cases remembered : memory (keyOf (leaf :: up)) with
      | some other =>
          rw [fill_of_memory remembered, added_of_memory true remembered,
            Bool.true_or, if_pos rfl, Nat.zero_add]
      | none =>
          obtain ⟨upInfo, foundUp⟩ : ∃ upInfo, dbs.known memory up = .ok upInfo := by
            rw [known_up remembered] at found
            cases above : dbs.known memory up with
            | ok upInfo => exact ⟨upInfo, rfl⟩
            | error e => simp [above] at found
          have again : dbs.added sctx (dbs.fill memory (leaf :: up)) up false =
              dbs.added sctx (dbs.fill memory up) up false := by
            apply added_congr
            · exact fun higher suffix => fill_above proper remembered suffix
            · intro higher suffix
              have higherProper := upProper.of_suffix suffix
              rw [known_fill proper higherProper, known_fill upProper higherProper]
          have whole := ih upProper foundUp
          rw [added_of_missing remembered, added_of_missing remembered,
            added_of_memory false (fill_self found), stops_fill proper proper, again]
          cases dbs.stops sctx memory (leaf :: up) with
          | true => simp
          | false =>
              simp only [Bool.true_or, Bool.false_or, Bool.false_eq_true, if_false]
              omega

/-! ### Overruns -/

section Overruns

variable {table : Map.Table} {tokens up : List Bytes} {leaf : Bytes} {info : CEntryInfo} {e : Err}

theorem gap_of_memory (remembered : memory (keyOf tokens) = some info) : memory.gap tokens = 0 := by
  cases tokens <;> simp only [Memory.gap, remembered, Option.isSome_some, if_true]

theorem gap_nil (missing : memory (keyOf []) = none) : memory.gap [] = 1 := by
  simp [Memory.gap, missing]

theorem gap_cons (missing : memory (keyOf (leaf :: up)) = none) :
    memory.gap (leaf :: up) = memory.gap up + 1 := by
  simp [Memory.gap, missing]

theorem not_overruns (found : dbs.known memory tokens = .ok info) :
    ¬ dbs.Overruns memory table tokens := by
  rintro ⟨⟨e, failed⟩, -⟩
  rw [found] at failed
  cases failed

theorem overruns_iff (failed : dbs.known memory tokens = .error e) :
    dbs.Overruns memory table tokens ↔ table.Outgrown nextBuckets (memory.gap tokens) :=
  and_iff_right ⟨e, failed⟩

/-- A climb from a path that does not exist ends with its lookup. -/
theorem climbOverruns_of_error (failed : dbs.known memory tokens = .error e) :
    dbs.ClimbOverruns sctx memory table tokens ↔ dbs.Overruns memory table tokens := by
  cases tokens with
  | nil => rfl
  | cons leaf up =>
      rw [ClimbOverruns, stops_of_error failed]
      simp

/-- A climb from a path that is cached goes on with its parent. -/
theorem climbOverruns_of_memory (remembered : memory (keyOf (leaf :: up)) = some info) :
    dbs.ClimbOverruns sctx memory table (leaf :: up) ↔
      dbs.stops sctx memory (leaf :: up) = false ∧ dbs.ClimbOverruns sctx memory table up := by
  rw [ClimbOverruns, or_iff_right (not_overruns (known_of_memory remembered)),
    fill_of_memory remembered, gap_of_memory remembered, Map.Table.enters_zero]

/-- A climb from a path that exists goes on where its lookup leaves it. -/
theorem climbOverruns_of_ok (proper : Proper tokens)
    (found : dbs.known memory tokens = .ok info) :
    dbs.ClimbOverruns sctx memory table tokens ↔
      dbs.ClimbOverruns sctx (dbs.fill memory tokens)
        (table.enters nextBuckets (memory.gap tokens)) tokens := by
  have filled := fill_self found
  cases tokens with
  | nil => exact iff_of_false (not_overruns found) (not_overruns (known_of_memory filled))
  | cons leaf up =>
      rw [climbOverruns_of_memory filled, ClimbOverruns, or_iff_right (not_overruns found),
        stops_fill proper proper]

/-- A climb over directories that all exist overruns nothing. -/
theorem not_climbOverruns (proper : Proper tokens)
    (found : ∀ higher, higher <:+ tokens → ∃ info, dbs.known memory higher = .ok info) :
    ¬ dbs.ClimbOverruns sctx memory table tokens := by
  induction tokens generalizing memory table with
  | nil =>
      obtain ⟨info, known⟩ := found [] (List.suffix_refl _)
      exact not_overruns known
  | cons leaf up ih =>
      rw [forall_suffix_cons] at found
      obtain ⟨⟨info, known⟩, above⟩ := found
      have parts := Proper.cons_iff.mp proper
      rintro (overruns | ⟨-, climbs⟩)
      · exact not_overruns known overruns
      · refine ih parts.2 (fun higher suffix => ?_) climbs
        rw [known_fill proper (parts.2.of_suffix suffix)]
        exact above higher suffix

end Overruns

end Dbs

/-! ## The memory of a cache -/

namespace PathCacheState

variable {cache : PathCacheState} {key : Bytes} {cen : Nat} {data : CEntryData}
variable {blank : Bytes → Prop}

/-- What the entries that have values remember, by their keys. -/
def remembers (cache : PathCacheState) : Memory := fun key =>
  match cache.paths[key]? with
  | none => none
  | some cen =>
      match cache.heap[cen]? with
      | some (some data) => some data.info
      | _ => none

theorem remembers_of_stored (stored : cache.paths[key]? = some cen)
    (present : cache.heap[cen]? = some (some data)) : cache.remembers key = some data.info := by
  simp only [remembers, stored, present]

theorem remembers_of_missing (missing : cache.paths[key]? = none) :
    cache.remembers key = none := by
  simp only [remembers, missing]

theorem remembers_initial : PathCacheState.initial.remembers = fun _ => none := by
  funext key
  exact remembers_of_missing (by simp [initial])

theorem remembers_of_blank (stored : cache.paths[key]? = some cen)
    (present : cache.heap[cen]? = some none) : cache.remembers key = none := by
  simp only [remembers, stored, present]

namespace Linked

/-- Every key of the map has an entry, blank or not. -/
theorem present (linked : cache.Linked blank) (stored : cache.paths[key]? = some cen) :
    ∃ state, cache.heap[cen]? = some state := by
  rcases linked.keyed key cen stored with ⟨-, isBlank⟩ | ⟨-, data, isData, -⟩
  · exact ⟨none, isBlank⟩
  · exact ⟨some data, isData⟩

/-- An entry without values remembers nothing. -/
theorem remembers_insertBlank (linked : cache.Linked blank) (missing : cache.paths[key]? = none) :
    (cache.insertBlank key).remembers = cache.remembers := by
  funext other
  by_cases same : key = other
  · subst same
    rw [remembers_of_missing missing]
    apply @remembers_of_blank _ _ cache.nextEntry
    · rw [paths_insertBlank, if_pos rfl]
    · rw [heap_insertBlank, if_pos rfl]
  · cases stored : cache.paths[other]? with
    | none =>
        rw [remembers_of_missing stored, remembers_of_missing]
        rw [paths_insertBlank, if_neg same, stored]
    | some cen =>
        obtain ⟨state, present⟩ := linked.present stored
        have old : cache.nextEntry ≠ cen := Nat.ne_of_gt (linked.lt_next present)
        simp only [remembers, paths_insertBlank, if_neg same, stored, heap_insertBlank, if_neg old]

/-- Erasing an entry without values forgets nothing. -/
theorem remembers_eraseBlank (linked : cache.Linked blank) (stored : cache.paths[key]? = some cen)
    (isBlank : cache.heap[cen]? = some none) :
    (cache.eraseBlank key cen).remembers = cache.remembers := by
  funext other
  by_cases same : key = other
  · subst same
    rw [remembers_of_blank stored isBlank, remembers_of_missing]
    rw [paths_eraseBlank, if_pos rfl]
  · cases storedOther : cache.paths[other]? with
    | none =>
        rw [remembers_of_missing storedOther, remembers_of_missing]
        rw [paths_eraseBlank, if_neg same, storedOther]
    | some otherCen =>
        have apart : cen ≠ otherCen := by
          rintro rfl
          exact same (linked.distinct key other cen stored storedOther)
        simp only [remembers, paths_eraseBlank, if_neg same, storedOther, heap_eraseBlank,
          if_neg apart]

/-- An entry that gets values remembers them. -/
theorem remembers_initialized (linked : cache.Linked blank)
    (stored : cache.paths[key]? = some cen) (data : CEntryData) :
    (cache.initialized cen data).remembers =
      Function.update cache.remembers key (some data.info) := by
  have paths : (cache.initialized cen data).paths = cache.paths := rfl
  funext other
  by_cases same : other = key
  · subst same
    rw [Function.update_self]
    simp only [remembers, paths, stored, heap_initialized, if_pos]
    rfl
  · rw [Function.update_of_ne same]
    cases storedOther : cache.paths[other]? with
    | none => simp only [remembers, paths, storedOther]
    | some otherCen =>
        have apart : cen ≠ otherCen := by
          rintro rfl
          exact same (linked.distinct key other cen stored storedOther).symm
        simp only [remembers, paths, storedOther, heap_initialized, if_neg apart]

end Linked

theorem remembers_setParent (cache : PathCacheState) (cen parent : Nat) :
    (cache.setParent cen parent).remembers = cache.remembers := by
  have paths : (cache.setParent cen parent).paths = cache.paths := rfl
  funext other
  cases stored : cache.paths[other]? with
  | none => simp only [remembers, paths, stored]
  | some otherCen =>
      simp only [remembers, paths, stored, heap_setParent]
      by_cases same : cen = otherCen
      · simp only [if_pos same]
        rcases cache.heap[otherCen]? with _ | _ | data <;> rfl
      · simp only [if_neg same]

end PathCacheState

end OfflineFs
