import OfflineFs.Caches.Memory

/-!
# How a path cache grows

What a lookup and a climb add to the entries and to the table behind them, and how they end.
They return or throw unless a lookup that throws overruns the table.
-/

namespace OfflineFs

open OfflineFs.Effect OfflineFs.Effect.Program OfflineFs.Map

namespace PathCacheState

variable {cache : PathCacheState} {key : Bytes}

theorem table_insertBlank (missing : cache.paths[key]? = none) :
    (cache.insertBlank key).table = cache.table.enter nextBuckets := by
  have absent : key ∉ cache.paths := by
    rw [Std.ExtTreeMap.mem_iff_isSome_getElem?, missing]
    exact Bool.false_ne_true
  have size : (cache.insertBlank key).paths.size = cache.paths.size + 1 := by
    rw [insertBlank, Std.ExtTreeMap.size_insert]
    exact if_neg absent
  rw [table, size]
  rfl

end PathCacheState

namespace PathCache_hash

open PathCacheState

/-! ## One lookup -/

/-- What a lookup adds, and that it ends as what is known of the path says. -/
structure Fills (sctx : SContext) (world : World) (tokens : List Bytes)
    (result : Outcome Err Nat × World) : Prop where
  outcome : match world.dbs.known world.cache.remembers tokens with
    | .ok _ => ∃ cen, result.1 = .ok cen
    | .error e => result.1 =
        if world.cache.table.Outgrown nextBuckets (world.cache.remembers.gap tokens) then
          .fault .undefined
        else .error e
  buckets : result.2.cache.buckets =
    (world.cache.table.enters nextBuckets (world.cache.remembers.gap tokens)).buckets
  table : ∀ cen, result.1 = .ok cen → result.2.cache.table =
    world.cache.table.enters nextBuckets (world.cache.remembers.gap tokens)
  remembers : Ended result.1 →
    result.2.cache.remembers = world.dbs.fill world.cache.remembers tokens
  nentries : Ended result.1 → result.2.cache.nentries =
    world.cache.nentries + world.dbs.added sctx world.cache.remembers tokens true

namespace Fills

variable {sctx : SContext} {world after : World} {tokens : List Bytes} {e : Err} {cen : Nat}
variable {result : Outcome Err Nat × World}

/-- A lookup throws what the databases and the remembered values say. -/
theorem known_of_error (fills : Fills sctx world tokens (.error e, after)) :
    world.dbs.known world.cache.remembers tokens = .error e := by
  have outcome := fills.outcome
  cases stated : world.dbs.known world.cache.remembers tokens with
  | ok info =>
      rw [stated] at outcome
      obtain ⟨cen, impossible⟩ := outcome
      cases impossible
  | error other =>
      rw [stated] at outcome
      simp only at outcome
      split at outcome
      · cases outcome
      · cases outcome
        rfl

theorem known_of_ok (fills : Fills sctx world tokens (.ok cen, after)) :
    ∃ info, world.dbs.known world.cache.remembers tokens = .ok info := by
  have outcome := fills.outcome
  cases stated : world.dbs.known world.cache.remembers tokens with
  | ok info => exact ⟨info, rfl⟩
  | error other =>
      rw [stated] at outcome
      simp only at outcome
      split at outcome <;> cases outcome

/-- A lookup ends unless it overruns the table. -/
theorem ended_iff (fills : Fills sctx world tokens result) :
    Ended result.1 ↔ ¬ world.dbs.Overruns world.cache.remembers world.cache.table tokens := by
  have outcome := fills.outcome
  cases stated : world.dbs.known world.cache.remembers tokens with
  | ok info =>
      rw [stated] at outcome
      obtain ⟨cen, returned⟩ := outcome
      rw [returned]
      exact iff_of_true (ended_ok cen) (Dbs.not_overruns stated)
  | error e =>
      rw [stated] at outcome
      rw [outcome, Dbs.overruns_iff stated]
      split
      · rename_i outgrown
        exact iff_of_false (fun ended => ended _ rfl) (fun calm => calm outgrown)
      · rename_i calm
        exact iff_of_true (ended_error e) calm

/-- An entry that is there is used as it is. -/
theorem of_cached {blank : Bytes → Prop} (linked : world.cache.Linked blank)
    (apart : ¬ blank (keyOf tokens)) (cached : world.cache.paths[keyOf tokens]? = some cen) :
    Fills sctx world tokens (.ok cen, world.withCache world.cache) := by
  obtain ⟨data, present, -⟩ := linked.data_of_key cached apart
  have remembered := remembers_of_stored cached present
  have gap := Dbs.gap_of_memory remembered
  constructor
  · rw [Dbs.known_of_memory remembered]
    exact ⟨cen, rfl⟩
  · rw [gap]
    rfl
  · intro _ _
    rw [gap]
    rfl
  · intro _
    rw [Dbs.fill_of_memory remembered]
    rfl
  · intro _
    rw [Dbs.added_of_stored remembered]
    simp

/-- A lookup whose blank entry could not be initialized. -/
theorem of_thrown {init : Nat → FsProg Unit} {middle : PathCacheState} {count : Nat}
    (missing : world.cache.paths[keyOf tokens]? = none)
    (known : world.dbs.known world.cache.remembers tokens = .error e)
    (gap : world.cache.remembers.gap tokens = count + 1)
    (inits : exec (init world.cache.nextEntry)
      (world.withCache (world.cache.insertBlank (keyOf tokens))) =
        (.error e, world.withCache middle))
    (buckets : middle.buckets =
      ((world.cache.table.enter nextBuckets).enters nextBuckets count).buckets)
    (remembers : (middle.eraseBlank (keyOf tokens) world.cache.nextEntry).remembers =
      world.dbs.fill world.cache.remembers tokens)
    (nentries : middle.nentries =
      world.cache.nentries + world.dbs.added sctx world.cache.remembers tokens true) :
    Fills sctx world tokens (exec (lookupKey (keyOf tokens) init) world) := by
  have inserted : (world.cache.insertBlank (keyOf tokens)).buckets =
      (world.cache.table.enter nextBuckets).buckets :=
    rfl
  have outgrown : world.cache.table.Outgrown nextBuckets (count + 1) ↔ _ :=
    Table.outgrown_succ_iff lt_nextBuckets
  rw [← buckets, ← inserted, ← gap] at outgrown
  have total : middle.buckets =
      (world.cache.table.enters nextBuckets (world.cache.remembers.gap tokens)).buckets := by
    rw [gap, Table.enters_succ, buckets]
  by_cases same : middle.buckets = (world.cache.insertBlank (keyOf tokens)).buckets
  · rw [exec_lookupKey_error missing inits same]
    constructor
    · rw [known]
      exact (if_neg fun more => outgrown.mp more same).symm
    · exact total
    · intro _ impossible
      cases impossible
    · exact fun _ => remembers
    · exact fun _ => nentries
  · rw [exec_lookupKey_dangling missing inits same]
    constructor
    · rw [known]
      exact (if_pos (outgrown.mpr same)).symm
    · exact total
    · intro _ impossible
      cases impossible
    · exact fun ended => absurd rfl (ended .undefined)
    · exact fun ended => absurd rfl (ended .undefined)

/-- A lookup whose blank entry was initialized. -/
theorem of_made {init : Nat → FsProg Unit} {middle : PathCacheState} {count : Nat}
    {info : CEntryInfo} {data : CEntryData} (missing : world.cache.paths[keyOf tokens]? = none)
    (known : world.dbs.known world.cache.remembers tokens = .ok info)
    (gap : world.cache.remembers.gap tokens = count + 1)
    (inits : exec (init world.cache.nextEntry)
      (world.withCache (world.cache.insertBlank (keyOf tokens))) =
        (.ok (), world.withCache (middle.initialized world.cache.nextEntry data)))
    (table : middle.table = (world.cache.table.enter nextBuckets).enters nextBuckets count)
    (remembers : (middle.initialized world.cache.nextEntry data).remembers =
      world.dbs.fill world.cache.remembers tokens)
    (nentries : middle.nentries + 1 =
      world.cache.nentries + world.dbs.added sctx world.cache.remembers tokens true) :
    Fills sctx world tokens (exec (lookupKey (keyOf tokens) init) world) := by
  have total : middle.table =
      world.cache.table.enters nextBuckets (world.cache.remembers.gap tokens) := by
    rw [gap, Table.enters_succ, table]
  rw [exec_lookupKey_ok missing inits]
  constructor
  · rw [known]
    exact ⟨_, rfl⟩
  · rw [← total]
    rfl
  · exact fun _ _ => total
  · exact fun _ => remembers
  · exact fun _ => nentries

/-- The lookup of the root. -/
theorem of_root {blank : Bytes → Prop} (linked : world.cache.Linked blank)
    (missing : world.cache.paths[keyOf []]? = none) :
    Fills sctx world [] (exec (lookup []) world) := by
  have forgotten := remembers_of_missing missing
  have gap := Dbs.gap_nil forgotten
  have unchanged := linked.remembers_insertBlank missing
  have known : world.dbs.known world.cache.remembers [] = world.dbs.entryAt [] := by
    simp only [Dbs.known, forgotten]
  have inits := exec_initEntry_root world.cache.nextEntry
    (world.withCache (world.cache.insertBlank (keyOf [])))
  have stored : (world.cache.insertBlank (keyOf [])).paths[keyOf []]? =
      some world.cache.nextEntry := by
    rw [paths_insertBlank, if_pos rfl]
  have isBlank : (world.cache.insertBlank (keyOf [])).heap[world.cache.nextEntry]? =
      some none := by
    rw [heap_insertBlank, if_pos rfl]
  have blanked := linked.insertBlank missing
  rw [lookup_nil]
  cases found : world.dbs.entryAt [] with
  | error e =>
      simp only [World.withCache_dbs, found] at inits
      apply Fills.of_thrown missing (known.trans found) gap inits rfl
      · rw [blanked.remembers_eraseBlank stored isBlank, unchanged, Dbs.fill, known.trans found]
      · simp [Dbs.added, Dbs.addedFor_of_error (known.trans found), insertBlank]
  | ok info =>
      simp only [World.withCache_dbs, found] at inits
      apply Fills.of_made missing (known.trans found) gap inits (table_insertBlank missing)
      · rw [blanked.remembers_initialized stored, unchanged, Dbs.fill, known.trans found]
        rfl
      · simp [Dbs.added, Dbs.addedFor_eq_one forgotten (known.trans found), insertBlank]

/-! ### A path below another -/

section Below

variable {blank within : Bytes → Prop} {leaf : Bytes} {up : List Bytes} {last : World}
variable {outcome : Outcome Err Nat} {middle : PathCacheState}
variable (linked : world.cache.Linked blank)
variable (missing : world.cache.paths[keyOf (leaf :: up)]? = none)
variable (fillsUp : Fills sctx
  (world.withCache (world.cache.insertBlank (keyOf (leaf :: up)))) up (outcome, last))

include linked missing fillsUp

/-- The blank entry of the path counts for the table, and for nothing else. -/
theorem above_buckets : last.cache.buckets = ((world.cache.table.enter nextBuckets).enters
    nextBuckets (world.cache.remembers.gap up)).buckets := by
  rw [fillsUp.buckets, World.withCache_cache, linked.remembers_insertBlank missing,
    table_insertBlank missing]

theorem above_remembers (ended : Ended outcome) :
    last.cache.remembers = world.dbs.fill world.cache.remembers up := by
  refine (fillsUp.remembers ended).trans ?_
  rw [World.withCache_cache, linked.remembers_insertBlank missing]
  rfl

theorem above_nentries (ended : Ended outcome) : last.cache.nentries =
    world.cache.nentries + world.dbs.added sctx world.cache.remembers up true := by
  refine (fillsUp.nentries ended).trans ?_
  rw [World.withCache_cache, linked.remembers_insertBlank missing]
  rfl

theorem above_outcome : match world.dbs.known world.cache.remembers up with
    | .ok _ => ∃ cen, outcome = .ok cen
    | .error e => outcome =
        if (world.cache.table.enter nextBuckets).Outgrown nextBuckets
          (world.cache.remembers.gap up) then .fault .undefined
        else .error e := by
  have outcomeUp := fillsUp.outcome
  rwa [World.withCache_cache, World.withCache_dbs, linked.remembers_insertBlank missing,
    table_insertBlank missing] at outcomeUp

omit fillsUp in
/-- The lookup above overruns the table, and so does this one. -/
theorem of_stuck {stop : Fault}
    (fillsUp : Fills sctx (world.withCache (world.cache.insertBlank (keyOf (leaf :: up)))) up
      (.fault stop, last))
    (result : exec (lookup up) (world.withCache (world.cache.insertBlank (keyOf (leaf :: up)))) =
      (.fault stop, last)) :
    Fills sctx world (leaf :: up) (exec (lookup (leaf :: up)) world) := by
  have gap := Dbs.gap_cons (remembers_of_missing missing)
  have known : world.dbs.known _ _ = _ := Dbs.known_up (remembers_of_missing missing)
  have outcomeUp := above_outcome linked missing fillsUp
  rw [lookup_cons, exec_lookupKey_fault missing (by rw [exec_bind, result]; rfl)]
  cases knownUp : world.dbs.known world.cache.remembers up with
  | ok info =>
      rw [knownUp] at outcomeUp
      obtain ⟨cen, impossible⟩ := outcomeUp
      cases impossible
  | error e =>
      rw [knownUp] at known outcomeUp
      simp only at outcomeUp
      split at outcomeUp
      · rename_i outgrownUp
        have outgrown : world.cache.table.Outgrown nextBuckets
            (world.cache.remembers.gap (leaf :: up)) := by
          rw [gap]
          exact Nat.lt_of_le_of_lt (Table.buckets_le_enter lt_nextBuckets) outgrownUp
        constructor
        · rw [known]
          exact outcomeUp.trans (if_pos outgrown).symm
        · rw [gap, Table.enters_succ]
          exact above_buckets linked missing fillsUp
        · intro _ impossible
          cases impossible
        · exact fun ended => absurd rfl (ended stop)
        · exact fun ended => absurd rfl (ended stop)
      · cases outcomeUp

variable (climbed : LookedUp world.dbs (fun other => blank other ∨ other = keyOf (leaf :: up))
  within (world.cache.insertBlank (keyOf (leaf :: up))) middle)

include climbed

omit fillsUp in
/-- The path above is not found. -/
theorem of_missed
    (fillsUp : Fills sctx (world.withCache (world.cache.insertBlank (keyOf (leaf :: up)))) up
      (.error e, world.withCache middle))
    (result : exec (lookup up) (world.withCache (world.cache.insertBlank (keyOf (leaf :: up)))) =
      (.error e, world.withCache middle)) :
    Fills sctx world (leaf :: up) (exec (lookup (leaf :: up)) world) := by
  have forgotten := remembers_of_missing missing
  have known : world.dbs.known _ _ = _ := Dbs.known_up forgotten
  have knownUp := fillsUp.known_of_error
  rw [World.withCache_cache, World.withCache_dbs, linked.remembers_insertBlank missing] at knownUp
  have failed : world.dbs.known _ _ = .error e := known.trans (by rw [knownUp])
  have buckets : middle.buckets = _ := above_buckets linked missing fillsUp
  rw [lookup_cons]
  apply Fills.of_thrown missing failed (Dbs.gap_cons forgotten) (by rw [exec_bind, result]; rfl)
    buckets
  · rw [climbed.linked.remembers_eraseBlank climbed.blank_stored.1 climbed.blank_stored.2,
      Dbs.fill, failed]
    simp only [forgotten, Option.isSome_none, Bool.false_eq_true, if_false]
    exact above_remembers linked missing fillsUp (ended_error e)
  · rw [Dbs.added_of_missing forgotten, Dbs.addedFor_of_error failed, Bool.true_or, Nat.zero_add]
    exact above_nentries linked missing fillsUp (ended_error e)

omit fillsUp in
/-- The path above is found, and the path itself is looked up there. -/
theorem of_found {parent : Nat} {parentData : CEntryData} (proper : Proper up)
    (fillsUp : Fills sctx (world.withCache (world.cache.insertBlank (keyOf (leaf :: up)))) up
      (.ok parent, world.withCache middle))
    (result : exec (lookup up) (world.withCache (world.cache.insertBlank (keyOf (leaf :: up)))) =
      (.ok parent, world.withCache middle))
    (parentStored : middle.paths[keyOf up]? = some parent)
    (present : middle.heap[parent]? = some (some parentData)) :
    Fills sctx world (leaf :: up) (exec (lookup (leaf :: up)) world) := by
  have forgotten := remembers_of_missing missing
  have gap := Dbs.gap_cons forgotten
  have above : middle.remembers = _ := above_remembers linked missing fillsUp (ended_ok parent)
  have counted : middle.nentries = _ := above_nentries linked missing fillsUp (ended_ok parent)
  have buckets : middle.buckets = _ := above_buckets linked missing fillsUp
  have tableUp : middle.table = (world.cache.table.enter nextBuckets).enters nextBuckets
      (world.cache.remembers.gap up) := by
    refine (fillsUp.table parent rfl).trans ?_
    rw [World.withCache_cache, linked.remembers_insertBlank missing, table_insertBlank missing]
  have knownUp : world.dbs.known world.cache.remembers up = .ok parentData.info := by
    rw [← Dbs.known_fill proper proper, ← above]
    exact Dbs.known_of_memory (remembers_of_stored parentStored present)
  have known : world.dbs.known _ _ = _ := Dbs.known_up forgotten
  rw [knownUp] at known
  have inits := exec_initEntry_child (world.withCache middle) present world.cache.nextEntry leaf up
  have whole (end_ : Outcome Err Unit × World)
      (rest : exec (initEntry world.cache.nextEntry (some parent) (leaf :: up))
        (world.withCache middle) = end_) :
      exec (lookup up >>= fun parent =>
          initEntry world.cache.nextEntry (some parent) (leaf :: up))
        (world.withCache (world.cache.insertBlank (keyOf (leaf :: up)))) = end_ := by
    rw [exec_bind, result]
    exact rest
  rw [lookup_cons]
  cases child : world.dbs.childInfo parentData.nodeid leaf with
  | error e =>
      simp only [World.withCache_dbs, child] at inits
      have failed := known.trans child
      apply Fills.of_thrown missing failed gap (whole _ inits) buckets
      · rw [climbed.linked.remembers_eraseBlank climbed.blank_stored.1 climbed.blank_stored.2,
          above, Dbs.fill, failed]
        simp [forgotten]
      · rw [Dbs.added_of_missing forgotten, Dbs.addedFor_of_error failed, Bool.true_or,
          Nat.zero_add]
        exact counted
  | ok info =>
      simp only [World.withCache_dbs, child] at inits
      have succeeds := known.trans child
      apply Fills.of_made missing succeeds gap (whole _ inits) tableUp
      · rw [climbed.linked.remembers_initialized climbed.blank_stored.1, above, Dbs.fill, succeeds]
        simp only [forgotten, Option.isSome_none, Bool.false_eq_true, if_false]
        rfl
      · rw [Dbs.added_of_missing forgotten, Dbs.addedFor_eq_one forgotten succeeds, Bool.true_or,
          counted]
        push_cast
        ring

end Below

end Fills

/-- A lookup remembers each ancestor of the path from the root down to the first that is not
found. -/
theorem fills_lookup {blank : Bytes → Prop} {tokens : List Bytes} (proper : Proper tokens)
    (sctx : SContext) (world : World) (linked : world.cache.Linked blank)
    (apart : ∀ up, up <:+ tokens → ¬ blank (keyOf up)) :
    Fills sctx world tokens (exec (lookup tokens) world) := by
  induction tokens generalizing world blank with
  | nil =>
      cases cached : world.cache.paths[keyOf []]? with
      | some cen =>
          rw [exec_lookup_cached cached]
          exact .of_cached linked (apart [] (List.suffix_refl _)) cached
      | none => exact .of_root linked cached
  | cons leaf up ih =>
      have parts := Proper.cons_iff.mp proper
      cases cached : world.cache.paths[keyOf (leaf :: up)]? with
      | some cen =>
          rw [exec_lookup_cached cached]
          exact .of_cached linked (apart _ (List.suffix_refl _)) cached
      | none =>
          have apartUp := apart_above proper apart
          have blanked := linked.insertBlank cached
          have fillsUp := ih parts.2
            (world.withCache (world.cache.insertBlank (keyOf (leaf :: up)))) blanked apartUp
          have climbs := exec_lookup parts.2
            (world.withCache (world.cache.insertBlank (keyOf (leaf :: up)))) blanked apartUp
          rcases result : exec (lookup up)
            (world.withCache (world.cache.insertBlank (keyOf (leaf :: up)))) with ⟨outcome, last⟩
          rw [result] at fillsUp climbs
          cases outcome with
          | fault stop => exact .of_stuck linked cached fillsUp result
          | error e =>
              obtain ⟨middle, climbed, ⟨_, same, -⟩ | ⟨_, same, -⟩⟩ := climbs (ended_error e)
              · cases same
              · cases same
                exact .of_missed linked cached climbed fillsUp result
          | ok parent =>
              obtain ⟨middle, climbed, ⟨_, same, stored⟩ | ⟨_, same, -⟩⟩ :=
                climbs (ended_ok parent)
              · cases same
                obtain ⟨parentData, present, -⟩ := climbed.linked.data_of_key stored
                  (apartUp up (List.suffix_refl _))
                exact .of_found linked cached climbed parts.2 fillsUp result stored present
              · cases same

/-! ## A climb -/

/-- What a climb to the root adds, and whether it gets there. -/
structure Adds (sctx : SContext) (world : World) (tokens : List Bytes)
    (result : Outcome Err Unit × World) : Prop where
  nentries : result.2.cache.nentries =
    world.cache.nentries + world.dbs.added sctx world.cache.remembers tokens false
  knowledge : ∀ others, Proper others →
    world.dbs.known result.2.cache.remembers others =
      world.dbs.known world.cache.remembers others
  outcome : result.1 = .ok () ↔
    ∀ up, up <:+ tokens → world.dbs.stops sctx world.cache.remembers up = false

namespace Adds

variable {sctx : SContext} {world : World} {leaf : Bytes} {up : List Bytes} {cen : Nat}
variable {data : CEntryData} {middle : PathCacheState} {result : Outcome Err Unit × World} {e : Err}

/-- The climb ends at the root. -/
theorem of_root (linked : world.cache.Linked NoBlank)
    (stored : world.cache.paths[keyOf []]? = some cen) :
    Adds sctx world [] (exec (withPathFrom (checkAccess sctx) cen []) world) := by
  obtain ⟨data, present, -⟩ := linked.data_of_key stored id
  have remembered := remembers_of_stored stored present
  rw [withPathFrom, exec_checkAccess present sctx]
  constructor
  · rw [Dbs.added, Dbs.addedFor_of_memory remembered]
    simp
  · exact fun _ _ => rfl
  · simp only [List.suffix_nil, forall_eq, Dbs.stops_of_memory remembered, decide_eq_false_iff_not]
    split <;> simp_all

variable (remembered : world.cache.remembers (keyOf (leaf :: up)) = some data.info)

include remembered

/-- The caller may not search the path. -/
theorem of_denied (denied : data.info.denies sctx) :
    Adds sctx world (leaf :: up) (.error .access, world) := by
  have stops : world.dbs.stops sctx _ _ = _ := Dbs.stops_of_memory remembered
  rw [decide_eq_true denied] at stops
  constructor
  · rw [Dbs.added_of_memory false remembered, stops]
    simp
  · exact fun _ _ => rfl
  · simp [Dbs.forall_suffix_cons, stops]

variable (proper : Proper up) (grants : ¬ data.info.denies sctx)

include proper grants

/-- The climb goes on from the parent, in a cache that may have been filled. -/
theorem of_parent
    (counted : middle.nentries + world.dbs.added sctx middle.remembers up false =
      world.cache.nentries + world.dbs.added sctx world.cache.remembers up false)
    (same : ∀ others, Proper others →
      world.dbs.known middle.remembers others = world.dbs.known world.cache.remembers others)
    (climbs : Adds sctx (world.withCache middle) up result) :
    Adds sctx world (leaf :: up) result := by
  have stops : world.dbs.stops sctx _ _ = _ := Dbs.stops_of_memory remembered
  rw [decide_eq_false grants] at stops
  constructor
  · rw [climbs.nentries, Dbs.added_of_memory false remembered, stops, Bool.or_false,
      if_neg Bool.false_ne_true]
    exact counted
  · exact fun others othersProper =>
      (climbs.knowledge others othersProper).trans (same others othersProper)
  · rw [climbs.outcome, Dbs.forall_suffix_cons, and_iff_right stops]
    apply forall₂_congr
    intro higher suffix
    simp only [World.withCache_dbs, World.withCache_cache, Dbs.stops,
      same higher (proper.of_suffix suffix)]

/-- The entry of the parent was dropped, and the lookup finds it again. -/
theorem of_refilled (linked : middle.Linked NoBlank) {parent : Nat}
    (fills : Fills sctx world up (.ok parent, world.withCache middle))
    (stored : middle.paths[keyOf up]? = some parent)
    (climbs : Adds sctx (world.withCache (middle.setParent cen parent)) up result) :
    Adds sctx world (leaf :: up) result := by
  obtain ⟨parentData, present, -⟩ := linked.data_of_key stored id
  have filled : (middle.setParent cen parent).remembers =
      world.dbs.fill world.cache.remembers up :=
    (remembers_setParent _ _ _).trans (fills.remembers (ended_ok parent))
  have knownUp : world.dbs.known world.cache.remembers up = .ok parentData.info := by
    rw [← Dbs.known_fill proper proper, ← filled, remembers_setParent]
    exact Dbs.known_of_memory (remembers_of_stored stored present)
  apply of_parent remembered proper grants ?_ ?_ climbs
  · have counted : middle.nentries = _ := fills.nentries (ended_ok parent)
    have whole : world.dbs.added sctx _ _ _ + _ = _ := Dbs.added_fill proper knownUp
    rw [filled, ← whole]
    change middle.nentries + _ = _
    rw [counted]
    push_cast
    ring
  · intro others othersProper
    rw [filled, Dbs.known_fill proper othersProper]

/-- The entry of the parent was dropped, and the lookup throws. -/
theorem of_lost (fills : Fills sctx world up (.error e, world.withCache middle)) :
    Adds sctx world (leaf :: up) (.error e, world.withCache middle) := by
  have stops : world.dbs.stops sctx _ _ = _ := Dbs.stops_of_memory remembered
  have stopsUp : world.dbs.stops sctx _ _ = _ := Dbs.stops_of_error fills.known_of_error
  rw [decide_eq_false grants] at stops
  constructor
  · rw [Dbs.added_of_memory false remembered, stops, Bool.or_false, if_neg Bool.false_ne_true,
      ← Dbs.added_of_stops stopsUp]
    exact fills.nentries (ended_error e)
  · intro others othersProper
    rw [fills.remembers (ended_error e), Dbs.known_fill proper othersProper]
  · simp only [reduceCtorEq, false_iff]
    intro grantsAll
    have granted := grantsAll up (List.suffix_cons leaf up)
    rw [stopsUp] at granted
    cases granted

end Adds

/-- The climb from a path that is cached. -/
theorem adds_withPathFrom {tokens : List Bytes} {cen : Nat} (proper : Proper tokens)
    (sctx : SContext) (world : World) (linked : world.cache.Linked NoBlank)
    (stored : world.cache.paths[keyOf tokens]? = some cen)
    (ended : Ended (exec (withPathFrom (checkAccess sctx) cen tokens) world).1) :
    Adds sctx world tokens (exec (withPathFrom (checkAccess sctx) cen tokens) world) := by
  induction tokens generalizing cen world with
  | nil => exact .of_root linked stored
  | cons leaf up ih =>
      have parts := Proper.cons_iff.mp proper
      obtain ⟨data, present, pathEq⟩ := linked.data_of_key stored id
      have remembered := remembers_of_stored stored present
      rcases exec_withPathFrom_cons proper sctx linked present pathEq with
        ⟨denied, stops⟩ | ⟨denied, ⟨parent, parentStored, goes⟩ | goes⟩
      · rw [stops]
        exact .of_denied remembered denied
      · rw [goes] at ended ⊢
        have climbs := ih parts.2 world linked parentStored ended
        exact .of_parent remembered parts.2 denied rfl (fun _ _ => rfl) climbs
      · rw [goes] at ended ⊢
        obtain ⟨middle, found, result⟩ :=
          exec_lookup parts.2 world linked (fun _ _ => id) ended.of_andThen
        have fills := fills_lookup parts.2 sctx world linked fun _ _ => id
        rcases result with ⟨newParent, looked, newStored⟩ | ⟨e, looked, -⟩
        · have relinked : Served world.dbs (KeysAbove up) middle _ :=
            served_setParent proper linked present pathEq found newStored
          rw [looked] at fills
          rw [looked, Outcome.andThen_ok] at ended ⊢
          have climbs := ih parts.2 (world.withCache (middle.setParent cen newParent))
            relinked.linked newStored ended
          exact .of_refilled remembered parts.2 denied found.linked fills newStored climbs
        · rw [looked] at fills
          rw [looked, Outcome.andThen_error]
          exact .of_lost remembered parts.2 denied fills

/-- Checking the ancestors of a path adds the entries that the path needs. -/
theorem adds_withPath {tokens : List Bytes} (proper : Proper tokens) (sctx : SContext)
    (world : World) (linked : world.cache.Linked NoBlank)
    (ended : Ended (exec (withPath (checkAccess sctx) tokens) world).1) :
    Adds sctx world tokens (exec (withPath (checkAccess sctx) tokens) world) := by
  have fills := fills_lookup proper sctx world linked fun _ _ => id
  obtain ⟨middle, found, result⟩ := exec_lookup proper world linked (fun _ _ => id) ended.first
  rcases result with ⟨cen, looked, stored⟩ | ⟨e, looked, -⟩
  · rw [looked] at fills
    obtain ⟨info, known⟩ := fills.known_of_ok
    have climbs := adds_withPathFrom proper sctx (world.withCache middle) found.linked stored
      (ended.rest looked)
    have filled : middle.remembers = world.dbs.fill world.cache.remembers tokens :=
      fills.remembers (ended_ok cen)
    have counted : middle.nentries = _ := fills.nentries (ended_ok cen)
    simp only [withPath, exec_bind, looked, Outcome.andThen_ok]
    constructor
    · rw [climbs.nentries, World.withCache_cache, World.withCache_dbs, filled, counted,
        ← Dbs.added_fill proper known]
      push_cast
      ring
    · intro others othersProper
      refine (climbs.knowledge others othersProper).trans ?_
      rw [World.withCache_dbs, World.withCache_cache, filled, Dbs.known_fill proper othersProper]
    · rw [climbs.outcome]
      apply forall₂_congr
      intro up suffix
      rw [World.withCache_cache, World.withCache_dbs, filled,
        Dbs.stops_fill proper (proper.of_suffix suffix)]
  · rw [looked] at fills
    have stops : world.dbs.stops sctx _ _ = _ := Dbs.stops_of_error fills.known_of_error
    simp only [withPath, exec_bind, looked, Outcome.andThen_error]
    constructor
    · rw [← Dbs.added_of_stops stops]
      exact fills.nentries (ended_error e)
    · intro others othersProper
      rw [fills.remembers (ended_error e), Dbs.known_fill proper othersProper]
    · simp only [reduceCtorEq, false_iff]
      intro grants
      have granted := grants tokens (List.suffix_refl _)
      rw [stops] at granted
      cases granted

/-! ## How a call ends -/

/-- What follows a lookup ends as a climb from its path does, if it does so where the lookup
leaves it. -/
theorem ended_andThen_iff {tokens : List Bytes} (proper : Proper tokens) {sctx : SContext}
    {world : World} (linked : world.cache.Linked NoBlank)
    {next : Nat → World → Outcome Err Unit × World}
    (continues : ∀ cen middle,
      LookedUp world.dbs NoBlank (KeysAbove tokens) world.cache middle →
      middle.paths[keyOf tokens]? = some cen →
      (Ended (next cen (world.withCache middle)).1 ↔
        ¬ world.dbs.ClimbOverruns sctx middle.remembers middle.table tokens)) :
    Ended (Outcome.andThen (exec (lookup tokens) world) next).1 ↔
      ¬ world.dbs.ClimbOverruns sctx world.cache.remembers world.cache.table tokens := by
  have fills := fills_lookup proper sctx world linked fun _ _ => id
  by_cases ended : Ended (exec (lookup tokens) world).1
  · obtain ⟨middle, found, ⟨cen, looked, stored⟩ | ⟨e, looked, -⟩⟩ :=
      exec_lookup proper world linked (fun _ _ => id) ended
    · rw [looked] at fills ⊢
      obtain ⟨info, known⟩ := fills.known_of_ok
      have filled : middle.remembers = _ := fills.remembers (ended_ok cen)
      have table : middle.table = _ := fills.table cen rfl
      rw [Outcome.andThen_ok, continues cen middle found stored, filled, table,
        Dbs.climbOverruns_of_ok proper known]
    · have calm := fills.ended_iff.mp ended
      rw [looked] at fills ⊢
      rw [Outcome.andThen_error, Dbs.climbOverruns_of_error fills.known_of_error]
      exact iff_of_true (ended_error e) calm
  · have overruns : world.dbs.Overruns world.cache.remembers world.cache.table tokens := by
      by_contra calm
      exact ended (fills.ended_iff.mpr calm)
    obtain ⟨⟨e, failed⟩, -⟩ := id overruns
    rw [Dbs.climbOverruns_of_error failed]
    exact iff_of_false (fun whole => ended whole.of_andThen) fun calm => calm overruns

/-- A climb from a path that is cached ends unless it overruns the table. -/
theorem ended_withPathFrom_iff {tokens : List Bytes} {cen : Nat} (proper : Proper tokens)
    (sctx : SContext) (world : World) (linked : world.cache.Linked NoBlank)
    (stored : world.cache.paths[keyOf tokens]? = some cen) :
    Ended (exec (withPathFrom (checkAccess sctx) cen tokens) world).1 ↔
      ¬ world.dbs.ClimbOverruns sctx world.cache.remembers world.cache.table tokens := by
  induction tokens generalizing cen world with
  | nil =>
      obtain ⟨data, present, -⟩ := linked.data_of_key stored id
      have known : world.dbs.known _ _ = _ :=
        Dbs.known_of_memory (remembers_of_stored stored present)
      rw [withPathFrom, exec_checkAccess present sctx]
      refine iff_of_true ?_ (Dbs.not_overruns known)
      simp only
      split
      · exact ended_error _
      · exact ended_ok _
  | cons leaf up ih =>
      have parts := Proper.cons_iff.mp proper
      obtain ⟨data, present, pathEq⟩ := linked.data_of_key stored id
      have remembered := remembers_of_stored stored present
      rw [Dbs.climbOverruns_of_memory remembered, Dbs.stops_of_memory remembered]
      rcases exec_withPathFrom_cons proper sctx linked present pathEq with
        ⟨denied, stops⟩ | ⟨denied, ⟨parent, parentStored, goes⟩ | goes⟩
      · rw [stops]
        exact iff_of_true (ended_error _) (by simp [denied])
      · rw [goes, decide_eq_false denied, and_iff_right rfl]
        exact ih parts.2 world linked parentStored
      · rw [goes, decide_eq_false denied, and_iff_right rfl]
        apply ended_andThen_iff parts.2 linked
        intro newParent middle found newStored
        have relinked : Served world.dbs (KeysAbove up) middle _ :=
          served_setParent proper linked present pathEq found newStored
        rw [← remembers_setParent middle cen newParent]
        exact ih parts.2 (world.withCache (middle.setParent cen newParent)) relinked.linked
          newStored

theorem ended_withPath_iff {tokens : List Bytes} (proper : Proper tokens) (sctx : SContext)
    (world : World) (linked : world.cache.Linked NoBlank) :
    Ended (exec (withPath (checkAccess sctx) tokens) world).1 ↔
      ¬ world.dbs.ClimbOverruns sctx world.cache.remembers world.cache.table tokens := by
  rw [withPath, exec_bind]
  apply ended_andThen_iff proper linked
  intro cen middle found stored
  exact ended_withPathFrom_iff proper sctx (world.withCache middle) found.linked stored

/-- Where the parent of a path is cached its lookup inserts one key at most. -/
theorem ended_lookup {tokens : List Bytes} (proper : Proper tokens) (sctx : SContext)
    {world : World} (linked : world.cache.Linked NoBlank)
    (cached : tokens ≠ [] → ∃ cen : Nat, world.cache.paths[keyOf tokens.tail]? = some cen) :
    Ended (exec (lookup tokens) world).1 := by
  have few : world.cache.remembers.gap tokens = 0 ∨ world.cache.remembers.gap tokens = 1 := by
    cases remembered : world.cache.remembers (keyOf tokens) with
    | some info => exact .inl (Dbs.gap_of_memory remembered)
    | none =>
        right
        cases tokens with
        | nil => exact Dbs.gap_nil remembered
        | cons leaf up =>
            obtain ⟨cen, stored⟩ := cached (List.cons_ne_nil leaf up)
            obtain ⟨data, present, -⟩ := linked.data_of_key stored id
            have above := Dbs.gap_of_memory (remembers_of_stored stored present)
            rw [List.tail_cons] at above
            rw [Dbs.gap_cons remembered, above]
  rw [(fills_lookup proper sctx world linked fun _ _ => id).ended_iff]
  rintro ⟨-, outgrown⟩
  rcases few with none | one
  · rw [none] at outgrown
    exact Table.not_outgrown_zero lt_nextBuckets outgrown
  · rw [one] at outgrown
    exact Table.not_outgrown_one outgrown

theorem ended_find {tokens : List Bytes} (proper : Proper tokens) {world : World}
    (linked : world.cache.Linked NoBlank) (ended : Ended (exec (lookup tokens) world).1) :
    Ended (exec (find tokens) world).1 := by
  obtain ⟨served, -, ⟨cen, after, found, -⟩ | ⟨e, threw, -⟩⟩ := exec_find proper world linked ended
  · rw [found]
    exact ended_ok cen
  · rw [threw]
    exact ended_error e

/-- The critical section of `getnode` ends unless the call overruns the table. -/
theorem ended_locate_iff {tokens : List Bytes} (proper : Proper tokens) (sctx : SContext)
    (world : World) (linked : world.cache.Linked NoBlank) :
    Ended (exec (locate sctx tokens) world).1 ↔
      ¬ world.dbs.CallOverruns sctx world.cache.remembers world.cache.table tokens := by
  rw [locate_eq]
  cases tokens with
  | nil =>
      refine iff_of_true ?_ id
      exact ended_find proper linked
        (ended_lookup proper sctx linked fun nonempty => absurd rfl nonempty)
  | cons leaf up =>
      have parts := Proper.cons_iff.mp proper
      rw [onlyIf, if_pos (List.cons_ne_nil leaf up), List.tail_cons, Dbs.CallOverruns,
        ← ended_withPath_iff parts.2 sctx world linked]
      refine ⟨Ended.first, fun ended => ?_⟩
      obtain ⟨middle, climbed, ⟨returned, cached, -⟩ | ⟨e, threw, -⟩⟩ :=
        exec_withPath parts.2 linked sctx ended
      · rw [exec_bind, returned, Outcome.andThen_ok]
        apply ended_find proper climbed.linked
        exact ended_lookup proper sctx climbed.linked fun _ => cached up (List.suffix_refl _)
      · rw [exec_bind, threw, Outcome.andThen_error]
        exact ended_error e

end PathCache_hash

end OfflineFs
