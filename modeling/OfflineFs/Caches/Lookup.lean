import OfflineFs.Caches.Entries
import OfflineFs.Run.PathCaches

/-!
# Looking a path up

What the parts of `PathCache_hash` do to a cache whose entries are linked, on any
databases, when they return or throw.  When the entries also hold what the databases hold, the
results are those of walking the directories without any permission check.
-/

namespace OfflineFs

open OfflineFs.Effect OfflineFs.Effect.Program OfflineFs.Map

/-- The call returned or threw. -/
def Ended {α : Type} (outcome : Outcome Err α) : Prop :=
  ∀ stop, outcome ≠ .fault stop

theorem ended_ok {α : Type} (value : α) : Ended (.ok value) :=
  fun _ same => by cases same

theorem ended_error {α : Type} (e : Err) : Ended (.error e : Outcome Err α) :=
  fun _ same => by cases same

theorem ended_ofExcept {α : Type} (result : Except Err α) : Ended (.ofExcept result) := by
  cases result with
  | ok value => exact ended_ok value
  | error e => exact ended_error e

theorem Ended.of_andThen {α β : Type} {result : Outcome Err α × World}
    {next : α → World → Outcome Err β × World} (ended : Ended (Outcome.andThen result next).1) :
    Ended result.1 := by
  rcases result with ⟨outcome, after⟩
  cases outcome with
  | ok value => exact ended_ok value
  | error e => exact ended_error e
  | fault stop => exact absurd rfl (ended stop)

/-- What ends has a first part that ends. -/
theorem Ended.first {α β : Type} {first : FsProg α} {next : α → FsProg β} {world : World}
    (ended : Ended (exec (first >>= next) world).1) : Ended (exec first world).1 := by
  rw [exec_bind] at ended
  exact ended.of_andThen

/-- What ends goes on to end from where its first part returned. -/
theorem Ended.rest {α β : Type} {first : FsProg α} {next : α → FsProg β} {world after : World}
    {value : α} (ended : Ended (exec (first >>= next) world).1)
    (returned : exec first world = (.ok value, after)) : Ended (exec (next value) after).1 := by
  rwa [exec_bind, returned] at ended

/-! ## Walking without permission checks -/

/-- What an entry remembers of a node. -/
structure CEntryInfo where
  nodeid : UInt64
  uid : UInt32
  gid : UInt32
  mode : UInt32
  deriving DecidableEq

/-- What an entry that has values remembers of its node. -/
def CEntryData.info (data : CEntryData) : CEntryInfo :=
  ⟨data.nodeid, data.uid, data.gid, data.mode⟩

namespace Dbs

/-- What an entry for a node remembers. -/
def info (dbs : Dbs) (n : NodeRef) : Except Err CEntryInfo :=
  match dbs.attr UInt32 n.id .uid with
  | .error e => .error e
  | .ok uid =>
      match dbs.attr UInt32 n.id .gid with
      | .error e => .error e
      | .ok gid =>
          match dbs.attr UInt32 n.id .mode with
          | .error e => .error e
          | .ok mode => .ok ⟨n.id, uid, gid, mode⟩

/-- What an entry for a child of a directory remembers. -/
def childInfo (dbs : Dbs) (parent : UInt64) (leaf : Bytes) : Except Err CEntryInfo :=
  match dbs.getnode parent with
  | .error e => .error e
  | .ok d =>
      if d.kind = .directory then
        match dbs.getchild d.id leaf with
        | .error e => .error e
        | .ok n => dbs.info n
      else
        .error (.badCast .directory)

/-- The node of a path, given by its tokens in reverse order. -/
def entryAt (dbs : Dbs) : List Bytes → Except Err CEntryInfo
  | [] =>
      match dbs.getnode 0 with
      | .error e => .error e
      | .ok root => dbs.info root
  | leaf :: up =>
      match dbs.entryAt up with
      | .error e => .error e
      | .ok parent => dbs.childInfo parent.nodeid leaf

end Dbs

/-- The test of `checkAccess`. -/
def CEntryInfo.denies (info : CEntryInfo) (sctx : SContext) : Prop :=
  sctx.uid ≠ 0 ∧
    (if info.uid = sctx.uid then info.mode &&& sIxusr = 0
      else if info.gid ∈ sctx.groups then info.mode &&& sIxgrp = 0
      else info.mode &&& sIxoth = 0)

instance (info : CEntryInfo) (sctx : SContext) : Decidable (info.denies sctx) :=
  inferInstanceAs (Decidable (_ ∧ _))

namespace PathCache_hash

variable {world : World} {cen parent : Nat} {data : CEntryData}

theorem exec_readEntry_data (present : world.cache.heap[cen]? = some (some data)) :
    exec (readEntry cen) world = (.ok data, world) := by
  simp [present]

@[simp]
theorem exec_modifyCache (change : PathCacheState → PathCacheState) (world : World) :
    exec (modifyCache change) world = (.ok (), world.withCache (change world.cache)) :=
  rfl

/-- The part of `initEntry` that reads what an entry remembers and stores it. -/
def storeInfo (cen : Nat) (parent : Option Nat) (tokens : List Bytes) (n : NodeRef) :
    FsProg Unit := do
  let uid ← Node.getattr UInt32 n.id .uid
  let gid ← Node.getattr UInt32 n.id .gid
  let mode ← Node.getattr UInt32 n.id .mode
  modifyCache fun cache => cache.initialized cen
    { path := keyOf tokens, nodeid := n.id, parent, uid, gid, mode, queueIt := 0 }

theorem initEntry_root (cen : Nat) :
    initEntry cen none [] = Node.getnode 0 >>= storeInfo cen none [] :=
  rfl

theorem initEntry_child (cen parent : Nat) (leaf : Bytes) (up : List Bytes) :
    initEntry cen (some parent) (leaf :: up) =
      (do
        let parentData ← readEntry parent
        let d ← Node.cast .directory (← Node.getnode parentData.nodeid)
        Directory.getchild d leaf : FsProg NodeRef) >>=
        storeInfo cen (some parent) (leaf :: up) :=
  rfl

/-- An entry for what was read. -/
def entryFor (tokens : List Bytes) (parent : Option Nat) (info : CEntryInfo) : CEntryData :=
  { path := keyOf tokens, nodeid := info.nodeid, parent, uid := info.uid, gid := info.gid,
    mode := info.mode, queueIt := 0 }

/-- The values of a node are stored in an entry, if they can be read. -/
@[simp]
theorem exec_storeInfo (cen : Nat) (parent : Option Nat) (tokens : List Bytes) (n : NodeRef)
    (world : World) :
    exec (storeInfo cen parent tokens n) world =
      match world.dbs.info n with
      | .ok info => (.ok (), world.withCache
          (world.cache.initialized cen (entryFor tokens parent info)))
      | .error e => (.error e, world) := by
  simp only [storeInfo, exec_bind, Node.exec_getattr, Dbs.info]
  cases uidRead : world.dbs.attr UInt32 n.id .uid with
  | error e => rfl
  | ok uid =>
      simp only [Outcome.ofExcept_ok, Outcome.andThen_ok]
      cases gidRead : world.dbs.attr UInt32 n.id .gid with
      | error e => rfl
      | ok gid =>
          simp only [Outcome.ofExcept_ok, Outcome.andThen_ok]
          cases world.dbs.attr UInt32 n.id .mode <;> rfl

theorem exec_initEntry_root (cen : Nat) (world : World) :
    exec (initEntry cen none []) world =
      match world.dbs.entryAt [] with
      | .ok info => (.ok (), world.withCache
          (world.cache.initialized cen (entryFor [] none info)))
      | .error e => (.error e, world) := by
  rw [initEntry_root, exec_bind, Node.exec_getnode, Dbs.entryAt]
  cases world.dbs.getnode 0 with
  | error e => rfl
  | ok root => exact exec_storeInfo cen none [] root world

/-- The entry of a child gets its values from the directory of its parent. -/
theorem exec_initEntry_child (world : World)
    (present : world.cache.heap[parent]? = some (some data)) (cen : Nat) (leaf : Bytes)
    (up : List Bytes) :
    exec (initEntry cen (some parent) (leaf :: up)) world =
      match world.dbs.childInfo data.nodeid leaf with
      | .ok info => (.ok (), world.withCache
          (world.cache.initialized cen (entryFor (leaf :: up) (some parent) info)))
      | .error e => (.error e, world) := by
  rw [initEntry_child]
  simp only [exec_bind, exec_readEntry_data present, Outcome.andThen_ok, Node.exec_getnode,
    Dbs.childInfo]
  cases world.dbs.getnode data.nodeid with
  | error e => rfl
  | ok d =>
      simp only [Outcome.ofExcept_ok, Outcome.andThen_ok, Node.exec_cast]
      by_cases directory : d.kind = .directory
      · simp only [directory, if_true, Outcome.andThen_ok, Directory.exec_getchild]
        cases world.dbs.getchild d.id leaf with
        | error e => rfl
        | ok n => simp only [Outcome.ofExcept_ok, Outcome.andThen_ok, exec_storeInfo]
      · simp only [directory, if_false]
        rfl

end PathCache_hash

/-! ## What a lookup leaves -/

namespace PathCacheState

variable {before middle after : PathCacheState} {within wider blank : Bytes → Prop} {dbs : Dbs}
variable {key : Bytes} {data : CEntryData}

/-- Entries were added, under some of the described keys, and none removed. -/
structure Grown (within : Bytes → Prop) (before after : PathCacheState) : Prop where
  paths : ∀ (key : Bytes) (cen : Nat), before.paths[key]? = some cen →
    after.paths[key]? = some cen
  within : ∀ (key : Bytes) (cen : Nat), after.paths[key]? = some cen →
    before.paths[key]? = some cen ∨ within key
  queue : ∃ more, after.queue = before.queue ++ more
  next : before.nextEntry ≤ after.nextEntry
  maxentries : after.maxentries = before.maxentries

namespace Grown

theorem refl (within : Bytes → Prop) (cache : PathCacheState) : Grown within cache cache where
  paths _ _ found := found
  within _ _ found := .inl found
  queue := ⟨[], (List.append_nil _).symm⟩
  next := Nat.le_refl _
  maxentries := rfl

/-- Growing twice is growing. -/
theorem trans (early : Grown within before middle) (late : Grown within middle after) :
    Grown within before after where
  paths key cen found := late.paths key cen (early.paths key cen found)
  within key cen found := by
    rcases late.within key cen found with inMiddle | isWithin
    · exact early.within key cen inMiddle
    · exact .inr isWithin
  queue := by
    obtain ⟨first, firstEq⟩ := early.queue
    obtain ⟨second, secondEq⟩ := late.queue
    exact ⟨first ++ second, by rw [secondEq, firstEq, List.append_assoc]⟩
  next := early.next.trans late.next
  maxentries := late.maxentries.trans early.maxentries

theorem mono (grown : Grown within before after) (weaken : ∀ key, within key → wider key) :
    Grown wider before after where
  paths := grown.paths
  within key cen found := (grown.within key cen found).imp_right (weaken key)
  queue := grown.queue
  next := grown.next
  maxentries := grown.maxentries

end Grown

/-- Every entry remembers what the databases hold for its path. -/
def Faithful (dbs : Dbs) (cache : PathCacheState) : Prop :=
  ∀ (cen : Nat) (data : CEntryData), cache.heap[cen]? = some (some data) →
    ∃ tokens, Proper tokens ∧ data.path = keyOf tokens ∧ dbs.entryAt tokens = .ok data.info

theorem faithful_initial (dbs : Dbs) : PathCacheState.initial.Faithful dbs := by
  intro cen data present
  simp [initial] at present

/-- What an entry for a path remembers is what a walk to the path finds. -/
theorem Faithful.entryAt {tokens : List Bytes} {cen : Nat} (faithful : before.Faithful dbs)
    (present : before.heap[cen]? = some (some data)) (proper : Proper tokens)
    (pathEq : data.path = keyOf tokens) : dbs.entryAt tokens = .ok data.info := by
  obtain ⟨others, othersProper, othersEq, found⟩ := faithful cen data present
  rw [(keyOf_inj proper othersProper).mp (pathEq.symm.trans othersEq)]
  exact found

theorem Faithful.grants {tokens : List Bytes} {cen : Nat} {sctx : SContext}
    (faithful : before.Faithful dbs) (present : before.heap[cen]? = some (some data))
    (proper : Proper tokens) (pathEq : data.path = keyOf tokens)
    (granted : ¬ data.info.denies sctx) :
    ∀ info, dbs.entryAt tokens = .ok info → ¬ info.denies sctx := by
  intro info found
  rw [faithful.entryAt present proper pathEq] at found
  cases found
  exact granted

theorem Faithful.insertBlank (faithful : before.Faithful dbs) (key : Bytes) :
    (before.insertBlank key).Faithful dbs := by
  intro cen data present
  rw [heap_insertBlank] at present
  split at present
  · cases present
  · exact faithful cen data present

theorem Faithful.eraseBlank (faithful : before.Faithful dbs) (key : Bytes) (cen : Nat) :
    (before.eraseBlank key cen).Faithful dbs := by
  intro other data present
  rw [heap_eraseBlank] at present
  split at present
  · cases present
  · exact faithful other data present

theorem Faithful.initialized {tokens : List Bytes} {parent : Option Nat} {info : CEntryInfo}
    (faithful : before.Faithful dbs) (proper : Proper tokens)
    (isInfo : dbs.entryAt tokens = .ok info) (cen : Nat) :
    (before.initialized cen (PathCache_hash.entryFor tokens parent info)).Faithful dbs := by
  intro other data present
  rw [heap_initialized] at present
  split at present
  · cases present
    exact ⟨tokens, proper, rfl, isInfo⟩
  · exact faithful other data present

/-- What a lookup of a path leaves, whether it finds the path or not. -/
structure LookedUp (dbs : Dbs) (blank within : Bytes → Prop) (before after : PathCacheState) :
    Prop where
  linked : after.Linked blank
  grown : Grown within before after
  kept : ∀ cen : Nat, cen < before.nextEntry → after.heap[cen]? = before.heap[cen]?
  faithful : before.Faithful dbs → after.Faithful dbs

theorem LookedUp.refl (linked : before.Linked blank) (dbs : Dbs) (within : Bytes → Prop) :
    LookedUp dbs blank within before before where
  linked := linked
  grown := .refl within before
  kept _ _ := rfl
  faithful := id

section Climb

variable (missing : before.paths[key]? = none)
variable (climbed : LookedUp dbs (fun other => blank other ∨ other = key) within
  (before.insertBlank key) middle)

include missing climbed

omit missing in
theorem LookedUp.blank_stored :
    middle.paths[key]? = some before.nextEntry ∧ middle.heap[before.nextEntry]? = some none := by
  constructor
  · apply climbed.grown.paths
    rw [paths_insertBlank, if_pos rfl]
  · rw [climbed.kept _ (Nat.lt_succ_self _), heap_insertBlank, if_pos rfl]

/-- The entries around the blank one, after it was erased or initialized. -/
theorem LookedUp.grown_around (next : middle.nextEntry ≤ after.nextEntry)
    (maxentries : after.maxentries = middle.maxentries)
    (queue : ∃ more, after.queue = middle.queue ++ more)
    (paths : ∀ other : Bytes, key ≠ other → after.paths[other]? = middle.paths[other]?)
    (weaken : ∀ other, within other → wider other)
    (ofKey : ∀ cen : Nat, after.paths[key]? = some cen → wider key) :
    Grown wider before after where
  paths other cen found := by
    have apart : key ≠ other := by
      rintro rfl
      rw [missing] at found
      cases found
    rw [paths other apart]
    apply climbed.grown.paths
    rw [paths_insertBlank, if_neg apart, found]
  within other cen found := by
    by_cases same : key = other
    · subst same
      exact .inr (ofKey cen found)
    · rw [paths other same] at found
      rcases climbed.grown.within other cen found with old | isWithin
      · rw [paths_insertBlank, if_neg same] at old
        exact .inl old
      · exact .inr (weaken other isWithin)
  queue := by
    obtain ⟨more, moreEq⟩ := climbed.grown.queue
    obtain ⟨last, lastEq⟩ := queue
    exact ⟨more ++ last, by rw [lastEq, moreEq, List.append_assoc]; rfl⟩
  next := (Nat.le_succ _).trans (climbed.grown.next.trans next)
  maxentries := maxentries.trans climbed.grown.maxentries

/-- A lookup that fails takes its blank entry back. -/
theorem LookedUp.rollback (weaken : ∀ other, within other → wider other) :
    LookedUp dbs blank wider before (middle.eraseBlank key before.nextEntry) where
  linked := climbed.linked.eraseBlank (climbed.blank_stored).1
    (climbed.blank_stored).2
  grown := by
    refine climbed.grown_around missing (Nat.le_refl _) rfl ⟨[], (List.append_nil _).symm⟩ ?_
      weaken ?_
    · intro other apart
      rw [paths_eraseBlank, if_neg apart]
    · intro cen found
      rw [paths_eraseBlank, if_pos rfl] at found
      cases found
  kept cen below := by
    have apart : before.nextEntry ≠ cen := Nat.ne_of_gt below
    rw [heap_eraseBlank, if_neg apart, climbed.kept cen (Nat.lt_succ_of_lt below),
      heap_insertBlank, if_neg apart]
  faithful was := (climbed.faithful (was.insertBlank key)).eraseBlank key _

/-- A lookup that succeeds initializes its blank entry. -/
theorem LookedUp.initialize (weaken : ∀ other, within other → wider other) (ofKey : wider key)
    (apart : ¬ blank key) (pathEq : data.path = key)
    (rooted : key ≠ [] → ∃ parent, data.parent = some parent ∧ parent < middle.nextEntry ∧
      middle.paths[parentKey key]? = some parent)
    (faithful : middle.Faithful dbs → (middle.initialized before.nextEntry data).Faithful dbs) :
    LookedUp dbs blank wider before (middle.initialized before.nextEntry data) where
  linked := climbed.linked.initialized (climbed.blank_stored).1
    (climbed.blank_stored).2 apart pathEq rooted
  grown := by
    refine climbed.grown_around missing (Nat.le_refl _) rfl ⟨_, rfl⟩ (fun _ _ => rfl) weaken ?_
    exact fun _ _ => ofKey
  kept cen below := by
    have differs : before.nextEntry ≠ cen := Nat.ne_of_gt below
    rw [heap_initialized, if_neg differs, climbed.kept cen (Nat.lt_succ_of_lt below),
      heap_insertBlank, if_neg differs]
  faithful was := faithful (climbed.faithful (was.insertBlank key))

end Climb

end PathCacheState

/-- The keys of a path and of its ancestors. -/
def KeysAbove (tokens : List Bytes) (key : Bytes) : Prop :=
  ∃ up, up <:+ tokens ∧ key = keyOf up

theorem keysAbove_cons (leaf : Bytes) {key : Bytes} {up : List Bytes}
    (above : KeysAbove up key) : KeysAbove (leaf :: up) key := by
  obtain ⟨higher, suffix, rfl⟩ := above
  exact ⟨higher, suffix.trans (List.suffix_cons leaf up), rfl⟩

namespace PathCache_hash

open PathCacheState

theorem exec_lookupKey_ok {key : Bytes} {init : Nat → FsProg Unit} {world : World}
    {after : PathCacheState} (missing : world.cache.paths[key]? = none)
    (inits : exec (init world.cache.nextEntry) (world.withCache (world.cache.insertBlank key)) =
      (.ok (), world.withCache after)) :
    exec (lookupKey key init) world = (.ok world.cache.nextEntry, world.withCache after) := by
  simp only [lookupKey, exec_bind, exec_perform, fsHandler, Outcome.andThen_ok, missing,
    exec_catching, inits, Outcome.orElse_ok]
  rfl

section Missing

variable {key : Bytes} {init : Nat → FsProg Unit} {world last : World} {after : PathCacheState}
variable {e : Err} {stop : Fault} (missing : world.cache.paths[key]? = none)

include missing

/-- The blank entry is erased again while the table has not grown. -/
theorem exec_lookupKey_error
    (inits : exec (init world.cache.nextEntry) (world.withCache (world.cache.insertBlank key)) =
      (.error e, world.withCache after))
    (same : after.buckets = (world.cache.insertBlank key).buckets) :
    exec (lookupKey key init) world =
      (.error e, world.withCache (after.eraseBlank key world.cache.nextEntry)) := by
  simp only [lookupKey, exec_bind, exec_perform, fsHandler, Outcome.andThen_ok, missing,
    exec_catching, inits, Outcome.orElse_error, eraseInserted, World.withCache_cache, if_pos same,
    exec_throw, Outcome.andThen_error]
  rfl

/-- The iterator of the blank entry dangles when the table has grown. -/
theorem exec_lookupKey_dangling
    (inits : exec (init world.cache.nextEntry) (world.withCache (world.cache.insertBlank key)) =
      (.error e, world.withCache after))
    (grown : after.buckets ≠ (world.cache.insertBlank key).buckets) :
    exec (lookupKey key init) world = (.fault .undefined, world.withCache after) := by
  simp only [lookupKey, exec_bind, exec_perform, fsHandler, Outcome.andThen_ok, missing,
    exec_catching, inits, Outcome.orElse_error, eraseInserted, World.withCache_cache, if_neg grown,
    exec_halt, Outcome.andThen_fault]

theorem exec_lookupKey_fault
    (inits : exec (init world.cache.nextEntry) (world.withCache (world.cache.insertBlank key)) =
      (.fault stop, last)) :
    exec (lookupKey key init) world = (.fault stop, last) := by
  simp only [lookupKey, exec_bind, exec_perform, fsHandler, Outcome.andThen_ok, missing,
    exec_catching, inits, Outcome.orElse_fault, Outcome.andThen_fault]

variable (ended : Ended (exec (lookupKey key init) world).1)

include ended

/-- Where a lookup ends so does the initialization of its blank entry. -/
theorem ended_init : Ended
    (exec (init world.cache.nextEntry) (world.withCache (world.cache.insertBlank key))).1 := by
  intro stop faults
  rcases inits : exec (init world.cache.nextEntry) (world.withCache (world.cache.insertBlank key))
    with ⟨outcome, last⟩
  rw [inits] at faults
  obtain rfl : outcome = .fault stop := faults
  exact ended stop (congrArg Prod.fst (exec_lookupKey_fault missing inits))

/-- A lookup that throws has erased its blank entry. -/
theorem exec_lookupKey_ended
    (inits : exec (init world.cache.nextEntry) (world.withCache (world.cache.insertBlank key)) =
      (.error e, world.withCache after)) :
    exec (lookupKey key init) world =
      (.error e, world.withCache (after.eraseBlank key world.cache.nextEntry)) := by
  apply exec_lookupKey_error missing inits
  by_contra grown
  exact ended .undefined (congrArg Prod.fst (exec_lookupKey_dangling missing inits grown))

end Missing

theorem exec_lookupKey_cached {key : Bytes} {init : Nat → FsProg Unit} {world : World} {cen : Nat}
    (cached : world.cache.paths[key]? = some cen) :
    exec (lookupKey key init) world = (.ok cen, world.withCache world.cache) := by
  simp only [lookupKey, exec_bind, exec_perform, fsHandler, Outcome.andThen_ok, cached]
  rfl

theorem lookup_nil : lookup [] = lookupKey (keyOf []) fun cen => initEntry cen none [] :=
  rfl

theorem lookup_cons (leaf : Bytes) (up : List Bytes) :
    lookup (leaf :: up) = lookupKey (keyOf (leaf :: up)) fun cen =>
      lookup up >>= fun parent => initEntry cen (some parent) (leaf :: up) :=
  rfl

theorem exec_lookup_cached {tokens : List Bytes} {world : World} {cen : Nat}
    (cached : world.cache.paths[keyOf tokens]? = some cen) :
    exec (lookup tokens) world = (.ok cen, world.withCache world.cache) := by
  cases tokens <;> exact exec_lookupKey_cached cached

/-- The ancestors of a path are not blank while it is. -/
theorem apart_above {blank : Bytes → Prop} {leaf : Bytes} {up : List Bytes}
    (proper : Proper (leaf :: up))
    (apart : ∀ higher, higher <:+ leaf :: up → ¬ blank (keyOf higher)) :
    ∀ higher, higher <:+ up → ¬ (blank (keyOf higher) ∨ keyOf higher = keyOf (leaf :: up)) := by
  rintro higher suffix (isBlank | same)
  · exact apart higher (suffix.trans (List.suffix_cons leaf up)) isBlank
  · exact keyOf_ne_of_suffix proper suffix same

/-- How the lookup of a path ends that returns or throws: it finds the path, or says what is
wrong with it, and keeps the entries linked. -/
def Looks (blank : Bytes → Prop) (world : World) (tokens : List Bytes)
    (result : Outcome Err Nat × World) : Prop :=
  ∃ after, LookedUp world.dbs blank (KeysAbove tokens) world.cache after ∧
    ((∃ cen, result = (.ok cen, world.withCache after) ∧ after.paths[keyOf tokens]? = some cen) ∨
      ∃ e, result = (.error e, world.withCache after) ∧
        (world.cache.Faithful world.dbs → world.dbs.entryAt tokens = .error e))

namespace Looks

variable {blank : Bytes → Prop} {world : World} {tokens up : List Bytes} {leaf : Bytes} {cen : Nat}
variable {middle : PathCacheState}

theorem of_cached (linked : world.cache.Linked blank)
    (cached : world.cache.paths[keyOf tokens]? = some cen) :
    Looks blank world tokens (exec (lookup tokens) world) :=
  ⟨world.cache, .refl linked _ _, .inl ⟨cen, exec_lookup_cached cached, cached⟩⟩

/-- The lookup of the root. -/
theorem of_root (linked : world.cache.Linked blank) (apart : ¬ blank (keyOf []))
    (missing : world.cache.paths[keyOf []]? = none)
    (ended : Ended (exec (lookup []) world).1) :
    Looks blank world [] (exec (lookup []) world) := by
  have climbed := LookedUp.refl (linked.insertBlank missing) world.dbs (KeysAbove [])
  have inits := exec_initEntry_root world.cache.nextEntry
    (world.withCache (world.cache.insertBlank (keyOf [])))
  cases found : world.dbs.entryAt [] with
  | error e =>
      simp only [World.withCache_dbs, found] at inits
      exact ⟨_, climbed.rollback missing fun _ => id,
        .inr ⟨e, exec_lookupKey_ended missing ended inits, fun _ => found⟩⟩
  | ok info =>
      simp only [World.withCache_dbs, found] at inits
      refine ⟨_, climbed.initialize missing (fun _ => id) ⟨[], List.suffix_refl _, rfl⟩ apart rfl
        (fun nonroot => absurd rfl nonroot) ?_, .inl ⟨_, exec_lookupKey_ok missing inits, ?_⟩⟩
      · exact fun faithful => faithful.initialized .nil found _
      · exact climbed.blank_stored.1

section Below

variable (missing : world.cache.paths[keyOf (leaf :: up)]? = none)
variable (climbed : LookedUp world.dbs (fun other => blank other ∨ other = keyOf (leaf :: up))
  (KeysAbove up) (world.cache.insertBlank (keyOf (leaf :: up))) middle)
variable (ended : Ended (exec (lookup (leaf :: up)) world).1)

include missing climbed ended

/-- The path above is not found. -/
theorem of_missed {e : Err}
    (failed : exec (lookup up) (world.withCache (world.cache.insertBlank (keyOf (leaf :: up)))) =
      (.error e, world.withCache middle))
    (reason : world.cache.Faithful world.dbs → world.dbs.entryAt up = .error e) :
    Looks blank world (leaf :: up) (exec (lookup (leaf :: up)) world) := by
  rw [lookup_cons] at ended ⊢
  have whole := exec_lookupKey_ended missing ended (by rw [exec_bind, failed]; rfl)
  refine ⟨_, climbed.rollback missing fun _ => keysAbove_cons leaf,
    .inr ⟨e, whole, fun faithful => ?_⟩⟩
  simp only [Dbs.entryAt, reason faithful]

/-- The path above is found, and the path itself is looked up there. -/
theorem of_found {parent : Nat} {parentData : CEntryData} (proper : Proper (leaf :: up))
    (apart : ¬ blank (keyOf (leaf :: up)))
    (found : exec (lookup up) (world.withCache (world.cache.insertBlank (keyOf (leaf :: up)))) =
      (.ok parent, world.withCache middle))
    (stored : middle.paths[keyOf up]? = some parent)
    (present : middle.heap[parent]? = some (some parentData))
    (pathEq : parentData.path = keyOf up) :
    Looks blank world (leaf :: up) (exec (lookup (leaf :: up)) world) := by
  have parts := Proper.cons_iff.mp proper
  have inits := exec_initEntry_child (world.withCache middle) present
    world.cache.nextEntry leaf up
  have whole : exec (lookup up >>= fun parent =>
      initEntry world.cache.nextEntry (some parent) (leaf :: up))
        (world.withCache (world.cache.insertBlank (keyOf (leaf :: up)))) =
      exec (initEntry world.cache.nextEntry (some parent) (leaf :: up))
        (world.withCache middle) := by
    rw [exec_bind, found]
    rfl
  rw [lookup_cons] at ended ⊢
  cases child : world.dbs.childInfo parentData.nodeid leaf with
  | error e =>
      simp only [World.withCache_dbs, child] at inits
      refine ⟨_, climbed.rollback missing fun _ => keysAbove_cons leaf,
        .inr ⟨e, exec_lookupKey_ended missing ended (whole.trans inits), fun faithful => ?_⟩⟩
      have parentFound : world.dbs.entryAt up = .ok parentData.info :=
        (climbed.faithful (faithful.insertBlank _)).entryAt present parts.2 pathEq
      simp only [Dbs.entryAt, parentFound]
      exact child
  | ok info =>
      simp only [World.withCache_dbs, child] at inits
      refine ⟨_, climbed.initialize missing (fun _ => keysAbove_cons leaf)
        ⟨_, List.suffix_refl _, rfl⟩ apart rfl ?_ ?_,
        .inl ⟨_, exec_lookupKey_ok missing (whole.trans inits), climbed.blank_stored.1⟩⟩
      · rw [parentKey_keyOf proper]
        exact fun _ => ⟨parent, rfl, climbed.linked.lt_next present, stored⟩
      · intro faithful
        apply faithful.initialized proper
        simp only [Dbs.entryAt, faithful.entryAt present parts.2 pathEq]
        exact child

end Below

end Looks

/-- A lookup that ends finds the path, or says what is wrong with it, and keeps the entries
linked. -/
theorem exec_lookup {blank : Bytes → Prop} {tokens : List Bytes} (proper : Proper tokens)
    (world : World) (linked : world.cache.Linked blank)
    (apart : ∀ up, up <:+ tokens → ¬ blank (keyOf up))
    (ended : Ended (exec (lookup tokens) world).1) :
    Looks blank world tokens (exec (lookup tokens) world) := by
  induction tokens generalizing world blank with
  | nil =>
      cases cached : world.cache.paths[keyOf []]? with
      | some cen => exact .of_cached linked cached
      | none => exact .of_root linked (apart [] (List.suffix_refl _)) cached ended
  | cons leaf up ih =>
      cases cached : world.cache.paths[keyOf (leaf :: up)]? with
      | some cen => exact .of_cached linked cached
      | none =>
          have apartUp := apart_above proper apart
          have endedInit := ended_init cached ended
          obtain ⟨middle, climbed, ⟨parent, found, stored⟩ | ⟨e, failed, reason⟩⟩ :=
            ih (Proper.cons_iff.mp proper).2
              (world.withCache (world.cache.insertBlank (keyOf (leaf :: up))))
              (linked.insertBlank cached) apartUp endedInit.first
          · obtain ⟨parentData, present, pathEq⟩ := climbed.linked.data_of_key stored
              (apartUp up (List.suffix_refl _))
            exact .of_found cached climbed ended proper (apart _ (List.suffix_refl _)) found stored
              present pathEq
          · exact .of_missed cached climbed ended failed fun faithful =>
              reason (faithful.insertBlank _)

end PathCache_hash

/-! ## Checking the ancestors -/

namespace PathCacheState

variable {before middle after cache : PathCacheState} {within wider : Bytes → Prop} {dbs : Dbs}
variable {cen : Nat} {data : CEntryData}

/-- What every part of `getnode` leaves that removes no entry. -/
structure Served (dbs : Dbs) (within : Bytes → Prop) (before after : PathCacheState) : Prop where
  linked : after.Linked NoBlank
  grown : Grown within before after
  faithful : before.Faithful dbs → after.Faithful dbs

theorem LookedUp.served (found : LookedUp dbs NoBlank within before after) :
    Served dbs within before after :=
  ⟨found.linked, found.grown, found.faithful⟩

theorem Served.refl (linked : cache.Linked NoBlank) (dbs : Dbs) (within : Bytes → Prop) :
    Served dbs within cache cache :=
  ⟨linked, .refl within cache, id⟩

theorem Served.trans (early : Served dbs within before middle)
    (late : Served dbs within middle after) : Served dbs within before after :=
  ⟨late.linked, early.grown.trans late.grown, late.faithful ∘ early.faithful⟩

theorem Served.mono (served : Served dbs within before after)
    (weaken : ∀ key, within key → wider key) : Served dbs wider before after :=
  ⟨served.linked, served.grown.mono weaken, served.faithful⟩

theorem Faithful.setParent (faithful : cache.Faithful dbs) (cen parent : Nat) :
    (cache.setParent cen parent).Faithful dbs := by
  intro other data present
  rw [heap_setParent] at present
  split at present
  · rcases entry : cache.heap[other]? with _ | _ | data
    · simp [entry] at present
    · simp [entry] at present
    · simp only [entry, Option.map_some, Option.some.injEq] at present
      subst present
      exact faithful other data entry
  · exact faithful other data present

theorem Served.setParent {parent : Nat} (linked : cache.Linked NoBlank)
    (present : cache.heap[cen]? = some (some data)) (below : parent < cache.nextEntry)
    (isParent : cache.paths[parentKey data.path]? = some parent) :
    Served dbs within cache (cache.setParent cen parent) where
  linked := linked.setParent present below isParent
  grown := ⟨fun _ _ found => found, fun _ _ found => .inl found, ⟨[], (List.append_nil _).symm⟩,
    Nat.le_refl _, rfl⟩
  faithful was := was.setParent cen parent

end PathCacheState

namespace Dbs

/-- The ancestors of a path that exists exist. -/
theorem entryAt_up {dbs : Dbs} {leaf : Bytes} {up : List Bytes} {info : CEntryInfo}
    (found : dbs.entryAt (leaf :: up) = .ok info) : ∃ upInfo, dbs.entryAt up = .ok upInfo := by
  cases above : dbs.entryAt up with
  | ok upInfo => exact ⟨upInfo, rfl⟩
  | error e => simp [entryAt, above] at found

/-- Some directory on the way to a path, or the path itself, denies the caller. -/
def DeniesOn (dbs : Dbs) (sctx : SContext) (tokens : List Bytes) : Prop :=
  ∃ up, up <:+ tokens ∧ ∃ info, dbs.entryAt up = .ok info ∧ info.denies sctx

theorem deniesOn_cons_iff {dbs : Dbs} {sctx : SContext} {leaf : Bytes} {up : List Bytes} :
    dbs.DeniesOn sctx (leaf :: up) ↔
      (∃ info, dbs.entryAt (leaf :: up) = .ok info ∧ info.denies sctx) ∨ dbs.DeniesOn sctx up := by
  constructor
  · rintro ⟨higher, suffix, denied⟩
    rcases List.suffix_cons_iff.mp suffix with rfl | above
    · exact .inl denied
    · exact .inr ⟨higher, above, denied⟩
  · rintro (denied | ⟨higher, above, denied⟩)
    · exact ⟨_, List.suffix_refl _, denied⟩
    · exact ⟨higher, above.trans (List.suffix_cons leaf up), denied⟩

theorem deniesOn_nil_iff {dbs : Dbs} {sctx : SContext} :
    dbs.DeniesOn sctx [] ↔ ∃ info, dbs.entryAt [] = .ok info ∧ info.denies sctx := by
  constructor
  · rintro ⟨higher, suffix, denied⟩
    rw [List.suffix_nil.mp suffix] at denied
    exact denied
  · exact fun denied => ⟨[], List.suffix_refl _, denied⟩

end Dbs

namespace PathCache_hash

open PathCacheState

variable {world : World} {cen : Nat} {data : CEntryData} {sctx : SContext}

theorem exec_checkAccess (present : world.cache.heap[cen]? = some (some data))
    (sctx : SContext) :
    exec (checkAccess sctx cen) world =
      (if data.info.denies sctx then .error .access else .ok (), world) := by
  simp only [checkAccess, exec_bind, exec_readEntry_data present, Outcome.andThen_ok]
  by_cases denied : data.info.denies sctx
  · rw [if_pos denied]
    exact congrArg (exec · world) (if_pos denied)
  · rw [if_neg denied]
    exact congrArg (exec · world) (if_neg denied)

/-- An entry with its search denied stops a climb.  Otherwise it goes on from the entry of the
parent, which is looked up if it was dropped. -/
theorem exec_withPathFrom_cons {leaf : Bytes} {up : List Bytes} (proper : Proper (leaf :: up))
    (sctx : SContext) (linked : world.cache.Linked NoBlank)
    (present : world.cache.heap[cen]? = some (some data))
    (pathEq : data.path = keyOf (leaf :: up)) :
    data.info.denies sctx ∧
        exec (withPathFrom (checkAccess sctx) cen (leaf :: up)) world = (.error .access, world) ∨
      ¬ data.info.denies sctx ∧
        ((∃ parent, world.cache.paths[keyOf up]? = some parent ∧
            exec (withPathFrom (checkAccess sctx) cen (leaf :: up)) world =
              exec (withPathFrom (checkAccess sctx) parent up) world) ∨
          exec (withPathFrom (checkAccess sctx) cen (leaf :: up)) world =
            Outcome.andThen (exec (lookup up) world) fun parent middle =>
              exec (withPathFrom (checkAccess sctx) parent up)
                (middle.withCache (middle.cache.setParent cen parent))) := by
  have checked := exec_checkAccess present sctx
  by_cases denied : data.info.denies sctx
  · rw [if_pos denied] at checked
    refine .inl ⟨denied, ?_⟩
    simp only [withPathFrom, exec_bind, checked, Outcome.andThen_error]
  · rw [if_neg denied] at checked
    have nonroot : data.path ≠ [] := by
      rw [pathEq, ne_eq, keyOf_eq_nil_iff proper]
      exact List.cons_ne_nil _ _
    obtain ⟨parent, isParent, below, valid⟩ := (linked.entry cen data present).linked nonroot
    rw [pathEq, parentKey_keyOf proper] at valid
    simp only [withPathFrom, exec_bind, checked, Outcome.andThen_ok, exec_readEntry_data present,
      isParent, exec_perform, fsHandler]
    refine .inr ⟨denied, ?_⟩
    cases parentState : world.cache.heap[parent]? with
    | some state => exact .inl ⟨parent, valid (by simp [parentState]), rfl⟩
    | none =>
        right
        simp only [Option.isSome_none, Bool.false_eq_true, if_false, exec_bind, exec_modifyCache,
          Outcome.andThen_ok]

/-- The entry that a lookup of the parent found is linked to the entry that asked for it. -/
theorem served_setParent {leaf : Bytes} {up : List Bytes} {parent : Nat} {middle : PathCacheState}
    {dbs : Dbs} {within wider : Bytes → Prop} (proper : Proper (leaf :: up))
    (linked : world.cache.Linked NoBlank) (present : world.cache.heap[cen]? = some (some data))
    (pathEq : data.path = keyOf (leaf :: up))
    (found : LookedUp dbs NoBlank within world.cache middle)
    (stored : middle.paths[keyOf up]? = some parent) :
    Served dbs wider middle (middle.setParent cen parent) := by
  have stillPresent : middle.heap[cen]? = some (some data) := by
    rw [found.kept cen (linked.lt_next present), present]
  obtain ⟨parentData, parentPresent, -⟩ := found.linked.data_of_key stored id
  refine .setParent found.linked stillPresent (found.linked.lt_next parentPresent) ?_
  rw [pathEq, parentKey_keyOf proper, stored]

/-- A climb from a path to the root keeps the entries linked.  When it returns, the
path and all its ancestors are cached and, if the entries are faithful, grant the
search; when it throws, one of them denies it. -/
def Climbs (sctx : SContext) (world : World) (tokens : List Bytes)
    (result : Outcome Err Unit × World) : Prop :=
  ∃ after, Served world.dbs (KeysAbove tokens) world.cache after ∧
    ((result = (.ok (), world.withCache after) ∧
        (∀ up, up <:+ tokens → ∃ cen : Nat, after.paths[keyOf up]? = some cen) ∧
        (world.cache.Faithful world.dbs → ¬ world.dbs.DeniesOn sctx tokens)) ∨
      ∃ e, result = (.error e, world.withCache after) ∧
        (world.cache.Faithful world.dbs → e = .access ∧ world.dbs.DeniesOn sctx tokens))

/-- A climb continues with the parent path after an entry that grants the search. -/
theorem Climbs.up {leaf : Bytes} {up : List Bytes} {middle : PathCacheState}
    {result : Outcome Err Unit × World}
    (served : Served world.dbs (KeysAbove (leaf :: up)) world.cache middle)
    (stored : world.cache.paths[keyOf (leaf :: up)]? = some cen)
    (granted : world.cache.Faithful world.dbs → ∀ info,
      world.dbs.entryAt (leaf :: up) = .ok info → ¬ info.denies sctx)
    (climbs : Climbs sctx (world.withCache middle) up result) :
    Climbs sctx world (leaf :: up) result := by
  obtain ⟨after, rest, ended⟩ := climbs
  refine ⟨after, served.trans (rest.mono fun _ => keysAbove_cons leaf), ?_⟩
  rcases ended with ⟨returned, cached, allGrant⟩ | ⟨e, threw, someDenies⟩
  · refine .inl ⟨returned, ?_, fun faithful => ?_⟩
    · intro higher suffix
      rcases List.suffix_cons_iff.mp suffix with rfl | above
      · exact ⟨cen, rest.grown.paths _ _ (served.grown.paths _ _ stored)⟩
      · exact cached higher above
    · rw [Dbs.deniesOn_cons_iff]
      rintro (⟨info, found, denies⟩ | denies)
      · exact granted faithful info found denies
      · exact allGrant (served.faithful faithful) denies
  · refine .inr ⟨e, threw, fun faithful => ?_⟩
    obtain ⟨isAccess, denies⟩ := someDenies (served.faithful faithful)
    exact ⟨isAccess, Dbs.deniesOn_cons_iff.mpr (.inr denies)⟩

/-- Checking the ancestors from an entry upwards serves them all or ends with the first refusal. -/
theorem exec_withPathFrom {tokens : List Bytes} (proper : Proper tokens) (sctx : SContext)
    (world : World) (linked : world.cache.Linked NoBlank)
    (stored : world.cache.paths[keyOf tokens]? = some cen)
    (ended : Ended (exec (withPathFrom (checkAccess sctx) cen tokens) world).1) :
    Climbs sctx world tokens (exec (withPathFrom (checkAccess sctx) cen tokens) world) := by
  induction tokens generalizing cen world with
  | nil =>
      obtain ⟨data, present, pathEq⟩ := linked.data_of_key stored id
      have checked := exec_checkAccess present sctx
      refine ⟨world.cache, .refl linked _ _, ?_⟩
      by_cases denied : data.info.denies sctx
      · refine .inr ⟨.access, ?_, fun faithful => ⟨rfl, ?_⟩⟩
        · rw [if_pos denied] at checked
          exact checked
        · exact Dbs.deniesOn_nil_iff.mpr ⟨_, faithful.entryAt present proper pathEq, denied⟩
      · refine .inl ⟨?_, ?_, ?_⟩
        · rw [if_neg denied] at checked
          exact checked
        · intro up suffix
          rw [List.suffix_nil.mp suffix]
          exact ⟨cen, stored⟩
        · intro faithful
          rw [Dbs.deniesOn_nil_iff]
          rintro ⟨info, found, denies⟩
          exact faithful.grants present proper pathEq denied info found denies
  | cons leaf up ih =>
      have parts := Proper.cons_iff.mp proper
      obtain ⟨data, present, pathEq⟩ := linked.data_of_key stored id
      rcases exec_withPathFrom_cons proper sctx linked present pathEq with
        ⟨denied, stops⟩ | ⟨denied, ⟨parent, parentStored, goes⟩ | goes⟩
      · refine ⟨world.cache, .refl linked _ _, .inr ⟨.access, stops, fun faithful => ⟨rfl, ?_⟩⟩⟩
        exact Dbs.deniesOn_cons_iff.mpr (.inl ⟨_, faithful.entryAt present proper pathEq, denied⟩)
      · rw [goes] at ended ⊢
        have climbs := ih parts.2 world linked parentStored ended
        exact Climbs.up (.refl linked _ _) stored
          (fun faithful => faithful.grants present proper pathEq denied) climbs
      · rw [goes] at ended ⊢
        obtain ⟨middle, found, result⟩ :=
          exec_lookup parts.2 world linked (fun _ _ => id) ended.of_andThen
        have served := found.served.mono fun _ => keysAbove_cons leaf
        rcases result with ⟨newParent, looked, newStored⟩ | ⟨e, looked, reason⟩
        · have relinked : Served world.dbs (KeysAbove (leaf :: up)) middle _ :=
            served_setParent proper linked present pathEq found newStored
          rw [looked, Outcome.andThen_ok] at ended ⊢
          have climbs := ih parts.2 (world.withCache (middle.setParent cen newParent))
            relinked.linked newStored ended
          exact Climbs.up (served.trans relinked) stored
            (fun faithful => faithful.grants present proper pathEq denied) climbs
        · rw [looked, Outcome.andThen_error]
          refine ⟨middle, served, .inr ⟨e, rfl, fun faithful => ?_⟩⟩
          obtain ⟨upInfo, exists_⟩ := Dbs.entryAt_up (faithful.entryAt present proper pathEq)
          rw [reason faithful] at exists_
          cases exists_

end PathCache_hash

/-! ## Eviction -/

namespace PathCacheState

variable {cache after : PathCacheState} {dbs : Dbs} {cen it : Nat} {data : CEntryData}

/-- The entries from the least recently used one on. -/
def order (cache : PathCacheState) : List Nat :=
  cache.queue.map Prod.snd

theorem Linked.length_order (linked : cache.Linked NoBlank) :
    cache.nentries = cache.order.length := by
  rw [order, List.length_map]
  exact linked.counted

/-- An entry has values exactly when it is in the queue. -/
theorem Linked.mem_order_iff (linked : cache.Linked NoBlank) :
    cen ∈ cache.order ↔ ∃ data, cache.heap[cen]? = some (some data) := by
  constructor
  · intro member
    obtain ⟨⟨it, other⟩, inQueue, rfl⟩ := List.mem_map.mp member
    obtain ⟨data, present, _⟩ := linked.queued it other inQueue
    exact ⟨data, present⟩
  · rintro ⟨data, present⟩
    exact List.mem_map.mpr ⟨_, (linked.entry cen data present).queued, rfl⟩

theorem Linked.nodup_order (linked : cache.Linked NoBlank) : cache.order.Nodup := by
  refine (List.Nodup.of_map Prod.fst linked.handles.nodup).map_on ?_
  rintro ⟨first, cen⟩ firstIn ⟨second, other⟩ secondIn same
  obtain ⟨data, present, rfl⟩ := linked.queued first cen firstIn
  obtain ⟨otherData, otherPresent, rfl⟩ := linked.queued second other secondIn
  have sameEntry : cen = other := same
  subst sameEntry
  rw [present] at otherPresent
  cases otherPresent
  rfl

/-- Filtering by the handle of an entry takes that entry out of the order. -/
theorem Linked.map_filter_queue (linked : cache.Linked NoBlank)
    (present : cache.heap[cen]? = some (some data)) :
    (cache.queue.filter (·.1 ≠ data.queueIt)).map Prod.snd = cache.order.erase cen := by
  rw [linked.nodup_order.erase_eq_filter, order, List.filter_map]
  congr 1
  refine List.filter_congr fun element member => ?_
  rcases element with ⟨it, other⟩
  simp only [Function.comp_apply, ne_eq, decide_not, bne, Bool.not_eq_eq_eq_not, Bool.not_not]
  rw [Bool.eq_iff_iff, decide_eq_true_iff, beq_iff_eq]
  constructor
  · rintro rfl
    exact linked.handles.unique member (linked.entry cen data present).queued
  · rintro rfl
    obtain ⟨otherData, otherPresent, handle⟩ := linked.queued it other member
    rw [present] at otherPresent
    cases otherPresent
    exact handle.symm

/-- Deleting the least recently used entry. -/
theorem Linked.order_deleted_head {rest : List Nat} (linked : cache.Linked NoBlank)
    (present : cache.heap[cen]? = some (some data)) (first : cache.order = cen :: rest) :
    (cache.deleted cen data).order = rest :=
  (linked.map_filter_queue present).trans (by rw [first, List.erase_cons_head])

theorem Faithful.deleted (faithful : cache.Faithful dbs) (cen : Nat) (data : CEntryData) :
    (cache.deleted cen data).Faithful dbs := by
  intro other otherData present
  rw [heap_deleted] at present
  split at present
  · cases present
  · exact faithful other otherData present

theorem Faithful.promoted (faithful : cache.Faithful dbs)
    (present : cache.heap[cen]? = some (some data)) :
    ((cache.eraseIt data.queueIt).pushBack cen data).Faithful dbs := by
  intro other otherData otherPresent
  rw [heap_pushBack] at otherPresent
  split at otherPresent
  · cases otherPresent
    exact faithful cen data present
  · exact faithful other otherData otherPresent

end PathCacheState

namespace PathCache_hash

open PathCacheState

variable {world : World} {cen : Nat} {data : CEntryData} {sctx : SContext}

theorem exec_delEntry (present : world.cache.heap[cen]? = some (some data)) :
    exec (delEntry cen) world = (.ok (), world.withCache (world.cache.deleted cen data)) := by
  simp only [delEntry, exec_bind, exec_readEntry_data present, Outcome.andThen_ok,
    exec_modifyCache]

theorem exec_promote (present : world.cache.heap[cen]? = some (some data)) :
    exec (promote cen) world =
      (.ok (), world.withCache ((world.cache.eraseIt data.queueIt).pushBack cen data)) := by
  simp only [promote, exec_bind, exec_readEntry_data present, Outcome.andThen_ok,
    exec_modifyCache]

/-- The loop drops the least recently used entries above the limit, and no other. -/
theorem exec_evict (fuel : Nat) (world : World) (linked : world.cache.Linked NoBlank)
    (enough : world.cache.order.length < fuel) :
    ∃ after, exec (evict fuel) world = (.ok (), world.withCache after) ∧
      after.Linked NoBlank ∧ after.maxentries = world.cache.maxentries ∧
      after.order = world.cache.order.drop
        (world.cache.order.length - world.cache.maxentries.toNat) ∧
      (world.cache.Faithful world.dbs → after.Faithful world.dbs) := by
  induction fuel generalizing world with
  | zero => omega
  | succ fuel ih =>
      have counted := linked.length_order
      have limit := linked.limit
      simp only [evict, exec_bind, exec_perform, fsHandler, Outcome.andThen_ok]
      by_cases oversized : world.cache.nentries > world.cache.maxentries
      · rw [if_pos oversized]
        cases queue : world.cache.queue with
        | nil =>
            simp only [order, queue, List.map_nil, List.length_nil] at counted
            omega
        | cons front rest =>
            rcases front with ⟨it, cen⟩
            have inQueue : (it, cen) ∈ world.cache.queue := by simp [queue]
            obtain ⟨data, present, handle⟩ := linked.queued it cen inQueue
            have first : world.cache.order = cen :: rest.map Prod.snd := by simp [order, queue]
            have shrunk := linked.order_deleted_head present first
            rw [first, List.length_cons] at enough counted
            have shorter : (world.cache.deleted cen data).order.length < fuel := by
              rw [shrunk]
              omega
            obtain ⟨after, evicted, afterLinked, sameLimit, dropped, faithful⟩ :=
              ih (world.withCache (world.cache.deleted cen data)) (linked.deleted present) shorter
            refine ⟨after, ?_, afterLinked, sameLimit, ?_, fun was =>
              faithful (was.deleted cen data)⟩
            · simp only [exec_bind, exec_delEntry present, Outcome.andThen_ok, evicted]
              rfl
            · have positive : (rest.map Prod.snd).length + 1 - world.cache.maxentries.toNat =
                  (rest.map Prod.snd).length - world.cache.maxentries.toNat + 1 := by omega
              rw [dropped, first, List.length_cons, positive, List.drop_succ_cons]
              simp only [World.withCache_cache, shrunk]
              rfl
      · rw [if_neg oversized]
        refine ⟨world.cache, rfl, linked, rfl, ?_, id⟩
        rw [show world.cache.order.length - world.cache.maxentries.toNat = 0 by omega,
          List.drop_zero]

end PathCache_hash

/-! ## The whole critical section -/

namespace Dbs

/-- What the checks of the ancestors, made from the parent directory up, throw. -/
def Refuses (dbs : Dbs) (sctx : SContext) (tokens : List Bytes) (e : Err) : Prop :=
  dbs.entryAt tokens = .error e ∨
    e = .access ∧ (∃ info, dbs.entryAt tokens = .ok info) ∧ dbs.DeniesOn sctx tokens

end Dbs

namespace PathCache_hash

open PathCacheState

variable {world : World} {sctx : SContext} {tokens : List Bytes}

/-- Checking the ancestors of a path that is looked up first. -/
theorem exec_withPath (proper : Proper tokens) (linked : world.cache.Linked NoBlank)
    (sctx : SContext) (ended : Ended (exec (withPath (checkAccess sctx) tokens) world).1) :
    ∃ after, Served world.dbs (KeysAbove tokens) world.cache after ∧
      ((exec (withPath (checkAccess sctx) tokens) world = (.ok (), world.withCache after) ∧
          (∀ up, up <:+ tokens → ∃ cen : Nat, after.paths[keyOf up]? = some cen) ∧
          (world.cache.Faithful world.dbs → ¬ world.dbs.DeniesOn sctx tokens)) ∨
        ∃ e, exec (withPath (checkAccess sctx) tokens) world = (.error e, world.withCache after) ∧
          (world.cache.Faithful world.dbs → world.dbs.Refuses sctx tokens e)) := by
  obtain ⟨middle, found, result⟩ := exec_lookup proper world linked (fun _ _ => id) ended.first
  rcases result with ⟨cen, looked, stored⟩ | ⟨e, looked, reason⟩
  · obtain ⟨data, present, pathEq⟩ := found.linked.data_of_key stored id
    obtain ⟨after, climbed, ends⟩ := exec_withPathFrom proper sctx
      (world.withCache middle) found.linked stored (ended.rest looked)
    refine ⟨after, found.served.trans climbed, ?_⟩
    simp only [withPath, exec_bind, looked, Outcome.andThen_ok]
    rcases ends with ⟨returned, cached, grants⟩ | ⟨e, threw, denies⟩
    · exact .inl ⟨returned, cached, fun faithful => grants (found.faithful faithful)⟩
    · refine .inr ⟨e, threw, fun faithful => .inr ?_⟩
      have stillFaithful := found.faithful faithful
      obtain ⟨isAccess, denied⟩ := denies stillFaithful
      exact ⟨isAccess, ⟨_, stillFaithful.entryAt present proper pathEq⟩, denied⟩
  · refine ⟨middle, found.served, .inr ⟨e, ?_, fun faithful => .inl (reason faithful)⟩⟩
    simp only [withPath, exec_bind, looked, Outcome.andThen_error]

/-- The part of the critical section after the checks. -/
def find (tokens : List Bytes) : FsProg Nat := do
  let cen ← lookup tokens
  promote cen
  let cache ← perform .getCache
  evict (cache.queue.length + 1)
  return cen

theorem locate_eq (sctx : SContext) (tokens : List Bytes) :
    locate sctx tokens =
      onlyIf (tokens ≠ []) (withPath (checkAccess sctx) tokens.tail) >>= fun _ => find tokens :=
  rfl

/-- The cache after the least recently used entries above the limit were dropped,
with one entry used last. -/
structure Kept (dbs : Dbs) (cen : Nat) (served after : PathCacheState) : Prop where
  linked : after.Linked NoBlank
  maxentries : after.maxentries = served.maxentries
  order : after.order = (served.order.erase cen ++ [cen]).drop
    (served.order.length - served.maxentries.toNat)
  faithful : served.Faithful dbs → after.Faithful dbs

/-- The entry that was used last is kept. -/
theorem Kept.mem_order {dbs : Dbs} {cen : Nat} {served after : PathCacheState}
    (kept : Kept dbs cen served after) (linked : served.Linked NoBlank)
    (member : cen ∈ served.order) : cen ∈ after.order := by
  have limit := linked.limit
  have length := List.length_erase_of_mem member
  rw [kept.order, List.drop_append_of_le_length (by omega)]
  exact List.mem_append_right _ (List.mem_singleton.mpr rfl)

/-- Finding a path looks its entry up, moves it to the front and makes room. -/
theorem exec_find (proper : Proper tokens) (world : World)
    (linked : world.cache.Linked NoBlank) (ended : Ended (exec (lookup tokens) world).1) :
    ∃ served, Served world.dbs (KeysAbove tokens) world.cache served ∧
      ((∃ cen after, exec (find tokens) world = (.ok cen, world.withCache after) ∧
          served.paths[keyOf tokens]? = some cen ∧ Kept world.dbs cen served after) ∨
        ∃ e, exec (find tokens) world = (.error e, world.withCache served) ∧
          (world.cache.Faithful world.dbs → world.dbs.entryAt tokens = .error e)) := by
  obtain ⟨served, found, result⟩ := exec_lookup proper world linked (fun _ _ => id) ended
  refine ⟨served, found.served, ?_⟩
  rcases result with ⟨cen, looked, stored⟩ | ⟨e, looked, reason⟩
  · obtain ⟨data, present, pathEq⟩ := found.linked.data_of_key stored id
    have promotes : exec (promote cen) (world.withCache served) =
        (.ok (), world.withCache ((served.eraseIt data.queueIt).pushBack cen data)) :=
      exec_promote present
    have relinked := found.linked.promoted present
    have reordered : ((served.eraseIt data.queueIt).pushBack cen data).order =
        served.order.erase cen ++ [cen] := by
      rw [← found.linked.map_filter_queue present]
      simp [PathCacheState.order, pushBack, eraseIt]
    have sameLength : (served.order.erase cen ++ [cen]).length = served.order.length := by
      have member := found.linked.mem_order_iff.mpr ⟨data, present⟩
      have positive := List.length_pos_of_mem member
      rw [List.length_append, List.length_singleton, List.length_erase_of_mem member]
      omega
    obtain ⟨after, evicted, afterLinked, sameLimit, dropped, faithful⟩ :=
      exec_evict (((served.eraseIt data.queueIt).pushBack cen data).queue.length + 1)
        (world.withCache ((served.eraseIt data.queueIt).pushBack cen data)) relinked
          (by simp [PathCacheState.order])
    refine .inl ⟨cen, after, ?_, stored, afterLinked, sameLimit, ?_, ?_⟩
    · simp only [find, exec_bind, looked, Outcome.andThen_ok, promotes, exec_perform, fsHandler]
      simp only [World.withCache_cache, evicted]
      rfl
    · rw [dropped]
      simp only [World.withCache_cache, reordered, sameLength]
      rfl
    · exact fun was => faithful (was.promoted present)
  · refine .inr ⟨e, ?_, reason⟩
    simp only [find, exec_bind, looked, Outcome.andThen_error]

/-- The critical section of `getnode`, when it ends, returns the entry of the path, with the path
and all its ancestors served, or throws. -/
theorem exec_locate (proper : Proper tokens) (linked : world.cache.Linked NoBlank)
    (sctx : SContext) (ended : Ended (exec (locate sctx tokens) world).1) :
    ∃ served, Served world.dbs (KeysAbove tokens) world.cache served ∧
      ((∃ cen after, exec (locate sctx tokens) world = (.ok cen, world.withCache after) ∧
          served.paths[keyOf tokens]? = some cen ∧ Kept world.dbs cen served after ∧
          (∀ up, up <:+ tokens → ∃ cen : Nat, served.paths[keyOf up]? = some cen) ∧
          (world.cache.Faithful world.dbs → tokens ≠ [] →
            ¬ world.dbs.DeniesOn sctx tokens.tail)) ∨
        ∃ e, exec (locate sctx tokens) world = (.error e, world.withCache served) ∧
          (world.cache.Faithful world.dbs →
            (tokens ≠ [] ∧ world.dbs.Refuses sctx tokens.tail e) ∨
            (tokens ≠ [] → ¬ world.dbs.DeniesOn sctx tokens.tail) ∧
              world.dbs.entryAt tokens = .error e)) := by
  rw [locate_eq] at ended
  cases tokens with
  | nil =>
      obtain ⟨served, grown, result⟩ := exec_find proper world linked (ended.rest rfl).first
      refine ⟨served, grown, ?_⟩
      rcases result with ⟨cen, after, found, stored, kept⟩ | ⟨e, threw, reason⟩
      · refine .inl ⟨cen, after, found, stored, kept, ?_, fun _ nonempty => absurd rfl nonempty⟩
        intro up suffix
        rw [List.suffix_nil.mp suffix]
        exact ⟨cen, stored⟩
      · exact .inr ⟨e, threw, fun faithful => .inr ⟨fun nonempty => absurd rfl nonempty,
          reason faithful⟩⟩
  | cons leaf up =>
      have parts := Proper.cons_iff.mp proper
      rw [onlyIf, if_pos (List.cons_ne_nil leaf up), List.tail_cons] at ended
      obtain ⟨middle, climbed, checked⟩ := exec_withPath parts.2 linked sctx ended.first
      have served := climbed.mono fun _ => keysAbove_cons leaf
      rw [locate_eq, exec_bind, onlyIf, if_pos (List.cons_ne_nil leaf up), List.tail_cons]
      rcases checked with ⟨returned, cached, grants⟩ | ⟨e, threw, reason⟩
      · obtain ⟨last, grown, result⟩ := exec_find proper (world.withCache middle)
          climbed.linked (ended.rest returned).first
        refine ⟨last, served.trans grown, ?_⟩
        rw [returned, Outcome.andThen_ok]
        rcases result with ⟨cen, after, found, stored, kept⟩ | ⟨e, threw, reason⟩
        · refine .inl ⟨cen, after, found, stored, kept, ?_, fun faithful _ => grants faithful⟩
          intro higher suffix
          rcases List.suffix_cons_iff.mp suffix with rfl | above
          · exact ⟨cen, stored⟩
          · obtain ⟨upCen, upStored⟩ := cached higher above
            exact ⟨upCen, grown.grown.paths _ _ upStored⟩
        · exact .inr ⟨e, threw, fun faithful => .inr ⟨fun _ => grants faithful,
            reason (climbed.faithful faithful)⟩⟩
      · refine ⟨middle, served, .inr ⟨e, ?_, fun faithful =>
          .inl ⟨List.cons_ne_nil leaf up, reason faithful⟩⟩⟩
        rw [threw, Outcome.andThen_error]

end PathCache_hash

end OfflineFs
