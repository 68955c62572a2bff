import Mathlib.Data.List.Infix
import OfflineFs.Caches.Bounds
import OfflineFs.Caches.Credentials

/-!
# Entries read after the mutex is released

`PathCache_hash::getnode` and `SContextCache::get` read the entry they located
after they have unlocked the mutex.  The critical sections are steps, and what
follows them are steps of their own: requests interleave in any order.
-/

namespace OfflineFs

open OfflineFs.Effect OfflineFs.Map OfflineFs.Transition

/-! ## What a request evicts -/

namespace PathCacheState

variable {cache served after : PathCacheState} {tokens : List Bytes} {dbs : Dbs} {cen : Nat}

/-- How many of a path and its ancestors are not cached. -/
def missing (cache : PathCacheState) (tokens : List Bytes) : Nat :=
  tokens.tails.countP fun up => (cache.paths[keyOf up]?).isNone

/-- The entries but the one of a path, the least recently used one first. -/
def others (cache : PathCacheState) (tokens : List Bytes) : List Nat :=
  match cache.paths[keyOf tokens]? with
  | some own => cache.order.erase own
  | none => cache.order

/-- A request for a path that goes through removes the entry to make room. -/
def Evicts (cache : PathCacheState) (tokens : List Bytes) (cen : Nat) : Prop :=
  cen ∈ (cache.others tokens).take
    (cache.order.length + cache.missing tokens - cache.maxentries.toNat)

instance (cache : PathCacheState) (tokens : List Bytes) (cen : Nat) :
    Decidable (cache.Evicts tokens cen) :=
  inferInstanceAs (Decidable (_ ∈ _))

/-- The ancestors of a path have different keys. -/
theorem nodup_keys_tails (proper : Proper tokens) : (tokens.tails.map keyOf).Nodup := by
  induction tokens with
  | nil => simp
  | cons leaf up ih =>
      have parts := Proper.cons_iff.mp proper
      rw [List.tails, List.map_cons, List.nodup_cons]
      refine ⟨?_, ih parts.2⟩
      intro member
      obtain ⟨higher, inTails, same⟩ := List.mem_map.mp member
      have suffix := (List.mem_tails _ _).mp inTails
      have properHigher : Proper higher := fun token isIn => parts.2 token (suffix.subset isIn)
      have isSame := (keyOf_inj properHigher proper).mp same
      have shorter := suffix.length_le
      rw [isSame, List.length_cons] at shorter
      omega

/-- Serving a path and all its ancestors adds an entry for each that is missing. -/
theorem Served.length_order (serves : Served dbs (KeysAbove tokens) cache served)
    (linked : cache.Linked NoBlank) (proper : Proper tokens)
    (cached : ∀ up, up <:+ tokens → ∃ cen : Nat, served.paths[keyOf up]? = some cen) :
    served.order.length = cache.order.length + cache.missing tokens := by
  have gained : ∀ key : Bytes, (served.paths[key]?).isSome ↔
      (cache.paths[key]?).isSome ∨ key ∈ tokens.tails.map keyOf := by
    intro key
    rw [Option.isSome_iff_exists, Option.isSome_iff_exists]
    constructor
    · rintro ⟨cen, stored⟩
      rcases serves.grown.within key cen stored with old | ⟨up, suffix, rfl⟩
      · exact .inl ⟨cen, old⟩
      · exact .inr (List.mem_map.mpr ⟨up, (List.mem_tails _ _).mpr suffix, rfl⟩)
    · rintro (⟨cen, old⟩ | member)
      · exact ⟨cen, serves.grown.paths key cen old⟩
      · obtain ⟨up, inTails, rfl⟩ := List.mem_map.mp member
        exact cached up ((List.mem_tails _ _).mp inTails)
  have sizes := size_of_gained (nodup_keys_tails proper) gained
  have before := linked.perm_order.length_eq
  have later := serves.linked.perm_order.length_eq
  rw [List.length_map, Std.ExtTreeMap.length_toList] at before later
  rw [later, before, sizes, List.countP_map]
  rfl

/-- In a list without duplicates an element is either in the front or in the rest. -/
theorem mem_drop_iff {order : List Nat} (nodup : order.Nodup) (member : cen ∈ order) (count : Nat) :
    cen ∈ order.drop count ↔ cen ∉ order.take count := by
  rw [← List.take_append_drop count order, List.nodup_append] at nodup
  rw [← List.take_append_drop count order, List.mem_append] at member
  constructor
  · intro inRest inFront
    exact nodup.2.2 cen inFront cen inRest rfl
  · exact fun notInFront => member.resolve_left notInFront

/-- The order without the located entry begins with the other entries that were
there before. -/
theorem Served.order_located (serves : Served dbs (KeysAbove tokens) cache served)
    (linked : cache.Linked NoBlank) (stored : served.paths[keyOf tokens]? = some cen) :
    ∃ rest, served.order.erase cen = cache.others tokens ++ rest ∧
      ∀ other ∈ cache.order, other ≠ cen → other ∈ cache.others tokens := by
  obtain ⟨more, grew⟩ := serves.grown.queue
  have orders : served.order = cache.order ++ more.map Prod.snd := by
    rw [order, grew, List.map_append, order]
  unfold others
  cases own : cache.paths[keyOf tokens]? with
  | some entry =>
      have same : cen = entry :=
        Option.some.inj (stored.symm.trans (serves.grown.paths _ _ own))
      subst same
      obtain ⟨data, present, -⟩ := linked.data_of_key own id
      have member := linked.mem_order_iff.mpr ⟨data, present⟩
      refine ⟨more.map Prod.snd, ?_, ?_⟩
      · rw [orders, List.erase_append_left _ member]
      · exact fun other isIn apart => (List.mem_erase_of_ne apart).mpr isIn
  | none =>
      have absent : cen ∉ cache.order := by
        intro member
        obtain ⟨data, present⟩ := linked.mem_order_iff.mp member
        have keyed := (linked.entry cen data present).keyed
        have same := serves.linked.distinct _ _ cen (serves.grown.paths _ _ keyed) stored
        rw [same, own] at keyed
        cases keyed
      refine ⟨(more.map Prod.snd).erase cen, ?_, fun other isIn _ => isIn⟩
      rw [orders, List.erase_append_right _ absent]

end PathCacheState

namespace PathCache_hash

open PathCacheState

variable {cache served after : PathCacheState} {tokens : List Bytes} {dbs : Dbs} {cen : Nat}

/-- A request that goes through removes exactly the entries it evicts. -/
theorem Kept.mem_iff (kept : Kept dbs cen served after)
    (serves : Served dbs (KeysAbove tokens) cache served) (linked : cache.Linked NoBlank)
    (proper : Proper tokens) (stored : served.paths[keyOf tokens]? = some cen)
    (cached : ∀ up, up <:+ tokens → ∃ cen : Nat, served.paths[keyOf up]? = some cen)
    {other : Nat} (member : other ∈ cache.order) :
    other ∈ after.order ↔ ¬ cache.Evicts tokens other := by
  obtain ⟨data, present, -⟩ := serves.linked.data_of_key stored id
  have located := serves.linked.mem_order_iff.mpr ⟨data, present⟩
  obtain ⟨rest, reordered, others⟩ := serves.order_located linked stored
  have perm : (served.order.erase cen ++ [cen]).Perm served.order :=
    List.perm_append_comm.trans (List.perm_cons_erase located).symm
  have nodup := perm.nodup_iff.mpr serves.linked.nodup_order
  have erased : cen ∉ served.order.erase cen := serves.linked.nodup_order.not_mem_erase
  by_cases same : other = cen
  · subst same
    have spared : ¬ cache.Evicts tokens other := by
      intro evicted
      apply erased
      rw [reordered]
      exact List.mem_append_left _ (List.mem_of_mem_take evicted)
    exact iff_of_true (kept.mem_order serves.linked located) spared
  · have inOthers := others other member same
    have inServed : other ∈ served.order.erase cen ++ [cen] := by
      rw [reordered, List.append_assoc]
      exact List.mem_append_left _ inOthers
    rw [kept.order, mem_drop_iff nodup inServed, Evicts, serves.length_order linked proper cached,
      serves.grown.maxentries, not_iff_not, reordered, List.append_assoc, List.take_append,
      List.mem_append]
    rw [reordered, List.append_assoc] at nodup
    refine ⟨fun inFront => inFront.resolve_right fun inRest => ?_, .inl⟩
    exact (List.nodup_append.mp nodup).2.2 other inOthers other (List.mem_of_mem_take inRest) rfl

end PathCache_hash

/-! ## What a request for credentials drops -/

namespace SContextCache

variable {accounts : Accounts} {now : Int} {uid gid : UInt32} {key back : CKey}
variable {c : SContextCache} {it : CacheIt}

/-- A request drops the element of an iterator: the account files have changed, or
the cache is full and the element is the least recently used one. -/
def Drops (c : SContextCache) (accounts : Accounts) (uid gid : UInt32) (it : CacheIt) : Prop :=
  accounts.changedSince c.checktime = true ∨
    c.cache ⟨uid, gid⟩ = none ∧ c.nelems = scontextcacheMaxElems ∧
      ∃ qit, c.queue.getLast? = some (qit, it.key)

/-- The element an iterator refers to is still in the cache. -/
def Readable (c : SContextCache) (it : CacheIt) : Prop :=
  ∃ sctx, c.read it = .ok sctx

theorem readable_iff : c.Readable it ↔ ∃ found, c.cache it.key = some found ∧
    found.node = it.node := by
  unfold Readable read
  cases c.cache it.key with
  | none => simp
  | some found =>
      by_cases same : found.node = it.node
      · simp [same]
      · simp [same]

/-- A new element leaves the older ones as readable as they were. -/
theorem readable_insertNew (missing : c.cache key = none) (older : it.node < c.nextNode) :
    (c.insertNew accounts key).2.Readable it ↔ c.Readable it := by
  rw [readable_iff, readable_iff]
  cases built : SContext.construct accounts key.uid key.gid with
  | error e =>
      rw [insertNew_error built]
      rfl
  | ok sctx =>
      rw [insertNew_ok built]
      by_cases same : it.key = key
      · rw [same, missing]
        simp [inserted, pushFront, Nat.ne_of_gt older]
      · simp only [inserted, Function.update_of_ne same]
        rfl

theorem readable_touch {found : CElem} (present : c.cache key = some found) :
    (c.touch key found).Readable it ↔ c.Readable it := by
  rw [readable_iff, readable_iff]
  by_cases same : it.key = key
  · rw [same, present]
    simp [touch]
  · simp only [touch, Function.update_of_ne same]

theorem readable_dropBack (present : c.Readable it) :
    (c.dropBack back).Readable it ↔ it.key ≠ back := by
  rw [readable_iff] at present ⊢
  by_cases same : it.key = back
  · simp [same, dropBack]
  · simp only [dropBack, Function.update_of_ne same, present, ne_eq, same, not_false_eq_true]

/-- After a request an element is still there exactly if the request did not drop
it. -/
theorem readable_locate (shaped : c.Shaped 0) (present : c.Readable it) :
    (c.locate accounts now uid gid).2.Readable it ↔ ¬ c.Drops accounts uid gid it := by
  obtain ⟨element, cached, node⟩ := readable_iff.mp present
  have older : it.node < c.nextNode := node ▸ shaped.nodes _ _ cached
  by_cases changed : accounts.changedSince c.checktime = true
  · have cleared : c.uptodate accounts now = c.cleared now := if_pos changed
    have notFull : (c.cleared now).makeRoom =
        (.ok (), { c.cleared now with nelems := 1 }) := rfl
    simp only [locate, cleared, notFull, Outcome.andThen_ok]
    refine iff_of_false ?_ fun spares => spares (.inl changed)
    intro readable
    have missing : ({ c.cleared now with nelems := 1 } : SContextCache).cache ⟨uid, gid⟩ = none :=
      rfl
    have before := (readable_insertNew missing older).mp readable
    obtain ⟨_, impossible, _⟩ := readable_iff.mp before
    cases impossible
  · have same : c.uptodate accounts now = c := if_neg changed
    cases found : c.cache ⟨uid, gid⟩ with
    | some element =>
        simp only [locate, same, found]
        rw [readable_touch found]
        refine iff_of_true present ?_
        rintro (isChanged | ⟨missing, _⟩)
        · exact changed isChanged
        · rw [found] at missing
          cases missing
    | none =>
        simp only [locate, same, found]
        by_cases full : c.nelems = scontextcacheMaxElems
        · rcases List.eq_nil_or_concat' c.queue with empty | ⟨front, ⟨qit, back⟩, split⟩
          · have counted := shaped.counted
            rw [full, empty] at counted
            exact absurd counted (by decide)
          · have last : c.queue.getLast? = some (qit, back) := by rw [split]; simp
            have made : c.makeRoom = (.ok (), c.dropBack back) := by
              simp [makeRoom, full, last]
            have backCached : back ≠ ⟨uid, gid⟩ := by
              rintro rfl
              obtain ⟨_, isCached, _⟩ := shaped.cached qit _ (List.mem_of_getLast? last)
              rw [found] at isCached
              cases isCached
            have missing : (c.dropBack back).cache ⟨uid, gid⟩ = none := by
              simp [dropBack, Function.update_of_ne backCached.symm, found]
            rw [made, Outcome.andThen_ok, readable_insertNew missing older,
              readable_dropBack present, ← not_iff_not, not_not, not_not]
            constructor
            · rintro rfl
              exact .inr ⟨found, full, qit, last⟩
            · rintro (isChanged | ⟨_, _, other, isLast⟩)
              · exact absurd isChanged changed
              · rw [last] at isLast
                exact (congrArg Prod.snd (Option.some.inj isLast)).symm
        · have made : c.makeRoom = (.ok (), { c with nelems := c.nelems + 1 }) := if_neg full
          rw [made, Outcome.andThen_ok]
          refine iff_of_true ((readable_insertNew (c := { c with nelems := c.nelems + 1 }) found
            older).mpr present) ?_
          rintro (isChanged | ⟨_, isFull, _⟩)
          · exact changed isChanged
          · exact full isFull

/-- The located element is in the cache when the mutex is released. -/
theorem readable_located {located : CacheIt} {after : SContextCache} (shaped : c.Shaped 0)
    (result : c.locate accounts now uid gid = (.ok located, after)) : after.Readable located := by
  rcases locate_cases shaped accounts now uid gid with
    ⟨found, present, isFound⟩ | ⟨roomy, -, -, -, isNew⟩
  · rw [isFound] at result
    cases result
    exact ⟨_, read_touch _ _ _⟩
  · rw [isNew] at result
    cases built : SContext.construct accounts (CKey.mk uid gid).uid (CKey.mk uid gid).gid with
    | error e =>
        rw [insertNew_error built] at result
        cases result
    | ok sctx =>
        rw [insertNew_ok built] at result
        cases result
        exact ⟨sctx, read_inserted _ _ _ (roomy.pushFront ⟨uid, gid⟩)⟩

end SContextCache

/-! ## Interleaved requests -/

/-- The two caches and what they are filled from, with the entries that requests
located and will read now that the mutex is unlocked, one for each request.  The process has
crashed once a critical section used something that was freed. -/
structure Shared where
  world : World
  reading : List Nat
  accounts : Accounts
  clock : Int
  credentials : SContextCache
  copying : List CacheIt
  crashed : Bool

/-- The steps of all requests. -/
inductive SharedOp
  /-- The databases, the account files and the clock may change at any time. -/
  | databases (dbs : Dbs)
  | accounts (accounts : Accounts) (clock : Int)
  /-- The critical section of `PathCache_hash::getnode`. -/
  | locate (sctx : SContext) (path : Bytes)
  /-- What `getnode` does after it: the read of the entry. -/
  | readNode (request : Nat)
  | invalidate (path : Bytes)
  /-- The critical section of `SContextCache::get`. -/
  | getCredentials (uid gid : UInt32)
  /-- What `get` does after it: the copy of the credentials. -/
  | copyCredentials (request : Nat)

namespace Shared

/-- The caches as they are constructed. -/
def start (world : World) (accounts : Accounts) (clock : Int) : Shared :=
  { world := world.withCache .initial, reading := [], accounts, clock,
    credentials := .new accounts clock, copying := [], crashed := false }

/-- What a step does.  A critical section locates an entry, or throws. -/
def step (shared : Shared) : SharedOp → Shared
  | .databases dbs => { shared with world := shared.world.withDbs dbs }
  | .accounts accounts clock => { shared with accounts, clock }
  | .locate sctx path =>
      match exec (PathCache_hash.locked (PathCache_hash.locate sctx (tokenize path).reverse))
          shared.world with
      | (.ok cen, world) => { shared with world, reading := cen :: shared.reading }
      | (.error _, world) => { shared with world }
      | (.fault _, world) => { shared with world, crashed := true }
  | .readNode request => { shared with reading := shared.reading.eraseIdx request }
  | .invalidate path =>
      { shared with world := (exec (PathCache_hash.invalidate path) shared.world).2 }
  | .getCredentials uid gid =>
      match shared.credentials.locate shared.accounts shared.clock uid gid with
      | (.ok it, credentials) => { shared with credentials, copying := it :: shared.copying }
      | (_, credentials) => { shared with credentials }
  | .copyCredentials request => { shared with copying := shared.copying.eraseIdx request }

/-- Nothing that was freed has been used, and every entry that some request is about to read can
be read. -/
structure Safe (shared : Shared) : Prop where
  running : shared.crashed = false
  nodes : ∀ cen ∈ shared.reading, ∃ data,
    exec (PathCache_hash.readEntry cen) shared.world = (.ok data, shared.world)
  credentials : ∀ it ∈ shared.copying, ∃ sctx, shared.credentials.read it = .ok sctx

/-- A step overruns no table and removes no entry that some request is about to read. -/
def Spares (shared : Shared) : SharedOp → Prop
  | .databases _ | .accounts _ _ | .readNode _ | .copyCredentials _ => True
  | .locate sctx path =>
      ¬ shared.world.dbs.CallOverruns sctx shared.world.cache.remembers shared.world.cache.table
        (tokenize path).reverse ∧
      (shared.world.dbs.Finds sctx shared.world.cache.remembers (tokenize path).reverse →
        ∀ cen ∈ shared.reading, ¬ shared.world.cache.Evicts (tokenize path).reverse cen)
  | .invalidate path =>
      ∀ cen ∈ shared.reading, shared.world.cache.paths[join (tokenize path)]? ≠ some cen
  | .getCredentials uid gid =>
      ∀ it ∈ shared.copying, ¬ shared.credentials.Drops shared.accounts uid gid it

/-- What holds as long as all steps spare the entries. -/
structure Sound (shared : Shared) : Prop where
  linked : shared.world.cache.Linked PathCacheState.NoBlank
  shaped : shared.credentials.Shaped 0
  safe : shared.Safe

namespace Sound

variable {shared : Shared}

/-- Reading an entry succeeds exactly while it is in the queue. -/
theorem readable_iff {world : World} (linked : world.cache.Linked PathCacheState.NoBlank)
    (cen : Nat) :
    (∃ data, exec (PathCache_hash.readEntry cen) world = (.ok data, world)) ↔
      cen ∈ world.cache.order := by
  rw [linked.mem_order_iff]
  constructor
  · rintro ⟨data, reads⟩
    rw [PathCache_hash.exec_readEntry] at reads
    rcases state : world.cache.heap[cen]? with _ | _ | found
    · simp [state] at reads
    · simp [state] at reads
    · exact ⟨found, rfl⟩
  · rintro ⟨data, present⟩
    exact ⟨data, PathCache_hash.exec_readEntry_data present⟩

theorem safe_iff (shared : Shared) (linked : shared.world.cache.Linked PathCacheState.NoBlank) :
    shared.Safe ↔ shared.crashed = false ∧
      (∀ cen ∈ shared.reading, cen ∈ shared.world.cache.order) ∧
      ∀ it ∈ shared.copying, shared.credentials.Readable it := by
  constructor
  · intro safe
    exact ⟨safe.running, fun cen member => (readable_iff linked cen).mp (safe.nodes cen member),
      safe.credentials⟩
  · rintro ⟨running, nodes, credentials⟩
    exact ⟨running, fun cen member => (readable_iff linked cen).mpr (nodes cen member), credentials⟩

theorem start (world : World) (accounts : Accounts) (clock : Int) :
    (Shared.start world accounts clock).Sound where
  linked := PathCacheState.linked_initial
  shaped := (Host.Current.booted accounts clock).shaped
  safe := ⟨rfl, fun _ member => absurd member List.not_mem_nil,
    fun _ member => absurd member List.not_mem_nil⟩

section Locate

variable {sctx : SContext} {path : Bytes}

/-- A call that does not end has used freed memory. -/
theorem not_safe_locate (crashes : ¬ Ended
    (exec (PathCache_hash.locate sctx (tokenize path).reverse) shared.world).1) :
    ¬ (shared.step (.locate sctx path)).Safe := by
  have crashed : (shared.step (.locate sctx path)).crashed = true := by
    rw [step, PathCache_hash.exec_locked]
    rcases result : exec (PathCache_hash.locate sctx (tokenize path).reverse) shared.world with
      ⟨outcome, world⟩
    rw [result] at crashes
    cases outcome with
    | ok cen => exact absurd (ended_ok cen) crashes
    | error e => exact absurd (ended_error e) crashes
    | fault stop => rfl
  intro safe
  rw [safe.running] at crashed
  cases crashed

variable (sound : shared.Sound)

include sound

/-- A call that finds its path is safe exactly if it evicts nothing that is yet to be read. -/
theorem safe_located_iff {cen : Nat} {served after : PathCacheState}
    (located : exec (PathCache_hash.locate sctx (tokenize path).reverse) shared.world =
      (.ok cen, shared.world.withCache after))
    (serves : PathCacheState.Served shared.world.dbs (KeysAbove (tokenize path).reverse)
      shared.world.cache served)
    (stored : served.paths[keyOf (tokenize path).reverse]? = some cen)
    (kept : PathCache_hash.Kept shared.world.dbs cen served after)
    (cached : ∀ up, up <:+ (tokenize path).reverse →
      ∃ cen : Nat, served.paths[keyOf up]? = some cen) :
    (∀ other ∈ shared.reading, ¬ shared.world.cache.Evicts (tokenize path).reverse other) ↔
      (shared.step (.locate sctx path)).Safe := by
  have proper := (proper_tokenize path).reverse
  obtain ⟨running, nodes, credentials⟩ := (safe_iff shared sound.linked).mp sound.safe
  have steps : shared.step (.locate sctx path) =
      { shared with world := shared.world.withCache after, reading := cen :: shared.reading } := by
    simp only [step, PathCache_hash.exec_locked, located]
  rw [steps, safe_iff _ kept.linked, and_iff_right running]
  obtain ⟨data, present, -⟩ := serves.linked.data_of_key stored id
  have inServed := serves.linked.mem_order_iff.mpr ⟨data, present⟩
  have keeps : ∀ other ∈ shared.reading, other ∈ after.order ↔
      ¬ shared.world.cache.Evicts (tokenize path).reverse other := fun other member =>
    kept.mem_iff serves sound.linked proper stored cached (nodes other member)
  constructor
  · intro spares
    refine ⟨?_, credentials⟩
    intro other member
    rcases List.mem_cons.mp member with rfl | inReading
    · exact kept.mem_order serves.linked inServed
    · exact (keeps other inReading).mpr (spares other inReading)
  · rintro ⟨safe, -⟩ other member
    exact (keeps other member).mp (safe other (List.mem_cons_of_mem _ member))

/-- A call that throws removes nothing. -/
theorem safe_of_thrown {served : PathCacheState} {e : Err}
    (threw : exec (PathCache_hash.locate sctx (tokenize path).reverse) shared.world =
      (.error e, shared.world.withCache served))
    (serves : PathCacheState.Served shared.world.dbs (KeysAbove (tokenize path).reverse)
      shared.world.cache served) :
    (shared.step (.locate sctx path)).Safe := by
  obtain ⟨running, nodes, credentials⟩ := (safe_iff shared sound.linked).mp sound.safe
  have steps : shared.step (.locate sctx path) =
      { shared with world := shared.world.withCache served } := by
    simp only [step, PathCache_hash.exec_locked, threw]
  rw [steps, safe_iff _ serves.linked]
  refine ⟨running, ?_, credentials⟩
  intro other member
  obtain ⟨more, grew⟩ := serves.grown.queue
  rw [World.withCache_cache, PathCacheState.order, grew, List.map_append]
  exact List.mem_append_left _ (nodes other member)

end Locate

/-- The critical section of `getnode` keeps what requests are about to read exactly
if it spares it. -/
theorem locate_iff (sound : shared.Sound) (sctx : SContext) (path : Bytes) :
    (shared.Spares (.locate sctx path) ↔ (shared.step (.locate sctx path)).Safe) ∧
      ((shared.step (.locate sctx path)).Safe →
        (shared.step (.locate sctx path)).world.cache.Linked PathCacheState.NoBlank) := by
  have proper := (proper_tokenize path).reverse
  rw [Spares, ← PathCache_hash.ended_locate_iff proper sctx shared.world sound.linked]
  by_cases ended : Ended (exec (PathCache_hash.locate sctx (tokenize path).reverse) shared.world).1
  · rw [and_iff_right ended]
    have finds := PathCache_hash.nentries_locate proper sctx shared.world sound.linked ended
    obtain ⟨served, serves, ⟨cen, after, located, stored, kept, cached, -⟩ | ⟨e, threw, -⟩⟩ :=
      PathCache_hash.exec_locate proper sound.linked sctx ended
    · rcases finds with ⟨-, found, -⟩ | ⟨⟨e, threw⟩, -⟩
      · rw [forall_prop_of_true found]
        refine ⟨safe_located_iff sound located serves stored kept cached, fun _ => ?_⟩
        simp only [step, PathCache_hash.exec_locked, located]
        exact kept.linked
      · rw [located] at threw
        cases threw
    · rcases finds with ⟨⟨cen, returned⟩, -⟩ | ⟨-, missed, -⟩
      · rw [threw] at returned
        cases returned
      · have safe := safe_of_thrown sound threw serves
        refine ⟨iff_of_true (fun found => absurd found missed) safe, fun _ => ?_⟩
        simp only [step, PathCache_hash.exec_locked, threw]
        exact serves.linked
  · have crashed := not_safe_locate ended
    exact ⟨iff_of_false (fun spares => ended spares.1) crashed, fun safe => absurd safe crashed⟩

/-- Invalidating a path is safe exactly when no call is yet to read its entry. -/
theorem invalidate_iff (sound : shared.Sound) (path : Bytes) :
    shared.Spares (.invalidate path) ↔ (shared.step (.invalidate path)).Safe := by
  obtain ⟨running, nodes, credentials⟩ := (safe_iff shared sound.linked).mp sound.safe
  have stillLinked := PathCache_hash.linked_invalidate sound.linked path
  rw [safe_iff (shared.step (.invalidate path)) stillLinked]
  simp only [Spares, step, PathCache_hash.exec_invalidate sound.linked, World.withCache_cache]
  cases stored : shared.world.cache.paths[join (tokenize path)]? with
  | none =>
      refine iff_of_true (fun _ _ impossible => ?_) ⟨running, nodes, credentials⟩
      cases impossible
  | some cen =>
      obtain ⟨data, present, -⟩ := sound.linked.data_of_key stored id
      have shrunk : (shared.world.cache.deleted cen data).order =
          shared.world.cache.order.erase cen :=
        sound.linked.map_filter_queue present
      simp only [present, shrunk, ne_eq, Option.some.injEq]
      constructor
      · intro spares
        refine ⟨running, fun other member => ?_, credentials⟩
        have apart : other ≠ cen := fun same => spares other member same.symm
        exact (List.mem_erase_of_ne apart).mpr (nodes other member)
      · rintro ⟨-, safe, -⟩ other member rfl
        exact sound.linked.nodup_order.not_mem_erase (safe cen member)

/-- The critical section of `get` keeps what requests are about to copy exactly if
it spares it. -/
theorem getCredentials_iff (sound : shared.Sound) (uid gid : UInt32) :
    (shared.step (.getCredentials uid gid)).credentials.Shaped 0 ∧
      (shared.Spares (.getCredentials uid gid) ↔
        (shared.step (.getCredentials uid gid)).Safe) := by
  obtain ⟨running, nodes, credentials⟩ := (safe_iff shared sound.linked).mp sound.safe
  have shaped := sound.shaped.locate shared.accounts shared.clock uid gid
  have keeps : ∀ it ∈ shared.copying,
      (shared.credentials.locate shared.accounts shared.clock uid gid).2.Readable it ↔
        ¬ shared.credentials.Drops shared.accounts uid gid it := fun it member =>
    SContextCache.readable_locate sound.shaped (credentials it member)
  have spares : shared.Spares (.getCredentials uid gid) ↔ ∀ it ∈ shared.copying,
      (shared.credentials.locate shared.accounts shared.clock uid gid).2.Readable it :=
    forall₂_congr fun it member => (keeps it member).symm
  rw [spares]
  rcases located : shared.credentials.locate shared.accounts shared.clock uid gid with
    ⟨outcome, after⟩
  rw [located] at shaped
  have unread : ∀ copying, Safe { shared with credentials := after, copying } ↔
      ∀ it ∈ copying, after.Readable it := by
    intro copying
    rw [safe_iff { shared with credentials := after, copying } sound.linked]
    exact (and_iff_right running).trans (and_iff_right nodes)
  cases outcome with
  | ok it =>
      have steps : shared.step (.getCredentials uid gid) =
          { shared with credentials := after, copying := it :: shared.copying } := by
        simp only [step, located]
      rw [steps]
      refine ⟨shaped, Iff.trans ?_ (unread _).symm⟩
      have new := SContextCache.readable_located sound.shaped located
      exact ⟨fun old => List.forall_mem_cons.mpr ⟨new, old⟩, fun all =>
        (List.forall_mem_cons.mp all).2⟩
  | error | fault =>
      have steps : shared.step (.getCredentials uid gid) =
          { shared with credentials := after } := by
        simp only [step, located]
      rw [steps]
      exact ⟨shaped, (unread _).symm⟩

/-- A step spares the entries exactly if they can all be read after it. -/
theorem spares_iff (sound : shared.Sound) (op : SharedOp) :
    shared.Spares op ↔ (shared.step op).Safe := by
  have linked := sound.linked
  obtain ⟨running, nodes, credentials⟩ := (safe_iff shared linked).mp sound.safe
  cases op with
  | databases dbs =>
      refine iff_of_true trivial ?_
      exact (safe_iff (shared.step (.databases dbs)) linked).mpr ⟨running, nodes, credentials⟩
  | accounts accounts clock =>
      exact iff_of_true trivial ⟨running, sound.safe.nodes, credentials⟩
  | locate sctx path => exact (sound.locate_iff sctx path).1
  | readNode request =>
      refine iff_of_true trivial ⟨running, ?_, credentials⟩
      exact fun cen member => sound.safe.nodes cen (List.mem_of_mem_eraseIdx member)
  | invalidate path => exact sound.invalidate_iff path
  | getCredentials uid gid => exact (sound.getCredentials_iff uid gid).2
  | copyCredentials request =>
      refine iff_of_true trivial ⟨running, sound.safe.nodes, ?_⟩
      exact fun it member => credentials it (List.mem_of_mem_eraseIdx member)

/-- A step that spares the elements in use keeps the state sound. -/
theorem step (sound : shared.Sound) {op : SharedOp} (spares : shared.Spares op) :
    (shared.step op).Sound := by
  have linked := sound.linked
  have shaped := sound.shaped
  refine ⟨?_, ?_, (sound.spares_iff op).mp spares⟩
  · cases op with
    | databases | accounts | readNode | copyCredentials => exact linked
    | locate sctx path =>
        obtain ⟨spared, relinked⟩ := sound.locate_iff sctx path
        exact relinked (spared.mp spares)
    | invalidate path => exact PathCache_hash.linked_invalidate linked path
    | getCredentials uid gid =>
        rw [Shared.step]
        split <;> exact linked
  · cases op with
    | databases | accounts | readNode | copyCredentials | invalidate => exact shaped
    | locate sctx path =>
        rw [Shared.step]
        split <;> exact shaped
    | getCredentials uid gid => exact (sound.getCredentials_iff uid gid).1

end Sound

/-- In every interleaving whose steps overrun no table and spare the entries that requests are
about to read, every entry is there when it is read, and the first step that does neither takes
one away or uses what was freed. -/
theorem entries_outlive_reads {world : World} {accounts : Accounts} {clock : Int}
    {shared : Shared}
    (reached : Reaches step Spares (start world accounts clock) shared) :
    shared.Safe ∧ ∀ op, shared.Spares op ↔ (shared.step op).Safe := by
  have sound : shared.Sound := by
    refine reached.invariant (Sound.start world accounts clock) ?_
    exact fun _ _ sound spares => sound.step spares
  exact ⟨sound.safe, sound.spares_iff⟩

/-! ## Some interleavings -/

/-- The credentials of the superuser. -/
def rootSContext : SContext :=
  { uid := 0, gid := 0, groups := [0] }

/-- The caches over the small instance. -/
def small : Shared :=
  start smallFile Host.memberAccounts 100

/-- Two lookups overlap, and the root is read and invalidated.  Then two requests of a user locate
the credentials while the node of the file is still to be read. -/
def overlapping : List SharedOp :=
  [.locate rootSContext (str "/f"), .locate rootSContext (str "/"), .readNode 0,
    .invalidate (str "/"), .getCredentials 1000 100, .getCredentials 1000 100]

/-- The state after so many of these steps. -/
def overlap (count : Nat) : Shared :=
  (overlapping.take count).foldl step small

set_option maxRecDepth 100000 in
/-- No step of this run takes what another call has in use. -/
theorem overlapping_meets : Meets step Spares small overlapping := by
  refine .cons ⟨?_, ?_⟩ (.cons ⟨?_, ?_⟩ (.cons trivial (.cons ?_ (.cons ?_ (.cons ?_ (.nil _))))))
  · decide +kernel
  · exact fun _ _ member => absurd member List.not_mem_nil
  · decide +kernel
  · intro _
    change ∀ cen ∈ (overlap 1).reading, ¬ (overlap 1).world.cache.Evicts _ cen
    decide +kernel
  · change ∀ cen ∈ (overlap 3).reading, (overlap 3).world.cache.paths[join (tokenize (str "/"))]? ≠
      some cen
    decide +kernel
  · exact fun _ member => absurd member List.not_mem_nil
  · have unchanged :
        (overlap 5).accounts.changedSince (overlap 5).credentials.checktime = false := by
      decide +kernel
    have cached : (overlap 5).credentials.cache ⟨1000, 100⟩ ≠ none := by decide +kernel
    change ∀ it ∈ (overlap 5).copying,
      ¬ (overlap 5).credentials.Drops (overlap 5).accounts 1000 100 it
    rintro it - (changed | ⟨missing, -⟩)
    · rw [unchanged] at changed
      cases changed
    · exact cached missing

set_option maxRecDepth 100000 in
/-- The node of the file and both copies of the credentials can still be read. -/
theorem entries_outlive_reads_overlapping :
    (overlap 6).reading.length = 1 ∧ (overlap 6).copying.length = 2 ∧ (overlap 6).Safe :=
  ⟨by decide +kernel, by decide +kernel, (entries_outlive_reads overlapping_meets.reaches).1⟩

/-- The file is invalidated between the lookup and its read. -/
def located : Shared :=
  small.step (.locate rootSContext (str "/f"))

/-- Credentials have been located when one of the account files changes. -/
def rewritten : Shared :=
  (small.step (.getCredentials 1000 100)).step
    (.accounts { Host.memberAccounts with groupTime := some 101 } 102)

set_option maxRecDepth 100000 in
/-- An entry that is invalidated, and one that is cleared, before it is read. -/
theorem entries_read_after_removal :
    ¬ (located.step (.invalidate (str "/f"))).Safe ∧
      ¬ (rewritten.step (.getCredentials 1000 100)).Safe := by
  have begun : small.Sound := Sound.start _ _ _
  constructor
  · have spares : small.Spares (.locate rootSContext (str "/f")) :=
      ⟨by decide +kernel, fun _ _ member => absurd member List.not_mem_nil⟩
    have sound : located.Sound := begun.step spares
    rw [← sound.spares_iff]
    intro spares
    have removed : ∃ cen ∈ located.reading,
        located.world.cache.paths[join (tokenize (str "/f"))]? = some cen := by decide +kernel
    obtain ⟨cen, member, stored⟩ := removed
    exact spares cen member stored
  · have spares : small.Spares (.getCredentials 1000 100) :=
      fun _ member => absurd member List.not_mem_nil
    have written : (small.step (.getCredentials 1000 100)).Spares
        (.accounts { Host.memberAccounts with groupTime := some 101 } 102) :=
      trivial
    have sound : rewritten.Sound := (begun.step spares).step written
    rw [← sound.spares_iff]
    intro spares
    have pending : rewritten.copying = [⟨⟨1000, 100⟩, 0⟩] := by decide +kernel
    exact spares ⟨⟨1000, 100⟩, 0⟩ (by rw [pending]; simp) (.inl (by decide +kernel))

end Shared

end OfflineFs
