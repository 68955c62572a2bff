import OfflineFs.Caches.Growth
import OfflineFs.Caches.Paths
import OfflineFs.Run.Start
import OfflineFs.Transition.Run

/-!
# The path cache stays consistent

Whatever the databases hold and whether or not the calls throw, the map, the
queue, the count and the links of the entries agree after every call, and a call
uses an entry that has no values, or an iterator that dangles, only where a lookup
that throws overruns the table.
-/

namespace OfflineFs

open OfflineFs.Effect OfflineFs.Effect.Program OfflineFs.Map OfflineFs.Transition

namespace PathCache_hash

open PathCacheState

variable {world : World} {sctx : SContext}

/-- Alone, a request never waits for the mutex. -/
@[simp]
theorem exec_locked {α : Type} (body : FsProg α) (world : World) :
    exec (locked body) world = exec body world := by
  simp only [locked, exec_bind, exec_catching, exec_perform, fsHandler, Outcome.andThen_ok]
  rcases exec body world with ⟨outcome, after⟩
  cases outcome <;> rfl

theorem ended_locate (sctx : SContext) (path : Bytes)
    (ended : Ended (exec (getnode sctx path) world).1) :
    Ended (exec (locate sctx (tokenize path).reverse) world).1 := by
  rw [← exec_locked]
  exact ended.first

/-- `getnode`, when it ends, ends with the node of an entry that has values, or throws what its
critical section throws. -/
theorem exec_getnode (linked : world.cache.Linked NoBlank) (sctx : SContext) (path : Bytes)
    (ended : Ended (exec (locate sctx (tokenize path).reverse) world).1) :
    ∃ after, after.Linked NoBlank ∧
      ((∃ cen data, exec (locate sctx (tokenize path).reverse) world =
            (.ok cen, world.withCache after) ∧
          after.heap[cen]? = some (some data) ∧
          exec (getnode sctx path) world =
            (.ofExcept (world.dbs.getnode data.nodeid), world.withCache after)) ∨
        ∃ e, exec (locate sctx (tokenize path).reverse) world =
            (.error e, world.withCache after) ∧
          exec (getnode sctx path) world = (.error e, world.withCache after)) := by
  obtain ⟨served, serves, result⟩ :=
    exec_locate (proper_tokenize path).reverse linked sctx ended
  rcases result with ⟨cen, after, located, stored, kept, -, -⟩ | ⟨e, threw, -⟩
  · obtain ⟨servedData, servedPresent, -⟩ := serves.linked.data_of_key stored id
    have used := kept.mem_order serves.linked
      (serves.linked.mem_order_iff.mpr ⟨servedData, servedPresent⟩)
    obtain ⟨data, present⟩ := kept.linked.mem_order_iff.mp used
    refine ⟨after, kept.linked, .inl ⟨cen, data, located, present, ?_⟩⟩
    have reads : exec (readEntry cen) (world.withCache after) =
        (.ok data, world.withCache after) :=
      exec_readEntry_data present
    simp only [getnode, exec_bind, exec_locked, located, Outcome.andThen_ok, reads,
      Node.exec_getnode]
    rfl
  · refine ⟨served, serves.linked, .inr ⟨e, threw, ?_⟩⟩
    simp only [getnode, exec_bind, exec_locked, threw, Outcome.andThen_error]

/-- A call ends unless it overruns the table. -/
theorem ended_getnode_iff (linked : world.cache.Linked NoBlank) (sctx : SContext) (path : Bytes) :
    Ended (exec (getnode sctx path) world).1 ↔
      ¬ world.dbs.CallOverruns sctx world.cache.remembers world.cache.table
        (tokenize path).reverse := by
  rw [← ended_locate_iff (proper_tokenize path).reverse sctx world linked]
  refine ⟨ended_locate sctx path, fun ended => ?_⟩
  obtain ⟨after, -, ⟨cen, data, -, -, result⟩ | ⟨e, -, result⟩⟩ :=
    exec_getnode linked sctx path ended
  · rw [result]
    exact ended_ofExcept _
  · rw [result]
    exact ended_error e

/-- What `invalidate` does to a consistent cache. -/
theorem exec_invalidate (linked : world.cache.Linked NoBlank) (path : Bytes) :
    exec (invalidate path) world = (.ok (), world.withCache
      (match world.cache.paths[join (tokenize path)]? with
        | none => world.cache
        | some cen =>
            match world.cache.heap[cen]? with
            | some (some data) => world.cache.deleted cen data
            | _ => world.cache)) := by
  simp only [invalidate, exec_locked, exec_bind, exec_perform, fsHandler, Outcome.andThen_ok]
  cases stored : world.cache.paths[join (tokenize path)]? with
  | none => rfl
  | some cen =>
      obtain ⟨data, present, -⟩ := linked.data_of_key stored id
      simp only [exec_delEntry present, present]

theorem linked_invalidate (linked : world.cache.Linked NoBlank) (path : Bytes) :
    (exec (invalidate path) world).2.cache.Linked NoBlank := by
  rw [exec_invalidate linked]
  simp only [World.withCache_cache]
  cases stored : world.cache.paths[join (tokenize path)]? with
  | none => exact linked
  | some cen =>
      obtain ⟨data, present, -⟩ := linked.data_of_key stored id
      simp only [present]
      exact linked.deleted present

end PathCache_hash

namespace PathCacheState

variable {cache : PathCacheState}

/-- The map and the queue hold the same entries, each once, and each has values,
is stored under its path, knows its place in the queue, and points at the entry
of its parent directory as long as that one has data. -/
structure Consistent (cache : PathCacheState) : Prop where
  same : ∀ cen : Nat, (∃ key : Bytes, cache.paths[key]? = some cen) ↔ cen ∈ cache.order
  nodup : cache.order.Nodup
  counted : cache.nentries = cache.paths.size ∧ cache.nentries = cache.order.length
  entry : ∀ (key : Bytes) (cen : Nat), cache.paths[key]? = some cen →
    ∃ data, cache.heap[cen]? = some (some data) ∧ data.path = key ∧
      (data.queueIt, cen) ∈ cache.queue ∧
      (key ≠ [] → ∃ parent, data.parent = some parent ∧
        (cache.heap[parent]? ≠ none → cache.paths[parentKey key]? = some parent))

/-- The entries in the map, as a list. -/
theorem Linked.perm_order (linked : cache.Linked NoBlank) :
    cache.order.Perm (cache.paths.toList.map Prod.snd) := by
  have nodup : (cache.paths.toList.map Prod.snd).Nodup := by
    refine (List.Nodup.of_map Prod.fst ?_).map_on ?_
    · have ordered := Std.ExtTreeMap.ordered_keys_toList (t := cache.paths)
      rw [List.Nodup, List.pairwise_map]
      refine ordered.imp ?_
      rintro ⟨first, _⟩ ⟨second, _⟩ before same
      have sameKey : first = second := same
      subst sameKey
      simp at before
    · rintro ⟨first, cen⟩ firstIn ⟨second, other⟩ secondIn same
      have sameEntry : cen = other := same
      subst sameEntry
      rw [Std.ExtTreeMap.mem_toList_iff_getElem?_eq_some] at firstIn secondIn
      rw [linked.distinct first second cen firstIn secondIn]
  rw [List.perm_ext_iff_of_nodup linked.nodup_order nodup]
  intro cen
  rw [linked.mem_order_iff]
  constructor
  · rintro ⟨data, present⟩
    refine List.mem_map.mpr ⟨(data.path, cen), ?_, rfl⟩
    rw [Std.ExtTreeMap.mem_toList_iff_getElem?_eq_some]
    exact (linked.entry cen data present).keyed
  · intro member
    obtain ⟨⟨key, other⟩, inMap, rfl⟩ := List.mem_map.mp member
    rw [Std.ExtTreeMap.mem_toList_iff_getElem?_eq_some] at inMap
    obtain ⟨data, present, -⟩ := linked.data_of_key inMap id
    exact ⟨data, present⟩

/-- The linking that the proofs carry says that the cache is consistent. -/
theorem Linked.consistent (linked : cache.Linked NoBlank) : cache.Consistent where
  same cen := by
    rw [linked.mem_order_iff]
    constructor
    · rintro ⟨key, stored⟩
      obtain ⟨data, present, -⟩ := linked.data_of_key stored id
      exact ⟨data, present⟩
    · rintro ⟨data, present⟩
      exact ⟨data.path, (linked.entry cen data present).keyed⟩
  nodup := linked.nodup_order
  counted := by
    have length := linked.length_order
    refine ⟨?_, length⟩
    rw [length, linked.perm_order.length_eq, List.length_map, Std.ExtTreeMap.length_toList]
  entry key cen stored := by
    obtain ⟨data, present, rfl⟩ := linked.data_of_key stored id
    have entry := linked.entry cen data present
    refine ⟨data, present, rfl, entry.queued, fun nonroot => ?_⟩
    obtain ⟨parent, isParent, -, valid⟩ := entry.linked nonroot
    exact ⟨parent, isParent, valid⟩

end PathCacheState

/-! ## Sequences of calls -/

/-- A call on the cache, or any change of the databases between two calls. -/
inductive CacheOp
  | databases (dbs : Dbs)
  | getnode (sctx : SContext) (path : Bytes)
  | invalidate (path : Bytes)

/-- What is left after a call.  One that did not end has taken its process with it, and the next
process starts with an empty cache. -/
def World.survived {α : Type} : Outcome Err α × World → World
  | (.fault _, world) => world.withCache .initial
  | (_, world) => world

namespace CacheOp

open PathCacheState (NoBlank)

/-- The world after a call, or a change of the databases. -/
def step (world : World) : CacheOp → World
  | databases dbs => world.withDbs dbs
  | getnode sctx path => .survived (exec (PathCache_hash.getnode sctx path) world)
  | invalidate path => .survived (exec (PathCache_hash.invalidate path) world)

theorem step_getnode {world : World} {sctx : SContext} {path : Bytes}
    (ended : Ended (exec (PathCache_hash.getnode sctx path) world).1) :
    (getnode sctx path).step world = (exec (PathCache_hash.getnode sctx path) world).2 := by
  rw [step]
  rcases result : exec (PathCache_hash.getnode sctx path) world with ⟨outcome, after⟩
  rw [result] at ended
  cases outcome with
  | ok n => rfl
  | error e => rfl
  | fault stop => exact absurd rfl (ended stop)

theorem step_invalidate {world : World} (linked : world.cache.Linked NoBlank) (path : Bytes) :
    (invalidate path).step world = (exec (PathCache_hash.invalidate path) world).2 := by
  rw [step, PathCache_hash.exec_invalidate linked]
  rfl

/-- Any call leaves the cache linked, whether it ends or not. -/
theorem step_linked {world : World} (linked : world.cache.Linked NoBlank) (op : CacheOp) :
    (op.step world).cache.Linked NoBlank := by
  cases op with
  | databases dbs => exact linked
  | getnode sctx path =>
      by_cases ended : Ended (exec (PathCache_hash.getnode sctx path) world).1
      · rw [step_getnode ended]
        obtain ⟨after, afterLinked, ⟨cen, data, -, -, result⟩ | ⟨e, -, result⟩⟩ :=
          PathCache_hash.exec_getnode linked sctx path (PathCache_hash.ended_locate sctx path ended)
        · rw [result]
          exact afterLinked
        · rw [result]
          exact afterLinked
      · rw [step]
        rcases result : exec (PathCache_hash.getnode sctx path) world with ⟨outcome, after⟩
        rw [result] at ended
        cases outcome with
        | ok n => exact absurd (ended_ok n) ended
        | error e => exact absurd (ended_error e) ended
        | fault stop => exact PathCacheState.linked_initial
  | invalidate path =>
      rw [step_invalidate linked]
      exact PathCache_hash.linked_invalidate linked path

theorem linked_of_reaches {legal : World → CacheOp → Prop} {start world : World}
    (fresh : start.cache = .initial) (reached : Reaches step legal start world) :
    world.cache.Linked NoBlank := by
  induction reached with
  | start => exact fresh ▸ PathCacheState.linked_initial
  | step op _ _ ih => exact step_linked ih op

/-- The call returns or throws. -/
def Completes (world : World) : CacheOp → Prop
  | databases _ => True
  | getnode sctx path => Ended (exec (PathCache_hash.getnode sctx path) world).1
  | invalidate path => Ended (exec (PathCache_hash.invalidate path) world).1

/-- No lookup of the call throws after the table has grown since its first insertion. -/
def Calm (world : World) : CacheOp → Prop
  | getnode sctx path => ¬ world.dbs.CallOverruns sctx world.cache.remembers world.cache.table
      (tokenize path).reverse
  | _ => True

theorem completes_iff {world : World} (linked : world.cache.Linked NoBlank) (op : CacheOp) :
    op.Completes world ↔ op.Calm world := by
  cases op with
  | databases dbs => rfl
  | getnode sctx path => exact PathCache_hash.ended_getnode_iff linked sctx path
  | invalidate path =>
      rw [Completes, PathCache_hash.exec_invalidate linked]
      exact iff_of_true (ended_ok ()) trivial

/-- After any sequence of calls that do not overrun the table, on whatever databases, the cache
is consistent, and the next call uses something that was freed or never initialized only if it
overruns the table. -/
theorem cache_consistent {start world : World} (fresh : start.cache = .initial)
    (reached : Reaches step (fun world op => op.Calm world) start world) :
    world.cache.Consistent ∧ ∀ op : CacheOp, op.Completes world ↔ op.Calm world := by
  have linked := linked_of_reaches fresh reached
  exact ⟨linked.consistent, completes_iff linked⟩

/-- The file is looked up and dropped, and then a path below it is looked up. -/
def fileCalls : List CacheOp :=
  [.getnode ⟨0, 0, []⟩ (str "/f"), .invalidate (str "/f"), .getnode ⟨0, 0, []⟩ (str "/f/x/y")]

set_option maxRecDepth 100000 in
theorem fileCalls_meets : Meets step (fun world op => op.Calm world) smallFile fileCalls := by
  refine .cons ?_ (.cons trivial (.cons ?_ (.nil _)))
  · unfold Calm
    decide +kernel
  · unfold Calm
    decide +kernel

theorem cache_consistent_fileCalls :
    (fileCalls.foldl step smallFile).cache.Consistent ∧
      ∀ op : CacheOp, op.Completes (fileCalls.foldl step smallFile) ↔
        op.Calm (fileCalls.foldl step smallFile) := by
  have fresh : smallFile.cache = .initial := rfl
  exact cache_consistent fresh fileCalls_meets.reaches

/-! ## A long path -/

/-- What an entry for the root remembers. -/
def rootInfo : CEntryInfo :=
  ⟨0, 0, 0, 0o40755⟩

set_option maxRecDepth 100000 in
theorem mountedWorld_infos : mountedWorld.dbs.entryAt [] = .ok rootInfo ∧
    mountedWorld.dbs.childInfo 0 (str ".") = .ok rootInfo ∧
    mountedWorld.dbs.childInfo 0 (str "x") = .error .notFound := by
  decide +kernel

/-- Far below a name that is not there. -/
def lostTokens (count : Nat) : List Bytes :=
  str "x" :: List.replicate count (str "a")

/-- The path of these components. -/
def lostPath (count : Nat) : Bytes :=
  slash :: join (lostTokens count)

/-- The components of the path that is not there. -/
theorem tokenize_lostPath (count : Nat) :
    (tokenize (lostPath count)).reverse = List.replicate count (str "a") ++ [str "x"] := by
  have proper : Proper (lostTokens count) := by
    intro token member
    rcases List.mem_cons.mp member with isFirst | isRest
    · rw [isFirst]
      decide +kernel
    · rw [List.eq_of_mem_replicate isRest]
      decide +kernel
  have rooted := tokenize_append [] (join (lostTokens count))
  rw [List.nil_append] at rooted
  rw [lostPath, rooted, tokenize_join proper, lostTokens]
  simp

/-- In an empty cache none of the path is known, and it is all inserted. -/
theorem known_lost (count : Nat) :
    mountedWorld.dbs.known (fun _ => none) (List.replicate count (str "a") ++ [str "x"]) =
        .error .notFound ∧
      Memory.gap (fun _ => none) (List.replicate count (str "a") ++ [str "x"]) = count + 2 := by
  induction count with
  | zero =>
      have known : mountedWorld.dbs.known (fun _ => none) [] = .ok rootInfo := mountedWorld_infos.1
      constructor
      · rw [List.replicate_zero, List.nil_append, Dbs.known_up rfl, known]
        exact mountedWorld_infos.2.2
      · rfl
  | succ count ih =>
      rw [List.replicate_succ, List.cons_append, Dbs.known_up rfl, ih.1, Dbs.gap_cons rfl, ih.2]
      exact ⟨rfl, rfl⟩

/-- A lookup below a name that is not there overruns the table, and erases through iterators
that dangle. -/
theorem lostPath_dangles : mountedWorld.restarted.cache = .initial ∧
    ¬ Ended
      (exec (PathCache_hash.getnode ⟨0, 0, []⟩ (lostPath 6000)) mountedWorld.restarted).1 := by
  have linked : mountedWorld.restarted.cache.Linked NoBlank := PathCacheState.linked_initial
  refine ⟨rfl, fun ended => ?_⟩
  rw [PathCache_hash.ended_getnode_iff linked, tokenize_lostPath, World.restarted_cache,
    PathCacheState.remembers_initial] at ended
  apply ended
  have lost := known_lost 5999
  apply (Dbs.climbOverruns_of_error lost.1).mpr
  refine ⟨⟨_, lost.1⟩, ?_⟩
  rw [lost.2]
  apply Table.outgrown_of_lt lt_nextBuckets
  · decide
  · decide

end CacheOp

end OfflineFs
