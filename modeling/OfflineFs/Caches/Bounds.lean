import OfflineFs.Caches.Consistency

/-!
# How large the path cache gets

Only a call that finds its path drops the least recently used entries.  A call that
is refused leaves every entry that it added on the way, and their number follows from
what the cache remembers and what the databases hold.
-/

namespace OfflineFs

open OfflineFs.Effect OfflineFs.Effect.Program OfflineFs.Transition

namespace PathCache_hash

open PathCacheState

/-- What comes after the lookup throws nothing. -/
theorem ends_evict (fuel : Nat) : Ends (fun _ => True) (fun _ => False) (evict fuel) := by
  induction fuel with
  | zero => exact trivial
  | succ fuel ih =>
      apply ends_bind (ends_perform _)
      intro cache _
      split
      · cases cache.queue with
        | nil => trivial
        | cons front rest =>
            have deletes : Ends (fun _ => True) (fun _ => False) (delEntry front.2) := by
              refine ends_bind (?_ : Ends (fun _ => True) _ _) fun data _ => ?_
              · apply ends_bind (ends_perform _)
                intro cache _
                split <;> trivial
              · exact ends_bind (ends_perform _) fun _ _ => ends_perform _
            exact ends_bind deletes fun _ _ => ih
      · exact trivial

/-- Once the entry of a path is there, finding it again does not throw. -/
theorem find_throws {tokens : List Bytes} {cen : Nat} {e : Err} {world looked after : World}
    (found : exec (lookup tokens) world = (.ok cen, looked)) :
    exec (find tokens) world ≠ (.error e, after) := by
  have promotes : Ends (fun _ => True) (fun _ => False) (promote cen) := by
    refine ends_bind (?_ : Ends (fun _ => True) _ _) fun data _ => ?_
    · apply ends_bind (ends_perform _)
      intro cache _
      split <;> trivial
    · exact ends_bind (ends_perform _) fun _ _ => ends_perform _
  have rest : Ends (fun _ : Nat => True) (fun _ => False) (do
      promote cen
      let cache ← perform .getCache
      evict (cache.queue.length + 1)
      Pure.pure cen : FsProg Nat) :=
    ends_bind promotes fun _ _ => ends_bind (ends_perform _) fun cache _ =>
      ends_bind (ends_evict _) fun _ _ => trivial
  intro threw
  rw [find, exec_bind, found] at threw
  exact (rest.run fsHandler looked).2 e (congrArg Prod.fst threw)

theorem nentries_kept {dbs : Dbs} {cen : Nat} {served after : PathCacheState}
    (kept : Kept dbs cen served after) (linked : served.Linked NoBlank)
    (used : cen ∈ served.order) : after.nentries ≤ served.maxentries := by
  have limit := linked.limit
  have length := List.length_erase_of_mem used
  have positive := List.length_pos_of_mem used
  rw [kept.linked.length_order, kept.order, List.length_drop, List.length_append, length,
    List.length_singleton]
  omega

/-- The second lookup: only when it finds the path are entries dropped. -/
theorem nentries_find {tokens : List Bytes} (proper : Proper tokens) (sctx : SContext)
    (world : World) (linked : world.cache.Linked NoBlank)
    (ended : Ended (exec (lookup tokens) world).1) :
    (∃ cen, (exec (find tokens) world).1 = .ok cen) ∧
        (∃ info, world.dbs.known world.cache.remembers tokens = .ok info) ∧
        (exec (find tokens) world).2.cache.nentries ≤ world.cache.maxentries ∨
      (∃ e, (exec (find tokens) world).1 = .error e) ∧
        (¬ ∃ info, world.dbs.known world.cache.remembers tokens = .ok info) ∧
        (exec (find tokens) world).2.cache.nentries = world.cache.nentries +
          world.dbs.added sctx world.cache.remembers tokens true := by
  have fills := fills_lookup proper sctx world linked fun _ _ => id
  obtain ⟨middle, -, result⟩ := exec_lookup proper world linked (fun _ _ => id) ended
  rcases result with ⟨cen, looked, -⟩ | ⟨e, looked, -⟩
  · rw [looked] at fills
    obtain ⟨served, serves, finds⟩ := exec_find proper world linked ended
    rcases finds with ⟨other, after, found, stored, kept⟩ | ⟨e, threw, -⟩
    · refine .inl ⟨⟨other, congrArg Prod.fst found⟩, fills.known_of_ok, ?_⟩
      rw [found, World.withCache_cache, ← serves.grown.maxentries]
      obtain ⟨data, present, -⟩ := serves.linked.data_of_key stored id
      exact nentries_kept kept serves.linked (serves.linked.mem_order_iff.mpr ⟨data, present⟩)
    · exact absurd threw (find_throws looked)
  · rw [looked] at fills
    have threw : exec (find tokens) world = (.error e, world.withCache middle) := by
      simp only [find, exec_bind, looked, Outcome.andThen_error]
    rw [threw]
    refine .inr ⟨⟨e, rfl⟩, ?_, fills.nentries (ended_error e)⟩
    rintro ⟨info, known⟩
    rw [fills.known_of_error] at known
    cases known

/-- A call finds its path and leaves no more entries than fit, or it throws and leaves all that
it added. -/
theorem nentries_locate {tokens : List Bytes} (proper : Proper tokens) (sctx : SContext)
    (world : World) (linked : world.cache.Linked NoBlank)
    (ended : Ended (exec (locate sctx tokens) world).1) :
    (∃ cen, (exec (locate sctx tokens) world).1 = .ok cen) ∧
        world.dbs.Finds sctx world.cache.remembers tokens ∧
        (exec (locate sctx tokens) world).2.cache.nentries ≤ world.cache.maxentries ∨
      (∃ e, (exec (locate sctx tokens) world).1 = .error e) ∧
        ¬ world.dbs.Finds sctx world.cache.remembers tokens ∧
        (exec (locate sctx tokens) world).2.cache.nentries = world.cache.nentries +
          world.dbs.leaves sctx world.cache.remembers tokens := by
  rw [locate_eq] at ended
  cases tokens with
  | nil =>
      have looks := (ended.rest rfl).first
      rcases nentries_find proper sctx world linked looks with
        ⟨returned, found, fits⟩ | ⟨threw, missing, left⟩
      · exact .inl ⟨returned, found, fits⟩
      · refine .inr ⟨threw, missing, left.trans ?_⟩
        obtain ⟨e, failed⟩ := Dbs.known_of_missing missing
        rw [Dbs.added, Dbs.addedFor_of_error failed, Dbs.leaves]
  | cons leaf up =>
      have parts := Proper.cons_iff.mp proper
      rw [onlyIf, if_pos (List.cons_ne_nil leaf up), List.tail_cons] at ended
      have climbs := adds_withPath parts.2 sctx world linked ended.first
      obtain ⟨middle, served, result⟩ := exec_withPath parts.2 linked sctx ended.first
      rw [locate_eq, exec_bind, onlyIf, if_pos (List.cons_ne_nil leaf up), List.tail_cons]
      rcases result with ⟨returned, cached, -⟩ | ⟨e, threw, -⟩
      · rw [returned] at climbs ⊢
        rw [Outcome.andThen_ok]
        have grants := climbs.outcome.mp rfl
        have known := climbs.knowledge (leaf :: up) proper
        have counted : middle.nentries = _ := climbs.nentries
        have looks := (ended.rest returned).first
        rcases nentries_find proper sctx (world.withCache middle) served.linked looks with
          ⟨located, ⟨info, found⟩, fits⟩ | ⟨threw, missing, left⟩
        · refine .inl ⟨located, ⟨grants, info, known.symm.trans found⟩, ?_⟩
          exact fits.trans_eq served.grown.maxentries
        · obtain ⟨e, failed⟩ := Dbs.known_of_missing missing
          obtain ⟨cen, stored⟩ := cached up (List.suffix_refl _)
          obtain ⟨data, present, -⟩ := served.linked.data_of_key stored id
          have nothing : world.dbs.added sctx middle.remembers _ _ = 0 :=
            Dbs.added_of_failed failed (remembers_of_stored stored present)
          refine .inr ⟨threw, ?_, left.trans ?_⟩
          · rintro ⟨-, info, found⟩
            exact missing ⟨info, known.trans found⟩
          · rw [World.withCache_cache, World.withCache_dbs, nothing, counted]
            simp [Dbs.leaves]
      · rw [threw] at climbs ⊢
        rw [Outcome.andThen_error]
        refine .inr ⟨⟨e, rfl⟩, ?_, climbs.nentries⟩
        rintro ⟨grants, -⟩
        have returned := climbs.outcome.mpr grants
        cases returned

theorem maxentries_locate {tokens : List Bytes} (proper : Proper tokens) (sctx : SContext)
    (world : World) (linked : world.cache.Linked NoBlank)
    (ended : Ended (exec (locate sctx tokens) world).1) :
    (exec (locate sctx tokens) world).2.cache.maxentries = world.cache.maxentries := by
  obtain ⟨served, serves, result⟩ := exec_locate proper linked sctx ended
  rcases result with ⟨cen, after, located, -, kept, -, -⟩ | ⟨e, threw, -⟩
  · rw [located]
    exact kept.maxentries.trans serves.grown.maxentries
  · rw [threw]
    exact serves.grown.maxentries

/-- Reading the node of the entry changes nothing. -/
theorem cache_getnode {world : World} (linked : world.cache.Linked NoBlank) (sctx : SContext)
    (path : Bytes) (ended : Ended (exec (locate sctx (tokenize path).reverse) world).1) :
    (exec (getnode sctx path) world).2.cache =
      (exec (locate sctx (tokenize path).reverse) world).2.cache := by
  obtain ⟨after, -, result⟩ := exec_getnode linked sctx path ended
  rcases result with ⟨cen, data, located, -, result⟩ | ⟨e, threw, result⟩
  · rw [located, result]
  · rw [threw, result]

end PathCache_hash

/-! ## Sequences of calls -/

namespace CacheOp

open PathCacheState (NoBlank)

/-- The call finds its path, or what it leaves fits. -/
def Fits (world : World) : CacheOp → Prop
  | getnode sctx path =>
      world.dbs.Finds sctx world.cache.remembers (tokenize path).reverse ∨
        world.cache.nentries + world.dbs.leaves sctx world.cache.remembers (tokenize path).reverse ≤
          pathcacheMaxEntries
  | _ => True

/-- The cache as it is between calls. -/
structure Limited (world : World) : Prop where
  linked : world.cache.Linked NoBlank
  maxentries : world.cache.maxentries = pathcacheMaxEntries

/-- A call that completes keeps the cache below its limit. -/
theorem Limited.step {world : World} (limited : Limited world) {op : CacheOp}
    (completes : op.Completes world) : Limited (op.step world) := by
  refine ⟨step_linked limited.linked op, ?_⟩
  cases op with
  | databases dbs => exact limited.maxentries
  | getnode sctx path =>
      have ended := PathCache_hash.ended_locate sctx path completes
      rw [step_getnode completes, PathCache_hash.cache_getnode limited.linked sctx path ended,
        PathCache_hash.maxentries_locate (proper_tokenize path).reverse sctx world
          limited.linked ended]
      exact limited.maxentries
  | invalidate path =>
      rw [step_invalidate limited.linked, PathCache_hash.exec_invalidate limited.linked,
        World.withCache_cache]
      split
      · exact limited.maxentries
      · split <;> exact limited.maxentries

/-- After a call that ends there are no more entries than fit exactly when the call finds its
path or leaves few enough. -/
theorem step_bounded_iff {world : World} (limited : Limited world)
    (bounded : world.cache.nentries ≤ pathcacheMaxEntries) {op : CacheOp}
    (completes : op.Completes world) :
    (op.step world).cache.nentries ≤ pathcacheMaxEntries ↔ op.Fits world := by
  cases op with
  | databases dbs => exact iff_of_true bounded trivial
  | getnode sctx path =>
      have ended := PathCache_hash.ended_locate sctx path completes
      rw [step_getnode completes, PathCache_hash.cache_getnode limited.linked sctx path ended,
        Fits, ← limited.maxentries]
      rcases PathCache_hash.nentries_locate (proper_tokenize path).reverse sctx world
        limited.linked ended with ⟨-, finds, fits⟩ | ⟨-, misses, left⟩
      · exact iff_of_true fits (.inl finds)
      · rw [left, or_iff_right misses]
  | invalidate path =>
      refine iff_of_true ?_ trivial
      rw [step_invalidate limited.linked, PathCache_hash.exec_invalidate limited.linked,
        World.withCache_cache]
      split
      · exact bounded
      · split
        · exact (Int.sub_le_self _ Int.one_nonneg).trans bounded
        · exact bounded

/-- The call ends with no more entries than fit. -/
def Bounded (world : World) (op : CacheOp) : Prop :=
  op.Completes world ∧ (op.step world).cache.nentries ≤ pathcacheMaxEntries

theorem bounded_iff {world : World} (limited : Limited world)
    (bounded : world.cache.nentries ≤ pathcacheMaxEntries) (op : CacheOp) :
    op.Bounded world ↔ op.Calm world ∧ op.Fits world := by
  rw [← completes_iff limited.linked]
  exact and_congr_right (step_bounded_iff limited bounded)

/-- Every call of a sequence ends with the number of entries within the limit exactly when none
overruns the table and each finds its path or leaves few enough. -/
theorem cache_bounded_iff {start : World} (fresh : start.cache = .initial) (ops : List CacheOp) :
    Meets step (fun world op => op.Bounded world) start ops ↔
      Meets step (fun world op => op.Calm world ∧ op.Fits world) start ops := by
  have initial : Limited start ∧ start.cache.nentries ≤ pathcacheMaxEntries := by
    rw [fresh]
    exact ⟨⟨fresh ▸ PathCacheState.linked_initial, by rw [fresh]; rfl⟩, by decide⟩
  constructor
  · apply Meets.of_invariant
      (fun world => Limited world ∧ world.cache.nentries ≤ pathcacheMaxEntries) initial
    · exact fun world op holds within => ⟨holds.1.step within.1, within.2⟩
    · exact fun world op holds => (bounded_iff holds.1 holds.2 op).mp
  · apply Meets.of_invariant
      (fun world => Limited world ∧ world.cache.nentries ≤ pathcacheMaxEntries) initial
    · intro world op holds fits
      have within := (bounded_iff holds.1 holds.2 op).mpr fits
      exact ⟨holds.1.step within.1, within.2⟩
    · exact fun world op holds => (bounded_iff holds.1 holds.2 op).mpr

theorem cache_bounded_fileCalls :
    Meets step (fun world op => op.Bounded world) smallFile fileCalls ↔
      Meets step (fun world op => op.Calm world ∧ op.Fits world) smallFile fileCalls :=
  cache_bounded_iff rfl fileCalls

/-! ## A long path -/

/-- Through the root again and again, to a name that is not there. -/
def deepTokens (count : Nat) : List Bytes :=
  List.replicate count (str ".") ++ [str "x"]

/-- The path of these components. -/
def deepPath (count : Nat) : Bytes :=
  slash :: join (deepTokens count)

/-- The components of the deep path. -/
theorem tokenize_deepPath (count : Nat) :
    (tokenize (deepPath count)).reverse = str "x" :: List.replicate count (str ".") := by
  have proper : Proper (deepTokens count) := by
    intro token member
    rcases List.mem_append.mp member with isDot | isLast
    · rw [List.eq_of_mem_replicate isDot]
      decide +kernel
    · rw [List.mem_singleton.mp isLast]
      decide +kernel
  have rooted := tokenize_append [] (join (deepTokens count))
  rw [List.nil_append] at rooted
  rw [deepPath, rooted, tokenize_join proper, deepTokens]
  simp

/-- In an empty cache all of the path but its last component is known, and nothing is
stored. -/
theorem known_dots (count : Nat) :
    mountedWorld.dbs.known (fun _ => none) (List.replicate count (str ".")) = .ok rootInfo := by
  induction count with
  | zero => exact mountedWorld_infos.1
  | succ count ih =>
      rw [List.replicate_succ, Dbs.known_up rfl, ih]
      exact mountedWorld_infos.2.1

/-- Every component of the deep path is an entry of its own. -/
theorem added_dots (count : Nat) :
    mountedWorld.dbs.added ⟨0, 0, []⟩ (fun _ => none) (List.replicate count (str ".")) false =
      count + 1 := by
  induction count with
  | zero => exact Dbs.addedFor_eq_one rfl (known_dots 0)
  | succ count ih =>
      have known := known_dots (count + 1)
      rw [List.replicate_succ] at known ⊢
      have searches : mountedWorld.dbs.stops ⟨0, 0, []⟩ (fun _ => none)
          (str "." :: List.replicate count (str ".")) = false := by
        rw [Dbs.stops, known]
        rfl
      rw [Dbs.added_of_missing rfl, Dbs.addedFor_eq_one rfl known, searches, Bool.false_or, ih,
        Nat.add_comm]

/-- One call that does not find its path leaves 4097 entries. -/
theorem deepPath_exceeds :
    (getnode ⟨0, 0, []⟩ (deepPath 4096)).Completes mountedWorld.restarted ∧
      ¬ Meets step (fun world op => op.Bounded world) mountedWorld.restarted
        [.getnode ⟨0, 0, []⟩ (deepPath 4096)] := by
  have known : mountedWorld.dbs.known (fun _ => none)
      (str "x" :: List.replicate 4096 (str ".")) = .error .notFound := by
    rw [Dbs.known_up rfl, known_dots]
    exact mountedWorld_infos.2.2
  have limited : Limited mountedWorld.restarted := ⟨PathCacheState.linked_initial, rfl⟩
  have completes : (getnode ⟨0, 0, []⟩ (deepPath 4096)).Completes mountedWorld.restarted := by
    rw [completes_iff limited.linked, Calm, tokenize_deepPath, World.restarted_cache,
      PathCacheState.remembers_initial]
    apply Dbs.not_climbOverruns
    · intro token member
      rw [List.eq_of_mem_replicate member]
      decide +kernel
    · intro higher suffix
      obtain ⟨-, dots⟩ := List.suffix_replicate_iff.mp suffix
      rw [dots]
      exact ⟨rootInfo, known_dots higher.length⟩
  refine ⟨completes, ?_⟩
  rintro (_ | ⟨⟨-, within⟩, -⟩)
  have fits := (step_bounded_iff limited (by decide) completes).mp within
  rw [Fits, tokenize_deepPath, World.restarted_cache, PathCacheState.remembers_initial] at fits
  rcases fits with ⟨-, info, found⟩ | fits
  · have failed := known.symm.trans found
    cases failed
  · have left : mountedWorld.dbs.leaves ⟨0, 0, []⟩ (fun _ => none)
        (str "x" :: List.replicate 4096 (str ".")) = 4097 := added_dots 4096
    change (0 : Int) + (mountedWorld.dbs.leaves ⟨0, 0, []⟩ (fun _ => none)
      (str "x" :: List.replicate 4096 (str ".")) : Int) ≤ 4096 at fits
    rw [left] at fits
    omega

end CacheOp

end OfflineFs
