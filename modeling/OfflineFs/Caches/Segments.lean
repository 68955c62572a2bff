import OfflineFs.Caches.Consistency
import OfflineFs.Caches.Paths

/-!
# Components by their positions

`tokenize` reports the ends of the components it finds.  They are the maximal runs of a path
without a slash in them, and what lies between the ends are the components.
-/

namespace OfflineFs

open OfflineFs.Effect OfflineFs.Effect.Program OfflineFs.Transition

/-- A run of bytes without a slash that is not empty and cannot be made longer. -/
structure IsSegment (path : Bytes) (i j : Nat) : Prop where
  nonempty : i < j
  within : j ≤ path.length
  plain : ∀ k, i ≤ k → k < j → path[k]? ≠ some slash
  left : i = 0 ∨ path[i - 1]? = some slash
  right : j = path.length ∨ path[j]? = some slash

/-- The bytes between two positions. -/
def piece (path : Bytes) (ends : Nat × Nat) : Bytes :=
  (path.drop ends.1).take (ends.2 - ends.1)

/-! ## The loop -/

/-- `path.find_first_of("/", n0)`. -/
def findFirstOf (path : Bytes) (n0 : Nat) : Option Nat :=
  ((path.drop n0).idxOf? slash).map (n0 + ·)

/-- The variables of the loop of `tokenize`.  A token is kept as two positions. -/
structure Scan where
  n0 : Nat := 0
  result : List (Nat × Nat) := []

namespace Scan

/-- The end of the token that begins at `n0`. -/
def n1 (path : Bytes) (scan : Scan) : Nat :=
  (findFirstOf path scan.n0).getD path.length

/-- One round, or none when the condition of the loop fails. -/
def round (path : Bytes) (scan : Scan) : Option Scan :=
  if scan.n0 < path.length then
    some {
      n0 := scan.n1 path + 1
      result :=
        if scan.n0 < scan.n1 path then scan.result ++ [(scan.n0, scan.n1 path)] else scan.result }
  else
    none

/-- The rounds of the loop up to its end, if it ends after so many. -/
def finish (path : Bytes) : Nat → Scan → Option (List (Nat × Nat))
  | 0, _ => none
  | fuel + 1, scan =>
      match scan.round path with
      | none => some scan.result
      | some next => finish path fuel next

variable {path : Bytes} {scan next : Scan} {i j : Nat}

/-- A token ends at the first slash, or with the path. -/
theorem n1_spec (inside : scan.n0 < path.length) :
    scan.n0 ≤ scan.n1 path ∧ scan.n1 path ≤ path.length ∧
      (∀ k, scan.n0 ≤ k → k < scan.n1 path → path[k]? ≠ some slash) ∧
      (scan.n1 path = path.length ∨ path[scan.n1 path]? = some slash) := by
  unfold n1 findFirstOf
  cases found : (path.drop scan.n0).idxOf? slash with
  | none =>
      rw [List.idxOf?_eq_none_iff] at found
      refine ⟨inside.le, le_rfl, fun k above _ isSlash => found ?_, .inl rfl⟩
      apply List.mem_of_getElem? (i := k - scan.n0)
      rw [List.getElem?_drop, Nat.add_sub_cancel' above, isSlash]
  | some offset =>
      obtain ⟨short, isSlash, earlier⟩ := List.idxOf?_eq_some_iff.mp found
      rw [List.length_drop] at short
      rw [List.getElem_drop] at isSlash
      refine ⟨Nat.le_add_right _ _, by simp only [Option.map_some, Option.getD_some]; omega, ?_, ?_⟩
      · intro k above below isSlash
        simp only [Option.map_some, Option.getD_some] at below
        apply earlier (k - scan.n0) (by omega)
        obtain ⟨inRange, same⟩ := List.getElem?_eq_some_iff.mp isSlash
        simp only [List.getElem_drop, Nat.add_sub_cancel' above, same]
      · right
        exact List.getElem?_eq_some_iff.mpr ⟨by
          simp only [Option.map_some, Option.getD_some]
          omega, isSlash⟩

/-- What holds before each round.  The tokens so far are the segments that begin before
`n0`, which is the start of the path or just after a slash or the end. -/
structure Invariant (path : Bytes) (scan : Scan) : Prop where
  border : scan.n0 = 0 ∨ scan.n0 = path.length + 1 ∨ path[scan.n0 - 1]? = some slash
  found : ∀ i j, (i, j) ∈ scan.result ↔ IsSegment path i j ∧ i < scan.n0
  ordered : scan.result.Pairwise fun first second => first.2 < second.1
  texts : scan.result.map (piece path) ++ tokenize (path.drop scan.n0) = tokenize path

theorem invariant_start (path : Bytes) : Invariant path {} where
  border := .inl rfl
  found i _ := iff_of_false List.not_mem_nil fun both => absurd both.2 (Nat.not_lt_zero i)
  ordered := .nil
  texts := rfl

/-- A segment that begins before `n0` also ends before it. -/
theorem Invariant.end_lt (invariant : Invariant path scan) (segment : IsSegment path i j)
    (before : i < scan.n0) : j < scan.n0 := by
  by_contra beyond
  rcases invariant.border with start | finish | slashed
  · omega
  · have within := segment.within
    omega
  · exact segment.plain (scan.n0 - 1) (by omega) (by omega) slashed

/-- The only segment that begins in a round is the token of the round. -/
theorem Invariant.segment_iff (invariant : Invariant path scan) (inside : scan.n0 < path.length) :
    IsSegment path i j ∧ scan.n0 ≤ i ∧ i < scan.n1 path + 1 ↔
      i = scan.n0 ∧ j = scan.n1 path ∧ scan.n0 < scan.n1 path := by
  obtain ⟨above, within, plain, right⟩ := n1_spec inside
  constructor
  · rintro ⟨segment, after, before⟩
    have begins : i = scan.n0 := by
      rcases segment.left with start | slashed
      · omega
      · by_contra later
        exact plain (i - 1) (by omega) (by omega) slashed
    subst begins
    have nonempty := segment.nonempty
    have inPath := segment.within
    have ends : j = scan.n1 path := by
      rcases Nat.lt_trichotomy j (scan.n1 path) with shorter | same | longer
      · rcases segment.right with isEnd | slashed
        · omega
        · exact absurd slashed (plain j nonempty.le shorter)
      · exact same
      · rcases right with isEnd | slashed
        · omega
        · exact absurd slashed (segment.plain _ above longer)
    exact ⟨rfl, ends, ends ▸ nonempty⟩
  · rintro ⟨rfl, rfl, nonempty⟩
    refine ⟨⟨nonempty, within, plain, ?_, right⟩, le_rfl, by omega⟩
    rcases invariant.border with start | finish | slashed
    · exact .inl start
    · omega
    · exact .inr slashed

/-- The rest of the path is the token, and what comes after its end. -/
theorem tokenize_drop (inside : scan.n0 < path.length) :
    tokenize (path.drop scan.n0) =
      component (piece path (scan.n0, scan.n1 path)) ++
        tokenize (path.drop (scan.n1 path + 1)) := by
  obtain ⟨above, within, plain, right⟩ := n1_spec inside
  have absent : slash ∉ piece path (scan.n0, scan.n1 path) := by
    intro member
    obtain ⟨k, same⟩ := List.mem_iff_getElem?.mp member
    rw [piece, List.getElem?_take] at same
    split at same
    · rename_i small
      rw [List.getElem?_drop] at same
      exact plain (scan.n0 + k) (Nat.le_add_right _ _) (by omega) same
    · cases same
  have parts : path.drop scan.n0 =
      piece path (scan.n0, scan.n1 path) ++ path.drop (scan.n1 path) := by
    conv_lhs => rw [← List.take_append_drop (scan.n1 path - scan.n0) (path.drop scan.n0)]
    rw [List.drop_drop, Nat.add_sub_cancel' above]
    rfl
  rcases right with isEnd | slashed
  · rw [parts, isEnd, List.drop_length, List.append_nil, List.drop_of_length_le (Nat.le_succ _),
      tokenize_nil, List.append_nil, ← isEnd, tokenize_plain absent]
  · obtain ⟨short, same⟩ := List.getElem?_eq_some_iff.mp slashed
    rw [parts, List.drop_eq_getElem_cons short, same, tokenize_component absent]

theorem length_piece (inside : scan.n0 < path.length) :
    (piece path (scan.n0, scan.n1 path)).length = scan.n1 path - scan.n0 := by
  obtain ⟨above, within, -, -⟩ := n1_spec inside
  rw [piece, List.length_take, List.length_drop]
  omega

/-- A round keeps the invariant. -/
theorem Invariant.round (invariant : Invariant path scan) (steps : scan.round path = some next) :
    Invariant path next := by
  unfold Scan.round at steps
  split at steps
  · rename_i inside
    cases steps
    obtain ⟨above, within, -, right⟩ := n1_spec inside
    constructor
    · rcases right with isEnd | slashed
      · exact .inr (.inl (congrArg (· + 1) isEnd))
      · exact .inr (.inr slashed)
    · intro i j
      have split : IsSegment path i j ∧ i < scan.n1 path + 1 ↔
          (IsSegment path i j ∧ i < scan.n0) ∨
            (i = scan.n0 ∧ j = scan.n1 path ∧ scan.n0 < scan.n1 path) := by
        rw [← invariant.segment_iff inside]
        constructor
        · rintro ⟨segment, before⟩
          rcases Nat.lt_or_ge i scan.n0 with earlier | later
          · exact .inl ⟨segment, earlier⟩
          · exact .inr ⟨segment, later, before⟩
        · rintro (⟨segment, earlier⟩ | ⟨segment, -, before⟩)
          · exact ⟨segment, by omega⟩
          · exact ⟨segment, before⟩
      rw [split, ← invariant.found]
      by_cases nonempty : scan.n0 < scan.n1 path
      · simp [nonempty]
      · simp [nonempty]
    · dsimp only
      split
      · rw [List.pairwise_append]
        refine ⟨invariant.ordered, List.pairwise_singleton _ _, ?_⟩
        rintro ⟨i, j⟩ member ends last
        obtain ⟨segment, before⟩ := (invariant.found i j).mp member
        rw [List.mem_singleton.mp last]
        exact invariant.end_lt segment before
      · exact invariant.ordered
    · have texts := invariant.texts
      have size := length_piece inside
      rw [tokenize_drop inside, ← List.append_assoc] at texts
      dsimp only
      split
      · rename_i nonempty
        have named : piece path (scan.n0, scan.n1 path) ≠ [] := by
          intro empty
          rw [empty, List.length_nil] at size
          omega
        rw [List.map_append, List.map_singleton]
        rwa [component, if_neg named] at texts
      · rename_i empty
        have none : piece path (scan.n0, scan.n1 path) = [] :=
          List.eq_nil_of_length_eq_zero (by omega)
        rwa [none, component, if_pos rfl, List.append_nil] at texts
  · cases steps

/-- Where the loop ends its tokens are the segments of the path. -/
theorem Invariant.ends (invariant : Invariant path scan) (ends : scan.round path = none) :
    (∀ i j, (i, j) ∈ scan.result ↔ IsSegment path i j) ∧
      scan.result.map (piece path) = tokenize path := by
  unfold Scan.round at ends
  split at ends
  · cases ends
  · rename_i past
    constructor
    · intro i j
      rw [invariant.found]
      refine and_iff_left_of_imp fun segment => ?_
      have nonempty := segment.nonempty
      have within := segment.within
      omega
    · have texts := invariant.texts
      rwa [List.drop_of_length_le (Nat.le_of_not_lt past), tokenize_nil, List.append_nil] at texts

/-- The loop ends, since every round moves `n0` on. -/
theorem Invariant.finish {fuel : Nat} (invariant : Invariant path scan)
    (enough : path.length ≤ fuel + scan.n0) :
    ∃ result, finish path (fuel + 1) scan = some result ∧
      (∀ i j, (i, j) ∈ result ↔ IsSegment path i j) ∧
      result.Pairwise (fun first second => first.2 < second.1) ∧
      result.map (piece path) = tokenize path := by
  induction fuel generalizing scan with
  | zero =>
      have ends : scan.round path = none := if_neg (by omega)
      obtain ⟨found, texts⟩ := invariant.ends ends
      exact ⟨scan.result, by rw [Scan.finish, ends], found, invariant.ordered, texts⟩
  | succ fuel ih =>
      cases steps : scan.round path with
      | none =>
          obtain ⟨found, texts⟩ := invariant.ends steps
          exact ⟨scan.result, by rw [Scan.finish, steps], found, invariant.ordered, texts⟩
      | some next =>
          have onward : scan.n0 < next.n0 := by
            unfold Scan.round at steps
            split at steps
            · rename_i inside
              cases steps
              exact Nat.lt_succ_of_le (n1_spec inside).1
            · cases steps
          rw [Scan.finish, steps]
          exact ih (invariant.round steps) (by omega)

end Scan

/-! ## Keys -/

theorem Proper.take {tokens : List Bytes} (proper : Proper tokens) (k : Nat) :
    Proper (tokens.take k) :=
  fun token member => proper token (List.mem_of_mem_take member)

/-- Equal keys come from equal components. -/
theorem join_tokenize_inj (path other : Bytes) :
    join (tokenize path) = join (tokenize other) ↔ tokenize path = tokenize other := by
  constructor
  · intro same
    have back := congrArg tokenize same
    rwa [tokenize_join (proper_tokenize path), tokenize_join (proper_tokenize other)] at back
  · intro same
    rw [same]

theorem exists_take_of_keysAbove {tokens : List Bytes} {key : Bytes}
    (above : KeysAbove tokens.reverse key) : ∃ k, key = join (tokens.take k) := by
  obtain ⟨higher, suffix, rfl⟩ := above
  have isPrefix : higher.reverse <+: tokens := by
    rw [← List.reverse_reverse tokens]
    exact List.reverse_prefix.mpr suffix
  exact ⟨higher.reverse.length, by rw [keyOf, ← List.prefix_iff_eq_take.mp isPrefix]⟩

namespace PathCache_hash

section Enters

variable {within : Bytes → Prop} {α β : Type}

/-- However it ends, a program enters nothing in the map but under some keys. -/
def Enters (within : Bytes → Prop) (prog : FsProg α) : Prop :=
  ∀ (world : World) (key : Bytes) (cen : Nat),
    (exec prog world).2.cache.paths[key]? = some cen →
      world.cache.paths[key]? = some cen ∨ within key

/-- Two programs one after the other. -/
theorem enters_bind {first : FsProg α} {next : α → FsProg β} (begins : Enters within first)
    (continues : ∀ value, Enters within (next value)) : Enters within (first >>= next) := by
  intro world key cen stored
  rw [exec_bind] at stored
  have early := begins world key cen
  rcases ran : exec first world with ⟨outcome, after⟩
  rw [ran] at stored early
  cases outcome with
  | error | fault => exact early stored
  | ok value =>
      rw [Outcome.andThen_ok] at stored
      rcases continues value after key cen stored with inAfter | isWithin
      · exact early inAfter
      · exact .inr isWithin

theorem enters_still {prog : FsProg α} (still : ∀ world, (exec prog world).2 = world) :
    Enters within prog := by
  intro world key cen stored
  rw [still] at stored
  exact .inl stored

/-- Giving an entry its values enters no key. -/
theorem enters_initEntry (cen : Nat) (parent : Option Nat) (tokens : List Bytes) :
    Enters within (initEntry cen parent tokens) := by
  refine enters_bind ?_ fun n => ?_
  · split
    · refine enters_bind (enters_still fun world => ?_) fun parentData => ?_
      · rw [exec_readEntry]
        split <;> rfl
      · apply enters_bind (enters_still fun world => by rw [Node.exec_getnode])
        intro n
        refine enters_bind (enters_still fun world => ?_) fun d => ?_
        · rw [Node.exec_cast]
        · exact enters_still fun world => by rw [Directory.exec_getchild]
    · exact enters_still fun world => by rw [Node.exec_getnode]
  · apply enters_bind (enters_still fun world => by rw [Node.exec_getattr])
    intro uid
    apply enters_bind (enters_still fun world => by rw [Node.exec_getattr])
    intro gid
    apply enters_bind (enters_still fun world => by rw [Node.exec_getattr])
    intro mode world key stored found
    exact .inl found

/-- Looking a key up enters that key and those that giving it values enters. -/
theorem enters_lookupKey {key : Bytes} {init : Nat → FsProg Unit} (ofKey : within key)
    (inits : ∀ cen, Enters within (init cen)) : Enters within (lookupKey key init) := by
  intro world other cen stored
  cases cached : world.cache.paths[key]? with
  | some found =>
      rw [exec_lookupKey_cached cached] at stored
      exact .inl stored
  | none =>
      have inserted := inits world.cache.nextEntry
        (world.withCache (world.cache.insertBlank key)) other cen
      rcases result : exec (init world.cache.nextEntry)
        (world.withCache (world.cache.insertBlank key)) with ⟨outcome, last⟩
      rw [result] at inserted
      have early : last.cache.paths[other]? = some cen →
          world.cache.paths[other]? = some cen ∨ within other := by
        intro inLast
        rcases inserted inLast with blank | isWithin
        · rw [World.withCache_cache, PathCacheState.paths_insertBlank] at blank
          split at blank
          · rename_i same
            exact .inr (same ▸ ofKey)
          · exact .inl blank
        · exact .inr isWithin
      simp only [lookupKey, exec_bind, exec_perform, fsHandler, Outcome.andThen_ok, cached,
        exec_catching, result] at stored
      apply early
      cases outcome with
      | ok | fault => exact stored
      | error e =>
          simp only [Outcome.orElse_error, eraseInserted, exec_bind, exec_perform, fsHandler,
            Outcome.andThen_ok] at stored
          split at stored
          · have erased : (last.cache.eraseBlank key world.cache.nextEntry).paths[other]? =
                some cen := stored
            rw [PathCacheState.paths_eraseBlank] at erased
            split at erased
            · cases erased
            · exact erased
          · exact stored

theorem enters_lookup (tokens : List Bytes) : Enters (KeysAbove tokens) (lookup tokens) := by
  induction tokens with
  | nil =>
      exact enters_lookupKey ⟨[], List.suffix_refl _, rfl⟩ fun cen => enters_initEntry cen none []
  | cons leaf up ih =>
      apply enters_lookupKey ⟨_, List.suffix_refl _, rfl⟩
      intro cen
      refine enters_bind ?_ fun parent => enters_initEntry cen (some parent) (leaf :: up)
      intro world key entry stored
      exact (ih world key entry stored).imp_right fun above => keysAbove_cons leaf above

end Enters

/-- Looking up an ancestor of a path finds its entry under the joined components, and enters
nothing but under the keys of the ancestors. -/
theorem lookup_keys (path : Bytes) (k : Nat) {world : World}
    (linked : world.cache.Linked PathCacheState.NoBlank) :
    (∀ (key : Bytes) (cen : Nat),
        (exec (lookup ((tokenize path).take k).reverse) world).2.cache.paths[key]? = some cen →
          world.cache.paths[key]? = some cen ∨ ∃ up ≤ k, key = join ((tokenize path).take up)) ∧
      ∀ cen, (exec (lookup ((tokenize path).take k).reverse) world).1 = .ok cen →
        (exec (lookup ((tokenize path).take k).reverse) world).2.cache.paths[
          join ((tokenize path).take k)]? = some cen := by
  constructor
  · intro key cen stored
    rcases enters_lookup _ world key cen stored with earlier | above
    · exact .inl earlier
    · obtain ⟨up, rfl⟩ := exists_take_of_keysAbove above
      rw [List.take_take]
      exact .inr ⟨min up k, Nat.min_le_right up k, rfl⟩
  · intro cen ok
    have proper := ((proper_tokenize path).take k).reverse
    obtain ⟨after, -, ⟨other, looked, stored⟩ | ⟨e, looked, -⟩⟩ :=
      exec_lookup proper world linked (fun _ _ => id) (ok ▸ ended_ok cen)
    · rw [looked] at ok ⊢
      cases ok
      rwa [keyOf, List.reverse_reverse] at stored
    · rw [looked] at ok
      cases ok

/-- Invalidating a path erases what is stored under its joined components. -/
theorem paths_invalidate (path key : Bytes) {world : World}
    (linked : world.cache.Linked PathCacheState.NoBlank) :
    (exec (invalidate path) world).2.cache.paths[key]? =
      if join (tokenize path) = key then none else world.cache.paths[key]? := by
  rw [exec_invalidate linked]
  simp only [World.withCache_cache]
  cases stored : world.cache.paths[join (tokenize path)]? with
  | none =>
      by_cases same : join (tokenize path) = key
      · rw [if_pos same, ← same]
        exact stored
      · exact (if_neg same).symm
  | some cen =>
      obtain ⟨data, present, isKey⟩ := linked.data_of_key stored id
      simp only [present, PathCacheState.paths_deleted, isKey]

/-- The components of a path are its segments, and the keys that are made of them identify
it: the key of an ancestor is the same when it is looked up and when it is invalidated. -/
theorem keys_identify_paths :
    (∀ path, ∃ result, Scan.finish path (path.length + 1) {} = some result ∧
      (∀ i j, (i, j) ∈ result ↔ IsSegment path i j) ∧
      result.Pairwise (fun first second => first.2 < second.1) ∧
      result.map (piece path) = tokenize path) ∧
    (∀ tokens, Proper tokens → tokenize (join tokens) = tokens) ∧
    (∀ path other, join (tokenize path) = join (tokenize other) ↔ tokenize path = tokenize other) ∧
    (∀ path, join (tokenize path) = [] ↔ tokenize path = []) ∧
    ∀ (path : Bytes) (k : Nat) (start world : World), start.cache = .initial →
      Reaches CacheOp.step (fun _ _ => True) start world →
      (∀ (key : Bytes) (cen : Nat),
        (exec (lookup ((tokenize path).take k).reverse) world).2.cache.paths[key]? = some cen →
          world.cache.paths[key]? = some cen ∨ ∃ up ≤ k, key = join ((tokenize path).take up)) ∧
      (∀ cen, (exec (lookup ((tokenize path).take k).reverse) world).1 = .ok cen →
        (exec (lookup ((tokenize path).take k).reverse) world).2.cache.paths[
          join ((tokenize path).take k)]? = some cen) ∧
      ∀ ancestor key, tokenize ancestor = (tokenize path).take k →
        (exec (invalidate ancestor) world).2.cache.paths[key]? =
          if join ((tokenize path).take k) = key then none else world.cache.paths[key]? := by
  refine ⟨fun path => ?_, fun tokens => tokenize_join, join_tokenize_inj, fun path => ?_, ?_⟩
  · exact (Scan.invariant_start path).finish (Nat.le_refl _)
  · exact join_tokenize_inj path []
  · intro path k start world fresh reached
    have linked := CacheOp.linked_of_reaches fresh reached
    obtain ⟨within, stored⟩ := lookup_keys path k linked
    refine ⟨within, stored, ?_⟩
    intro ancestor key sameTokens
    rw [paths_invalidate ancestor key linked, sameTokens]

end PathCache_hash

end OfflineFs
