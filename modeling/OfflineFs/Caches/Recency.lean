import OfflineFs.Caches.Credentials
import OfflineFs.Map.Recent

/-!
# What the credentials cache holds

After every call of `get` the queue has the keys of the elements, the one used last in front,
and the elements know where their keys are.  An element that is dropped without the cache being
cleared is the one whose last use is the longest ago.
-/

namespace OfflineFs

open OfflineFs.Effect OfflineFs.Map OfflineFs.Transition

namespace SContextCache

variable {accounts : Accounts} {now : Int} {uid gid : UInt32} {key : CKey} {c : SContextCache}

/-! ## The queue -/

/-- The keys in the queue. -/
def keys (c : SContextCache) : List CKey :=
  c.queue.map Prod.snd

/-- The key that an iterator of the queue refers to. -/
def deref (c : SContextCache) (it : Nat) : Option CKey :=
  (c.queue.find? (·.1 = it)).map Prod.snd

/-- A key has an element. -/
def Cached (c : SContextCache) (key : CKey) : Prop :=
  (c.cache key).isSome

instance : Decidable (c.Cached key) :=
  inferInstanceAs (Decidable ((c.cache key).isSome = true))

theorem Shaped.mem_keys_iff {reserved : Int} (shaped : c.Shaped reserved) :
    key ∈ c.keys ↔ c.Cached key := by
  constructor
  · intro member
    obtain ⟨⟨it, _⟩, inQueue, rfl⟩ := List.mem_map.mp member
    obtain ⟨found, present, -⟩ := shaped.cached it _ inQueue
    exact Option.isSome_iff_exists.mpr ⟨found, present⟩
  · intro cached
    obtain ⟨found, present⟩ := Option.isSome_iff_exists.mp cached
    exact List.mem_map.mpr ⟨_, shaped.queued key found present, rfl⟩

/-- The place of an element in the queue holds its key. -/
theorem Shaped.deref {reserved : Int} {found : CElem} (shaped : c.Shaped reserved)
    (present : c.cache key = some found) : c.deref found.qit = some key := by
  have inQueue := shaped.queued key found present
  cases finds : c.queue.find? (·.1 = found.qit) with
  | none =>
      rw [List.find?_eq_none] at finds
      exact absurd (decide_eq_true rfl) (finds _ inQueue)
  | some element =>
      obtain ⟨it, other⟩ := element
      have isIt := List.find?_some finds
      rw [decide_eq_true_eq] at isIt
      subst isIt
      rw [SContextCache.deref, finds, Option.map_some,
        shaped.handles.unique (List.mem_of_find?_eq_some finds) inQueue]

/-! ## A call -/

/-- How `makeRoom` ends: the element at the back goes when the cache is full, and the counter
goes up when it is not. -/
theorem makeRoom_cases (shaped : c.Shaped 0) :
    (c.nelems = scontextcacheMaxElems ∧ ∃ front it back, c.queue = front ++ [(it, back)] ∧
      c.makeRoom = (.ok (), c.dropBack back)) ∨
    (c.nelems ≠ scontextcacheMaxElems ∧
      c.makeRoom = (.ok (), { c with nelems := c.nelems + 1 })) := by
  unfold makeRoom
  by_cases full : c.nelems = scontextcacheMaxElems
  · rw [if_pos full]
    rcases List.eq_nil_or_concat' c.queue with empty | ⟨front, ⟨it, back⟩, split⟩
    · have counted := shaped.counted
      rw [full, empty] at counted
      exact absurd counted (by decide)
    · exact .inl ⟨full, front, it, back, split, by simp [split]⟩
  · rw [if_neg full]
    exact .inr ⟨full, rfl⟩

/-- How a call ends: the element of the key is found, a new one is inserted, or the credentials
cannot be built. -/
theorem get_cases (shaped : c.Shaped 0) (accounts : Accounts) (now : Int) (uid gid : UInt32) :
    (∃ found, (c.uptodate accounts now).cache ⟨uid, gid⟩ = some found ∧
      c.get accounts now uid gid =
        (.ok found.sctx, (c.uptodate accounts now).touch ⟨uid, gid⟩ found)) ∨
    ∃ roomy, (c.uptodate accounts now).cache ⟨uid, gid⟩ = none ∧
      (c.uptodate accounts now).makeRoom = (.ok (), roomy) ∧
      ((∃ sctx, c.get accounts now uid gid =
          (.ok sctx, (roomy.pushFront ⟨uid, gid⟩).inserted ⟨uid, gid⟩ roomy.nextIt sctx)) ∨
        ∃ e, c.get accounts now uid gid = (.error e,
          { roomy.pushFront ⟨uid, gid⟩ with
            queue := roomy.queue, nelems := roomy.nelems - 1 })) := by
  cases present : (c.uptodate accounts now).cache ⟨uid, gid⟩ with
  | some found =>
      refine .inl ⟨found, rfl, ?_⟩
      simp only [get, locate, present, Outcome.andThen_ok, read_touch]
  | none =>
      have current : (c.uptodate accounts now).Shaped 0 := shaped.uptodate
      obtain ⟨roomy, made, -⟩ := makeRoom_shaped current
      refine .inr ⟨roomy, rfl, made, ?_⟩
      cases built : SContext.construct accounts (CKey.mk uid gid).uid (CKey.mk uid gid).gid with
      | ok sctx =>
          refine .inl ⟨sctx, ?_⟩
          simp only [get, locate, present, made, insertNew_ok built, Outcome.andThen_ok]
          exact congrArg (·, _) (read_inserted _ _ _ (roomy.pushFront ⟨uid, gid⟩))
      | error e =>
          refine .inr ⟨e, ?_⟩
          simp only [get, locate, present, made, insertNew_error built, Outcome.andThen_ok,
            Outcome.andThen_error]

end SContextCache

/-! ## Sequences of calls -/

/-- The cache, and the keys of the calls that returned, the latest in front. -/
structure Usage where
  credentials : SContextCache
  used : List CKey

/-- A call of `get`, with the account files and the time it finds. -/
structure CredentialsCall where
  accounts : Accounts
  now : Int
  uid : UInt32
  gid : UInt32

namespace CredentialsCall

/-- The key that a call asks for. -/
def key (call : CredentialsCall) : CKey :=
  ⟨call.uid, call.gid⟩

/-- What `get` leads to. -/
def result (call : CredentialsCall) (c : SContextCache) : Outcome Err SContext × SContextCache :=
  c.get call.accounts call.now call.uid call.gid

end CredentialsCall

namespace Usage

/-- Nothing was asked for yet. -/
def start (accounts : Accounts) (now : Int) : Usage where
  credentials := .new accounts now
  used := []

/-- A call is added to those before it. -/
def step (usage : Usage) (call : CredentialsCall) : Usage where
  credentials := (call.result usage.credentials).2
  used :=
    match (call.result usage.credentials).1 with
    | .ok _ => call.key :: usage.used
    | _ => usage.used

/-- The representation of the cache. -/
structure Represented (usage : Usage) : Prop where
  keys : ∀ key, usage.credentials.Cached key ↔ key ∈ usage.credentials.keys
  nodup : usage.credentials.keys.Nodup
  counted : usage.credentials.nelems = usage.credentials.queue.length
  bounded : usage.credentials.nelems ≤ scontextcacheMaxElems
  pointed : ∀ key found, usage.credentials.cache key = some found →
    usage.credentials.deref found.qit = some key
  recent : Recent usage.used usage.credentials.keys

/-- What every call keeps. -/
structure Kept (usage : Usage) : Prop where
  shaped : usage.credentials.Shaped 0
  bounded : usage.credentials.nelems ≤ scontextcacheMaxElems
  recent : Recent usage.used usage.credentials.keys

variable {usage : Usage} {accounts : Accounts} {now : Int} {key : CKey}

theorem Kept.represented (kept : usage.Kept) : usage.Represented where
  keys _ := kept.shaped.mem_keys_iff.symm
  nodup := kept.recent.nodup
  counted := by
    rw [kept.shaped.counted, Int.add_zero]
  bounded := kept.bounded
  pointed _ _ present := kept.shaped.deref present
  recent := kept.recent

/-- Clearing the cache keeps everything. -/
theorem Kept.uptodate (kept : usage.Kept) (accounts : Accounts) (now : Int) :
    Kept { usage with credentials := usage.credentials.uptodate accounts now } where
  shaped := kept.shaped.uptodate
  bounded := by
    simp only [SContextCache.uptodate]
    split
    · exact Int.natCast_nonneg 40
    · exact kept.bounded
  recent := by
    simp only [SContextCache.uptodate]
    split
    · exact .nil _
    · exact kept.recent

theorem kept_start (accounts : Accounts) (now : Int) : (start accounts now).Kept where
  shaped := (Host.Current.booted accounts now).shaped
  bounded := by
    simp only [start, SContextCache.new, SContextCache.uptodate]
    split <;> exact Int.natCast_nonneg 40
  recent := by
    simp only [start, SContextCache.new, SContextCache.uptodate]
    split <;> exact .nil _

/-- The keys that are left when room was made. -/
theorem Kept.makeRoom (kept : usage.Kept) {roomy : SContextCache}
    (made : usage.credentials.makeRoom = (.ok (), roomy)) :
    roomy.keys.Sublist usage.credentials.keys ∧ roomy.Shaped 1 ∧
      roomy.nelems ≤ scontextcacheMaxElems := by
  obtain ⟨roomy', made', shaped, -⟩ := SContextCache.makeRoom_shaped kept.shaped
  obtain rfl : roomy' = roomy := by
    rw [made'] at made
    exact congrArg Prod.snd made
  rcases SContextCache.makeRoom_cases kept.shaped with
    ⟨full, front, it, back, split, dropped⟩ | ⟨space, counted⟩
  · rw [dropped] at made
    cases made
    refine ⟨?_, shaped, full.le⟩
    exact (List.dropLast_sublist usage.credentials.queue).map Prod.snd
  · rw [counted] at made
    cases made
    exact ⟨.refl _, shaped, Int.add_one_le_of_lt (lt_of_le_of_ne kept.bounded space)⟩

/-- Every call keeps the representation. -/
theorem Kept.step (kept : usage.Kept) (call : CredentialsCall) : (usage.step call).Kept := by
  have current := kept.uptodate call.accounts call.now
  rcases SContextCache.get_cases kept.shaped call.accounts call.now call.uid call.gid with
    ⟨found, present, result⟩ | ⟨roomy, missing, made, ⟨sctx, result⟩ | ⟨e, result⟩⟩
  · have inQueue := current.shaped.queued _ found present
    have absent : call.key ∉ ((usage.credentials.uptodate call.accounts call.now).queue.filter
        (·.1 ≠ found.qit)).map Prod.snd := by
      intro member
      obtain ⟨⟨it, _⟩, left, rfl⟩ := List.mem_map.mp member
      obtain ⟨among, apart⟩ := Handles.mem_filter_iff.mp left
      exact apart (current.shaped.handle_eq among inQueue)
    rw [Usage.step, CredentialsCall.result, result]
    constructor
    · exact current.shaped.touch present
    · exact current.bounded
    · exact (current.recent.sublist (List.filter_sublist.map Prod.snd)).use absent
  · obtain ⟨left, shaped, bounded⟩ := current.makeRoom made
    have absent : call.key ∉ roomy.keys := by
      intro member
      have cached := current.shaped.mem_keys_iff.mp (left.subset member)
      rw [SContextCache.Cached, show SContextCache.cache _ call.key = none from missing] at cached
      cases cached
    have missing' : roomy.cache call.key = none :=
      Option.not_isSome_iff_eq_none.mp (mt shaped.mem_keys_iff.mpr absent)
    rw [Usage.step, CredentialsCall.result, result]
    constructor
    · exact shaped.inserted missing'
    · exact bounded
    · exact (current.recent.sublist left).use absent
  · obtain ⟨left, shaped, bounded⟩ := current.makeRoom made
    rw [Usage.step, CredentialsCall.result, result]
    constructor
    · exact shaped.withdrawn
    · exact (Int.sub_le_self _ Int.one_nonneg).trans bounded
    · exact current.recent.sublist left

/-- A full cache gives up the element whose last use is the longest ago, for a key it does not
hold. -/
structure Evicts (usage : Usage) (call : CredentialsCall) (key : CKey) : Prop where
  full : usage.credentials.nelems = scontextcacheMaxElems
  missing : ¬ usage.credentials.Cached call.key
  oldest : ∀ other, usage.credentials.Cached other → other ≠ key →
    usage.used.idxOf other < usage.used.idxOf key

/-- What a call drops is evicted, unless it clears the cache. -/
theorem Kept.evicts (kept : usage.Kept) {call : CredentialsCall}
    (unchanged : call.accounts.changedSince usage.credentials.checktime = false)
    (cached : usage.credentials.Cached key)
    (dropped : ¬ (usage.step call).credentials.Cached key) : usage.Evicts call key := by
  have same : usage.credentials.uptodate call.accounts call.now = usage.credentials := by
    simp [SContextCache.uptodate, unchanged]
  have ends := SContextCache.get_cases kept.shaped call.accounts call.now call.uid call.gid
  rw [same] at ends
  rcases ends with ⟨found, present, result⟩ | ⟨roomy, missing, made, ends⟩
  · refine absurd ?_ dropped
    rw [Usage.step, CredentialsCall.result, result]
    by_cases own : key = ⟨call.uid, call.gid⟩
    · simp [SContextCache.Cached, SContextCache.touch, own]
    · simpa [SContextCache.Cached, SContextCache.touch, own] using cached
  · have lost : ¬ roomy.Cached key := by
      intro left
      apply dropped
      rcases ends with ⟨sctx, result⟩ | ⟨e, result⟩
      · rw [Usage.step, CredentialsCall.result, result]
        by_cases own : key = ⟨call.uid, call.gid⟩
        · simp [SContextCache.Cached, SContextCache.inserted, own]
        · simpa [SContextCache.Cached, SContextCache.inserted, SContextCache.pushFront, own]
            using left
      · rw [Usage.step, CredentialsCall.result, result]
        exact left
    rcases SContextCache.makeRoom_cases kept.shaped with
      ⟨full, front, it, back, split, drops⟩ | ⟨-, counted⟩
    · rw [drops] at made
      cases made
      have isBack : key = back := by
        by_contra other
        exact lost (by simpa [SContextCache.Cached, SContextCache.dropBack, other] using cached)
      subst isBack
      have keys : usage.credentials.keys = front.map Prod.snd ++ [key] := by
        rw [SContextCache.keys, split, List.map_append, List.map_singleton]
      constructor
      · exact full
      · exact fun present => by simp [SContextCache.Cached, CredentialsCall.key, missing] at present
      · intro other present differs
        have member := kept.shaped.mem_keys_iff.mpr present
        have recent := kept.recent
        rw [keys] at member recent
        rcases List.mem_append.mp member with inFront | isLast
        · exact recent.lt_last inFront
        · exact absurd (List.mem_singleton.mp isLast) differs
    · rw [counted] at made
      cases made
      exact absurd cached lost

/-- A call returns or throws. -/
theorem Kept.ended (kept : usage.Kept) (call : CredentialsCall) (stop : Fault) :
    (call.result usage.credentials).1 ≠ .fault stop := by
  rw [CredentialsCall.result]
  rcases SContextCache.get_cases kept.shaped call.accounts call.now call.uid call.gid with
    ⟨found, -, result⟩ | ⟨roomy, -, -, ⟨sctx, result⟩ | ⟨e, result⟩⟩
  all_goals
    rw [result]
    exact nofun

/-- After any calls, on whatever account files, the queue has the keys of the elements in the
order of their last use, and a call drops none but the last of them, or all. -/
theorem cache_represented (reached : Reaches step (fun _ _ => True) (start accounts now) usage) :
    usage.Represented ∧ ∀ call : CredentialsCall,
      (∀ stop, (call.result usage.credentials).1 ≠ .fault stop) ∧
      ∀ key, usage.credentials.Cached key → ¬ (usage.step call).credentials.Cached key →
        call.accounts.changedSince usage.credentials.checktime = true ∨ usage.Evicts call key := by
  have kept : usage.Kept :=
    reached.invariant (kept_start accounts now) fun _ call kept _ => kept.step call
  refine ⟨kept.represented, fun call => ⟨kept.ended call, fun key cached dropped => ?_⟩⟩
  cases changed : call.accounts.changedSince usage.credentials.checktime with
  | true => exact .inl rfl
  | false => exact .inr (kept.evicts changed cached dropped)

/-- Two callers, the first of them twice. -/
def callers : List CredentialsCall :=
  [⟨Host.memberAccounts, 100, 1000, 100⟩, ⟨Host.memberAccounts, 101, 0, 0⟩,
    ⟨Host.memberAccounts, 102, 1000, 100⟩]

theorem cache_represented_callers :
    (callers.foldl step (start Host.memberAccounts 100)).Represented :=
  (cache_represented (Meets.of_true step (start Host.memberAccounts 100) callers).reaches).1

example : (callers.foldl step (start Host.memberAccounts 100)).credentials.keys =
    [⟨1000, 100⟩, ⟨0, 0⟩] := by decide

end Usage

end OfflineFs
