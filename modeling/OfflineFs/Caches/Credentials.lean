import OfflineFs.Map.Handles
import OfflineFs.Model.SContextCache
import OfflineFs.Transition.Run

/-!
# Credentials follow the account files

The cached credentials are the ones the account files give as long as every
change of a file either moves its time past the last clearing of the cache or
leaves the cached credentials as they were.
-/

namespace OfflineFs

open OfflineFs.Effect OfflineFs.Map OfflineFs.Transition

namespace SContextCache

variable {accounts : Accounts} {now : Int} {uid gid : UInt32} {key : CKey} {c : SContextCache}
variable {reserved : Int}

/-! ## The shape of the cache -/

/-- The queue holds the keys of the elements, each under the handle its element
knows, and `nelems` counts them together with the room reserved for a new one. -/
structure Shaped (c : SContextCache) (reserved : Int) : Prop where
  counted : c.nelems = c.queue.length + reserved
  handles : Handles c.queue c.nextIt
  queued : ∀ key found, c.cache key = some found → (found.qit, key) ∈ c.queue
  cached : ∀ it key, (it, key) ∈ c.queue → ∃ found, c.cache key = some found ∧ found.qit = it
  nodes : ∀ key found, c.cache key = some found → found.node < c.nextNode

theorem Shaped.cleared (c : SContextCache) (now : Int) : (c.cleared now).Shaped 0 where
  counted := rfl
  handles := .nil _
  queued _ _ present := nomatch present
  cached _ _ member := absurd member List.not_mem_nil
  nodes _ _ present := nomatch present

theorem Shaped.uptodate (shaped : c.Shaped 0) : (c.uptodate accounts now).Shaped 0 := by
  unfold SContextCache.uptodate
  split
  · exact Shaped.cleared c now
  · exact shaped

/-- Two queue elements of one key are one element. -/
theorem Shaped.handle_eq (shaped : c.Shaped reserved) {first second : Nat}
    (firstIn : (first, key) ∈ c.queue) (secondIn : (second, key) ∈ c.queue) : first = second := by
  obtain ⟨found, present, rfl⟩ := shaped.cached first key firstIn
  obtain ⟨other, otherPresent, rfl⟩ := shaped.cached second key secondIn
  rw [Option.some.inj (present.symm.trans otherPresent)]

/-- Erasing the element at the back of the queue. -/
theorem Shaped.dropBack {front : List (Nat × CKey)} {it : Nat} {back : CKey}
    (shaped : c.Shaped 0) (split : c.queue = front ++ [(it, back)]) :
    (c.dropBack back).Shaped 1 := by
  have rest : (c.dropBack back).queue = front := by
    simp [SContextCache.dropBack, split]
  have apart : ∀ it' key, (it', key) ∈ front → key ≠ back := by
    rintro it' key member rfl
    have first : (it', key) ∈ c.queue := by simp [split, member]
    have second : (it, key) ∈ c.queue := by simp [split]
    have same : it' = it := shaped.handle_eq first second
    have distinct := shaped.handles.nodup
    rw [split, List.map_append, List.nodup_append] at distinct
    exact distinct.2.2 it' (List.mem_map.mpr ⟨_, member, rfl⟩) it (by simp) same
  constructor
  · rw [rest]
    have counted := shaped.counted
    rw [split, List.length_append] at counted
    simp only [SContextCache.dropBack, List.length_singleton] at counted ⊢
    omega
  · rw [rest]
    exact shaped.handles.sublist (by rw [split]; exact List.sublist_append_left _ _)
  · intro key found present
    rw [rest]
    by_cases isBack : key = back
    · subst isBack
      simp [SContextCache.dropBack] at present
    · have member := shaped.queued key found
        (by simpa [SContextCache.dropBack, Function.update_of_ne isBack] using present)
      rw [split, List.mem_append] at member
      rcases member with inFront | isLast
      · exact inFront
      · exact absurd (congrArg Prod.snd (List.mem_singleton.mp isLast)) isBack
  · intro it' key member
    rw [rest] at member
    obtain ⟨found, present, handle⟩ := shaped.cached it' key (by rw [split]; simp [member])
    refine ⟨found, ?_, handle⟩
    simpa [SContextCache.dropBack, Function.update_of_ne (apart it' key member)] using present
  · intro key found present
    by_cases isBack : key = back
    · subst isBack
      simp [SContextCache.dropBack] at present
    · exact shaped.nodes key found
        (by simpa [SContextCache.dropBack, Function.update_of_ne isBack] using present)

/-- What `makeRoom` leaves: room for one element, and no new elements. -/
theorem makeRoom_shaped (shaped : c.Shaped 0) :
    ∃ roomy, c.makeRoom = (.ok (), roomy) ∧ roomy.Shaped 1 ∧ roomy.checktime = c.checktime ∧
      ∀ key found, roomy.cache key = some found → c.cache key = some found := by
  unfold makeRoom
  by_cases full : c.nelems = scontextcacheMaxElems
  · rw [if_pos full]
    rcases List.eq_nil_or_concat' c.queue with empty | ⟨front, ⟨it, back⟩, split⟩
    · have counted := shaped.counted
      rw [full, empty] at counted
      exact absurd counted (by decide)
    · refine ⟨c.dropBack back, ?_, shaped.dropBack split, rfl, ?_⟩
      · simp [split]
      · intro key found present
        by_cases isBack : key = back
        · subst isBack
          simp [SContextCache.dropBack] at present
        · simpa [SContextCache.dropBack, Function.update_of_ne isBack] using present
  · rw [if_neg full]
    refine ⟨_, rfl, ?_, rfl, fun _ _ present => present⟩
    exact ⟨congrArg (· + 1) (by simpa using shaped.counted), shaped.handles, shaped.queued,
      shaped.cached, shaped.nodes⟩

/-- An element that is entered with its key in front keeps the cache in shape. -/
theorem Shaped.inserted {sctx : SContext} (shaped : c.Shaped 1) (missing : c.cache key = none) :
    ((c.pushFront key).inserted key c.nextIt sctx).Shaped 0 := by
  have counted := shaped.counted
  refine ⟨?_, shaped.handles.pushFront key, ?_, ?_, ?_⟩
  · simp only [SContextCache.inserted, pushFront, List.length_cons]
    omega
  · intro other found present
    by_cases same : other = key
    · subst same
      simp only [SContextCache.inserted, Function.update_self, Option.some.injEq] at present
      subst present
      exact List.mem_cons_self
    · simp only [SContextCache.inserted, Function.update_of_ne same] at present
      exact List.mem_cons_of_mem _ (shaped.queued other found present)
  · intro it other member
    rcases List.mem_cons.mp member with isNew | inQueue
    · cases isNew
      exact ⟨_, Function.update_self _ _ _, rfl⟩
    · obtain ⟨found, present, handle⟩ := shaped.cached it other inQueue
      have apart : other ≠ key := by
        rintro rfl
        simp [missing] at present
      refine ⟨found, ?_, handle⟩
      simp only [SContextCache.inserted, Function.update_of_ne apart]
      exact present
  · intro other found present
    by_cases same : other = key
    · subst same
      simp only [SContextCache.inserted, Function.update_self, Option.some.injEq] at present
      subst present
      exact Nat.lt_succ_self _
    · simp only [SContextCache.inserted, Function.update_of_ne same] at present
      exact Nat.lt_succ_of_lt (shaped.nodes other found present)

/-- Taking a key back out of the queue gives up its room. -/
theorem Shaped.withdrawn (shaped : c.Shaped 1) :
    Shaped { c.pushFront key with queue := c.queue, nelems := c.nelems - 1 } 0 where
  counted := by
    have counted := shaped.counted
    dsimp only
    omega
  handles := ⟨shaped.handles.nodup, fun element member =>
    Nat.lt_succ_of_lt (shaped.handles.bound element member)⟩
  queued := shaped.queued
  cached := shaped.cached
  nodes := shaped.nodes

/-- An element that is used again keeps the cache in shape. -/
theorem Shaped.touch {found : CElem} (shaped : c.Shaped 0) (present : c.cache key = some found) :
    (c.touch key found).Shaped 0 := by
  have member := shaped.queued key found present
  have counted := shaped.counted
  have length := shaped.handles.length_filter member
  refine ⟨?_, (shaped.handles.filter found.qit).pushFront key, ?_, ?_, ?_⟩
  · simp only [SContextCache.touch, List.length_cons]
    omega
  · intro other found' present'
    by_cases same : other = key
    · subst same
      simp only [SContextCache.touch, Function.update_self, Option.some.injEq] at present'
      subst present'
      exact List.mem_cons_self
    · simp only [SContextCache.touch, Function.update_of_ne same] at present'
      refine List.mem_cons_of_mem _ (Handles.mem_filter_iff.mpr ⟨shaped.queued _ _ present', ?_⟩)
      intro handle
      have inQueue := shaped.queued _ _ present'
      rw [show found'.qit = found.qit from handle] at inQueue
      exact same (shaped.handles.unique inQueue member)
  · intro it other member'
    rcases List.mem_cons.mp member' with isNew | inRest
    · cases isNew
      exact ⟨_, Function.update_self _ _ _, rfl⟩
    · obtain ⟨inQueue, apart⟩ := Handles.mem_filter_iff.mp inRest
      obtain ⟨found', present', handle⟩ := shaped.cached it other inQueue
      have differs : other ≠ key := by
        rintro rfl
        rw [present] at present'
        cases present'
        exact apart handle.symm
      exact ⟨found', by simpa [SContextCache.touch, Function.update_of_ne differs] using present',
        handle⟩
  · intro other found' present'
    by_cases same : other = key
    · subst same
      simp only [SContextCache.touch, Function.update_self, Option.some.injEq] at present'
      subst present'
      exact shaped.nodes other found present
    · simp only [SContextCache.touch, Function.update_of_ne same] at present'
      exact shaped.nodes other found' present'

theorem insertNew_error {e : Err} (fails : SContext.construct accounts key.uid key.gid = .error e) :
    c.insertNew accounts key =
      (.error e, { c.pushFront key with queue := c.queue, nelems := c.nelems - 1 }) := by
  simp only [insertNew, fails]
  rfl

theorem insertNew_ok {sctx : SContext}
    (built : SContext.construct accounts key.uid key.gid = .ok sctx) :
    c.insertNew accounts key =
      (.ok ⟨key, c.nextNode⟩, (c.pushFront key).inserted key c.nextIt sctx) := by
  simp only [insertNew, built]
  rfl

theorem Shaped.insertNew (shaped : c.Shaped 1) (missing : c.cache key = none) :
    (c.insertNew accounts key).2.Shaped 0 := by
  cases built : SContext.construct accounts key.uid key.gid with
  | error e =>
      rw [insertNew_error built]
      exact shaped.withdrawn
  | ok sctx =>
      rw [insertNew_ok built]
      exact shaped.inserted missing

/-- The critical section of `get` finds the element of the key, or makes room for a
new one. -/
theorem locate_cases (shaped : c.Shaped 0) (accounts : Accounts) (now : Int) (uid gid : UInt32) :
    (∃ found, (c.uptodate accounts now).cache ⟨uid, gid⟩ = some found ∧
      c.locate accounts now uid gid =
        (.ok ⟨⟨uid, gid⟩, found.node⟩, (c.uptodate accounts now).touch ⟨uid, gid⟩ found)) ∨
    ∃ roomy : SContextCache, roomy.Shaped 1 ∧ roomy.cache ⟨uid, gid⟩ = none ∧
      (∀ key found, roomy.cache key = some found →
        (c.uptodate accounts now).cache key = some found) ∧
      c.locate accounts now uid gid = roomy.insertNew accounts ⟨uid, gid⟩ := by
  cases present : (c.uptodate accounts now).cache ⟨uid, gid⟩ with
  | some found => exact .inl ⟨found, rfl, by simp only [locate, present]⟩
  | none =>
      have current : (c.uptodate accounts now).Shaped 0 := shaped.uptodate
      obtain ⟨roomy, made, roomyShaped, -, kept⟩ := makeRoom_shaped current
      refine .inr ⟨roomy, roomyShaped, ?_, kept, ?_⟩
      · cases still : roomy.cache ⟨uid, gid⟩ with
        | none => rfl
        | some found => simp [kept _ _ still] at present
      · simp only [locate, present, made, Outcome.andThen_ok]

theorem Shaped.locate (shaped : c.Shaped 0) (accounts : Accounts) (now : Int)
    (uid gid : UInt32) : (c.locate accounts now uid gid).2.Shaped 0 := by
  rcases locate_cases shaped accounts now uid gid with
    ⟨found, present, located⟩ | ⟨roomy, roomyShaped, missing, -, located⟩
  · rw [located]
    exact shaped.uptodate.touch present
  · rw [located]
    exact roomyShaped.insertNew missing

@[simp]
theorem read_inserted (key : CKey) (qit : Nat) (sctx : SContext) (c : SContextCache) :
    (c.inserted key qit sctx).read ⟨key, c.nextNode⟩ = .ok sctx := by
  simp [read, inserted]

@[simp]
theorem read_touch (key : CKey) (found : CElem) (c : SContextCache) :
    (c.touch key found).read ⟨key, found.node⟩ = .ok found.sctx := by
  simp [read, touch]

/-! ## Coherence -/

/-- Every cached element holds what the account files give. -/
def Agrees (accounts : Accounts) (c : SContextCache) : Prop :=
  ∀ key found, c.cache key = some found →
    SContext.construct accounts key.uid key.gid = .ok found.sctx

/-- The elements are right unless the next request drops them all. -/
def Coherent (accounts : Accounts) (c : SContextCache) : Prop :=
  accounts.changedSince c.checktime = true ∨ c.Agrees accounts

theorem agrees_cleared (c : SContextCache) (now : Int) : (c.cleared now).Agrees accounts :=
  fun _ _ present => nomatch present

theorem Coherent.uptodate (coherent : c.Coherent accounts) :
    (c.uptodate accounts now).Agrees accounts := by
  unfold SContextCache.uptodate
  split
  · exact agrees_cleared c now
  · rename_i unchanged
    exact coherent.resolve_left unchanged

theorem Agrees.inserted {sctx : SContext} {qit : Nat} (agrees : c.Agrees accounts)
    (built : SContext.construct accounts key.uid key.gid = .ok sctx) :
    (c.inserted key qit sctx).Agrees accounts := by
  intro other found present
  by_cases same : other = key
  · subst same
    simp only [SContextCache.inserted, Function.update_self, Option.some.injEq] at present
    rw [built, ← present]
  · simp only [SContextCache.inserted, Function.update_of_ne same] at present
    exact agrees other found present

theorem Agrees.touch {found : CElem} (agrees : c.Agrees accounts)
    (present : c.cache key = some found) : (c.touch key found).Agrees accounts := by
  intro other found' present'
  by_cases same : other = key
  · subst same
    simp only [SContextCache.touch, Function.update_self, Option.some.injEq] at present'
    rw [agrees other found present, ← present']
  · simp only [SContextCache.touch, Function.update_of_ne same] at present'
    exact agrees other found' present'

/-- A request on a coherent cache returns what the account files give, and leaves
a cache whose elements are all right. -/
theorem get_coherent (shaped : c.Shaped 0) (coherent : c.Coherent accounts) (now : Int)
    (uid gid : UInt32) :
    (c.get accounts now uid gid).1 = .ofExcept (SContext.construct accounts uid gid) ∧
      (c.get accounts now uid gid).2.Shaped 0 ∧
      (c.get accounts now uid gid).2.Agrees accounts := by
  have agrees : (c.uptodate accounts now).Agrees accounts := coherent.uptodate
  rcases locate_cases shaped accounts now uid gid with
    ⟨found, present, located⟩ | ⟨roomy, roomyShaped, missing, kept, located⟩
  · simp only [get, located, Outcome.andThen_ok, read_touch]
    refine ⟨?_, shaped.uptodate.touch present, agrees.touch present⟩
    rw [agrees _ found present]
    rfl
  · have roomyAgrees : roomy.Agrees accounts := fun key found stored =>
      agrees key found (kept key found stored)
    cases built : SContext.construct accounts (CKey.mk uid gid).uid (CKey.mk uid gid).gid with
    | error e =>
        simp only [get, located, insertNew_error built, Outcome.andThen_error]
        exact ⟨rfl, roomyShaped.withdrawn, roomyAgrees⟩
    | ok sctx =>
        simp only [get, located, insertNew_ok built, Outcome.andThen_ok]
        refine ⟨?_, roomyShaped.inserted missing, ?_⟩
        · exact read_inserted _ _ _ (roomy.pushFront ⟨uid, gid⟩)
        · exact Agrees.inserted (c := roomy.pushFront ⟨uid, gid⟩) roomyAgrees built

/-- An element that no clearing is about to drop is returned as it is. -/
theorem get_cached {found : CElem} (unchanged : accounts.changedSince c.checktime = false)
    (present : c.cache ⟨uid, gid⟩ = some found) :
    (c.get accounts now uid gid).1 = .ok found.sctx := by
  have same : c.uptodate accounts now = c := by simp [SContextCache.uptodate, unchanged]
  simp only [get, locate, same, present, Outcome.andThen_ok, read_touch]

end SContextCache

/-! ## Histories of the account files -/

/-- The account files, the clock in whole seconds, and the cache. -/
structure Host where
  accounts : Accounts
  clock : Int
  credentials : SContextCache

/-- What happens on a host: time passes, a file is written, a request is made. -/
inductive HostOp
  | wait (seconds : Nat)
  | writePasswd (getpwuid : UInt32 → Option Bytes)
  | writeGroup (getgrouplist : Bytes → UInt32 → Option (List UInt32))
  | get (uid gid : UInt32)

namespace Host

/-- The account files after `/etc/passwd` was written at a time. -/
def wrotePasswd (accounts : Accounts) (clock : Int) (getpwuid : UInt32 → Option Bytes) :
    Accounts :=
  { accounts with passwdTime := some clock, getpwuid }

/-- The account files after `/etc/group` was written at a time. -/
def wroteGroup (accounts : Accounts) (clock : Int)
    (getgrouplist : Bytes → UInt32 → Option (List UInt32)) : Accounts :=
  { accounts with groupTime := some clock, getgrouplist }

/-- A host on which the cache has just been constructed. -/
def booted (accounts : Accounts) (clock : Int) : Host :=
  { accounts, clock, credentials := .new accounts clock }

/-- The host after a step. -/
def step (host : Host) : HostOp → Host
  | .wait seconds => { host with clock := host.clock + seconds }
  | .writePasswd getpwuid =>
      { host with accounts := wrotePasswd host.accounts host.clock getpwuid }
  | .writeGroup getgrouplist =>
      { host with accounts := wroteGroup host.accounts host.clock getgrouplist }
  | .get uid gid =>
      { host with credentials := (host.credentials.get host.accounts host.clock uid gid).2 }

/-- What `SContextCache::get` returns now. -/
def answer (host : Host) (uid gid : UInt32) : Outcome Err SContext :=
  (host.credentials.get host.accounts host.clock uid gid).1

/-- A write of an account file either gives it a time after the last clearing of
the cache, or does not alter the credentials in the cache. -/
def Noticed (host : Host) : HostOp → Prop
  | .wait _ | .get _ _ => True
  | .writePasswd getpwuid =>
      host.credentials.Coherent (wrotePasswd host.accounts host.clock getpwuid)
  | .writeGroup getgrouplist =>
      host.credentials.Coherent (wroteGroup host.accounts host.clock getgrouplist)

/-- What every step that is noticed preserves. -/
structure Current (host : Host) : Prop where
  shaped : host.credentials.Shaped 0
  coherent : host.credentials.Coherent host.accounts

namespace Current

variable {host : Host}

theorem booted (accounts : Accounts) (clock : Int) : (Host.booted accounts clock).Current where
  shaped := by
    refine SContextCache.Shaped.uptodate ⟨rfl, .nil _, ?_, ?_, ?_⟩
    · exact fun _ _ present => nomatch present
    · exact fun _ _ member => absurd member List.not_mem_nil
    · exact fun _ _ present => nomatch present
  coherent := by
    right
    apply SContextCache.Coherent.uptodate
    exact .inr fun _ _ present => nomatch present

theorem step (current : host.Current) {op : HostOp} (noticed : host.Noticed op) :
    (host.step op).Current := by
  cases op with
  | wait seconds => exact ⟨current.shaped, current.coherent⟩
  | writePasswd getpwuid => exact ⟨current.shaped, noticed⟩
  | writeGroup getgrouplist => exact ⟨current.shaped, noticed⟩
  | get uid gid =>
      have served := SContextCache.get_coherent current.shaped current.coherent host.clock uid gid
      exact ⟨served.2.1, .inr served.2.2⟩

theorem answer (current : host.Current) (uid gid : UInt32) :
    host.answer uid gid = .ofExcept (SContext.construct host.accounts uid gid) :=
  (SContextCache.get_coherent current.shaped current.coherent host.clock uid gid).1

end Current

/-- A cached element that is wrong is returned when no clearing drops it. -/
theorem wrong_answer {host : Host}
    (incoherent : ¬ host.credentials.Coherent host.accounts) :
    ∃ uid gid, host.answer uid gid ≠ .ofExcept (SContext.construct host.accounts uid gid) := by
  rw [SContextCache.Coherent, not_or] at incoherent
  obtain ⟨unchanged, disagrees⟩ := incoherent
  simp only [SContextCache.Agrees, not_forall] at disagrees
  obtain ⟨key, found, present, differs⟩ := disagrees
  refine ⟨key.uid, key.gid, ?_⟩
  rw [answer, SContextCache.get_cached (by simpa using unchanged) present]
  intro same
  apply differs
  cases built : SContext.construct host.accounts key.uid key.gid with
  | error e => simp [built] at same
  | ok sctx =>
      rw [built] at same
      cases same
      rfl

/-- In every history whose writes are noticed, each request is answered with the
credentials that the account files give at that moment, and the first write that
is not noticed makes a request possible that is answered wrongly. -/
theorem credentials_current {accounts : Accounts} {clock : Int} {host : Host}
    (reached : Reaches step Noticed (booted accounts clock) host) :
    (∀ uid gid, host.answer uid gid = .ofExcept (SContext.construct host.accounts uid gid)) ∧
      ∀ op, host.Noticed op ↔
        ∀ uid gid, (host.step op).answer uid gid =
          .ofExcept (SContext.construct (host.step op).accounts uid gid) := by
  have current : host.Current :=
    reached.invariant (Current.booted accounts clock) fun _ _ current noticed =>
      current.step noticed
  refine ⟨current.answer, fun op => ?_⟩
  constructor
  · exact fun noticed => (current.step noticed).answer
  · intro right
    by_contra unnoticed
    have incoherent : ¬ (host.step op).credentials.Coherent (host.step op).accounts := by
      cases op with
      | wait | get => exact absurd trivial unnoticed
      | writePasswd | writeGroup => exact unnoticed
    obtain ⟨uid, gid, wrong⟩ := wrong_answer incoherent
    exact wrong (right uid gid)

/-! ## A user removed from a group -/

/-- One user, `u`, in one supplementary group, in files written long ago. -/
def memberAccounts : Accounts where
  passwdTime := some 10
  groupTime := some 10
  getpwuid uid := if uid = 1000 then some (str "u") else none
  getgrouplist _ _ := some [5]

/-- The user makes a request, time passes, and the user is removed from the group. -/
def removal (seconds : Nat) : List HostOp :=
  [.get 1000 100, .wait seconds, .writeGroup fun _ _ => some []]

/-- The host after the removal. -/
def removed (seconds : Nat) : Host :=
  (removal seconds).foldl step (booted memberAccounts 100)

theorem credentials_current_removal : (removed 1).answer 1000 100 = .ok ⟨1000, 100, [100]⟩ := by
  have meets : Meets step Noticed (booted memberAccounts 100) (removal 1) :=
    .cons trivial (.cons trivial (.cons (.inl (by decide)) (.nil _)))
  rw [removed, (credentials_current meets.reaches).1 1000 100]
  decide

/-- Within the second in which the cache was last cleared the removal is not seen. -/
theorem credentials_stale :
    (removed 0).answer 1000 100 ≠
      .ofExcept (SContext.construct (removed 0).accounts 1000 100) := by
  decide

end Host

end OfflineFs
