import OfflineFs.Caches.Consistency
import OfflineFs.Run.Uncached

/-!
# Path caches that can always be used

From a valid state every operation that ends leads to a valid state, and only the path cache
itself keeps one from ending.  Requests that read and that store attributes leave the path
cache valid.
-/

namespace OfflineFs

open OfflineFs.Effect OfflineFs.Effect.Program

/-! ## Faults -/

section Stops

variable {α β : Type}

/-- The only fault that a program stops on is that its behaviour is undefined. -/
def StopsUndefined (prog : FsProg α) : Prop :=
  ∀ world stop, (exec prog world).1 = .fault stop → stop = .undefined

theorem stops_bind {first : FsProg α} {next : α → FsProg β} (begins : StopsUndefined first)
    (continues : ∀ value, StopsUndefined (next value)) : StopsUndefined (first >>= next) := by
  intro world stop faults
  rw [exec_bind] at faults
  rcases result : exec first world with ⟨outcome, after⟩
  rw [result] at faults
  cases outcome with
  | ok value => exact continues value after stop faults
  | error e => cases faults
  | fault other =>
      cases faults
      exact begins world stop (congrArg Prod.fst result)

theorem stops_catching {body : FsProg α} {recover : Err → FsProg α} (tries : StopsUndefined body)
    (recovers : ∀ e, StopsUndefined (recover e)) : StopsUndefined (body.catching recover) := by
  intro world stop faults
  rw [exec_catching] at faults
  rcases result : exec body world with ⟨outcome, after⟩
  rw [result] at faults
  cases outcome with
  | ok value => cases faults
  | error e => exact recovers e after stop faults
  | fault other =>
      cases faults
      exact tries world stop (congrArg Prod.fst result)

/-- A program that always returns or throws. -/
theorem stops_of_except {prog : FsProg α} (read : World → Except Err α)
    (reads : ∀ world, (exec prog world).1 = .ofExcept (read world)) : StopsUndefined prog := by
  intro world stop faults
  rw [reads] at faults
  cases result : read world <;> simp [result] at faults

theorem stops_perform (effect : FsEff α) : StopsUndefined (perform effect) :=
  stops_of_except (fun world => .ok (fsHandler effect world).1) fun _ => rfl

theorem stops_ite {condition : Prop} [Decidable condition] {yes no : FsProg α}
    (holds : StopsUndefined yes) (fails : StopsUndefined no) :
    StopsUndefined (if condition then yes else no) := by
  split
  · exact holds
  · exact fails

theorem stops_pure (value : α) : StopsUndefined (Pure.pure value) :=
  stops_of_except (fun _ => .ok value) fun _ => rfl

theorem stops_throw (e : Err) : StopsUndefined (.throw e : FsProg α) :=
  stops_of_except (fun _ => .error e) fun _ => rfl

theorem stops_undefined : StopsUndefined (.halt .undefined : FsProg α) := by
  intro world stop faults
  cases faults
  rfl

end Stops

namespace PathCache_hash

theorem stops_readEntry (cen : Nat) : StopsUndefined (readEntry cen) := by
  intro world stop faults
  rw [exec_readEntry] at faults
  split at faults <;> cases faults
  rfl

theorem stops_modifyCache (change : PathCacheState → PathCacheState) :
    StopsUndefined (modifyCache change) :=
  stops_of_except (fun _ => .ok ()) fun _ => rfl

theorem stops_getattr {T : Type} [HostInt T] (id : UInt64) (attr : Attr) :
    StopsUndefined (Node.getattr T id attr) :=
  stops_of_except (·.dbs.attr T id attr) fun world => by rw [Node.exec_getattr]

theorem stops_getnode (id : UInt64) : StopsUndefined (Node.getnode id) :=
  stops_of_except (·.dbs.getnode id) fun world => by rw [Node.exec_getnode]

/-- Giving an entry its values only stops by using a dangling pointer. -/
theorem stops_initEntry (cen : Nat) (parent : Option Nat) (tokens : List Bytes) :
    StopsUndefined (initEntry cen parent tokens) := by
  refine stops_bind ?_ fun n => ?_
  · split
    · apply stops_bind (stops_readEntry _)
      intro parentData
      apply stops_bind (stops_getnode _)
      intro n
      refine stops_bind (stops_of_except (fun _ => if n.kind = .directory then .ok n else
        .error (.badCast .directory)) fun world => ?_) fun d => ?_
      · rw [Node.exec_cast]
        split <;> rfl
      · exact stops_of_except (·.dbs.getchild d.id _) fun world => by rw [Directory.exec_getchild]
    · exact stops_getnode 0
  · apply stops_bind (stops_getattr _ _)
    intro uid
    apply stops_bind (stops_getattr _ _)
    intro gid
    exact stops_bind (stops_getattr _ _) fun mode => stops_modifyCache _

theorem stops_lookupKey {key : Bytes} {init : Nat → FsProg Unit}
    (inits : ∀ cen, StopsUndefined (init cen)) : StopsUndefined (lookupKey key init) := by
  apply stops_bind (stops_perform _)
  intro cache
  split
  · exact stops_pure _
  · apply stops_bind (stops_perform _)
    intro _
    refine stops_bind (stops_catching (inits _) fun e => ?_) fun _ => stops_pure _
    refine stops_bind (stops_bind (stops_perform _) fun last => ?_) fun _ => stops_throw e
    exact stops_ite (stops_perform _) stops_undefined

theorem stops_lookup (tokens : List Bytes) : StopsUndefined (lookup tokens) := by
  induction tokens with
  | nil => exact stops_lookupKey fun cen => stops_initEntry cen none []
  | cons leaf up ih =>
      exact stops_lookupKey fun cen => stops_bind ih fun parent => stops_initEntry _ _ _

theorem stops_checkAccess (sctx : SContext) (cen : Nat) :
    StopsUndefined (checkAccess sctx cen) := by
  apply stops_bind (stops_readEntry cen)
  exact fun data => stops_ite (stops_throw _) (stops_pure ())

/-- Going up the ancestors only stops where its function does. -/
theorem stops_withPathFrom {f : Nat → FsProg Unit} (applied : ∀ cen, StopsUndefined (f cen))
    (cen : Nat) (tokens : List Bytes) : StopsUndefined (withPathFrom f cen tokens) := by
  induction tokens generalizing cen with
  | nil => exact applied cen
  | cons leaf up ih =>
      apply stops_bind (applied cen)
      intro _
      apply stops_bind (stops_readEntry cen)
      intro data
      cases data.parent with
      | none => exact stops_undefined
      | some parent =>
          apply stops_bind (stops_perform _)
          intro cache
          apply stops_ite (ih parent)
          apply stops_bind (stops_lookup up)
          intro parent
          exact stops_bind (stops_modifyCache _) fun _ => ih parent

theorem stops_evict (fuel : Nat) : StopsUndefined (evict fuel) := by
  induction fuel with
  | zero => exact stops_pure ()
  | succ fuel ih =>
      apply stops_bind (stops_perform _)
      intro cache
      apply stops_ite _ (stops_pure ())
      cases cache.queue with
      | nil => exact stops_undefined
      | cons front rest =>
          exact stops_bind (stops_bind (stops_readEntry _) fun _ => stops_modifyCache _) fun _ => ih

theorem stops_locate (sctx : SContext) (tokens : List Bytes) :
    StopsUndefined (locate sctx tokens) := by
  refine stops_bind ?_ fun _ => ?_
  · apply stops_ite _ (stops_pure ())
    exact stops_bind (stops_lookup _) fun cen => stops_withPathFrom (stops_checkAccess sctx) cen _
  · apply stops_bind (stops_lookup tokens)
    intro cen
    apply stops_bind (stops_bind (stops_readEntry cen) fun _ => stops_modifyCache _)
    intro _
    apply stops_bind (stops_perform _)
    intro cache
    exact stops_bind (stops_evict _) fun _ => stops_pure cen

theorem stops_hash_getnode (sctx : SContext) (path : Bytes) :
    StopsUndefined (getnode sctx path) := by
  refine stops_bind (stops_bind (stops_perform _) fun _ => ?_) fun cen => ?_
  · refine stops_bind (stops_catching (stops_locate sctx _) fun e => ?_) fun cen => ?_
    · exact stops_bind (stops_perform _) fun _ => stops_throw e
    · exact stops_bind (stops_perform _) fun _ => stops_pure cen
  · exact stops_bind (stops_readEntry cen) fun data => stops_getnode _

end PathCache_hash

/-! ## Steady path caches -/

/-- Some use of the path cache is undefined. -/
def PathCache.Fragile (pc : PathCache) : Prop :=
  ∃ sctx path world, (exec (pc.getnode sctx path) world).1 = .fault .undefined

/-- The fault is one of the path cache. -/
def PathCache.Crashes (pc : PathCache) (stop : Fault) : Prop :=
  pc.Fragile ∧ stop = .undefined

/-- Every operation that ends leads from valid states to valid states, and one that does not is
undefined. -/
structure PathCache.Steady (pc : PathCache) (valid : PathCacheState → Prop) : Prop where
  sound : pc.Sound
  initial : valid .initial
  getnode : ∀ {world : World} sctx path, valid world.cache →
    Ended (exec (pc.getnode sctx path) world).1 → valid (exec (pc.getnode sctx path) world).2.cache
  faults : ∀ {world : World} {sctx path stop}, valid world.cache →
    (exec (pc.getnode sctx path) world).1 = .fault stop → stop = .undefined
  invalidate : ∀ {world : World} path, valid world.cache →
    ∃ cache, valid cache ∧ exec (pc.invalidate path) world = (.ok (), world.withCache cache)

theorem PathCache.Steady.crashes {pc : PathCache} {valid : PathCacheState → Prop}
    (steady : pc.Steady valid) {world : World} {sctx : SContext} {path : Bytes} {stop : Fault}
    (cached : valid world.cache) (faults : (exec (pc.getnode sctx path) world).1 = .fault stop) :
    pc.Crashes stop := by
  obtain rfl := steady.faults cached faults
  exact ⟨⟨sctx, path, world, faults⟩, rfl⟩

theorem PathCache_null.ended_getnode (sctx : SContext) (path : Bytes) (world : World) :
    Ended (exec (PathCache_null.getnode sctx path) world).1 := by
  rw [PathCache_null.exec_getnode]
  exact ended_ofExcept _

theorem PathCache_null.not_fragile : ¬ PathCache_null.Fragile := by
  rintro ⟨sctx, path, world, faults⟩
  exact PathCache_null.ended_getnode sctx path world .undefined faults

/-- `PathCache_null` has no state. -/
theorem PathCache_null.steady : PathCache_null.Steady fun _ => True where
  sound := PathCache_null.sound
  initial := trivial
  getnode _ _ _ _ := trivial
  faults {world sctx path stop} _ faults :=
    absurd faults (PathCache_null.ended_getnode sctx path world stop)
  invalidate {world} _ _ := ⟨world.cache, trivial, rfl⟩

/-- `PathCache_hash` is steady while its entries are linked. -/
theorem PathCache_hash.steady : PathCache_hash.Steady (PathCacheState.Linked PathCacheState.NoBlank)
    where
  sound := PathCache_hash.sound
  initial := PathCacheState.linked_initial
  getnode {world} sctx path linked ended := by
    change (exec (PathCache_hash.getnode sctx path) world).2.cache.Linked PathCacheState.NoBlank
    obtain ⟨after, afterLinked, ⟨cen, data, -, -, result⟩ | ⟨e, -, result⟩⟩ :=
      PathCache_hash.exec_getnode linked sctx path (PathCache_hash.ended_locate sctx path ended)
    · rw [result]
      exact afterLinked
    · rw [result]
      exact afterLinked
  faults {world sctx path stop} _ faults :=
    PathCache_hash.stops_hash_getnode sctx path world stop faults
  invalidate path linked := by
    have result := PathCache_hash.exec_invalidate linked path
    have still := PathCache_hash.linked_invalidate linked path
    rw [result] at still
    exact ⟨_, still, result⟩

/-- Wherever the code ends, the path cache is valid. -/
def PathCache.Kept (pc : PathCache) (valid : PathCacheState → Prop) {α : Type} (prog : FsProg α) :
    Prop :=
  ∀ world : World, valid world.cache →
    (∃ stop, pc.Crashes stop ∧ (exec prog world).1 = .fault stop) ∨ valid (exec prog world).2.cache

namespace PathCache

variable {pc : PathCache} {valid : PathCacheState → Prop} {α β : Type}

/-- Two programs one after the other. -/
theorem kept_bind {first : FsProg α} {next : α → FsProg β} (begins : Kept pc valid first)
    (continues : ∀ value, Kept pc valid (next value)) : Kept pc valid (first >>= next) := by
  intro world start
  have begun := begins world start
  rw [exec_bind]
  rcases result : exec first world with ⟨outcome, after⟩
  rw [result] at begun
  cases outcome with
  | ok value =>
      rcases begun with ⟨stop, -, impossible⟩ | still
      · cases impossible
      · exact continues value after still
  | error e =>
      rcases begun with ⟨stop, -, impossible⟩ | still
      · cases impossible
      · exact .inr still
  | fault stop =>
      rcases begun with ⟨_, crashes, same⟩ | still
      · cases same
        exact .inl ⟨stop, crashes, rfl⟩
      · exact .inr still

theorem kept_uncached {prog : FsProg α} (calls : Calls Uncached prog) : Kept pc valid prog := by
  intro world start
  rw [cache_exec calls]
  exact .inr start

theorem kept_pure (value : α) : Kept pc valid (Pure.pure value) :=
  kept_uncached (calls_pure value)

/-- The frame of a request. -/
theorem kept_request {ctx : Context} {onError : Err → α} {body : SContext → FsProg α}
    (kept : ∀ sctx, Kept pc valid (body sctx)) : Kept pc valid (request ctx onError body) := by
  intro world start
  rw [exec_request]
  cases ctx.sctx with
  | none => exact .inr start
  | some sctx =>
      have ran := kept sctx world start
      simp only
      rcases result : exec (body sctx) world with ⟨outcome, after⟩
      rw [result] at ran
      rcases ran with ⟨stop, crashes, same⟩ | still
      · cases same
        exact .inl ⟨stop, crashes, rfl⟩
      · right
        cases outcome <;> exact still

section Requests

variable (steady : pc.Steady valid) {ctx : Context} {onError : Err → α}

include steady

/-- A request that looks a path up and leaves the path cache otherwise. -/
theorem kept_looking {path : Bytes} {next : SContext → NodeRef → FsProg α}
    (calls : ∀ sctx n, Calls Uncached (next sctx n)) :
    Kept pc valid (request ctx onError fun sctx => do
      let n ← pc.getnode sctx path
      next sctx n) := by
  apply kept_request
  intro sctx
  refine kept_bind ?_ fun n => kept_uncached (calls sctx n)
  intro world start
  rcases result : exec (pc.getnode sctx path) world with ⟨outcome, after⟩
  have still := steady.getnode sctx path start
  rw [result] at still
  cases outcome with
  | ok n => exact .inr (still (ended_ok n))
  | error e => exact .inr (still (ended_error e))
  | fault stop => exact .inl ⟨stop, steady.crashes start (congrArg Prod.fst result), rfl⟩

theorem kept_looks {path : Bytes} {prog : FsProg α}
    (looks : Scope.serving.Looks pc ctx path prog) : Kept pc valid prog := by
  obtain ⟨onError, next, rfl, calls⟩ := looks
  exact kept_looking steady fun sctx n => uncached_serving (calls sctx n)

theorem kept_code {path : Bytes} {prog : FsProg α} (looks : Scope.serving.Looks pc ctx path prog)
    (compute : α → Int) : Kept pc valid (prog >>= fun result => Pure.pure (compute result)) :=
  kept_bind (kept_looks steady looks) fun _ => kept_pure _

end Requests

/-- The requests that change no names and no modes leave the path cache valid. -/
theorem Steady.kept_quietly {fs : FS} (steady : fs.pcache.Steady valid) (ctx : Context)
    {request : Request} {free : List Attr} (quietly : request.Quietly free) :
    Kept fs.pcache valid (request.prog fs ctx) := by
  have stamped : Scope.serving.Stamps := Scope.serving_builds.stamps
  have ties : ∀ attr ∈ placing, ∀ value, Scope.serving.stores attr.name value :=
    fun _ _ _ => trivial
  cases request with
  | getattr path => exact kept_code steady (Scope.getattr fs ctx path) _
  | readdir path => exact kept_code steady (Scope.readdir fs ctx stamped path) _
  | readlink path bufsiz => exact kept_code steady (Scope.readlink fs ctx path bufsiz) _
  | access path mode => exact kept_looks steady (Scope.access fs ctx path mode)
  | opendir path => exact kept_looks steady (Scope.opendir fs ctx path)
  | getxattr path name size => exact kept_code steady (Scope.getxattr fs ctx path name size) _
  | listxattr path size => exact kept_code steady (Scope.listxattr fs ctx path size) _
  | utimens path tv => exact kept_looks steady (Scope.utimens fs ctx stamped path tv)
  | truncate path length =>
      exact kept_looks steady (Scope.truncate fs ctx ties trivial stamped path length)
  | openFile path flags => exact kept_code steady (Scope.openFile fs ctx ties trivial path flags) _
  | read | write | flush | fsync | release =>
      exact kept_uncached (uncached_request steady.sound ctx not_false)
  | _ => exact quietly.elim

end PathCache

end OfflineFs
