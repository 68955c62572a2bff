import OfflineFs.Model.Fs
import OfflineFs.Run.Backend

/-!
# Running a request

A request commits whatever its body wrote, and turns an exception into a result.
Path resolution enters through a property shared by all path caches: they leave
the databases alone, and return only nodes that exist.
-/

namespace OfflineFs

open OfflineFs.Effect
open OfflineFs.Effect.Program (Calls)

namespace World

/-- The world after the three commits of an `FsTxn`. -/
def committedAll (world : World) : World :=
  ((world.committed .media).committed .directories).committed .nodes

section CommittedAll

variable (world : World)

@[simp]
theorem committedAll_dbs : world.committedAll.dbs = world.dbs :=
  rfl

@[simp]
theorem committedAll_cache : world.committedAll.cache = world.cache :=
  rfl

@[simp]
theorem committedAll_openFiles : world.committedAll.openFiles = world.openFiles :=
  rfl

@[simp]
theorem committedAll_clock : world.committedAll.clock = world.clock :=
  rfl

@[simp]
theorem committedAll_ticks : world.committedAll.ticks = world.ticks :=
  rfl

@[simp]
theorem committedAll_reply : world.committedAll.reply = world.reply :=
  rfl

@[simp]
theorem committedAll_events : world.committedAll.events = world.events :=
  rfl

end CommittedAll

end World

/-- Two worlds that differ at most in the path cache and in what is on disk. -/
structure World.Alike (first second : World) : Prop where
  dbs : second.dbs = first.dbs
  openFiles : second.openFiles = first.openFiles
  clock : second.clock = first.clock
  ticks : second.ticks = first.ticks
  reply : second.reply = first.reply
  order : second.order = first.order
  events : second.events = first.events

namespace World.Alike

variable {first second third : World}

theorem refl (world : World) : Alike world world :=
  ⟨rfl, rfl, rfl, rfl, rfl, rfl, rfl⟩

theorem trans (early : Alike first second) (late : Alike second third) : Alike first third where
  dbs := late.dbs.trans early.dbs
  openFiles := late.openFiles.trans early.openFiles
  clock := late.clock.trans early.clock
  ticks := late.ticks.trans early.ticks
  reply := late.reply.trans early.reply
  order := late.order.trans early.order
  events := late.events.trans early.events

theorem committedAll (world : World) : Alike world world.committedAll :=
  ⟨rfl, rfl, rfl, rfl, rfl, rfl, rfl⟩

theorem withCache (world : World) (cache : PathCacheState) :
    Alike world (world.withCache cache) :=
  ⟨rfl, rfl, rfl, rfl, rfl, rfl, rfl⟩

end World.Alike

/-- The result of a body, committed unless it never ended. -/
def committing {α : Type} : Outcome Err α × World → Outcome Err α × World
  | (.ok value, world) => (.ok value, world.committedAll)
  | (.error e, world) => (.error e, world.committedAll)
  | (.fault stop, world) => (.fault stop, world)

section Committing

variable {α : Type} (world : World)

@[simp]
theorem committing_ok (value : α) :
    committing (.ok value, world) = (.ok value, world.committedAll) :=
  rfl

@[simp]
theorem committing_error (e : Err) :
    committing (α := α) (.error e, world) = (.error e, world.committedAll) :=
  rfl

@[simp]
theorem committing_fault (stop : Fault) :
    committing (α := α) (.fault stop, world) = (.fault stop, world) :=
  rfl

@[simp]
theorem exec_fsTxn (body : FsProg α) :
    exec (fsTxn body) world = committing (exec body world) := by
  simp only [fsTxn, exec_bind, exec_catching]
  rcases exec body world with ⟨outcome, after⟩
  cases outcome <;> rfl

end Committing

/-- The result of a body run for a caller with the error handler of a request. -/
def handling {α : Type} (onError : Err → α) : Outcome Err α × World → Outcome Err α × World
  | (.ok value, world) => (.ok value, world.committedAll)
  | (.error e, world) => (.ok (onError e), world.committedAll)
  | (.fault stop, world) => (.fault stop, world)

/-- The credentials of a caller. -/
def Context.sctx (ctx : Context) : Option SContext :=
  ctx.groups.map fun groups => ⟨ctx.uid, ctx.gid, groups ++ [ctx.gid]⟩

/-- The frame of a request: its body, and the three commits. -/
theorem exec_request {α : Type} (ctx : Context) (onError : Err → α)
    (body : SContext → FsProg α) (world : World) :
    exec (request ctx onError body) world =
      match ctx.sctx with
      | some sctx => handling onError (exec (body sctx) world)
      | none => (.ok (onError .runtime), world.committedAll) := by
  simp only [request, exec_catching, exec_fsTxn, exec_bind, userctx, Context.sctx]
  cases ctx.groups with
  | none => rfl
  | some groups =>
      simp only [exec_pure, Outcome.andThen_ok, Option.map_some]
      rcases exec (body _) world with ⟨outcome, after⟩
      cases outcome <;> rfl

/-- Whatever holds of the world after the body and after no body at all holds
after the request, up to the commits. -/
theorem request_induction {α : Type} {ctx : Context} {onError : Err → α}
    {body : SContext → FsProg α} {world : World} {property : World → Prop}
    (commits : ∀ world, property world → property world.committedAll) (start : property world)
    (runs : ∀ sctx, ctx.sctx = some sctx → property (exec (body sctx) world).2) :
    property (exec (request ctx onError body) world).2 := by
  rw [exec_request]
  cases caller : ctx.sctx with
  | none => exact commits _ start
  | some sctx =>
      have ran := runs sctx caller
      simp only
      rcases result : exec (body sctx) world with ⟨outcome, after⟩
      rw [result] at ran
      cases outcome with
      | ok => exact commits _ ran
      | error => exact commits _ ran
      | fault => exact ran

namespace Dbs

/-- `Node::getnode` as a function of the contents. -/
def getnode (dbs : Dbs) (id : UInt64) : Except Err NodeRef :=
  match dbs.attr UInt32 id .mode with
  | .ok mode => .ok ⟨id, kindOfMode mode⟩
  | .error .attrNotFound => .error .notFound
  | .error e => .error e

/-- `Directory::getchild` as a function of the contents. -/
def getchild (dbs : Dbs) (d : UInt64) (name : Bytes) : Except Err NodeRef :=
  match dbs.getattr UInt64 .directories d name with
  | .ok id => dbs.getnode id
  | .error .attrNotFound => .error .notFound
  | .error e => .error e

theorem getnode_eq_ok_iff {dbs : Dbs} {id : UInt64} {n : NodeRef} :
    dbs.getnode id = .ok n ↔
      ∃ mode, dbs.attr UInt32 id .mode = .ok mode ∧ n = ⟨id, kindOfMode mode⟩ := by
  unfold getnode
  cases dbs.attr UInt32 id .mode with
  | ok mode => simp [eq_comm]
  | error e => cases e <;> simp

end Dbs

namespace Dbs

/-- The permission bits that `Node::access` grants a caller. -/
def granted (dbs : Dbs) (id : UInt64) (sctx : SContext) (fmode : UInt32) :
    Except Err UInt32 :=
  match dbs.attr UInt32 id .uid with
  | .error e => .error e
  | .ok uid =>
      if sctx.uid = uid then
        .ok ((fmode >>> 6) &&& 0o7)
      else
        match dbs.attr UInt32 id .gid with
        | .error e => .error e
        | .ok gid => .ok (if gid ∈ sctx.groups then (fmode >>> 3) &&& 0o7 else fmode &&& 0o7)

/-- `Node::access` as a function of the contents. -/
def access (dbs : Dbs) (id : UInt64) (sctx : SContext) (mode : UInt32) : Except Err Unit :=
  if sctx.uid = 0 then
    .ok ()
  else
    match dbs.attr UInt32 id .mode with
    | .error e => .error e
    | .ok fmode =>
        match dbs.granted id sctx fmode with
        | .error e => .error e
        | .ok granted => if mode &&& ~~~granted ≠ 0 then .error .access else .ok ()

end Dbs

namespace Node

@[simp]
theorem exec_getnode (id : UInt64) (world : World) :
    exec (getnode id) world = (.ofExcept (world.dbs.getnode id), world) := by
  simp only [getnode, Dbs.getnode, exec_catching, exec_bind, exec_getattr]
  cases world.dbs.attr UInt32 id .mode with
  | ok mode => rfl
  | error e => cases e <;> rfl

@[simp]
theorem exec_cast (target : NodeKind) (n : NodeRef) (world : World) :
    exec (cast target n) world =
      (if n.kind = target then .ok n else .error (.badCast target), world) := by
  unfold cast
  split <;> rfl

/-- The permissions that are granted, as a function of the contents. -/
private theorem exec_granted (id : UInt64) (sctx : SContext) (fmode uid : UInt32)
    (world : World) (uidRead : world.dbs.attr UInt32 id .uid = .ok uid) :
    exec (if sctx.uid = uid then
        pure ((fmode >>> 6) &&& 0o7)
      else do
        let gid ← getattr UInt32 id .gid
        pure (if gid ∈ sctx.groups then (fmode >>> 3) &&& 0o7 else fmode &&& 0o7)) world =
      (.ofExcept (world.dbs.granted id sctx fmode), world) := by
  simp only [Dbs.granted, uidRead]
  split
  · rfl
  · simp only [exec_bind, exec_getattr]
    cases world.dbs.attr UInt32 id .gid <;> rfl

/-- The test of permissions as a function of the contents. -/
@[simp]
theorem exec_access (n : NodeRef) (sctx : SContext) (mode : UInt32) (world : World) :
    exec (access n sctx mode) world = (.ofExcept (world.dbs.access n.id sctx mode), world) := by
  unfold access Dbs.access
  by_cases root : sctx.uid = 0
  · simp [root]
  · simp only [ne_eq, root, not_false_eq_true, if_true, if_false, exec_bind, exec_getattr]
    cases modeRead : world.dbs.attr UInt32 n.id .mode with
    | error e => rfl
    | ok fmode =>
        simp only [Outcome.ofExcept_ok, Outcome.andThen_ok]
        cases uidRead : world.dbs.attr UInt32 n.id .uid with
        | error e => simp [Dbs.granted, uidRead]
        | ok uid =>
            simp only [Outcome.ofExcept_ok, Outcome.andThen_ok, exec_granted _ _ _ _ _ uidRead]
            cases world.dbs.granted n.id sctx fmode with
            | error e => rfl
            | ok granted =>
                simp only [Outcome.ofExcept_ok, Outcome.andThen_ok]
                split <;> rfl

end Node

namespace Directory

/-- Reading an entry as a function of the contents. -/
@[simp]
theorem exec_getchild (d : NodeRef) (name : Bytes) (world : World) :
    exec (getchild d name) world = (.ofExcept (world.dbs.getchild d.id name), world) := by
  simp only [getchild, Dbs.getchild, exec_catching, exec_bind, Register.exec_getattr]
  cases world.dbs.getattr UInt64 .directories d.id name with
  | error e => cases e <;> rfl
  | ok id =>
      simp only [Outcome.ofExcept_ok, Outcome.andThen_ok, Node.exec_getnode]
      cases found : world.dbs.getnode id with
      | ok n => rfl
      | error e =>
          cases e with
          | attrNotFound =>
              unfold Dbs.getnode at found
              cases read : world.dbs.attr UInt32 id .mode with
              | ok mode => simp [read] at found
              | error e => cases e <;> simp [read] at found
          | _ => rfl

end Directory

/-- Reading the databases and using the path cache. -/
def CacheOnly ⦃γ : Type⦄ : FsEff γ → Prop
  | .get _ _ _ | .lockCache | .unlockCache | .getCache | .setCache _ => True
  | _ => False

/-- Code that only uses the cache leaves the rest of the world. -/
theorem withCache_exec {α : Type} {prog : FsProg α} (calls : Calls CacheOnly prog)
    (world : World) : (exec prog world).2 = world.withCache (exec prog world).2.cache := by
  have cacheOnly : ∃ cache, (exec prog world).2 = world.withCache cache := by
    refine calls.run fsHandler (fun before after => ∃ cache, after = before.withCache cache)
      ?_ ?_ ?_ world
    · exact fun state => ⟨state.cache, rfl⟩
    · rintro first second third ⟨early, rfl⟩ ⟨late, rfl⟩
      exact ⟨late, rfl⟩
    · intro γ effect state allowed
      cases effect with
      | get | lockCache | unlockCache | getCache => exact ⟨state.cache, rfl⟩
      | setCache cache => exact ⟨cache, rfl⟩
      | _ => exact allowed.elim
  obtain ⟨cache, after⟩ := cacheOnly
  rw [after]
  rfl

/-- A path cache that uses nothing but the databases and its own state, and that
returns existing nodes, as the class the database says. -/
structure PathCache.Sound (pc : PathCache) : Prop where
  calls_getnode : ∀ sctx path, Calls CacheOnly (pc.getnode sctx path)
  calls_invalidate : ∀ path, Calls CacheOnly (pc.invalidate path)
  present : ∀ sctx path world n, (exec (pc.getnode sctx path) world).1 = .ok n →
    world.dbs.getnode n.id = .ok n

namespace PathCache.Sound

variable {pc : PathCache}

theorem getnode (sound : pc.Sound) (sctx : SContext) (path : Bytes) (world : World) :
    ∃ outcome cache, exec (pc.getnode sctx path) world = (outcome, world.withCache cache) ∧
      ∀ n, outcome = .ok n → world.dbs.getnode n.id = .ok n :=
  ⟨_, _, Prod.ext rfl (withCache_exec (sound.calls_getnode sctx path) world),
    sound.present sctx path world⟩

end PathCache.Sound

end OfflineFs
