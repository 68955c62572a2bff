import OfflineFs.Run.Reads
import OfflineFs.Run.Requests

/-!
# Running the path caches

`PathCache_null` is a function of the databases.  `PathCache_hash` reads them
and changes nothing but its own state.
-/

namespace OfflineFs

open OfflineFs.Effect OfflineFs.Effect.Program

/-! ## The plain lookup -/

namespace Dbs

/-- The loop of `PathCache_null::getnode` as a function of the contents. -/
def walk (dbs : Dbs) (sctx : SContext) : NodeRef → List Bytes → Except Err NodeRef
  | n, [] => .ok n
  | n, token :: rest =>
      match dbs.access n.id sctx xOk with
      | .error e => .error e
      | .ok _ =>
          if n.kind = .directory then
            match dbs.getchild n.id token with
            | .error e => .error e
            | .ok child => dbs.walk sctx child rest
          else
            .error (.badCast .directory)

/-- `PathCache_null::getnode` as a function of the contents. -/
def resolve (dbs : Dbs) (sctx : SContext) (path : Bytes) : Except Err NodeRef :=
  match dbs.getnode 0 with
  | .error e => .error e
  | .ok root => dbs.walk sctx root (tokenize path)

theorem getchild_ok_getnode {dbs : Dbs} {d : UInt64} {name : Bytes} {n : NodeRef}
    (found : dbs.getchild d name = .ok n) : dbs.getnode n.id = .ok n := by
  unfold getchild at found
  cases stored : dbs.getattr UInt64 .directories d name with
  | ok id =>
      simp only [stored] at found
      obtain ⟨mode, _, rfl⟩ := getnode_eq_ok_iff.mp found
      exact found
  | error e => cases e <;> simp [stored] at found

/-- A walk from a node ends in a node. -/
theorem walk_ok_getnode {dbs : Dbs} {sctx : SContext} {start n : NodeRef} {tokens : List Bytes}
    (present : dbs.getnode start.id = .ok start)
    (found : dbs.walk sctx start tokens = .ok n) : dbs.getnode n.id = .ok n := by
  induction tokens generalizing start with
  | nil =>
      cases found
      exact present
  | cons token rest ih =>
      unfold walk at found
      split at found
      · cases found
      · split at found
        · split at found
          · cases found
          · rename_i child isChild
            exact ih (getchild_ok_getnode isChild) found
        · cases found

theorem resolve_ok_getnode {dbs : Dbs} {sctx : SContext} {path : Bytes} {n : NodeRef}
    (found : dbs.resolve sctx path = .ok n) : dbs.getnode n.id = .ok n := by
  unfold resolve at found
  split at found
  · cases found
  · rename_i root isRoot
    obtain ⟨mode, _, rfl⟩ := getnode_eq_ok_iff.mp isRoot
    exact walk_ok_getnode isRoot found

end Dbs

namespace PathCache_null

/-- The walk as a function of the contents. -/
@[simp]
theorem exec_walk (sctx : SContext) (n : NodeRef) (tokens : List Bytes) (world : World) :
    exec (walk sctx n tokens) world = (.ofExcept (world.dbs.walk sctx n tokens), world) := by
  induction tokens generalizing n with
  | nil => rfl
  | cons token rest ih =>
      simp only [walk, Dbs.walk, exec_bind, Node.exec_access]
      cases world.dbs.access n.id sctx xOk with
      | error e => rfl
      | ok =>
          simp only [Outcome.ofExcept_ok, Outcome.andThen_ok, Node.exec_cast]
          by_cases directory : n.kind = .directory
          · simp only [directory, if_true, Outcome.andThen_ok, Directory.exec_getchild]
            cases world.dbs.getchild n.id token with
            | error e => rfl
            | ok child => simp only [Outcome.ofExcept_ok, Outcome.andThen_ok, ih]
          · simp only [directory, if_false]
            rfl

@[simp]
theorem exec_getnode (sctx : SContext) (path : Bytes) (world : World) :
    exec (PathCache_null.getnode sctx path) world =
      (.ofExcept (world.dbs.resolve sctx path), world) := by
  simp only [getnode, Dbs.resolve, exec_bind, Node.exec_getnode]
  cases world.dbs.getnode 0 with
  | error e => rfl
  | ok root => simp only [Outcome.ofExcept_ok, Outcome.andThen_ok, exec_walk]

theorem calls_walk (sctx : SContext) (n : NodeRef) (tokens : List Bytes) :
    Calls CacheOnly (walk sctx n tokens) := by
  induction tokens generalizing n with
  | nil => trivial
  | cons token rest ih =>
      apply calls_bind (calls_access (fun _ _ _ => trivial) n sctx xOk)
      intro _
      apply calls_bind (calls_cast _ _)
      intro d
      exact calls_bind (calls_getchild (fun _ _ _ => trivial) _ _) fun child => ih child

/-- `PathCache_null` is a function of the databases. -/
theorem sound : PathCache_null.Sound where
  calls_getnode sctx path :=
    calls_bind (calls_getnode (fun _ _ _ => trivial) 0) fun root => calls_walk sctx root _
  calls_invalidate _ := trivial
  present sctx path world n found := by
    have resolves : Outcome.ofExcept (world.dbs.resolve sctx path) = .ok n :=
      (congrArg Prod.fst (exec_getnode sctx path world)).symm.trans found
    cases resolved : world.dbs.resolve sctx path with
    | error e => simp [resolved] at resolves
    | ok other =>
        rw [resolved] at resolves
        cases resolves
        exact Dbs.resolve_ok_getnode resolved

end PathCache_null

/-! ## The cached lookup -/

namespace PathCache_hash

/-- The databases may be read. -/
theorem reads (table : Table) (id : UInt64) (name : Bytes) : CacheOnly (.get table id name) :=
  trivial

theorem calls_modifyCache (change : PathCacheState → PathCacheState) :
    Calls CacheOnly (modifyCache change) :=
  calls_bind (calls_perform trivial) fun _ => calls_perform trivial

theorem calls_readEntry (cen : Nat) : Calls CacheOnly (readEntry cen) := by
  apply calls_bind (calls_perform trivial)
  intro cache
  split <;> trivial

@[simp]
theorem exec_readEntry (cen : Nat) (world : World) :
    exec (readEntry cen) world =
      match world.cache.heap[cen]? with
      | some (some data) => (.ok data, world)
      | _ => (.fault .undefined, world) := by
  simp only [readEntry, exec_bind, exec_perform, fsHandler, Outcome.andThen_ok]
  rcases world.cache.heap[cen]? with _ | _ | data <;> rfl

/-- Giving an entry its values. -/
theorem calls_initEntry (cen : Nat) (parent : Option Nat) (tokens : List Bytes) :
    Calls CacheOnly (initEntry cen parent tokens) := by
  refine calls_bind ?_ fun n => ?_
  · split
    · apply calls_bind (calls_readEntry _)
      intro parentData
      apply calls_bind (calls_getnode reads _)
      intro n
      exact calls_bind (calls_cast _ _) fun d => calls_getchild reads _ _
    · exact calls_getnode reads 0
  · apply calls_bind (calls_getattr reads _ _ _ _)
    intro uid
    apply calls_bind (calls_getattr reads _ _ _ _)
    intro gid
    exact calls_bind (calls_getattr reads _ _ _ _) fun mode => calls_modifyCache _

theorem calls_eraseInserted (key : Bytes) (cen buckets : Nat) :
    Calls CacheOnly (eraseInserted key cen buckets) :=
  calls_bind (calls_perform trivial) fun _ => calls_ite (calls_perform trivial) trivial

theorem calls_lookupKey {key : Bytes} {init : Nat → FsProg Unit}
    (inits : ∀ cen, Calls CacheOnly (init cen)) : Calls CacheOnly (lookupKey key init) := by
  apply calls_bind (calls_perform trivial)
  intro cache
  split
  · trivial
  · apply calls_bind (calls_perform trivial)
    intro _
    refine calls_bind (calls_catching (inits _) ?_) fun _ => trivial
    exact fun e => calls_bind (calls_eraseInserted _ _ _) fun _ => trivial

theorem calls_lookup (tokens : List Bytes) : Calls CacheOnly (lookup tokens) := by
  induction tokens with
  | nil => exact calls_lookupKey fun cen => calls_initEntry cen none []
  | cons leaf up ih =>
      exact calls_lookupKey fun cen => calls_bind ih fun parent => calls_initEntry _ _ _

/-- Going up the ancestors of an entry. -/
theorem calls_withPathFrom {f : Nat → FsProg Unit} (applied : ∀ cen, Calls CacheOnly (f cen))
    (cen : Nat) (tokens : List Bytes) : Calls CacheOnly (withPathFrom f cen tokens) := by
  induction tokens generalizing cen with
  | nil => exact applied cen
  | cons leaf up ih =>
      apply calls_bind (applied cen)
      intro _
      apply calls_bind (calls_readEntry cen)
      intro data
      cases data.parent with
      | none => trivial
      | some parent =>
          apply calls_bind (calls_perform trivial)
          intro cache
          split
          · exact ih parent
          · apply calls_bind (calls_lookup up)
            intro parent
            exact calls_bind (calls_modifyCache _) fun _ => ih parent

theorem calls_checkAccess (sctx : SContext) (cen : Nat) :
    Calls CacheOnly (checkAccess sctx cen) := by
  apply calls_bind (calls_readEntry cen)
  intro data
  exact calls_ite trivial trivial

theorem calls_delEntry (cen : Nat) : Calls CacheOnly (delEntry cen) :=
  calls_bind (calls_readEntry cen) fun _ => calls_modifyCache _

theorem calls_evict (fuel : Nat) : Calls CacheOnly (evict fuel) := by
  induction fuel with
  | zero => trivial
  | succ fuel ih =>
      apply calls_bind (calls_perform trivial)
      intro cache
      split
      · cases cache.queue with
        | nil => trivial
        | cons front rest => exact calls_bind (calls_delEntry _) fun _ => ih
      · trivial

/-- Finding the entry of a path. -/
theorem calls_locate (sctx : SContext) (tokens : List Bytes) :
    Calls CacheOnly (locate sctx tokens) := by
  refine calls_bind ?_ fun _ => ?_
  · unfold onlyIf
    split
    · exact calls_bind (calls_lookup _) fun cen =>
        calls_withPathFrom (calls_checkAccess sctx) cen _
    · trivial
  · apply calls_bind (calls_lookup tokens)
    intro cen
    apply calls_bind
      (calls_bind (calls_readEntry cen) fun _ => calls_modifyCache _ : Calls _ (promote cen))
    intro _
    apply calls_bind (calls_perform trivial)
    intro cache
    exact calls_bind (calls_evict _) fun _ => trivial

theorem calls_locked {α : Type} {body : FsProg α} (calls : Calls CacheOnly body) :
    Calls CacheOnly (locked body) := by
  apply calls_bind (calls_perform trivial)
  intro _
  refine calls_bind (calls_catching calls ?_) fun result => ?_
  · exact fun e => calls_bind (calls_perform trivial) fun _ => trivial
  · exact calls_bind (calls_perform trivial) fun _ => trivial

/-- `PathCache_hash` leaves the databases alone and returns nodes that exist. -/
theorem sound : PathCache_hash.Sound where
  calls_getnode sctx path := by
    apply calls_bind (calls_locked (calls_locate sctx _))
    intro cen
    exact calls_bind (calls_readEntry cen) fun data => calls_getnode reads _
  calls_invalidate path := by
    apply calls_locked
    apply calls_bind (calls_perform trivial)
    intro cache
    split
    · exact calls_delEntry _
    · trivial
  present sctx path world n found := by
    have unchanged :=
      withCache_exec (calls_locked (calls_locate sctx (tokenize path).reverse)) world
    simp only [PathCache_hash, PathCache_hash.getnode, exec_bind] at found
    rcases located : exec (locked (locate sctx (tokenize path).reverse)) world with
      ⟨outcome, after⟩
    rw [located] at found unchanged
    dsimp only at unchanged
    cases outcome with
    | error | fault => cases found
    | ok cen =>
        simp only [Outcome.andThen_ok, exec_readEntry] at found
        rcases entry : after.cache.heap[cen]? with _ | _ | data
        · simp [entry] at found
        · simp [entry] at found
        · simp only [entry, Outcome.andThen_ok, Node.exec_getnode] at found
          cases isNode : after.dbs.getnode data.nodeid with
          | error e => simp [isNode] at found
          | ok other =>
              obtain ⟨mode, _, rfl⟩ := Dbs.getnode_eq_ok_iff.mp isNode
              rw [isNode] at found
              cases found
              rw [unchanged] at isNode
              exact isNode

end PathCache_hash

end OfflineFs
