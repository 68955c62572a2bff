import OfflineFs.Caches.Steady
import OfflineFs.Changes.Refusals
import OfflineFs.Changes.Withdrawing

/-!
# Running a request step by step

Where each operation leads to from a given world.  What is only looked at, stamped or
cached leaves the hierarchy; the operations that create, link and unlink have their own
rules.  An operation that may throw needs databases in which that does no harm.
-/

namespace OfflineFs

open OfflineFs.Effect OfflineFs.Effect.Program

variable {α β : Type} {pc : PathCache} {valid : PathCacheState → Prop} {base : Dbs → Prop}
variable {halts : Prop}

/-- A run leaves a valid path cache, and the databases as is said of the value that it
returns, or of a run that returns none.  It may stop on a fault if it is said so, or in the path
cache. -/
def Settles (pc : PathCache) (valid : PathCacheState → Prop) (base : Dbs → Prop) (halts : Prop)
    (post : α → Dbs → Prop) : Outcome Err α × World → Prop
  | (.ok value, world) => valid world.cache ∧ post value world.dbs
  | (.error _, world) => valid world.cache ∧ base world.dbs
  | (.fault stop, world) => pc.Crashes stop ∨ valid world.cache ∧ base world.dbs ∧ halts

variable {post : β → Dbs → Prop} {world : World}

theorem Settles.weaken {wider : Prop} {post next : α → Dbs → Prop}
    {result : Outcome Err α × World} (settles : Settles pc valid base halts post result)
    (stopped : halts → wider) (returned : ∀ value now, post value now → next value now) :
    Settles pc valid base wider next result := by
  rcases result with ⟨outcome, after⟩
  cases outcome with
  | ok value => exact ⟨settles.1, returned value _ settles.2⟩
  | error e => exact settles
  | fault stop =>
      rcases settles with crashes | ⟨cached, same, stops⟩
      · exact .inl crashes
      · exact .inr ⟨cached, same, stopped stops⟩

theorem settles_pure {value : β} (cached : valid world.cache) (holds : post value world.dbs) :
    Settles pc valid base halts post (exec (Pure.pure value) world) :=
  ⟨cached, holds⟩

theorem settles_bind {first : FsProg α} {next : α → FsProg β} {middle : α → Dbs → Prop}
    (begins : Settles pc valid base halts middle (exec first world))
    (continues : ∀ value now, valid now.cache → middle value now.dbs →
      Settles pc valid base halts post (exec (next value) now)) :
    Settles pc valid base halts post (exec (first >>= next) world) := by
  rw [exec_bind]
  rcases result : exec first world with ⟨outcome, after⟩
  rw [result] at begins
  cases outcome with
  | ok value => exact continues value after begins.1 begins.2
  | error e => exact begins
  | fault stop => exact begins

theorem settles_assoc {γ : Type} {first : FsProg γ} {next : γ → FsProg α} {last : α → FsProg β}
    (settles : Settles pc valid base halts post
      (exec (first >>= fun value => next value >>= last) world)) :
    Settles pc valid base halts post (exec (first >>= next >>= last) world) := by
  simp only [exec_bind] at settles ⊢
  rcases result : exec first world with ⟨outcome, after⟩
  rw [result] at settles
  cases outcome <;> exact settles

section Steps

variable (cached : valid world.cache)

include cached

/-! ## Looking -/

/-- What is only read may throw where that does no harm. -/
theorem settles_look {prog : FsProg α} {next : α → FsProg β} (read : Dbs → Except Err α)
    (reads : ∀ world, exec prog world = (.ofExcept (read world.dbs), world))
    (harmless : base world.dbs)
    (continues : ∀ value, read world.dbs = .ok value →
      Settles pc valid base halts post (exec (next value) world)) :
    Settles pc valid base halts post (exec (prog >>= next) world) := by
  rw [exec_bind, reads]
  cases result : read world.dbs with
  | ok value => exact continues value result
  | error e => exact ⟨cached, harmless⟩

omit cached in
theorem settles_known {prog : FsProg α} {next : α → FsProg β} {value : α}
    (read : Dbs → Except Err α)
    (reads : ∀ world, exec prog world = (.ofExcept (read world.dbs), world))
    (known : read world.dbs = .ok value)
    (continues : Settles pc valid base halts post (exec (next value) world)) :
    Settles pc valid base halts post (exec (prog >>= next) world) := by
  rw [exec_bind, reads, known]
  exact continues

theorem settles_access {n : NodeRef} {sctx : SContext} {mode : UInt32} {next : Unit → FsProg β}
    (harmless : base world.dbs)
    (continues : Settles pc valid base halts post (exec (next ()) world)) :
    Settles pc valid base halts post (exec (Node.access n sctx mode >>= next) world) :=
  settles_look cached (fun dbs => dbs.access n.id sctx mode) (Node.exec_access n sctx mode) harmless
    fun _ _ => continues

theorem settles_sticky {sctx : SContext} {parent n : NodeRef} {next : Unit → FsProg β}
    (harmless : base world.dbs)
    (continues : Settles pc valid base halts post (exec (next ()) world)) :
    Settles pc valid base halts post (exec (checkStickyBit sctx parent n >>= next) world) :=
  settles_look cached (fun dbs => dbs.checkStickyBit sctx parent.id n.id)
    (exec_checkStickyBit sctx parent n) harmless fun _ _ => continues

theorem settles_getchild {d : NodeRef} {name : Bytes} {next : NodeRef → FsProg β}
    (harmless : base world.dbs)
    (continues : ∀ n, world.dbs.getchild d.id name = .ok n →
      Settles pc valid base halts post (exec (next n) world)) :
    Settles pc valid base halts post (exec (Directory.getchild d name >>= next) world) :=
  settles_look cached (fun dbs => dbs.getchild d.id name) (Directory.exec_getchild d name) harmless
    continues

theorem settles_node {id : UInt64} {next : NodeRef → FsProg β} (harmless : base world.dbs)
    (continues : ∀ n, world.dbs.getnode id = .ok n →
      Settles pc valid base halts post (exec (next n) world)) :
    Settles pc valid base halts post (exec (Node.getnode id >>= next) world) :=
  settles_look cached (fun dbs => dbs.getnode id) (Node.exec_getnode id) harmless continues

theorem settles_attr {T : Type} [HostInt T] {id : UInt64} {attr : Attr} {next : T → FsProg β}
    (harmless : base world.dbs)
    (continues : ∀ value, world.dbs.attr T id attr = .ok value →
      Settles pc valid base halts post (exec (next value) world)) :
    Settles pc valid base halts post (exec (Node.getattr T id attr >>= next) world) :=
  settles_look cached (fun dbs => dbs.attr T id attr) (Node.exec_getattr T id attr) harmless
    continues

theorem settles_cast {target : NodeKind} {n : NodeRef} {next : NodeRef → FsProg β}
    (harmless : base world.dbs)
    (continues : n.kind = target → Settles pc valid base halts post (exec (next n) world)) :
    Settles pc valid base halts post (exec (Node.cast target n >>= next) world) := by
  rw [exec_bind, Node.exec_cast]
  split
  · rename_i isTarget
    exact continues isTarget
  · exact ⟨cached, harmless⟩

/-! ## The path cache -/

/-- A path is looked up, and the node found exists. -/
theorem settles_getnode (steady : pc.Steady valid) {sctx : SContext}
    {path : Bytes} {next : NodeRef → FsProg β} (harmless : base world.dbs)
    (continues : ∀ n now, valid now.cache → now.dbs = world.dbs →
      exec (pc.getnode sctx path) world = (.ok n, now) → world.dbs.getnode n.id = .ok n →
      Settles pc valid base halts post (exec (next n) now)) :
    Settles pc valid base halts post (exec (pc.getnode sctx path >>= next) world) := by
  obtain ⟨outcome, cache, result, present⟩ := steady.sound.getnode sctx path world
  have still := steady.getnode sctx path cached
  rw [result] at still
  rw [exec_bind, result]
  cases outcome with
  | ok n => exact continues n _ (still (ended_ok n)) rfl result (present n rfl)
  | error e => exact ⟨still (ended_error e), harmless⟩
  | fault stop => exact .inl (steady.crashes cached (congrArg Prod.fst result))

/-- The parent of a path is looked up, and is a directory. -/
theorem settles_resolve (steady : pc.Steady valid) {sctx : SContext}
    {path : Bytes} {next : Path → FsProg β} (harmless : base world.dbs)
    (continues : ∀ d now, valid now.cache → now.dbs = world.dbs →
      exec (pc.getnode sctx (splitPath path).1) world = (.ok ⟨d, .directory⟩, now) →
      world.dbs.getnode d = .ok ⟨d, .directory⟩ →
      Settles pc valid base halts post (exec (next ⟨⟨d, .directory⟩, leafOf path⟩) now)) :
    Settles pc valid base halts post (exec (Path.resolve pc sctx path >>= next) world) := by
  apply settles_assoc
  apply settles_getnode cached steady harmless
  intro n now still same found present
  apply settles_assoc
  apply settles_cast still (same ▸ harmless)
  intro isDirectory
  have isNode : n = ⟨n.id, .directory⟩ := by rw [← isDirectory]
  rw [isNode] at found present ⊢
  exact continues n.id now still same found present

theorem settles_invalidate (steady : pc.Steady valid) {path : Bytes}
    {next : Unit → FsProg β}
    (continues : ∀ now, valid now.cache → now.dbs = world.dbs →
      Settles pc valid base halts post (exec (next ()) now)) :
    Settles pc valid base halts post (exec (pc.invalidate path >>= next) world) := by
  obtain ⟨cache, still, result⟩ := steady.invalidate path cached
  rw [exec_bind, result]
  exact continues _ still rfl

/-! ## Attributes -/

theorem settles_put {id : UInt64} {name value : Bytes} {next : Unit → FsProg β}
    (continues : ∀ now, valid now.cache → now.dbs = world.dbs.put .nodes id name value →
      Settles pc valid base halts post (exec (next ()) now)) :
    Settles pc valid base halts post (exec (Node.setattrv id name value >>= next) world) :=
  continues (world.withDbs (world.dbs.put .nodes id name value)) cached rfl

theorem settles_store {T : Type} [HostInt T] {id : UInt64} {attr : Attr} {value : T}
    {next : Unit → FsProg β}
    (continues : ∀ now, valid now.cache → now.dbs = world.dbs.setattr id attr value →
      Settles pc valid base halts post (exec (next ()) now)) :
    Settles pc valid base halts post (exec (Node.setattr id attr value >>= next) world) :=
  continues (world.withDbs (world.dbs.setattr id attr value)) cached rfl

/-- An attribute is stored that is neither the mode nor the count of links. -/
theorem settles_setattr {T : Type} [HostInt T] {id : UInt64} {attr : Attr} {value : T}
    {next : Unit → FsProg β} (notMode : attr ≠ .mode) (notLinks : attr ≠ .nlink)
    (continues : ∀ now, valid now.cache → world.dbs.Alike now.dbs →
      Settles pc valid base halts post (exec (next ()) now)) :
    Settles pc valid base halts post (exec (Node.setattr id attr value >>= next) world) := by
  apply settles_store cached
  intro now still same
  apply continues now still
  rw [same]
  exact .setattr notMode notLinks value

theorem settles_setTime {id : UInt64} {attr : Attr} {next : Unit → FsProg β}
    (notMode : attr ≠ .mode) (notLinks : attr ≠ .nlink)
    (continues : ∀ now, valid now.cache → world.dbs.Alike now.dbs →
      Settles pc valid base halts post (exec (next ()) now)) :
    Settles pc valid base halts post (exec (Node.setTime id attr >>= next) world) := by
  let ticked : World := { world with ticks := world.ticks + 1 }
  have cachedTicked : valid ticked.cache := cached
  exact settles_setattr cachedTicked notMode notLinks continues

theorem settles_touchParent {parent : NodeRef} {next : Unit → FsProg β}
    (continues : ∀ now, valid now.cache → world.dbs.Alike now.dbs →
      Settles pc valid base halts post (exec (next ()) now)) :
    Settles pc valid base halts post (exec (touchParent parent >>= next) world) := by
  apply settles_assoc
  apply settles_setTime cached (by decide) (by decide)
  intro first stillFirst alike
  apply settles_setTime stillFirst (by decide) (by decide)
  intro second stillSecond alikeToo
  exact continues second stillSecond (alike.trans alikeToo)

/-! ## Entries -/

/-- A node that is linked gets an entry, unless its name is taken. -/
theorem settles_addchild {d n : NodeRef} {name : Bytes} {next : Unit → FsProg β}
    (alive : 0 < world.dbs.links n.id) (small : world.dbs.links n.id < 2 ^ 31)
    (taken : world.dbs.get .directories d.id name ≠ none → base world.dbs)
    (continues : ∀ now, valid now.cache → world.dbs.Joined d.id name n.id now.dbs →
      Settles pc valid base halts post (exec (next ()) now)) :
    Settles pc valid base halts post (exec (Directory.addchild d name n >>= next) world) := by
  obtain ⟨nlink, counted, links⟩ := Dbs.exists_attr_of_links alive
  have still := cache_exec (uncached_addchild d name n) world
  rw [exec_bind]
  cases stored : world.dbs.get .directories d.id name with
  | none =>
      rw [Directory.exec_addchild counted stored]
      exact continues _ cached (Dbs.joined_entered stored counted small)
  | some value =>
      obtain ⟨after, result, afterEq⟩ := Directory.exec_addchild_exists counted stored
      have positive : ¬ UInt32.toCInt nlink ≤ 0 := by
        unfold UInt32.toCInt
        rw [if_pos (by omega)]
        omega
      rw [if_neg positive] at afterEq
      rw [result] at still ⊢
      refine ⟨?_, ?_⟩
      · rw [still]
        exact cached
      · rw [afterEq]
        exact taken (by rw [stored]; exact Option.some_ne_none value)

/-- A child loses an entry.  A directory that goes with it has no entries, but possibly
that one. -/
theorem settles_delchild {d n : NodeRef} {name : Bytes} {next : Unit → FsProg β}
    (child : world.dbs.getchild d.id name = .ok n)
    (balanced : world.dbs.Balanced) (small : world.dbs.refs n.id ≤ 2 ^ 31)
    (clean : n.kind = .directory → world.dbs.refs n.id = 1 →
      ∀ leaf, ¬ (n.id = d.id ∧ leaf = name) → world.dbs.get .directories n.id leaf = none)
    (continues : ∀ now, valid now.cache → world.dbs.Parted d.id name n.id now.dbs →
      Settles pc valid base halts post (exec (next ()) now)) :
    Settles pc valid base halts post (exec (Directory.delchild d name >>= next) world) := by
  have alive : 0 < world.dbs.links n.id := by
    rw [balanced]
    exact Dbs.refs_pos_of_entry (Dbs.getchild_eq_ok_iff.mp child).1
  obtain ⟨nlink, counted, -⟩ := Dbs.exists_attr_of_links alive
  have still := cache_exec (uncached_delchild d name) world
  obtain ⟨after, result, afterEq⟩ := Directory.exec_delchild child counted
  rw [result] at still
  rw [exec_bind, result]
  apply continues
  · rw [still]
    exact cached
  · have loses : world.dbs.Loses d.id name n after.dbs := ⟨nlink, child, counted, afterEq⟩
    exact loses.parted (balanced n.id) small clean

end Steps

/-! ## Creating -/

/-- Creating a node of any class. -/
theorem Scope.Builds.create {scope : Scope} (builds : scope.Builds) (kind : NodeKind) :
    Calls scope.Allows kind.create := by
  cases kind with
  | node => exact builds.node_create
  | file =>
      apply calls_bind builds.node_create
      intro base
      exact calls_bind (builds.setattr base.id (by decide) _) fun _ => trivial
  | symlink => exact builds.symlink_create
  | directory => exact builds.directory_create

/-- A node is created at a free name, or nothing has changed. -/
theorem settles_create {p : Path} {sctx : SContext} (kind : NodeKind) {next : NodeRef → FsProg β}
    (cached : valid world.cache) (idsLeft : world.dbs.nodes.IdsLeft)
    (owned : world.dbs.DirectoriesOfNodes) (harmless : base world.dbs)
    (continues : ∀ now, valid now.cache → Offimport.Entered world.dbs p kind now.dbs →
      Settles pc valid base halts post (exec (next ⟨world.dbs.nodes.nextId, kind⟩) now)) :
    Settles pc valid base halts post (exec (p.create sctx kind.create >>= next) world) := by
  have absent := Dbs.get_nextId idsLeft owned
  have builds := Scope.serving_builds
  have still := cache_exec (uncached_serving (builds.path_create p sctx (builds.create kind))) world
  obtain ⟨made, atime, mtime, ctime, creates, madeEq⟩ :=
    kind.makesClass.makes world fun _ => absent .directories _
  have counted : made.dbs.attr UInt32 world.dbs.nodes.nextId .nlink = .ok (Dbs.ownLinks kind) := by
    rw [madeEq, Dbs.attr_nlink_made]
  rw [exec_bind]
  rcases @Path.exec_create_cases p sctx _ _ _ _ _ creates counted with
    ⟨_, refused⟩ | ⟨after, taken, afterEq⟩ | ⟨free, enters⟩
  · rw [refused]
    exact ⟨cached, harmless⟩
  · rw [taken] at still ⊢
    refine ⟨?_, ?_⟩
    · rw [still]
      exact cached
    · rw [afterEq, madeEq, Dbs.removed_made, Dbs.removed_of_absent absent]
      exact harmless
  · rw [enters] at still ⊢
    apply continues
    · rw [still]
      exact cached
    · rw [madeEq] at free
      exact ⟨fun _ => absent .directories _, atime, mtime, ctime, free, by
        rw [World.withDbs_dbs, madeEq]⟩

end OfflineFs
