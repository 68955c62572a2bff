import OfflineFs.Changes.Climbing

/-!
# What any request does to the hierarchy

Requests on attributes and data change no name, no class of a node and no count of links.
With that, every request has one of the outcomes that are said of it.
-/

namespace OfflineFs

open OfflineFs.Effect OfflineFs.Effect.Program

/-! ## Bits of the mode -/

/-- The class of a node is in the bits for the type. -/
theorem kindOfMode_congr {mode other : UInt32} (same : mode &&& sIfmt = other &&& sIfmt) :
    kindOfMode mode = kindOfMode other := by
  simp only [kindOfMode, sIsreg, sIsdir, sIslnk, decide_eq_true_eq, same]

theorem kindOfMode_chmod (mode old : UInt32) :
    kindOfMode ((mode &&& ~~~sIfmt) ||| (old &&& sIfmt)) = kindOfMode old :=
  kindOfMode_congr (keptType_chmod mode old)

theorem kindOfMode_clear {bit : UInt32} (disjoint : ~~~bit &&& sIfmt = sIfmt) (mode : UInt32) :
    kindOfMode (mode &&& ~~~bit) = kindOfMode mode :=
  kindOfMode_congr (cleared_and_of_disjoint disjoint mode)

/-! ## Harmless code -/

variable {α β : Type} {pc : PathCache} {valid : PathCacheState → Prop} {world : World}

/-- Wherever the code ends, the path cache is valid and nothing that counts has changed. -/
def Harmless (pc : PathCache) (valid : PathCacheState → Prop) (before : Dbs) (prog : FsProg α)
    (world : World) :
    Prop :=
  Settles pc valid before.Alike True (fun _ now => before.Alike now) (exec prog world)

variable {before : Dbs}

theorem harmless_pure {value : α} (cached : valid world.cache) (alike : before.Alike world.dbs) :
    Harmless pc valid before (Pure.pure value) world :=
  settles_pure cached alike

theorem harmless_bind {first : FsProg α} {next : α → FsProg β}
    (begins : Harmless pc valid before first world)
    (continues : ∀ value now, valid now.cache → before.Alike now.dbs →
      Harmless pc valid before (next value) now) :
    Harmless pc valid before (first >>= next) world :=
  settles_bind begins continues

/-- Code that only reads. -/
theorem harmless_reading {prog : FsProg α} (reads : Calls CacheOnly prog)
    (uncached : Calls Uncached prog) (cached : valid world.cache) (alike : before.Alike world.dbs) :
    Harmless pc valid before prog world := by
  have same := withCache_exec reads world
  have still := cache_exec uncached world
  unfold Harmless
  rcases result : exec prog world with ⟨outcome, after⟩
  rw [result] at same still
  change after = world.withCache after.cache at same
  have kept : valid after.cache := by
    rw [still]
    exact cached
  have unchanged : before.Alike after.dbs := by
    rw [same]
    exact alike
  cases outcome with
  | ok value => exact ⟨kept, unchanged⟩
  | error e => exact ⟨kept, unchanged⟩
  | fault stop => exact .inr ⟨kept, unchanged, trivial⟩

/-- The frame of a request. -/
theorem harmless_request {ctx : Context} {onError : Err → α} {body : SContext → FsProg α}
    (cached : valid world.cache)
    (harmless : ∀ sctx, ctx.sctx = some sctx → Harmless pc valid world.dbs (body sctx) world) :
    Harmless pc valid world.dbs (request ctx onError body) world := by
  unfold Harmless
  rw [exec_request]
  cases caller : ctx.sctx with
  | none => exact ⟨cached, .refl _⟩
  | some sctx =>
      have ended := harmless sctx caller
      unfold Harmless at ended
      simp only
      rcases result : exec (body sctx) world with ⟨outcome, after⟩
      rw [result] at ended
      cases outcome <;> exact ended

/-- Code that stores nothing but times, sizes and what ties a file to a chunk. -/
theorem alike_of_quiet {prog : FsProg α} (calls : Calls (Quiet placing) prog) (world : World) :
    world.dbs.Alike (exec prog world).2.dbs := by
  have counts : ∀ attr ∈ stamps ++ placing,
      attr.name ≠ Attr.mode.name ∧ attr.name ≠ Attr.nlink.name := by
    decide
  apply calls.run fsHandler (fun first last => first.dbs.Alike last.dbs) (fun _ => .refl _)
    fun first second => first.trans second
  intro γ effect state quiet
  cases effect with
  | put table id name value =>
      obtain ⟨rfl, ⟨attr, listed, rfl, -⟩ | ⟨attr, listed, rfl⟩⟩ := quiet
      · have other := counts attr (List.mem_append_left _ listed)
        exact .put other.1 other.2 value
      · have other := counts attr (List.mem_append_right _ listed)
        exact .put other.1 other.2 value
  | del => exact quiet.elim
  | _ => exact .refl _

/-! ## Attributes -/

section Attributes

variable {fs : FS} {ctx : Context} {sctx : SContext} {n : NodeRef}

/-- The mode of a node is replaced by one of the same type. -/
theorem harmless_setMode {mode : UInt32} {next : Unit → FsProg β} (cached : valid world.cache)
    (alike : before.Alike world.dbs) (isNode : before.getnode n.id = .ok n)
    (same : kindOfMode mode = n.kind)
    (continues : ∀ now, valid now.cache → before.Alike now.dbs →
      Harmless fs.pcache valid before (next ()) now) :
    Harmless fs.pcache valid before (Node.setattr n.id .mode mode >>= next) world := by
  apply settles_store cached
  intro now still sameNow
  apply continues now still
  rw [sameNow]
  apply alike.trans
  apply Dbs.Alike.setMode n.kind _ same
  rw [alike.getnode, isNode]

theorem harmless_getattr {T : Type} [HostInt T] {id : UInt64} {attr : Attr} {next : T → FsProg β}
    (cached : valid world.cache) (alike : before.Alike world.dbs)
    (continues : ∀ value, Harmless fs.pcache valid before (next value) world) :
    Harmless fs.pcache valid before (Node.getattr T id attr >>= next) world :=
  settles_attr cached alike fun value _ => continues value

theorem harmless_setattr {T : Type} [HostInt T] {id : UInt64} {attr : Attr} {value : T}
    {next : Unit → FsProg β} (cached : valid world.cache) (alike : before.Alike world.dbs)
    (notMode : attr ≠ .mode) (notLinks : attr ≠ .nlink)
    (continues : ∀ now, valid now.cache → before.Alike now.dbs →
      Harmless fs.pcache valid before (next ()) now) :
    Harmless fs.pcache valid before (Node.setattr id attr value >>= next) world :=
  settles_setattr cached notMode notLinks fun now still more =>
    continues now still (alike.trans more)

theorem harmless_setTime {id : UInt64} {attr : Attr} {next : Unit → FsProg β}
    (cached : valid world.cache) (alike : before.Alike world.dbs)
    (notMode : attr ≠ .mode) (notLinks : attr ≠ .nlink)
    (continues : ∀ now, valid now.cache → before.Alike now.dbs →
      Harmless fs.pcache valid before (next ()) now) :
    Harmless fs.pcache valid before (Node.setTime id attr >>= next) world :=
  settles_setTime cached notMode notLinks fun now still more =>
    continues now still (alike.trans more)

theorem harmless_invalidate (steady : fs.pcache.Steady valid) {path : Bytes} {value : α}
    (cached : valid world.cache) (alike : before.Alike world.dbs) :
    Harmless fs.pcache valid before
      (fs.pcache.invalidate path >>= fun _ => Pure.pure value) world :=
  settles_invalidate cached steady fun _ still same => settles_pure still (same ▸ alike)

/-- Clearing the bits changes no kind. -/
theorem harmless_clearSetid (cached : valid world.cache) (alike : before.Alike world.dbs)
    (isNode : before.getnode n.id = .ok n) :
    Harmless fs.pcache valid before (FS.clearSetid n) world := by
  apply settles_attr cached alike
  intro mode isMode
  have kind : n.kind = kindOfMode mode := by
    apply kind_of_attr _ isMode
    rw [alike.getnode, isNode]
  have clears : ∀ chosen, kindOfMode chosen = kindOfMode mode →
      Harmless fs.pcache valid before (Node.setattr n.id .mode chosen) world := by
    intro chosen same
    refine ⟨cached, alike.trans (.setMode n.kind ?_ (same.trans kind.symm))⟩
    rw [alike.getnode, isNode]
  split
  · apply clears
    split
    · rw [kindOfMode_clear (by decide), kindOfMode_clear (by decide)]
    · exact kindOfMode_clear (by decide) mode
  · exact harmless_pure cached alike

/-- Storing the owner changes no name and no count. -/
theorem harmless_chownOwner {owner : UInt32} (cached : valid world.cache)
    (alike : before.Alike world.dbs) :
    Harmless fs.pcache valid before (FS.chownOwner sctx n owner) world := by
  unfold FS.chownOwner
  split
  · apply harmless_getattr cached alike
    intro uid
    split
    · split
      · exact harmless_pure cached alike
      · apply harmless_setattr cached alike (by decide) (by decide)
        exact fun now still more => harmless_pure still more
    · exact harmless_pure cached alike
  · exact harmless_pure cached alike

/-- Storing the group changes no name and no count. -/
theorem harmless_chownGroup {group : UInt32} (cached : valid world.cache)
    (alike : before.Alike world.dbs) (isNode : before.getnode n.id = .ok n) :
    Harmless fs.pcache valid before (FS.chownGroup sctx n group) world := by
  have stores : ∀ now : World, valid now.cache → before.Alike now.dbs →
      Harmless fs.pcache valid before
        (Node.setattr n.id .gid group >>= fun _ => Pure.pure true) now := by
    intro now still more
    apply harmless_setattr still more (by decide) (by decide)
    exact fun last stillLast moreLast => harmless_pure stillLast moreLast
  unfold FS.chownGroup
  split
  · apply harmless_getattr cached alike
    intro gid
    split
    · split
      · apply harmless_getattr cached alike
        intro uid
        split
        · exact harmless_pure cached alike
        · apply harmless_bind (harmless_clearSetid cached alike isNode)
          exact fun _ now => stores now
      · exact stores world cached alike
    · exact harmless_pure cached alike
  · exact harmless_pure cached alike

/-- A reserved attribute is only left to the superuser. -/
theorem harmless_xattrDenied {name : Bytes} (cached : valid world.cache)
    (alike : before.Alike world.dbs) :
    Settles fs.pcache valid before.Alike True (fun denied now => before.Alike now ∧
        (¬ denied = true → reservedPrefix.isPrefixOf name = true → sctx.uid = 0))
      (exec (FS.xattrDenied sctx n name) world) := by
  unfold FS.xattrDenied
  split
  · split
    · exact settles_pure cached ⟨alike, fun allowed => absurd rfl allowed⟩
    · rename_i free
      apply settles_attr cached alike
      exact fun uid _ => settles_pure cached ⟨alike, fun _ reserved => absurd reserved free⟩
  · rename_i root
    exact settles_pure cached ⟨alike, fun _ _ => not_not.mp root⟩

theorem uncached_checkXattrFlags (n : NodeRef) (name : Bytes) (flags : Int) :
    Calls Uncached (FS.checkXattrFlags n name flags) := by
  have reads : Calls Uncached (Node.getattrv n.id name) :=
    calls_getattrv (fun _ _ _ => trivial) .nodes n.id name
  refine calls_ite (calls_pure _) (calls_ite ?_ (calls_ite ?_ (calls_pure _)))
  · apply calls_catching (calls_bind reads fun _ => calls_pure _)
    intro e
    cases e with
    | attrNotFound => exact calls_pure _
    | _ => exact calls_throw _
  · exact calls_bind reads fun _ => calls_pure _

/-- A name that is not reserved is neither that of the mode nor that of the count of links. -/
theorem not_counted_of_free {name : Bytes} (free : reservedPrefix.isPrefixOf name ≠ true) :
    name ≠ Attr.mode.name ∧ name ≠ Attr.nlink.name := by
  constructor
  · rintro rfl
    exact free Attr.mode.reservedPrefix_isPrefix
  · rintro rfl
    exact free Attr.nlink.reservedPrefix_isPrefix

theorem Context.sctx_uid (caller : ctx.sctx = some sctx) : sctx.uid = ctx.uid := by
  have known := ctx.caller_uid
  rw [Context.caller, caller] at known
  exact known

end Attributes

/-! ## Requests on attributes -/

section Requests

variable {fs : FS} {ctx : Context}
variable (steady : fs.pcache.Steady valid) (cached : valid world.cache)

include steady cached

/-- A request that looks a path up first. -/
theorem harmless_looking {onError : Err → α} {path : Bytes}
    {next : SContext → NodeRef → FsProg α}
    (continues : ∀ sctx n now, ctx.sctx = some sctx → valid now.cache → world.dbs.Alike now.dbs →
      world.dbs.getnode n.id = .ok n → Harmless fs.pcache valid world.dbs (next sctx n) now) :
    Harmless fs.pcache valid world.dbs (request ctx onError fun sctx => do
      let n ← fs.pcache.getnode sctx path
      next sctx n) world := by
  apply harmless_request cached
  intro sctx caller
  apply settles_getnode cached steady (.refl _)
  exact fun n now still same _ isNode => continues sctx n now caller still (same ▸ .refl _) isNode

/-- `chmod` keeps the type of a node. -/
theorem harmless_chmod {path : Bytes} {mode : UInt32} :
    Harmless fs.pcache valid world.dbs (fs.chmod ctx path mode) world := by
  apply harmless_looking steady cached
  intro sctx n found caller cachedFound alike isNode
  have chooses : Harmless fs.pcache valid world.dbs (
      if sctx.uid ≠ 0 then do
        let fgid ← Node.getattr UInt32 n.id .gid
        let fuid ← Node.getattr UInt32 n.id .uid
        if sctx.uid ≠ fuid then Pure.pure none
        else if fgid ∈ sctx.groups then Pure.pure (some mode)
        else Pure.pure (some (mode &&& ~~~sIsgid))
      else
        Pure.pure (some mode) : FsProg (Option UInt32)) found := by
    split
    · apply harmless_getattr cachedFound alike
      intro fgid
      apply harmless_getattr cachedFound alike
      intro fuid
      split
      · exact harmless_pure cachedFound alike
      · split
        · exact harmless_pure cachedFound alike
        · exact harmless_pure cachedFound alike
    · exact harmless_pure cachedFound alike
  apply harmless_bind chooses
  intro allowed now cachedNow alikeNow
  cases allowed with
  | none => exact harmless_pure cachedNow alikeNow
  | some chosen =>
      apply harmless_setTime cachedNow alikeNow (by decide) (by decide)
      intro stamped cachedStamped alikeStamped
      apply settles_attr cachedStamped alikeStamped
      intro old isOld
      have kind : n.kind = kindOfMode old := by
        apply kind_of_attr _ isOld
        rw [alikeStamped.getnode, isNode]
      apply harmless_setMode cachedStamped alikeStamped isNode
        ((kindOfMode_chmod chosen old).trans kind.symm)
      exact fun last cachedLast alikeLast => harmless_invalidate steady cachedLast alikeLast

/-- `chown` changes no name and no count. -/
theorem harmless_chown {path : Bytes} {owner group : UInt32} :
    Harmless fs.pcache valid world.dbs (fs.chown ctx path owner group) world := by
  apply harmless_looking steady cached
  intro sctx n found caller cachedFound alike isNode
  apply harmless_bind (harmless_chownOwner cachedFound alike)
  intro permitted now cachedNow alikeNow
  split
  · apply harmless_bind (harmless_chownGroup cachedNow alikeNow isNode)
    intro permittedToo last cachedLast alikeLast
    split
    · apply harmless_setTime cachedLast alikeLast (by decide) (by decide)
      exact fun stamped still more => harmless_invalidate steady still more
    · exact harmless_pure cachedLast alikeLast
  · exact harmless_pure cachedNow alikeNow

/-- Storing an attribute that is not reserved changes no name and no count. -/
theorem harmless_setxattr {path name value : Bytes} {flags : Int}
    (free : ¬ (ctx.uid = 0 ∧ reservedPrefix.isPrefixOf name = true)) :
    Harmless fs.pcache valid world.dbs (fs.setxattr ctx path name value flags) world := by
  apply harmless_looking steady cached
  intro sctx n found caller cachedFound alike isNode
  apply settles_bind (harmless_xattrDenied cachedFound alike)
  rintro denied now cachedNow ⟨alikeNow, root⟩
  split
  · exact harmless_pure cachedNow alikeNow
  · rename_i allowed
    have unreserved : reservedPrefix.isPrefixOf name ≠ true := by
      intro reserved
      exact free ⟨Context.sctx_uid caller ▸ root allowed reserved, reserved⟩
    apply harmless_setTime cachedNow alikeNow (by decide) (by decide)
    intro stamped cachedStamped alikeStamped
    apply harmless_bind (harmless_reading (Warrant.calls_checkXattrFlags n name flags)
      (uncached_checkXattrFlags n name flags) cachedStamped alikeStamped)
    intro refused last cachedLast alikeLast
    cases refused with
    | some code => exact harmless_pure cachedLast alikeLast
    | none =>
        apply settles_put cachedLast
        intro stored cachedStored same
        have alikeStored : world.dbs.Alike stored.dbs := by
          rw [same]
          exact alikeLast.trans
            (.put (not_counted_of_free unreserved).1 (not_counted_of_free unreserved).2 value)
        unfold onlyIf
        split
        · exact harmless_invalidate steady cachedStored alikeStored
        · exact harmless_pure cachedStored alikeStored

/-- Removing an attribute that is not reserved changes no name and no count. -/
theorem harmless_removexattr {path name : Bytes}
    (free : ¬ (ctx.uid = 0 ∧ reservedPrefix.isPrefixOf name = true)) :
    Harmless fs.pcache valid world.dbs (fs.removexattr ctx path name) world := by
  apply harmless_looking steady cached
  intro sctx n found caller cachedFound alike isNode
  apply settles_bind (harmless_xattrDenied cachedFound alike)
  rintro denied now cachedNow ⟨alikeNow, root⟩
  split
  · exact harmless_pure cachedNow alikeNow
  · rename_i allowed
    have unreserved : reservedPrefix.isPrefixOf name ≠ true := by
      intro reserved
      exact free ⟨Context.sctx_uid caller ▸ root allowed reserved, reserved⟩
    apply harmless_setTime cachedNow alikeNow (by decide) (by decide)
    intro stamped cachedStamped alikeStamped
    unfold Harmless
    rw [exec_bind, Register.exec_delattr]
    cases stamped.dbs.get .nodes n.id name with
    | none => exact ⟨cachedStamped, alikeStamped⟩
    | some value =>
        exact ⟨cachedStamped, alikeStamped.trans
          (.del (not_counted_of_free unreserved).1 (not_counted_of_free unreserved).2)⟩

/-- A request that stores nothing but times, sizes and what ties a file to a chunk. -/
theorem harmless_quietly {request : Request} (quietly : request.Quietly placing) :
    Harmless fs.pcache valid world.dbs (request.prog fs ctx) world := by
  have kept := steady.kept_quietly ctx quietly world cached
  have alike := alike_of_quiet (Request.calls_quiet steady.sound ctx quietly) world
  unfold Harmless
  rcases result : exec (request.prog fs ctx) world with ⟨outcome, after⟩
  rw [result] at kept alike
  rcases kept with ⟨stop, crashes, same⟩ | still
  · cases same
    exact .inl crashes
  · cases outcome with
    | ok code => exact ⟨still, alike⟩
    | error e => exact ⟨still, alike⟩
    | fault stop => exact .inr ⟨still, alike, trivial⟩

/-- When a request may never end: `rename` has too little fuel to climb every directory. -/
def Request.Halts (fs : FS) (world : World) (request : Request) : Prop :=
  request.Names = true → fs.fuel ≤ world.dbs.directories.size

/-- Every request ends as is said of it. -/
theorem Request.settles (hierarchy : world.dbs.Hierarchy) (roomy : world.dbs.Roomy)
    {request : Request} (sensible : request.Sensible fs ctx world) :
    Settles fs.pcache valid world.dbs.Alike (request.Halts fs world) (request.Outcome fs ctx world)
      (exec (request.prog fs ctx) world) := by
  have attributes : request.Names = false →
      Harmless fs.pcache valid world.dbs (request.prog fs ctx) world →
      Settles fs.pcache valid world.dbs.Alike (request.Halts fs world)
        (request.Outcome fs ctx world)
        (exec (request.prog fs ctx) world) := by
    intro unnamed harmless
    have notNames : request.Names ≠ true := by
      rw [unnamed]
      exact Bool.false_ne_true
    apply Settles.weaken harmless fun _ names => absurd names notNames
    exact fun code now alike => .left (fun names => absurd names notNames) alike
  cases request with
  | mknod path mode dev =>
      exact settles_mknod steady cached hierarchy roomy sensible.1 sensible.2
  | mkdir path mode => exact settles_mkdir steady cached hierarchy roomy sensible.1 sensible.2
  | symlink oldpath newpath => exact settles_symlink steady cached hierarchy roomy sensible
  | link oldpath newpath =>
      exact settles_link steady cached hierarchy roomy sensible.1 sensible.2
  | unlink path => exact settles_unlink steady cached hierarchy roomy
  | rmdir path => exact settles_rmdir steady cached hierarchy roomy sensible
  | rename oldpath newpath =>
      exact settles_rename steady cached hierarchy roomy (fun few _ => few) sensible.1 sensible.2.1
        sensible.2.2.1 sensible.2.2.2
  | chmod path mode => exact attributes rfl (harmless_chmod steady cached)
  | chown path owner group => exact attributes rfl (harmless_chown steady cached)
  | setxattr path name value flags =>
      exact attributes rfl (harmless_setxattr steady cached sensible)
  | removexattr path name => exact attributes rfl (harmless_removexattr steady cached sensible)
  | truncate path length =>
      exact attributes rfl (harmless_quietly steady cached (List.Subset.refl placing))
  | openFile path flags =>
      exact attributes rfl (harmless_quietly steady cached (List.Subset.refl placing))
  | _ => exact attributes rfl (harmless_quietly steady cached trivial)

end Requests

end OfflineFs
