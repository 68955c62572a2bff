import OfflineFs.Changes.Namespaces

/-!
# Requests on normal paths

The path cache that keeps nothing looks a path up as it is written.  A request on normal
paths that returns 0 changes what these very paths lead to, and no other path.
-/

namespace OfflineFs

open OfflineFs.Effect OfflineFs.Effect.Program OfflineFs.Transition

/-! ## Looking up -/

section Looking

variable {dbs : Dbs} {sctx : SContext} {world : World} {names other : List Bytes} {n : NodeRef}
variable {d : UInt64} {name : Bytes} {first path : Bytes}

theorem PathCache_null.finds_iff :
    PathCache_null.Finds sctx world path n ↔ world.dbs.resolve sctx path = .ok n := by
  rw [PathCache.Finds]
  change (exec (PathCache_null.getnode sctx path) world).1 = .ok n ↔ _
  rw [PathCache_null.exec_getnode]
  cases world.dbs.resolve sctx path with
  | ok value => simp
  | error e => simp

theorem PathCache_null.findsNext_iff :
    PathCache_null.FindsNext sctx world first path n ↔ world.dbs.resolve sctx path = .ok n := by
  have unchanged : (exec (PathCache.getnode PathCache_null sctx first) world).2 = world :=
    congrArg Prod.snd (PathCache_null.exec_getnode sctx first world)
  rw [PathCache.FindsNext, unchanged, finds_iff]

/-- The superuser finds what a list of names leads to. -/
theorem Dbs.Hierarchy.resolve_iff (hierarchy : dbs.Hierarchy) (normal : Normal names) :
    dbs.resolve Dbs.superuser (pathOf names) = .ok n ↔ dbs.Leads names n := by
  constructor
  · exact hierarchy.tree.leads normal
  · intro leads
    rw [hierarchy.tree.resolve_eq normal.proper]
    induction names using List.reverseRecOn generalizing n with
    | nil =>
        cases leads
        rfl
    | append_singleton names name ih =>
        obtain ⟨middle, first, isDirectory, -, child⟩ := Dbs.leads_concat.mp leads
        apply foldlM_concat_eq_ok_iff.mpr
        exact ⟨middle, ih normal.left first,
          Dbs.look_eq_ok_iff.mpr ⟨Dbs.access_superuser, isDirectory, child⟩⟩

/-- A directory is found under its own names. -/
theorem Dbs.Hierarchy.names_eq (hierarchy : dbs.Hierarchy) (normal : Normal names)
    (found : dbs.resolve sctx (pathOf names) = .ok ⟨d, .directory⟩)
    (leads : dbs.Leads other ⟨d, .directory⟩) : other = names :=
  hierarchy.tree.unique rfl leads (hierarchy.tree.leads normal found)

theorem parentOf_pathOf (normal : Normal (names ++ [name])) :
    parentOf (pathOf (names ++ [name])) = pathOf names := by
  rw [parentOf, splitPath_pathOf normal.last.1.1 normal.last.1.2]

theorem Normal.leafOf (normal : Normal (names ++ [name])) :
    leafOf (pathOf (names ++ [name])) = name :=
  leafOf_pathOf normal.last.1.1 normal.last.1.2

theorem Normal.spelled (normal : Normal (names ++ [name])) :
    Spelled (pathOf (names ++ [name])) := by
  constructor
  · cases names with
    | nil => rfl
    | cons other names => rfl
  · rw [normal.leafOf]
    exact normal.last.1.1

end Looking

/-! ## Calls -/

/-- A call on normal paths that the kernel lets through. -/
inductive Call.Straight (space : Namespace Bytes NodeRef) : Call → Prop
  | mknod {ctx : Context} {front : List Bytes} {name : Bytes} {mode : UInt32} {dev : UInt64}
      (normal : Normal (front ++ [name])) (isFile : kindOfMode mode ≠ .directory) :
      Straight space (ctx, .mknod (pathOf (front ++ [name])) mode dev)
  | mkdir {ctx : Context} {front : List Bytes} {name : Bytes} {mode : UInt32}
      (normal : Normal (front ++ [name]))
      (isDirectory : kindOfMode (sIfdir ||| mode) = .directory) :
      Straight space (ctx, .mkdir (pathOf (front ++ [name])) mode)
  | symlink {ctx : Context} {target : Bytes} {front : List Bytes} {name : Bytes}
      (normal : Normal (front ++ [name])) :
      Straight space (ctx, .symlink target (pathOf (front ++ [name])))
  | link {ctx : Context} {source front : List Bytes} {name : Bytes} (sourceNormal : Normal source)
      (normal : Normal (front ++ [name])) (isFile : ∀ n, space source n → n.kind ≠ .directory) :
      Straight space (ctx, .link (pathOf source) (pathOf (front ++ [name])))
  | unlink {ctx : Context} {front : List Bytes} {name : Bytes} (normal : Normal (front ++ [name])) :
      Straight space (ctx, .unlink (pathOf (front ++ [name])))
  | rmdir {ctx : Context} {front : List Bytes} {name : Bytes} (normal : Normal (front ++ [name])) :
      Straight space (ctx, .rmdir (pathOf (front ++ [name])))
  | rename {ctx : Context} {os ns : List Bytes} {old new : Bytes} (oldNormal : Normal (os ++ [old]))
      (newNormal : Normal (ns ++ [new]))
      (beneath : os ++ [old] <+: ns ++ [new] → os ++ [old] = ns ++ [new]) :
      Straight space (ctx, .rename (pathOf (os ++ [old])) (pathOf (ns ++ [new])))
  | other {ctx : Context} {request : Request} (unnamed : request.Names = false)
      (free : ¬ (ctx.uid = 0 ∧ request.Reserved)) : Straight space (ctx, request)

/-- The change of a namespace that a request on normal paths asks for. -/
inductive Request.Asks (space after : Namespace Bytes NodeRef) : Request → Prop
  | mknod {front : List Bytes} {name : Bytes} {mode : UInt32} {dev d id : UInt64}
      (above : space front ⟨d, .directory⟩) (free : ∀ n, ¬ space (front ++ [name]) n)
      (fresh : ∀ n names, n.id = id → ¬ space names n)
      (bound : after = space.bound (front ++ [name]) ⟨id, kindOfMode mode⟩) :
      Asks space after (.mknod (pathOf (front ++ [name])) mode dev)
  | mkdir {front : List Bytes} {name : Bytes} {mode : UInt32} {d id : UInt64}
      (above : space front ⟨d, .directory⟩) (free : ∀ n, ¬ space (front ++ [name]) n)
      (fresh : ∀ n names, n.id = id → ¬ space names n)
      (bound : after = space.bound (front ++ [name]) ⟨id, .directory⟩) :
      Asks space after (.mkdir (pathOf (front ++ [name])) mode)
  | symlink {target : Bytes} {front : List Bytes} {name : Bytes} {d id : UInt64}
      (above : space front ⟨d, .directory⟩) (free : ∀ n, ¬ space (front ++ [name]) n)
      (fresh : ∀ n names, n.id = id → ¬ space names n)
      (bound : after = space.bound (front ++ [name]) ⟨id, .symlink⟩) :
      Asks space after (.symlink target (pathOf (front ++ [name])))
  | link {source front : List Bytes} {name : Bytes} {d : UInt64} {n : NodeRef}
      (found : space source n) (above : space front ⟨d, .directory⟩)
      (free : ∀ n, ¬ space (front ++ [name]) n) (bound : after = space.bound (front ++ [name]) n) :
      Asks space after (.link (pathOf source) (pathOf (front ++ [name])))
  | unlink {names : List Bytes} {n : NodeRef} (found : space names n)
      (isFile : n.kind ≠ .directory) (pruned : after = space.pruned names) :
      Asks space after (.unlink (pathOf names))
  | rmdir {names : List Bytes} {d : UInt64} (found : space names ⟨d, .directory⟩)
      (bare : space.Bare names) (pruned : after = space.pruned names) :
      Asks space after (.rmdir (pathOf names))
  | same {names : List Bytes} (kept : after = space) :
      Asks space after (.rename (pathOf names) (pathOf names))
  | rename {source front : List Bytes} {name : Bytes} {d : UInt64} {n : NodeRef}
      (found : space source n) (above : space front ⟨d, .directory⟩)
      (outside : ¬ source <+: front ++ [name]) (bare : space.Bare (front ++ [name]))
      (moved : after = space.moved source (front ++ [name])) :
      Asks space after (.rename (pathOf source) (pathOf (front ++ [name])))

/-- How a call on normal paths ends, as with any other paths but for the change that is made. -/
inductive Call.Answers (fs : FS) (world : World) (call : Call) :
    Outcome Err Int → Namespace Bytes NodeRef → Prop
  | done {after : Namespace Bytes NodeRef} (asks : call.2.Asks world.dbs.space after) :
      Answers fs world call (.ok 0) after
  | left {outcome : Outcome Err Int} (fails : call.2.Names = true → outcome ≠ .ok 0)
      (returns : ∀ stop, outcome = .fault stop → call.2.Halts fs world) :
      Answers fs world call outcome world.dbs.space

section Calls

variable {fs : FS} {world : World} {call : Call} {sctx : SContext}
variable {after : Namespace Bytes NodeRef}
variable (null : fs.pcache = PathCache_null) (hierarchy : world.dbs.Hierarchy)

include null hierarchy

/-- What is relied on of a request holds of one on normal paths. -/
theorem Call.Straight.sensible (straight : call.Straight world.dbs.space) :
    call.2.Sensible fs call.1 world := by
  cases straight with
  | mknod normal isFile => exact ⟨normal.spelled, isFile⟩
  | mkdir normal isDirectory => exact ⟨normal.spelled, isDirectory⟩
  | symlink normal => exact normal.spelled
  | link sourceNormal normal isFile =>
      refine ⟨normal.spelled, fun sctx n caller finds => ?_⟩
      rw [null, PathCache_null.findsNext_iff] at finds
      exact isFile n (hierarchy.tree.leads sourceNormal finds)
  | unlink normal => exact fun both => both.2
  | rmdir normal =>
      change IsName (leafOf _)
      rw [normal.leafOf]
      exact normal.last.2
  | @rename ctx os ns old new oldNormal newNormal beneath =>
      refine ⟨newNormal.spelled, ?_, ?_, fun sctx s d caller finds findsNew => ?_⟩
      · rw [oldNormal.leafOf]
        exact oldNormal.last.2
      · rw [newNormal.leafOf]
        exact newNormal.last.2
      · rw [null, PathCache_null.finds_iff, parentOf_pathOf oldNormal] at finds
        rw [null, PathCache_null.findsNext_iff, parentOf_pathOf newNormal] at findsNew
        rw [oldNormal.leafOf, newNormal.leafOf]
        have leadsOld := hierarchy.tree.leads oldNormal.left finds
        have leadsNew := hierarchy.tree.leads newNormal.left findsNew
        constructor
        · rintro rfl rfl
          rw [hierarchy.tree.unique rfl leadsOld leadsNew]
        · intro present free
          have apart : ¬ (s = d ∧ old = new) := by
            rintro ⟨rfl, rfl⟩
            exact present free
          refine ⟨apart, fun {front other} above aboveNew isPrefix => ?_⟩
          rw [hierarchy.names_eq oldNormal.left finds above,
            hierarchy.names_eq newNormal.left findsNew aboveNew] at isPrefix
          obtain ⟨sameFront, sameLast⟩ := List.append_inj' (beneath isPrefix) rfl
          subst sameFront
          have sameNode := hierarchy.formed.functional leadsOld leadsNew
          exact apart ⟨congrArg NodeRef.id sameNode, List.singleton_inj.mp sameLast⟩
  | other unnamed free =>
      rename_i request
      cases request <;> first | exact free | cases unnamed

/-- The change that is made is the one of the paths themselves. -/
theorem Request.Performs.asks (straight : call.Straight world.dbs.space)
    (performs : call.2.Performs fs sctx world after) : call.2.Asks world.dbs.space after := by
  have found : ∀ {names path other d}, Normal names → path = pathOf names →
      fs.pcache.Finds sctx world path ⟨d, .directory⟩ → world.dbs.Leads other ⟨d, .directory⟩ →
      other = names := by
    rintro names path other d normal rfl finds leads
    rw [null, PathCache_null.finds_iff] at finds
    exact hierarchy.names_eq normal finds leads
  have foundNext : ∀ {first names path other d}, Normal names → path = pathOf names →
      fs.pcache.FindsNext sctx world first path ⟨d, .directory⟩ →
      world.dbs.Leads other ⟨d, .directory⟩ → other = names := by
    rintro first names path other d normal rfl finds leads
    rw [null, PathCache_null.findsNext_iff] at finds
    exact hierarchy.names_eq normal finds leads
  cases straight with
  | mknod normal isFile =>
      cases performs with
      | mknod finds above isFile free fresh bound =>
          obtain rfl := found normal.left (parentOf_pathOf normal) finds above
          rw [normal.leafOf] at free bound
          exact .mknod above free fresh bound
  | mkdir normal isDirectory =>
      cases performs with
      | mkdir finds above free fresh bound =>
          obtain rfl := found normal.left (parentOf_pathOf normal) finds above
          rw [normal.leafOf] at free bound
          exact .mkdir above free fresh bound
  | symlink normal =>
      cases performs with
      | symlink finds above free fresh bound =>
          obtain rfl := found normal.left (parentOf_pathOf normal) finds above
          rw [normal.leafOf] at free bound
          exact .symlink above free fresh bound
  | link sourceNormal normal isFile =>
      cases performs with
      | link finds findsNode above _ _ free bound =>
          obtain rfl := found normal.left (parentOf_pathOf normal) finds above
          rw [normal.leafOf] at free bound
          rw [null, PathCache_null.findsNext_iff] at findsNode
          exact .link (hierarchy.tree.leads sourceNormal findsNode) above free bound
  | unlink normal =>
      cases performs with
      | unlink finds above leads isFile bare pruned =>
          obtain rfl := found normal.left (parentOf_pathOf normal) finds above
          rw [normal.leafOf] at leads pruned
          exact .unlink leads isFile pruned
  | rmdir normal =>
      cases performs with
      | rmdir finds above leads bare pruned =>
          obtain rfl := found normal.left (parentOf_pathOf normal) finds above
          rw [normal.leafOf] at leads bare pruned
          exact .rmdir leads bare pruned
  | @rename ctx os ns old new oldNormal newNormal beneath =>
      generalize isOld : pathOf (os ++ [old]) = oldpath at performs ⊢
      generalize isNew : pathOf (ns ++ [new]) = newpath at performs ⊢
      cases performs with
      | same kept =>
          rw [← isOld]
          exact .same kept
      | rename finds findsNew aboveOld aboveNew leads outside bare moved =>
          subst isOld isNew
          obtain rfl := found oldNormal.left (parentOf_pathOf oldNormal) finds aboveOld
          obtain rfl := foundNext newNormal.left (parentOf_pathOf newNormal) findsNew aboveNew
          rw [oldNormal.leafOf] at leads outside moved
          rw [newNormal.leafOf] at outside bare moved
          exact .rename leads aboveNew outside bare moved
  | other unnamed free =>
      cases performs <;> cases unnamed

theorem Call.Refines.answers (straight : call.Straight world.dbs.space) {outcome : Outcome Err Int}
    (refines : call.Refines fs world outcome after) : call.Answers fs world outcome after := by
  cases refines with
  | done caller performs => exact .done (performs.asks null hierarchy straight)
  | left fails returns => exact .left fails returns

end Calls

/-! ## Runs -/

/-- There is room for one more call, and it is on normal paths. -/
def World.Straight (world : World) (call : Call) : Prop :=
  world.dbs.Roomy ∧ call.Straight world.dbs.space

section Runs

variable {media : Db UInt32} {getuid getgid : UInt32} {clock : Nat → UInt64}
variable {reply : List SysEvent → SysCall → SysResult} {order : ByteOrder} {fs : FS} {world : World}

theorem PathCache.Steady.null (null : fs.pcache = PathCache_null) :
    fs.pcache.Steady fun _ => True := by
  rw [null]
  exact PathCache_null.steady

theorem World.Straight.prudent (null : fs.pcache = PathCache_null) (hierarchy : world.dbs.Hierarchy)
    {call : Call} (straight : world.Straight call) : world.Prudent fs call := by
  refine ⟨straight.1, straight.2.sensible null hierarchy, fun fragile => ?_⟩
  rw [null] at fragile
  exact absurd fragile PathCache_null.not_fragile

theorem World.hierarchy_straight (null : fs.pcache = PathCache_null)
    (reached : Reaches (World.after fs) World.Straight
      (.rebuilt media getuid getgid clock reply order) world) : world.dbs.Hierarchy := by
  have steady := PathCache.Steady.null null
  have orderly : world.Orderly fun _ => True := by
    apply reached.invariant (World.orderly_rebuilt steady)
    exact fun world call orderly straight =>
      (orderly.after steady (straight.prudent null orderly.hierarchy)).1
  exact orderly.hierarchy

/-- In a run of requests on normal paths without a path cache, the superuser finds exactly
what the names of a path lead to.  A request that changes names and returns 0 makes the
change that its paths ask for; after any other result every path leads to what it did. -/
theorem paths_exact (null : fs.pcache = PathCache_null)
    (reached : Reaches (World.after fs) World.Straight
      (.rebuilt media getuid getgid clock reply order) world) :
    (∀ names n, Normal names →
      ((exec (fs.pcache.getnode Dbs.superuser (pathOf names)) world).1 = .ok n ↔
        world.dbs.Leads names n)) ∧
      ∀ call, world.Straight call → call.Answers fs world
        (exec (call.2.prog fs call.1) world).1 (world.after fs call).dbs.space := by
  have hierarchy := World.hierarchy_straight null reached
  constructor
  · intro names n normal
    rw [null]
    exact PathCache_null.finds_iff.trans (hierarchy.resolve_iff normal)
  · intro call straight
    have orderly : world.Orderly fun _ => True := ⟨hierarchy, trivial⟩
    obtain ⟨-, refines⟩ := orderly.after (PathCache.Steady.null null)
      (straight.prudent null hierarchy)
    exact refines.answers null hierarchy straight.2

end Runs

/-! ### A directory that is moved with what is in it -/

/-- A mount that caches no paths. -/
def plainMount : FS :=
  { pcache := PathCache_null, defmedium := str "m", fuel := 16 }

/-- Two directories and a file in one of them are made. -/
def furnishing : List Call :=
  [(rootContext, .mkdir (pathOf ([] ++ [str "d"])) 0o755),
    (rootContext, .mkdir (pathOf ([] ++ [str "e"])) 0o755),
    (rootContext, .mknod (pathOf ([str "d"] ++ [str "f"])) 0o100644 0)]

/-- The directory with the file is moved into the other. -/
def nesting : Call :=
  (rootContext, .rename (pathOf ([] ++ [str "d"])) (pathOf ([str "e"] ++ [str "g"])))

/-- The world with two directories and a file. -/
def furnished : World :=
  furnishing.foldl (World.after plainMount) mountedWorld

set_option maxRecDepth 100000 in
theorem furnishing_meets :
    Meets (World.after plainMount) World.Straight mountedWorld furnishing := by
  refine .cons ⟨⟨?_, ?_⟩, ?_⟩ (.cons ⟨⟨?_, ?_⟩, ?_⟩ (.cons ⟨⟨?_, ?_⟩, ?_⟩ (.nil _)))
  · exact Db.idsLeft_of_keys (by decide +kernel)
  · exact Dbs.bounded_of_values (by decide +kernel)
  · exact .mkdir (by decide) (by decide)
  · exact Db.idsLeft_of_keys (by decide +kernel)
  · exact Dbs.bounded_of_values (by decide +kernel)
  · exact .mkdir (by decide) (by decide)
  · exact Db.idsLeft_of_keys (by decide +kernel)
  · exact Dbs.bounded_of_values (by decide +kernel)
  · exact .mknod (by decide) (by decide)

set_option maxRecDepth 100000 in
theorem nesting_straight : furnished.Straight nesting := by
  refine ⟨⟨?_, ?_⟩, ?_⟩
  · exact Db.idsLeft_of_keys (by decide +kernel)
  · exact Dbs.bounded_of_values (by decide +kernel)
  · exact .rename (by decide) (by decide) (by decide)

theorem paths_exact_nesting : nesting.Answers plainMount furnished
    (exec (nesting.2.prog plainMount nesting.1) furnished).1
    (furnished.after plainMount nesting).dbs.space :=
  (paths_exact rfl furnishing_meets.reaches).2 nesting nesting_straight

end OfflineFs
