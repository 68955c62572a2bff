import OfflineFs.Changes.Answers

/-!
# The namespace that requests change

What a request does to the lists of names that lead somewhere.  A name comes for a file or
a new directory, goes with what is at it, or moves with everything beneath it.
-/

namespace OfflineFs

open OfflineFs.Effect OfflineFs.Transition

namespace Dbs

/-- What lists of names lead to. -/
abbrev space (dbs : Dbs) : Namespace Bytes NodeRef :=
  dbs.Leads

variable {before middle after : Dbs} {s d : UInt64} {name old new : Bytes} {n m src dst : NodeRef}
variable {front os ns : List Bytes}

namespace Hierarchy

variable (hierarchy : before.Hierarchy)

include hierarchy

theorem not_leads_of_free (above : before.Leads front ⟨d, .directory⟩)
    (free : before.get .directories d name = none) (n : NodeRef) :
    ¬ before.Leads (front ++ [name]) n := by
  intro leads
  obtain ⟨e, leadsToo, edge⟩ := leads_concat.mp leads
  have stored := (edge_iff.mp edge).2.2.1
  rw [hierarchy.formed.functional leadsToo above, free] at stored
  cases stored

omit hierarchy in
theorem leads_of_child (above : before.Leads front ⟨d, .directory⟩) (isName : IsName name)
    (child : before.getchild d name = .ok n) : before.Leads (front ++ [name]) n :=
  leads_concat.mpr ⟨_, above, rfl, isName, child⟩

theorem bare_of_free (above : before.Leads front ⟨d, .directory⟩)
    (free : before.get .directories d name = none) :
    Namespace.Bare before.Leads (front ++ [name]) := by
  intro label n leads
  obtain ⟨e, leadsToo, -⟩ := leads_concat.mp leads
  exact hierarchy.not_leads_of_free above free e leadsToo

end Hierarchy

/-- What a name is moved over is gone when it arrives. -/
theorem Dropped.replaced (dropped : before.Dropped d new dst middle)
    (shifted : middle.Shifted s old d new src after) (ends : before.Ends s old d new)
    (hierarchy : before.Hierarchy) (aboveOld : before.Leads os ⟨s, .directory⟩)
    (aboveNew : before.Leads ns ⟨d, .directory⟩) :
    after.Hierarchy ∧ before.Leads (os ++ [old]) src ∧
      after.Leads = Namespace.moved before.Leads (os ++ [old]) (ns ++ [new]) := by
  have bare := dropped.bare_leads hierarchy aboveNew
  have outside := ends.outside aboveOld aboveNew
  have tidy := dropped.keeps hierarchy
  have source : before.Leads (os ++ [old]) src :=
    Hierarchy.leads_of_child aboveOld shifted.oldName (dropped.child_before shifted.child).2
  have leads := dropped.leads hierarchy aboveNew
  have stillOld : middle.Leads os ⟨s, .directory⟩ := by
    rw [leads]
    refine ⟨aboveOld, fun isPrefix => ?_⟩
    rw [hierarchy.formed.eq_of_bare bare aboveOld isPrefix] at source
    exact bare old src source
  have stillNew : middle.Leads ns ⟨d, .directory⟩ := by
    rw [leads]
    exact ⟨aboveNew, Namespace.not_prefix_of_concat ns new⟩
  refine ⟨shifted.keeps tidy stillOld stillNew outside, source, ?_⟩
  rw [shifted.leads tidy stillOld stillNew outside, leads,
    hierarchy.formed.moved_pruned bare outside]

end Dbs

namespace Request

/-- The change of the namespace that a request asks for.  The directories are those that the
path cache finds. -/
inductive Performs (fs : FS) (sctx : SContext) (world : World) (after : Namespace Bytes NodeRef) :
    Request → Prop
  | mknod {path : Bytes} {mode : UInt32} {dev d id : UInt64} {front : List Bytes}
      (finds : fs.pcache.Finds sctx world (parentOf path) ⟨d, .directory⟩)
      (above : world.dbs.Leads front ⟨d, .directory⟩) (isFile : kindOfMode mode ≠ .directory)
      (free : ∀ n, ¬ world.dbs.Leads (front ++ [leafOf path]) n)
      (fresh : ∀ n names, n.id = id → ¬ world.dbs.Leads names n)
      (bound : after = world.dbs.space.bound (front ++ [leafOf path]) ⟨id, kindOfMode mode⟩) :
      Performs fs sctx world after (.mknod path mode dev)
  | mkdir {path : Bytes} {mode : UInt32} {d id : UInt64} {front : List Bytes}
      (finds : fs.pcache.Finds sctx world (parentOf path) ⟨d, .directory⟩)
      (above : world.dbs.Leads front ⟨d, .directory⟩)
      (free : ∀ n, ¬ world.dbs.Leads (front ++ [leafOf path]) n)
      (fresh : ∀ n names, n.id = id → ¬ world.dbs.Leads names n)
      (bound : after = world.dbs.space.bound (front ++ [leafOf path]) ⟨id, .directory⟩) :
      Performs fs sctx world after (.mkdir path mode)
  | symlink {oldpath newpath : Bytes} {d id : UInt64} {front : List Bytes}
      (finds : fs.pcache.Finds sctx world (parentOf newpath) ⟨d, .directory⟩)
      (above : world.dbs.Leads front ⟨d, .directory⟩)
      (free : ∀ n, ¬ world.dbs.Leads (front ++ [leafOf newpath]) n)
      (fresh : ∀ n names, n.id = id → ¬ world.dbs.Leads names n)
      (bound : after = world.dbs.space.bound (front ++ [leafOf newpath]) ⟨id, .symlink⟩) :
      Performs fs sctx world after (.symlink oldpath newpath)
  | link {oldpath newpath : Bytes} {d : UInt64} {n : NodeRef} {front names : List Bytes}
      (finds : fs.pcache.Finds sctx world (parentOf newpath) ⟨d, .directory⟩)
      (findsNode : fs.pcache.FindsNext sctx world (parentOf newpath) oldpath n)
      (above : world.dbs.Leads front ⟨d, .directory⟩) (found : world.dbs.Leads names n)
      (isFile : n.kind ≠ .directory)
      (free : ∀ n, ¬ world.dbs.Leads (front ++ [leafOf newpath]) n)
      (bound : after = world.dbs.space.bound (front ++ [leafOf newpath]) n) :
      Performs fs sctx world after (.link oldpath newpath)
  | unlink {path : Bytes} {d : UInt64} {n : NodeRef} {front : List Bytes}
      (finds : fs.pcache.Finds sctx world (parentOf path) ⟨d, .directory⟩)
      (above : world.dbs.Leads front ⟨d, .directory⟩)
      (found : world.dbs.Leads (front ++ [leafOf path]) n) (isFile : n.kind ≠ .directory)
      (bare : world.dbs.space.Bare (front ++ [leafOf path]))
      (pruned : after = world.dbs.space.pruned (front ++ [leafOf path])) :
      Performs fs sctx world after (.unlink path)
  | rmdir {path : Bytes} {d c : UInt64} {front : List Bytes}
      (finds : fs.pcache.Finds sctx world (parentOf path) ⟨d, .directory⟩)
      (above : world.dbs.Leads front ⟨d, .directory⟩)
      (found : world.dbs.Leads (front ++ [leafOf path]) ⟨c, .directory⟩)
      (bare : world.dbs.space.Bare (front ++ [leafOf path]))
      (pruned : after = world.dbs.space.pruned (front ++ [leafOf path])) :
      Performs fs sctx world after (.rmdir path)
  | same {path : Bytes} (kept : after = world.dbs.Leads) :
      Performs fs sctx world after (.rename path path)
  | rename {oldpath newpath : Bytes} {s d : UInt64} {src : NodeRef} {os ns : List Bytes}
      (finds : fs.pcache.Finds sctx world (parentOf oldpath) ⟨s, .directory⟩)
      (findsNew : fs.pcache.FindsNext sctx world (parentOf oldpath) (parentOf newpath)
        ⟨d, .directory⟩)
      (aboveOld : world.dbs.Leads os ⟨s, .directory⟩)
      (aboveNew : world.dbs.Leads ns ⟨d, .directory⟩)
      (found : world.dbs.Leads (os ++ [leafOf oldpath]) src)
      (outside : ¬ os ++ [leafOf oldpath] <+: ns ++ [leafOf newpath])
      (bare : world.dbs.space.Bare (ns ++ [leafOf newpath]))
      (moved : after = world.dbs.space.moved (os ++ [leafOf oldpath]) (ns ++ [leafOf newpath])) :
      Performs fs sctx world after (.rename oldpath newpath)

variable {fs : FS} {sctx : SContext} {world : World} {after : Dbs} {request : Request}

/-- A change of one name keeps the hierarchy and changes the namespace as it was asked for. -/
theorem Reshapes.performs (reshapes : request.Reshapes fs sctx world after)
    (hierarchy : world.dbs.Hierarchy) (idsLeft : world.dbs.nodes.IdsLeft) :
    after.Hierarchy ∧ request.Performs fs sctx world after.space := by
  have fresh : ∀ n names, n.id = world.dbs.nodes.nextId → ¬ world.dbs.Leads names n := by
    intro n names isNew leads
    have isNode := hierarchy.getnode_of_leads leads
    rw [isNew] at isNode
    exact hierarchy.not_node_nextId idsLeft n isNode
  cases reshapes with
  | mknod finds gained =>
      obtain ⟨front, above⟩ := hierarchy.reached gained.directory
      exact ⟨gained.keeps hierarchy, .mknod finds above gained.isFile
        (hierarchy.not_leads_of_free above gained.free) fresh (gained.leads hierarchy above)⟩
  | mkdir finds founded =>
      obtain ⟨front, above⟩ := hierarchy.reached founded.directory
      exact ⟨founded.keeps hierarchy, .mkdir finds above
        (hierarchy.not_leads_of_free above founded.free) fresh (founded.leads hierarchy above)⟩
  | symlink finds gained =>
      obtain ⟨front, above⟩ := hierarchy.reached gained.directory
      exact ⟨gained.keeps hierarchy, .symlink finds above
        (hierarchy.not_leads_of_free above gained.free) fresh (gained.leads hierarchy above)⟩
  | link finds findsNode isNode gained =>
      obtain ⟨front, above⟩ := hierarchy.reached gained.directory
      obtain ⟨names, found⟩ := hierarchy.exists_leads isNode
      exact ⟨gained.keeps hierarchy, .link finds findsNode above found gained.isFile
        (hierarchy.not_leads_of_free above gained.free) (gained.leads hierarchy above)⟩
  | unlink finds isFile dropped =>
      obtain ⟨front, above⟩ := hierarchy.reached (dropped.directory hierarchy)
      exact ⟨dropped.keeps hierarchy, .unlink finds above
        (Dbs.Hierarchy.leads_of_child above dropped.isName dropped.child) isFile
        (dropped.bare_leads hierarchy above) (dropped.leads hierarchy above)⟩
  | rmdir finds dropped =>
      obtain ⟨front, above⟩ := hierarchy.reached (dropped.directory hierarchy)
      exact ⟨dropped.keeps hierarchy, .rmdir finds above
        (Dbs.Hierarchy.leads_of_child above dropped.isName dropped.child)
        (dropped.bare_leads hierarchy above) (dropped.leads hierarchy above)⟩
  | same alike => exact ⟨hierarchy.alike alike, .same alike.leads⟩
  | move finds findsNew ends shifted =>
      obtain ⟨os, aboveOld⟩ := hierarchy.reached (shifted.parent hierarchy)
      obtain ⟨ns, aboveNew⟩ := hierarchy.reached shifted.directory
      have outside := ends.outside aboveOld aboveNew
      exact ⟨shifted.keeps hierarchy aboveOld aboveNew outside, .rename finds findsNew aboveOld
        aboveNew (Dbs.Hierarchy.leads_of_child aboveOld shifted.oldName shifted.child) outside
        (hierarchy.bare_of_free aboveNew shifted.free)
        (shifted.leads hierarchy aboveOld aboveNew outside)⟩
  | replace finds findsNew ends dropped shifted =>
      obtain ⟨os, aboveOld⟩ := hierarchy.reached
        (hierarchy.directory_of_entry (Dbs.getchild_eq_ok_iff.mp
          (dropped.child_before shifted.child).2).1)
      obtain ⟨ns, aboveNew⟩ := hierarchy.reached (dropped.directory hierarchy)
      obtain ⟨keeps, found, leads⟩ := dropped.replaced shifted ends hierarchy aboveOld aboveNew
      exact ⟨keeps, .rename finds findsNew aboveOld aboveNew found (ends.outside aboveOld aboveNew)
        (dropped.bare_leads hierarchy aboveNew) leads⟩

/-- Every change that a request can ask for is one of a namespace. -/
theorem Performs.step {space : Namespace Bytes NodeRef}
    (performs : request.Performs fs sctx world space) :
    Namespace.Step (fun n : NodeRef => n.kind = .directory) world.dbs.space space := by
  cases performs with
  | mknod finds above isFile free fresh bound =>
      rw [bound]
      exact .bind above rfl free fun isDirectory => absurd isDirectory isFile
  | mkdir finds above free fresh bound =>
      rw [bound]
      exact .bind above rfl free fun _ names => fresh _ names rfl
  | symlink finds above free fresh bound =>
      rw [bound]
      exact .bind above rfl free fun isDirectory => NodeKind.noConfusion isDirectory
  | link finds findsNode above found isFile free bound =>
      rw [bound]
      exact .bind above rfl free fun isDirectory => absurd isDirectory isFile
  | unlink finds above found isFile bare pruned =>
      rw [pruned]
      exact .prune bare
  | rmdir finds above found bare pruned =>
      rw [pruned]
      exact .prune bare
  | same kept =>
      rw [kept]
      exact .keep
  | rename finds findsNew aboveOld aboveNew found outside bare moved =>
      rw [moved]
      exact .move found aboveNew rfl outside bare

end Request

end OfflineFs
