import Mathlib.Data.Nat.Digits.Lemmas
import OfflineFs.Caches.Paths
import OfflineFs.Changes.Undoing

/-!
# A file with many names

A count of links is stored with 32 bits and read as a signed number before a link is taken
away.  One directory can hold enough names of a file for the count to be negative then.
-/

namespace OfflineFs

open OfflineFs.Effect OfflineFs.Effect.Program OfflineFs.Transition

/-- A name of the crowd spells its number in binary. -/
def crowdName (k : Nat) : Bytes :=
  120 :: k.bits.map fun digit => if digit then 49 else 48

theorem crowdName_injective : Function.Injective crowdName := by
  intro first second same
  have spelled := (List.cons.injEq _ _ _ _ ▸ same).2
  have digits : Function.Injective fun digit : Bool => if digit then (49 : UInt8) else 48 := by
    rintro (_ | _) (_ | _) alike
    all_goals first | rfl | exact absurd alike (by decide)
  have bits : first.bits = second.bits := List.map_injective_iff.mpr digits spelled
  have spelling : Nat.digits 2 first = Nat.digits 2 second := by
    rw [Nat.digits_two_eq_bits, Nat.digits_two_eq_bits, bits]
  exact Nat.digits_inj_iff.mp spelling

theorem slash_notMem_crowdName (k : Nat) : slash ∉ crowdName k := by
  intro member
  rcases List.mem_cons.mp member with isFirst | inDigits
  · exact absurd isFirst (by decide)
  · obtain ⟨digit, -, isSlash⟩ := List.mem_map.mp inDigits
    cases digit <;> exact absurd isSlash (by decide)

/-- A path of one component names an entry of the root. -/
theorem splitPath_component {name : Bytes} (nonempty : name ≠ []) (plain : slash ∉ name) :
    splitPath (slash :: name) = ([], name) := by
  have ending : Ending ([] ++ slash :: name ++ []) [] name := .leaf plain nonempty nofun
  rw [List.append_nil, List.nil_append] at ending
  exact ending.splitPath

/-- The databases when the file has so many names beside its first. -/
structure Dbs.Crowded (k : Nat) (dbs : Dbs) : Prop where
  root : dbs.getnode 0 = .ok ⟨0, .directory⟩
  file : dbs.getnode 1 = .ok ⟨1, .file⟩
  first : dbs.get .directories 0 (str "f") = some (hostToDb (1 : UInt64))
  free : ∀ j, k ≤ j → dbs.get .directories 0 (crowdName j) = none
  counted : dbs.attr UInt32 1 .nlink = .ok (UInt32.ofNat (k + 1))
  idsLeft : dbs.nodes.IdsLeft

/-- No reserved attribute is named by the superuser, and there are ids left. -/
def World.Ordinary (world : World) (call : Call) : Prop :=
  ¬ (call.1.uid = 0 ∧ call.2.Reserved) ∧ world.dbs.nodes.IdsLeft

theorem PathCache_null.exec_field {sctx : SContext} {path : Bytes} {n : NodeRef} {world : World}
    (found : world.dbs.resolve sctx path = .ok n) :
    exec (PathCache.getnode PathCache_null sctx path) world = (.ok n, world) := by
  have looks := exec_getnode sctx path world
  rw [found] at looks
  exact looks

theorem Path.exec_resolve_null {sctx : SContext} {path : Bytes} {d : UInt64} {world : World}
    (parent : world.dbs.Parent sctx path d) :
    exec (Path.resolve PathCache_null sctx path) world =
      (.ok ⟨⟨d, .directory⟩, leafOf path⟩, world) := by
  simp only [resolve, exec_bind, PathCache_null.exec_field parent, Outcome.andThen_ok,
    Node.exec_cast, if_true, exec_pure]
  rfl

namespace FS

variable {fs : FS} {ctx : Context} {world : World} {path oldpath newpath : Bytes}
variable {sctx : SContext} {d : UInt64} {n : NodeRef} {nlink : UInt32}

/-- When `link` returns 0. -/
theorem link_returns (null : fs.pcache = PathCache_null) (caller : ctx.sctx = some sctx)
    (parent : world.dbs.Parent sctx newpath d) (granted : world.dbs.access d sctx wOk = .ok ())
    (found : world.dbs.resolve sctx oldpath = .ok n)
    (counted : world.dbs.attr UInt32 n.id .nlink = .ok nlink)
    (free : world.dbs.get .directories d (leafOf newpath) = none) :
    (exec (fs.link ctx oldpath newpath) world).1 = .ok 0 := by
  let stamped := world.tick.withDbs (world.dbs.setattr n.id .ctime world.now)
  have stillCounted : stamped.dbs.attr UInt32 n.id .nlink = .ok nlink := by
    rw [World.withDbs_dbs, Dbs.attr_setattr_of_ne _ (.inr (by decide)), counted]
  have stillFree : stamped.dbs.get .directories d (leafOf newpath) = none := by
    rw [World.withDbs_dbs, Dbs.get_directories_setattr, free]
  have adds := Directory.exec_addchild (d := ⟨d, .directory⟩) stillCounted stillFree
  simp only [link, exec_request, caller, null, exec_bind, Path.exec_resolve_null parent,
    Outcome.andThen_ok, Node.exec_access, granted, Outcome.ofExcept_ok,
    PathCache_null.exec_field found, Node.exec_setTime]
  rw [adds]
  rfl

/-- When `unlink` returns 0. -/
theorem unlink_returns (null : fs.pcache = PathCache_null) (caller : ctx.sctx = some sctx)
    (parent : world.dbs.Parent sctx path d)
    (granted : world.dbs.access d sctx (wOk ||| xOk) = .ok ())
    (child : world.dbs.getchild d (leafOf path) = .ok n)
    (allowed : world.dbs.checkStickyBit sctx d n.id = .ok ()) (other : n.kind ≠ .directory)
    (counted : world.dbs.attr UInt32 n.id .nlink = .ok nlink) :
    (exec (fs.unlink ctx path) world).1 = .ok 0 := by
  obtain ⟨mode, isMode, kind⟩ := Dbs.getnode_eq_ok_iff.mp (Dbs.getchild_ok_getnode child)
  have notDirectory : sIsdir mode = false := by
    by_contra isDirectory
    apply other
    rw [kind]
    exact kindOfMode_eq_directory_iff.mpr (Bool.not_eq_false _ ▸ isDirectory)
  let stamped := world.tick.withDbs (world.dbs.setattr n.id .ctime world.now)
  have stillChild : stamped.dbs.getchild d (leafOf path) = .ok n := by
    rw [World.withDbs_dbs, Dbs.getchild_setattr (by decide), child]
  have stillCounted : stamped.dbs.attr UInt32 n.id .nlink = .ok nlink := by
    rw [World.withDbs_dbs, Dbs.attr_setattr_of_ne _ (.inr (by decide)), counted]
  obtain ⟨after, deletes, -⟩ :=
    Directory.exec_delchild (d := ⟨d, .directory⟩) stillChild stillCounted
  have drops : exec (PathCache.invalidate PathCache_null path) world = (.ok (), world) := rfl
  simp only [unlink, exec_request, caller, null, exec_bind, Path.exec_resolve_null parent,
    Outcome.andThen_ok, Node.exec_access, granted, Outcome.ofExcept_ok, Directory.exec_getchild,
    child, exec_checkStickyBit, allowed, Node.exec_getattr, isMode, notDirectory,
    Bool.false_eq_true, if_false, drops, Node.exec_setTime]
  rw [deletes]
  rfl

end FS

/-! ## One name more -/

namespace Dbs.Crowded

variable {k : Nat} {dbs : Dbs} {world : World} {sctx : SContext}

/-- Without components a path leads to the root. -/
theorem parent (crowded : dbs.Crowded k) {name : Bytes} (nonempty : name ≠ [])
    (plain : slash ∉ name) : dbs.Parent sctx (slash :: name) 0 := by
  rw [Parent, splitPath_component nonempty plain, resolve, crowded.root]
  rfl

theorem child (crowded : dbs.Crowded k) : dbs.getchild 0 (str "f") = .ok ⟨1, .file⟩ :=
  getchild_eq_ok_iff.mpr ⟨crowded.first, crowded.file⟩

/-- The superuser finds the file at its first name. -/
theorem resolve (crowded : dbs.Crowded k) (root : sctx.uid = 0) :
    dbs.resolve sctx (str "/f") = .ok ⟨1, .file⟩ := by
  have tokens : tokenize (str "/f") = [str "f"] := by decide
  rw [Dbs.resolve, crowded.root, tokens]
  simp only [walk, access, root, if_true, crowded.child]

/-- One more link. -/
theorem linked (crowded : dbs.Crowded k) {after : Dbs}
    (linked : dbs.Linked 0 (crowdName k) ⟨1, .file⟩ (UInt32.ofNat (k + 1)) after) :
    after.Crowded (k + 1) where
  root := linked.grows.nodes _ _ crowded.root
  file := linked.grows.nodes _ _ crowded.file
  first := linked.grows.entries _ _ _ crowded.first
  free j later := by
    rw [linked.entries, if_neg, crowded.free j (Nat.le_of_succ_le later)]
    rintro ⟨-, same⟩
    have equal := crowdName_injective same
    omega
  counted := by
    rw [linked.counted, UInt32.add_comm]
    congr 1
    exact (UInt32.ofNat_add (k + 1) 1).symm
  idsLeft := by
    rintro ⟨id, name⟩ present isLast
    obtain rfl : id = UInt64.ofNat (2 ^ 64 - 1) := isLast
    have same : after.get .nodes (UInt64.ofNat (2 ^ 64 - 1)) name =
        dbs.get .nodes (UInt64.ofNat (2 ^ 64 - 1)) name := by
      apply linked.others
      rintro (⟨isRoot, -⟩ | ⟨isFile, -⟩)
      · exact absurd isRoot (by decide)
      · exact absurd isFile (by decide)
    exact crowded.idsLeft ⟨_, name⟩ (fun absent => present (same.trans absent)) rfl

end Dbs.Crowded

/-- The file, with one name. -/
def loneFile : World :=
  mountedWorld.after uncached (rootContext, .mknod (str "/f") 0o100644 0)

set_option maxRecDepth 100000 in
theorem crowded_loneFile : loneFile.dbs.Crowded 0 where
  root := by decide +kernel
  file := by decide +kernel
  first := by decide +kernel
  free j _ := by
    by_contra present
    obtain ⟨value, stored⟩ := Option.ne_none_iff_exists'.mp present
    have names : ∀ entry ∈ loneFile.dbs.directories.toList, entry.1.name.head? ≠ some 120 := by
      decide +kernel
    exact names _ (Std.ExtTreeMap.mem_toList_iff_getElem?_eq_some.mpr stored) rfl
  counted := by decide +kernel
  idsLeft := Db.idsLeft_of_keys (by decide +kernel)

/-- A name of the crowd for the file. -/
def crowdCall (k : Nat) : Call :=
  (rootContext, .link (str "/f") (slash :: crowdName k))

theorem crowdName_ne_nil (k : Nat) : crowdName k ≠ [] :=
  List.cons_ne_nil _ _

theorem leafOf_crowd (k : Nat) : leafOf (slash :: crowdName k) = crowdName k := by
  rw [leafOf, splitPath_component (crowdName_ne_nil k) (slash_notMem_crowdName k)]

/-- The superuser links the file once more. -/
theorem Dbs.Crowded.linking {k : Nat} {world : World} (crowded : world.dbs.Crowded k) :
    (exec ((crowdCall k).2.prog uncached rootContext) world).1 = .ok 0 ∧
      world.dbs.Linked 0 (crowdName k) ⟨1, .file⟩ (UInt32.ofNat (k + 1))
        (world.after uncached (crowdCall k)).dbs ∧
      (world.after uncached (crowdCall k)).dbs.Crowded (k + 1) := by
  have nonempty := crowdName_ne_nil k
  have plain := slash_notMem_crowdName k
  have free : world.dbs.get .directories 0 (leafOf (slash :: crowdName k)) = none := by
    rw [leafOf_crowd, crowded.free k (Nat.le_refl k)]
  have returns :
      (exec (uncached.link rootContext (str "/f") (slash :: crowdName k)) world).1 = .ok 0 :=
    FS.link_returns rfl rfl (crowded.parent nonempty plain) rfl (crowded.resolve rfl)
      crowded.counted free
  obtain ⟨sctx, d, n, nlink, caller, parent, found, counted, linked⟩ :=
    FS.link_succeeds rfl (Prod.ext returns rfl)
  cases caller
  rw [crowded.resolve rfl] at found
  cases found
  rw [crowded.counted] at counted
  cases counted
  obtain rfl := Undoing.parent_iff (crowded.parent nonempty plain) |>.mp parent
  rw [leafOf_crowd] at linked
  exact ⟨returns, linked, crowded.linked linked⟩

/-- The crowd can be of any size. -/
theorem exists_crowded (k : Nat) : ∃ world,
    Reaches (World.after uncached) World.Ordinary mountedWorld world ∧ world.dbs.Crowded k := by
  induction k with
  | zero =>
      have idsLeft : mountedWorld.dbs.nodes.IdsLeft := Db.idsLeft_of_keys (by decide +kernel)
      exact ⟨loneFile, .step _ .start ⟨fun both => both.2, idsLeft⟩, crowded_loneFile⟩
  | succ k ih =>
      obtain ⟨world, reached, crowded⟩ := ih
      exact ⟨_, .step (crowdCall k) reached ⟨fun both => both.2, crowded.idsLeft⟩,
        crowded.linking.2.2⟩

/-! ## A name too many -/

/-- Nothing keeps the superuser from removing a name. -/
theorem Dbs.checkStickyBit_root {dbs : Dbs} {sctx : SContext} {d id : UInt64} {n : NodeRef}
    (root : sctx.uid = 0) (isNode : dbs.getnode d = .ok n) :
    dbs.checkStickyBit sctx d id = .ok () := by
  obtain ⟨mode, isMode, -⟩ := getnode_eq_ok_iff.mp isNode
  simp only [checkStickyBit, isMode, root, ne_eq, not_true_eq_false, and_false, if_false]

/-- Removing the name that was added last. -/
theorem Dbs.Crowded.unlinking {k : Nat} {world : World} {before : Dbs}
    (linked : before.Linked 0 (crowdName k) ⟨1, .file⟩ (UInt32.ofNat (k + 1)) world.dbs)
    (more : world.dbs.Crowded (k + 1)) :
    (exec (uncached.unlink rootContext (slash :: crowdName k)) world).1 = .ok 0 := by
  have child : world.dbs.getchild 0 (leafOf (slash :: crowdName k)) = .ok ⟨1, .file⟩ := by
    rw [leafOf_crowd, Dbs.getchild_eq_ok_iff, linked.entries, if_pos ⟨rfl, rfl⟩]
    exact ⟨rfl, more.file⟩
  exact FS.unlink_returns rfl rfl (more.parent (crowdName_ne_nil k) (slash_notMem_crowdName k)) rfl
    child (Dbs.checkStickyBit_root rfl more.root) nofun more.counted

/-- The databases are not restored when the count of links is not positive. -/
theorem Dbs.Crowded.lost {k : Nat} {world after : World} {before : Dbs} (crowded : before.Crowded k)
    (linked : before.Linked 0 (crowdName k) ⟨1, .file⟩ (UInt32.ofNat (k + 1)) world.dbs)
    (removed : exec (uncached.unlink rootContext (slash :: crowdName k)) world = (.ok 0, after))
    (negative : UInt32.toCInt (UInt32.ofNat (k + 1)) ≤ 0) :
    ¬ (Undoing.link (str "/f")).Restores rootContext.caller (slash :: crowdName k) before
      after.dbs := by
  intro restores
  have isRoot : before.Parent rootContext.caller (slash :: crowdName k) 0 :=
    crowded.parent (crowdName_ne_nil k) (slash_notMem_crowdName k)
  obtain ⟨sctx, e, m, time, final, ctime, mtime, caller, again, -, loses, afterEq⟩ :=
    FS.unlink_succeeds rfl removed
  obtain rfl := linked.grows.parent isRoot again
  rw [leafOf_crowd] at loses
  rw [Undoing.restores_iff_returned restores.media
    (Undoing.dates_link_iff isRoot (crowded.resolve rfl)), afterEq] at restores
  have positive := (linked.returned_iff crowded.counted loses ctime mtime).mp restores
  omega

/-- One name more is added and removed, and the file is lost with it when its count is too
high. -/
theorem Dbs.Crowded.pair_lost {k : Nat} {world : World} (crowded : world.dbs.Crowded k)
    (negative : UInt32.toCInt (UInt32.ofNat (k + 1)) ≤ 0) :
    ∃ path middle after,
      exec (((Undoing.link (str "/f")).creates path).prog uncached rootContext) world =
        (.ok 0, middle) ∧
      exec (((Undoing.link (str "/f")).removes path).prog uncached rootContext) middle =
        (.ok 0, after) ∧
      ¬ (Undoing.link (str "/f")).Restores rootContext.caller path world.dbs after.dbs := by
  obtain ⟨returns, linked, more⟩ := crowded.linking
  rcases linksEq : exec ((crowdCall k).2.prog uncached rootContext) world with ⟨result, middle⟩
  have isMiddle : world.after uncached (crowdCall k) = middle := congrArg Prod.snd linksEq
  rw [linksEq] at returns
  rw [isMiddle] at linked more
  rcases unlinksEq : exec (uncached.unlink rootContext (slash :: crowdName k)) middle with
    ⟨final, after⟩
  have removes := more.unlinking linked
  rw [unlinksEq] at removes
  subst returns removes
  exact ⟨_, middle, after, linksEq, unlinksEq, crowded.lost linked unlinksEq negative⟩

theorem toCInt_crowd : UInt32.toCInt (UInt32.ofNat (2 ^ 31)) ≤ 0 := by
  decide

/-- After 2^31 names of a file one more can be added, and the file is gone when that one is
removed. -/
theorem Undoing.crowd_lost : ∃ world,
    Reaches (World.after uncached) World.Ordinary mountedWorld world ∧ world.dbs.nodes.IdsLeft ∧
      ∃ path middle after,
        exec (((link (str "/f")).creates path).prog uncached rootContext) world = (.ok 0, middle) ∧
        exec (((link (str "/f")).removes path).prog uncached rootContext) middle = (.ok 0, after) ∧
        ¬ (link (str "/f")).Restores rootContext.caller path world.dbs after.dbs := by
  obtain ⟨k, size⟩ : ∃ k, k + 1 = 2 ^ 31 := ⟨2 ^ 31 - 1, by decide⟩
  obtain ⟨world, reached, crowded⟩ := exists_crowded k
  exact ⟨world, reached, crowded.idsLeft, crowded.pair_lost (size ▸ toCInt_crowd)⟩

end OfflineFs
