import OfflineFs.Changes.Aliases
import OfflineFs.Changes.Trees

/-!
# What a successful rename has done

A rename that returns zero between different paths ran its six link and unlink steps to the
end.  In a tree each step but two finds its node again later, so that node has not been
removed.
-/

namespace OfflineFs

open OfflineFs.Effect OfflineFs.Effect.Program

/-! ## The steps -/

namespace Dbs

/-- The destination is free, or was a file or an empty directory and lost its name. -/
inductive Cleared (d : UInt64) (leaf : Bytes) : Option NodeRef → Dbs → Dbs → Prop
  | free (dbs : Dbs) : Cleared d leaf none dbs dbs
  | file {before after : Dbs} {dst last : NodeRef} (time : UInt64) (isFile : dst.kind ≠ .directory)
      (loses : (before.setattr dst.id .ctime time).Loses d leaf last after) :
      Cleared d leaf (some dst) before after
  | directory {before one two after : Dbs} {dst own up last : NodeRef} (time : UInt64)
      (isDirectory : dst.kind = .directory) (few : (before.directories.attrs dst.id).length ≤ 2)
      (loses : before.Loses dst.id (str ".") own one)
      (losesUp : one.Loses dst.id (str "..") up two)
      (losesLast : (two.setattr dst.id .ctime time).Loses d leaf last after) :
      Cleared d leaf (some dst) before after

/-- The entry `..` of a directory was moved to another. -/
inductive Turned (id d : UInt64) : Dbs → Dbs → Prop
  | file {dbs : Dbs} {n : NodeRef} (isNode : dbs.getnode id = .ok n)
    (isFile : n.kind ≠ .directory) :
      Turned id d dbs dbs
  | directory {before middle : Dbs} {up : NodeRef} {nlink : UInt32}
      (isNode : before.getnode id = .ok ⟨id, .directory⟩)
      (loses : before.Loses id (str "..") up middle)
      (counted : middle.attr UInt32 d .nlink = .ok nlink)
      (absent : middle.get .directories id (str "..") = none) :
      Turned id d before (middle.entered id (str "..") d nlink)

/-- The steps of `rename` after its checks, one after another. -/
def Relinked (s : UInt64) (old : Bytes) (d : UInt64) (new : Bytes) (src : NodeRef)
    (dst : Option NodeRef) (before after : Dbs) : Prop :=
  ∃ cleared turned moved last nlink, ∃ time sctime smtime dctime dmtime : UInt64,
    Cleared d new dst before cleared ∧ Turned src.id d cleared turned ∧
    (turned.setattr src.id .ctime time).attr UInt32 src.id .nlink = .ok nlink ∧
    ((turned.setattr src.id .ctime time).entered d new src.id nlink).Loses s old last moved ∧
    after = (moved.touched s sctime smtime).touched d dctime dmtime

end Dbs

/-! ## Running them -/

theorem getnode_succeeds {id : UInt64} {n : NodeRef} {world after : World}
    (looks : exec (Node.getnode id) world = (.ok n, after)) :
    world.dbs.getnode id = .ok n ∧ world = after := by
  rw [Node.exec_getnode] at looks
  exact ofExcept_succeeds looks

theorem findchild_succeeds {d : NodeRef} {name : Bytes} {found : Option NodeRef}
    {world after : World} (looks : exec (FS.findchild d name) world = (.ok found, after)) :
    Warrant.destination world.dbs d.id name = .ok found ∧ world = after := by
  rw [Warrant.exec_findchild] at looks
  exact ofExcept_succeeds looks

/-- Climbing the tree only reads. -/
theorem climbMeets_succeeds {srcid : UInt64} {fuel : Nat} {n : NodeRef} {meets : Bool}
    {world after : World} (climbs : exec (FS.climbMeets srcid fuel n) world = (.ok meets, after)) :
    world = after := by
  induction fuel generalizing n with
  | zero => cases climbs
  | succ fuel ih =>
      unfold FS.climbMeets at climbs
      split at climbs
      · cases climbs
        rfl
      · split at climbs
        · cases climbs
          rfl
        · simp only [exec_bind, Outcome.andThen_eq_ok_iff] at climbs
          obtain ⟨up, looked, looks, d, cast, casts, climbs⟩ := climbs
          obtain ⟨-, rfl⟩ := getchild_succeeds looks
          obtain ⟨-, -, rfl⟩ := cast_succeeds casts
          exact ih climbs

/-- The class of a node is told by the mode that is read. -/
theorem kind_of_attr {dbs : Dbs} {n : NodeRef} {mode : UInt32} (isNode : dbs.getnode n.id = .ok n)
    (read : dbs.attr UInt32 n.id .mode = .ok mode) : n.kind = kindOfMode mode := by
  obtain ⟨stored, isStored, same⟩ := Dbs.getnode_eq_ok_iff.mp isNode
  rw [read] at isStored
  cases isStored
  rw [same]

namespace FS

variable {fs : FS} {ctx : Context} {sctx : SContext} {world after : World}
variable {oldpath newpath : Bytes} {s d : NodeRef} {src dst : NodeRef} {leaf : Bytes}

/-- A destination that did not end the request is a file or an empty directory. -/
theorem clearDestination_succeeds (srcNode : world.dbs.getnode src.id = .ok src)
    (dstNode : world.dbs.getnode dst.id = .ok dst)
    (clears : exec (fs.clearDestination d src dst) world = (.ok none, after)) :
    src.kind ≠ .directory ∧ dst.kind ≠ .directory ∧ world = after ∨
      src.kind = .directory ∧ dst.kind = .directory ∧
        (world.dbs.directories.attrs dst.id).length ≤ 2 ∧
        ∃ own one up, world.dbs.Loses dst.id (str ".") own one ∧
          one.Loses dst.id (str "..") up after.dbs := by
  unfold clearDestination at clears
  simp only [exec_bind, Outcome.andThen_eq_ok_iff] at clears
  obtain ⟨srcMode, readSrc, readsSrc, dstMode, readDst, readsDst, clears⟩ := clears
  obtain ⟨isSrcMode, rfl⟩ := getattr_succeeds readsSrc
  obtain ⟨isDstMode, rfl⟩ := getattr_succeeds readsDst
  have srcKind := kind_of_attr srcNode isSrcMode
  have dstKind := kind_of_attr dstNode isDstMode
  split at clears
  · rename_i srcDirectory
    split at clears
    · cases clears
    · rename_i dstDirectory
      rw [not_not] at dstDirectory
      simp only [exec_bind, Outcome.andThen_eq_ok_iff] at clears
      obtain ⟨node, looked, looks, n, cast, casts, meets, climbed, climbs, clears⟩ := clears
      obtain ⟨-, rfl⟩ := getnode_succeeds looks
      obtain ⟨-, -, rfl⟩ := cast_succeeds casts
      obtain rfl := climbMeets_succeeds climbs
      split at clears
      · cases clears
      · simp only [exec_bind, Outcome.andThen_eq_ok_iff] at clears
        obtain ⟨node, looked, looks, e, cast, casts, count, counted, counts, clears⟩ := clears
        obtain ⟨isNode, rfl⟩ := getnode_succeeds looks
        obtain ⟨-, rfl, rfl⟩ := cast_succeeds casts
        rw [dstNode] at isNode
        cases isNode
        cases counts
        split at clears
        · cases clears
        · rename_i few
          simp only [exec_bind, Outcome.andThen_eq_ok_iff] at clears
          obtain ⟨⟨⟩, one, deletesOwn, ⟨⟩, two, deletesUp, ends⟩ := clears
          cases ends
          obtain ⟨own, loses⟩ := Directory.delchild_succeeds deletesOwn
          obtain ⟨up, losesUp⟩ := Directory.delchild_succeeds deletesUp
          exact .inr ⟨srcKind.trans (kindOfMode_eq_directory_iff.mpr srcDirectory),
            dstKind.trans (kindOfMode_eq_directory_iff.mpr dstDirectory),
            Nat.le_of_not_lt few, own, one.dbs, up, loses, losesUp⟩
  · rename_i srcOther
    split at clears
    · cases clears
    · rename_i dstOther
      cases clears
      exact .inl ⟨fun same => srcOther (kindOfMode_eq_directory_iff.mp (srcKind.symm.trans same)),
        fun same => dstOther (kindOfMode_eq_directory_iff.mp (dstKind.symm.trans same)), rfl⟩

/-- What `rename` does to the destination when it goes on. -/
theorem removeDestination_succeeds (null : fs.pcache = PathCache_null) {found : Option NodeRef}
    (srcNode : world.dbs.getnode src.id = .ok src)
    (dstNode : ∀ dst, found = some dst → world.dbs.getnode dst.id = .ok dst)
    (removes : exec (fs.removeDestination sctx newpath ⟨d, leaf⟩ src found) world =
      (.ok none, after)) :
    world.dbs.Cleared d.id leaf found after.dbs ∧
      ∀ dst, found = some dst → (src.kind = .directory ↔ dst.kind = .directory) := by
  cases found with
  | none =>
      cases removes
      exact ⟨.free _, nofun⟩
  | some dst =>
      unfold removeDestination at removes
      simp only [exec_bind, Outcome.andThen_eq_ok_iff] at removes
      obtain ⟨⟨⟩, checked, checks, code, cleared, clears, removes⟩ := removes
      obtain rfl := checkStickyBit_succeeds checks
      cases code with
      | some code => cases removes
      | none =>
          simp only [null, exec_bind, Outcome.andThen_eq_ok_iff] at removes
          obtain ⟨⟨⟩, dropped, ⟨⟩, ⟨⟩, stamped, stamps, ⟨⟩, removed, deletes, ends⟩ := removes
          cases ends
          obtain ⟨time, stampedEq⟩ := setTime_succeeds stamps
          obtain ⟨last, loses⟩ := Directory.delchild_succeeds deletes
          rw [stampedEq] at loses
          rcases clearDestination_succeeds srcNode (dstNode dst rfl) clears with
            ⟨srcFile, dstFile, rfl⟩ |
            ⟨srcDirectory, dstDirectory, few, own, one, up, losesOwn, losesUp⟩
          · refine ⟨.file time dstFile loses, ?_⟩
            rintro _ ⟨⟩
            exact iff_of_false srcFile dstFile
          · refine ⟨.directory time dstDirectory few losesOwn losesUp loses, ?_⟩
            rintro _ ⟨⟩
            exact iff_of_true srcDirectory dstDirectory

/-- What `rename` does to the own entries of a directory. -/
theorem moveDotDot_succeeds (moves : exec (moveDotDot src d) world = (.ok (), after)) :
    Dbs.Turned src.id d.id world.dbs after.dbs := by
  unfold moveDotDot at moves
  simp only [exec_bind, Outcome.andThen_eq_ok_iff] at moves
  obtain ⟨mode, read, reads, moves⟩ := moves
  obtain ⟨isMode, rfl⟩ := getattr_succeeds reads
  have isNode : world.dbs.getnode src.id = .ok ⟨src.id, kindOfMode mode⟩ :=
    Dbs.getnode_eq_ok_iff.mpr ⟨mode, isMode, rfl⟩
  split at moves
  · rename_i isDirectory
    rw [kindOfMode_eq_directory_iff.mpr isDirectory] at isNode
    simp only [exec_bind, Outcome.andThen_eq_ok_iff] at moves
    obtain ⟨⟨⟩, middle, deletes, adds⟩ := moves
    obtain ⟨up, loses⟩ := Directory.delchild_succeeds deletes
    obtain ⟨nlink, counted, absent, afterEq⟩ := Directory.addchild_succeeds adds
    rw [afterEq]
    exact .directory isNode loses counted absent
  · rename_i other
    cases moves
    exact .file isNode fun same => other (kindOfMode_eq_directory_iff.mp same)

/-- What `rename` does when it returns 0. -/
theorem rename_succeeds (null : fs.pcache = PathCache_null) (apart : oldpath ≠ newpath)
    (succeeds : exec (fs.rename ctx oldpath newpath) world = (.ok 0, after)) :
    ∃ sctx s d src dst, ctx.sctx = some sctx ∧ world.dbs.Parent sctx oldpath s ∧
      world.dbs.Parent sctx newpath d ∧ world.dbs.getchild s (leafOf oldpath) = .ok src ∧
      Warrant.destination world.dbs d (leafOf newpath) = .ok dst ∧
      (∀ r, dst = some r → (src.kind = .directory ↔ r.kind = .directory)) ∧
      (world.dbs.access s sctx xOk = .ok () ∧ world.dbs.access d sctx xOk = .ok ()) ∧
      Dbs.Relinked s (leafOf oldpath) d (leafOf newpath) src dst world.dbs after.dbs := by
  rw [rename_eq] at succeeds
  obtain ⟨sctx, final, caller, runs, same⟩ := request_succeeds succeeds
  simp only [null, exec_bind, Outcome.andThen_eq_ok_iff] at runs
  obtain ⟨srcpath, begun, findsSrc, dstpath, found, findsDst, src, looked, looksSrc, dst, again,
    looksDst, runs⟩ := runs
  obtain ⟨s, rfl, srcParent, rfl⟩ := Path.resolve_succeeds findsSrc
  obtain ⟨d, rfl, dstParent, rfl⟩ := Path.resolve_succeeds findsDst
  obtain ⟨srcChild, rfl⟩ := getchild_succeeds looksSrc
  obtain ⟨dstChild, rfl⟩ := findchild_succeeds looksDst
  rw [if_neg fun both => apart both.2] at runs
  unfold relink at runs
  simp only [exec_bind, Outcome.andThen_eq_ok_iff] at runs
  obtain ⟨⟨⟩, granted, grants, ⟨⟩, grantedDst, grantsDst, ⟨⟩, checked, checks, code, cleared,
    removes, runs⟩ := runs
  have granted := access_granted grants
  obtain rfl := access_succeeds grants
  have grantedDst := access_granted grantsDst
  obtain rfl := access_succeeds grantsDst
  rw [UInt32.or_comm, Dbs.access_wxOk_iff] at granted grantedDst
  obtain rfl := checkStickyBit_succeeds checks
  have isError := ((ends_removeDestination sctx _ src dst).run fsHandler _).1 code
    (congrArg Prod.fst removes)
  cases code with
  | some code =>
      cases runs
      exact absurd rfl isError
  | none =>
      simp only [null, exec_bind, Outcome.andThen_eq_ok_iff] at runs
      obtain ⟨⟨⟩, turned, moves, ⟨⟩, _, ⟨⟩, ⟨⟩, stamped, stamps, ⟨⟩, entered, adds, ⟨⟩, moved,
        deletes, ⟨⟩, srcTouched, touchesSrc, ⟨⟩, dstTouched, touchesDst, ends⟩ := runs
      cases ends
      obtain ⟨clears, kinds⟩ := removeDestination_succeeds null (Dbs.getchild_ok_getnode srcChild)
        (fun r isDst => Dbs.getchild_ok_getnode
          (Warrant.destination_eq_some (isDst ▸ dstChild))) removes
      obtain ⟨time, stampedEq⟩ := setTime_succeeds stamps
      obtain ⟨nlink, counted, -, enteredEq⟩ := Directory.addchild_succeeds adds
      obtain ⟨last, loses⟩ := Directory.delchild_succeeds deletes
      obtain ⟨sctime, smtime, srcEq⟩ := touchParent_succeeds touchesSrc
      obtain ⟨dctime, dmtime, dstEq⟩ := touchParent_succeeds touchesDst
      rw [stampedEq] at counted
      rw [enteredEq, stampedEq] at loses
      refine ⟨sctx, s, d, src, dst, caller, srcParent, dstParent, srcChild, dstChild, kinds,
        ⟨granted.2, grantedDst.2⟩, cleared.dbs, turned.dbs, moved.dbs, last, nlink,
        time, sctime, smtime, dctime, dmtime,
        clears, moveDotDot_succeeds moves, counted, loses, ?_⟩
      rw [same, dstEq, srcEq]

end FS

/-! ## What a step can change -/

namespace Dbs

/-- An attribute that relinking does not write. -/
def Lasting (name : Bytes) : Prop :=
  name ≠ Attr.ctime.name ∧ name ≠ Attr.mtime.name ∧ name ≠ Attr.nlink.name

/-- Entries changed only at the sites and in directories that are gone, and attributes that
last only of nodes that are gone. -/
structure Alters (sites : UInt64 → Bytes → Prop) (gone : UInt64 → Prop) (before after : Dbs) :
    Prop where
  entries : ∀ dir name, ¬ sites dir name → ¬ gone dir →
    after.get .directories dir name = before.get .directories dir name
  nodes : ∀ id name, Lasting name → ¬ gone id →
    after.get .nodes id name = before.get .nodes id name

namespace Alters

variable {sites : UInt64 → Bytes → Prop} {gone : UInt64 → Prop} {before middle after dbs : Dbs}
variable {id d : UInt64} {name : Bytes} {n : NodeRef} {nlink : UInt32}

theorem refl (sites : UInt64 → Bytes → Prop) (gone : UInt64 → Prop) (dbs : Dbs) :
    Alters sites gone dbs dbs where
  entries _ _ _ _ := rfl
  nodes _ _ _ _ := rfl

theorem trans (first : Alters sites gone before middle) (second : Alters sites gone middle after) :
    Alters sites gone before after where
  entries dir name off stays :=
    (second.entries dir name off stays).trans (first.entries dir name off stays)
  nodes id name lasting stays :=
    (second.nodes id name lasting stays).trans (first.nodes id name lasting stays)

theorem mono {inner : UInt64 → Bytes → Prop} {fewer : UInt64 → Prop}
    (alters : Alters inner fewer before after)
    (within : ∀ dir name, inner dir name → sites dir name)
    (also : ∀ id, fewer id → gone id) : Alters sites gone before after where
  entries dir name off stays :=
    alters.entries dir name (fun inside => off (within dir name inside))
      fun inside => stays (also dir inside)
  nodes id name lasting stays := alters.nodes id name lasting fun inside => stays (also id inside)

theorem setattr {T : Type} [HostInt T] {attr : Attr} (written : ¬ Lasting attr.name) (value : T) :
    Alters sites gone dbs (dbs.setattr id attr value) where
  entries dir name _ _ := get_directories_setattr dbs id attr value dir name
  nodes other read lasting _ := by
    apply get_put_of_ne
    apply Or.inr
    rintro rfl
    exact written lasting

theorem entered (site : sites d name) : Alters sites gone dbs (dbs.entered d name id nlink) where
  entries dir leaf off _ := by
    rw [get_directories_entered, if_neg]
    rintro ⟨rfl, rfl⟩
    exact off site
  nodes other read lasting _ := by
    rw [Dbs.entered, get_nodes_put_directories, Dbs.setattr,
      get_put_of_ne (.inr lasting.2.2.symm)]

theorem touched (ctime mtime : UInt64) : Alters sites gone dbs (dbs.touched d ctime mtime) :=
  (setattr (fun lasting => lasting.1 rfl) ctime).trans
    (setattr (fun lasting => lasting.2.1 rfl) mtime)

/-- An entry goes, and its node with the last one. -/
theorem left (site : sites d name) (lasts : UInt32.toCInt (nlink - 1) ≤ 0 → gone n.id) :
    Alters sites gone dbs (dbs.left d name n nlink) where
  entries dir leaf off stays := by
    have apart : dir ≠ d ∨ leaf ≠ name := by
      by_contra same
      rw [not_or, not_not, not_not] at same
      exact off (same.1 ▸ same.2 ▸ site)
    by_cases last : UInt32.toCInt (nlink - 1) ≤ 0
    · rw [get_left_of_last last, if_neg, get_directories_del_of_ne apart]
      rintro ⟨rfl, -⟩
      exact stays (lasts last)
    · rw [get_left_of_more last, if_neg nofun, get_directories_del_of_ne apart]
  nodes id read lasting stays := by
    by_cases last : UInt32.toCInt (nlink - 1) ≤ 0
    · rw [get_left_of_last last, if_neg, get_nodes_del]
      rintro ⟨rfl, -⟩
      exact stays (lasts last)
    · rw [get_left_of_more last, if_neg fun same => lasting.2.2 same.2.2.symm, get_nodes_del]

theorem getnode (alters : Alters sites gone before after) (stays : ¬ gone id) :
    after.getnode id = before.getnode id :=
  getnode_congr (alters.nodes id _ ⟨by decide, by decide, by decide⟩ stays)

end Alters

/-! ## The steps in a tree -/

/-- Where two names are in a tree, and what they are for. -/
structure Located (before : Dbs) (s : UInt64) (old : Bytes) (d : UInt64) (new : Bytes)
    (src : NodeRef) (dst : Option NodeRef) : Prop where
  srcDirectory : before.getnode s = .ok ⟨s, .directory⟩
  dstDirectory : before.getnode d = .ok ⟨d, .directory⟩
  srcChild : before.getchild s old = .ok src
  dstChild : ∀ r, dst = some r → before.getchild d new = .ok r
  oldName : IsName old
  newName : IsName new
  apart : ¬ (s = d ∧ old = new)
  kinds : ∀ r, dst = some r → (src.kind = .directory ↔ r.kind = .directory)
  srcApart : src.id ≠ s ∧ src.id ≠ d
  dstApart : ∀ r, dst = some r → r.id ≠ s ∧ r.id ≠ d

/-- The entries that change where the destination gives way. -/
def Yields (d : UInt64) (new : Bytes) (dst : Option NodeRef) (dir : UInt64) (name : Bytes) : Prop :=
  (dir = d ∧ name = new) ∨ (¬ IsName name ∧ ∃ r, dst = some r ∧ dir = r.id)

/-- The entries that change before the old one goes. -/
def Arrivals (d : UInt64) (new : Bytes) (src : NodeRef) (dst : Option NodeRef) (dir : UInt64)
    (name : Bytes) : Prop :=
  Yields d new dst dir name ∨ (¬ IsName name ∧ dir = src.id)

/-- The node that gives way is removed with a count of links that is not positive then. -/
def GivesWay (before : Dbs) (src : NodeRef) (dst : Option NodeRef) (id : UInt64) : Prop :=
  ∃ r nlink, dst = some r ∧ r ≠ src ∧ id = r.id ∧ before.attr UInt32 r.id .nlink = .ok nlink ∧
    UInt32.toCInt (nlink - 1 - ownLinks r.kind) ≤ 0

/-- The node that is moved is removed when its count of links was not positive. -/
def FallsOut (before : Dbs) (src : NodeRef) (dst : Option NodeRef) (id : UInt64) : Prop :=
  id = src.id ∧ dst ≠ some src ∧
    ∃ nlink, before.attr UInt32 src.id .nlink = .ok nlink ∧ UInt32.toCInt nlink ≤ 0

/-- What relinking did in a tree. -/
structure Moved (before : Dbs) (s : UInt64) (old : Bytes) (d : UInt64) (new : Bytes)
    (src : NodeRef) (dst : Option NodeRef) (after : Dbs) : Prop where
  arrives : after.get .directories d new = some (hostToDb src.id)
  leaves : after.get .directories s old = none
  up : src.kind = .directory → ¬ before.FallsOut src dst src.id →
    after.get .directories src.id (str "..") = some (hostToDb d)
  alters : Alters (fun dir name => Arrivals d new src dst dir name ∨ (dir = s ∧ name = old))
    (fun id => before.GivesWay src dst id ∨ before.FallsOut src dst id) before after
  absent : ∀ id, before.GivesWay src dst id ∨ before.FallsOut src dst id →
    ∀ name, after.get .nodes id name = none
  origin : ∀ dir name value, after.get .directories dir name = some value →
    (dir = d ∧ name = new) ∨ (src.kind = .directory ∧ dir = src.id ∧ name = str "..") ∨
      before.get .directories dir name = some value ∧
        ∀ r, dst = some r → r.kind = .directory → ¬ (dir = r.id ∧ name = str ".")

variable {before cleared turned after dbs : Dbs} {s d id : UInt64} {old new name : Bytes}
variable {src r n m : NodeRef} {dst : Option NodeRef} {nlink : UInt32}

theorem Loses.eq_left (loses : dbs.Loses d name m after)
    (entry : dbs.get .directories d name = some (hostToDb n.id)) (isNode : dbs.getnode n.id = .ok n)
    (counted : dbs.attr UInt32 n.id .nlink = .ok nlink) : after = dbs.left d name n nlink := by
  have sameId := loses.names entry
  have same := loses.getnode
  rw [sameId, isNode] at same
  cases same
  exact loses.eq counted

theorem Loses.present (loses : before.Loses d name n after) :
    before.get .directories d name ≠ none := by
  rw [(getchild_eq_ok_iff.mp loses.getchild).1]
  exact Option.some_ne_none _

theorem Loses.counted (loses : before.Loses d name n after) :
    ∃ nlink, before.attr UInt32 n.id .nlink = .ok nlink := by
  obtain ⟨nlink, -, counted, -⟩ := loses
  exact ⟨nlink, counted⟩

/-- The entries are some of those that there were. -/
def Fewer (before after : Dbs) : Prop :=
  ∀ dir name value, after.get .directories dir name = some value →
    before.get .directories dir name = some value

theorem Fewer.trans {middle : Dbs} (first : Fewer before middle) (second : Fewer middle after) :
    Fewer before after :=
  fun dir name value stored => first dir name value (second dir name value stored)

theorem Fewer.absent (fewer : Fewer before after) {dir : UInt64}
    (absent : before.get .directories dir name = none) :
    after.get .directories dir name = none := by
  by_contra present
  obtain ⟨value, stored⟩ := Option.ne_none_iff_exists'.mp present
  rw [fewer dir name value stored] at absent
  cases absent

theorem fewer_setattr {T : Type} [HostInt T] {attr : Attr} {stored : T} :
    Fewer dbs (dbs.setattr id attr stored) := by
  intro dir name value still
  rwa [get_directories_setattr] at still

theorem Loses.fewer (loses : before.Loses d name n after) : Fewer before after := by
  obtain ⟨nlink, -, -, rfl⟩ := loses
  intro dir leaf value stored
  have still := get_directories_unlinked_eq_some stored
  rw [get_del] at still
  split at still
  · cases still
  · exact still

theorem Loses.absent (loses : before.Loses d name n after) :
    after.get .directories d name = none := by
  obtain ⟨nlink, -, -, rfl⟩ := loses
  exact get_left_self

/-- An entry went, and its node has one link less. -/
structure Slipped (d : UInt64) (name : Bytes) (id : UInt64) (nlink : UInt32) (before after : Dbs) :
    Prop where
  entries : ∀ dir leaf, dir ≠ d ∨ leaf ≠ name →
    after.get .directories dir leaf = before.get .directories dir leaf
  others : Spares (fun other read => other = id ∧ read = Attr.nlink.name) before after
  counted : after.attr UInt32 id .nlink = .ok (nlink - 1)

theorem Slipped.alters {sites : UInt64 → Bytes → Prop}
    (slipped : Slipped d name id nlink before after)
    (site : sites d name) (gone : UInt64 → Prop) : Alters sites gone before after where
  entries dir leaf off _ := by
    apply slipped.entries
    by_contra same
    rw [not_or, not_not, not_not] at same
    exact off (same.1 ▸ same.2 ▸ site)
  nodes other read lasting _ := slipped.others other read fun same => lasting.2.2 same.2

theorem Slipped.getnode (slipped : Slipped d name id nlink before after) (other : UInt64) :
    after.getnode other = before.getnode other :=
  getnode_congr (slipped.others other _ fun same => absurd same.2 (by decide))

/-- A directory that has an entry after it lost a link was not removed. -/
theorem Loses.slipped (loses : before.Loses d name m after)
    (entry : before.get .directories d name = some (hostToDb n.id))
    (isNode : before.getnode n.id = .ok n) (isDirectory : n.kind = .directory)
    (counted : before.attr UInt32 n.id .nlink = .ok nlink) {other : Bytes}
    (present : after.get .directories n.id other ≠ none) :
    Slipped d name n.id nlink before after := by
  rw [loses.eq_left entry isNode counted] at present ⊢
  have more : ¬ UInt32.toCInt (nlink - 1) ≤ 0 := by
    intro last
    rw [get_left_of_last last, if_pos ⟨rfl, .inr isDirectory⟩] at present
    exact present rfl
  constructor
  · intro dir leaf apart
    rw [get_left_of_more more, if_neg nofun, get_directories_del_of_ne apart]
  · intro id read outside
    rw [get_left_of_more more, if_neg, get_nodes_del]
    rintro ⟨-, rfl, rfl⟩
    exact outside ⟨rfl, rfl⟩
  · rw [left, unlinked, if_neg more, attr_setattr_self]

theorem attr_left_of_more (more : ¬ UInt32.toCInt (nlink - 1) ≤ 0) :
    (dbs.left d name n nlink).attr UInt32 n.id .nlink = .ok (nlink - 1) := by
  rw [left, unlinked, if_neg more, attr_setattr_self]

/-- What has become of the destination. -/
structure Yielded (sites : UInt64 → Bytes → Prop) (gone : UInt64 → Prop) (d : UInt64)
    (new : Bytes) (r : NodeRef) (before after : Dbs) (nlink : UInt32) : Prop where
  free : after.get .directories d new = none
  alters : Alters sites gone before after
  spares : Spares (fun id _ => id = r.id ∨ id = d) before after
  lives : ¬ UInt32.toCInt nlink ≤ 0 → after.attr UInt32 r.id .nlink = .ok nlink
  dies : UInt32.toCInt nlink ≤ 0 → ∀ name, after.get .nodes r.id name = none

theorem yielded_left {sites : UInt64 → Bytes → Prop} {gone : UInt64 → Prop} {time : UInt64}
    (site : sites d new) (lasts : UInt32.toCInt (nlink - 1) ≤ 0 → gone r.id) :
    Yielded sites gone d new r dbs ((dbs.setattr r.id .ctime time).left d new r nlink)
      (nlink - 1) where
  free := get_left_self
  alters := (Alters.setattr (fun lasting => lasting.1 rfl) time).trans (.left site lasts)
  spares := (spares_setattr (.inl rfl)).trans (spares_left fun _ => .inl rfl)
  lives := attr_left_of_more
  dies last name := by rw [get_left_of_last last, if_pos ⟨rfl, .inl rfl⟩]

/-- The destination loses its name, and the count of links of a directory loses its own
link as well. -/
theorem Cleared.yielded {sites : UInt64 → Bytes → Prop} {gone : UInt64 → Prop}
    (clears : Cleared d new dst before after) (tree : before.Tree)
    (placed : before.Located s old d new src dst) (isDst : dst = some r)
    (counted : before.attr UInt32 r.id .nlink = .ok nlink) (site : sites d new)
    (own : ∀ name, ¬ IsName name → sites r.id name)
    (lasts : UInt32.toCInt (nlink - 1 - ownLinks r.kind) ≤ 0 → gone r.id) :
    Yielded sites gone d new r before after (nlink - 1 - ownLinks r.kind) := by
  have child := placed.dstChild r isDst
  obtain ⟨entry, isNode⟩ := getchild_eq_ok_iff.mp child
  have apart := (placed.dstApart r isDst).2
  cases clears with
  | free => cases isDst
  | file time isFile loses =>
      cases isDst
      have none : ownLinks r.kind = 0 := by
        cases kind : r.kind with
        | directory => exact absurd kind isFile
        | _ => rfl
      rw [none, UInt32.sub_zero] at lasts ⊢
      rw [loses.eq_left (n := r) (by rw [get_directories_setattr, entry])
        (by rw [getnode_setattr (by decide), isNode])
        (by rw [attr_setattr_of_ne _ (.inr (by decide)), counted])]
      exact yielded_left site lasts
  | @directory _ one two _ _ self up last time isDirectory few loses losesUp losesLast =>
      cases isDst
      have isDir : r = ⟨r.id, .directory⟩ := by rw [← isDirectory]
      have ownLink : ownLinks r.kind = 1 := by rw [isDirectory]; rfl
      rw [ownLink] at lasts ⊢
      have first : Slipped r.id (str ".") r.id nlink before one :=
        loses.slipped (tree.dot (isDir ▸ isNode)) isNode isDirectory counted
          losesUp.present
      have upEntry : one.get .directories r.id (str "..") = some (hostToDb d) := by
        rw [first.entries _ _ (.inr (by decide)), tree.dotdot placed.newName (isDir ▸ child)]
      have upNode : one.getnode d = .ok ⟨d, .directory⟩ := by
        rw [first.getnode, placed.dstDirectory]
      obtain ⟨links, isCount⟩ := losesUp.counted
      rw [losesUp.names upEntry] at isCount
      have kept : two.get .directories d new ≠ none := by
        have present := losesLast.present
        rwa [get_directories_setattr] at present
      have second : Slipped r.id (str "..") d links one two :=
        losesUp.slipped (n := ⟨d, .directory⟩) upEntry upNode rfl isCount kept
      have stored : two.get .directories d new = some (hostToDb r.id) := by
        rw [second.entries _ _ (.inl apart.symm), first.entries _ _ (.inl apart.symm), entry]
      have still : two.attr UInt32 r.id .nlink = .ok (nlink - 1) := by
        rw [attr_congr (second.others r.id _ fun same => apart same.1), first.counted]
      have ends : after = (two.setattr r.id .ctime time).left d new r (nlink - 1) :=
        losesLast.eq_left (by rw [get_directories_setattr, stored])
          (by rw [getnode_setattr (by decide), second.getnode, first.getnode, isNode])
          (by rw [attr_setattr_of_ne _ (.inr (by decide)), still])
      have yielded : Yielded sites gone d new r two
          ((two.setattr r.id .ctime time).left d new r (nlink - 1)) (nlink - 1 - 1) :=
        yielded_left site lasts
      rw [← ends] at yielded
      exact {
        free := yielded.free
        alters := ((first.alters (own _ (by decide)) gone).trans
          (second.alters (own _ (by decide)) gone)).trans yielded.alters
        spares := ((first.others.mono fun _ _ same => .inl same.1).trans
          (second.others.mono fun _ _ same => .inr same.1)).trans yielded.spares
        lives := yielded.lives
        dies := yielded.dies }

/-- What has become of the moved directory's entry for its parent. -/
structure Redirected (sites : UInt64 → Bytes → Prop) (s d : UInt64) (src : NodeRef)
    (before after : Dbs) : Prop where
  up : src.kind = .directory → after.get .directories src.id (str "..") = some (hostToDb d)
  alters : Alters sites (fun _ => False) before after
  spares : Spares (fun id read => (id = s ∨ id = d) ∧ read = Attr.nlink.name) before after

/-- Only the entry of the parent has changed. -/
theorem Turned.redirected {sites : UInt64 → Bytes → Prop} (turns : Turned src.id d before after)
    (isNode : before.getnode src.id = .ok src)
    (entry : src.kind = .directory → before.get .directories src.id (str "..") = some (hostToDb s))
    (isParent : before.getnode s = .ok ⟨s, .directory⟩) (apart : src.id ≠ s)
    (kept : after.get .directories s old ≠ none)
    (own : ∀ name, ¬ IsName name → sites src.id name) : Redirected sites s d src before after := by
  cases turns with
  | file isSame isFile =>
      rw [isNode] at isSame
      cases isSame
      exact {
        up := fun isDirectory => absurd isDirectory isFile
        alters := .refl _ _ _
        spares := .refl _ _ }
  | @directory middle up _ isSame loses counted absent =>
      rw [isNode] at isSame
      have isDirectory : src.kind = .directory := congrArg NodeRef.kind (Except.ok.inj isSame)
      obtain ⟨links, isCount⟩ := loses.counted
      rw [loses.names (entry isDirectory)] at isCount
      rw [get_directories_entered, if_neg fun both => apart both.1.symm] at kept
      have slipped : Slipped src.id (str "..") s links before middle :=
        loses.slipped (n := ⟨s, .directory⟩) (entry isDirectory) isParent rfl isCount kept
      exact {
        up := fun _ => by rw [get_directories_entered, if_pos ⟨rfl, rfl⟩]
        alters := (slipped.alters (own _ (by decide)) _).trans (.entered (own _ (by decide)))
        spares := (slipped.others.mono fun _ _ same => ⟨.inl same.1, same.2⟩).trans
          (spares_entered ⟨.inr rfl, rfl⟩) }

/-- Nothing but the two directories and the moved node is written once the destination is
out of the way. -/
theorem spares_relinked {moved : Dbs} {time sctime smtime dctime dmtime : UInt64}
    (redirected : Spares (fun id read => (id = s ∨ id = d) ∧ read = Attr.nlink.name) cleared turned)
    (movedEq : moved =
      ((turned.setattr src.id .ctime time).entered d new src.id nlink).left s old src
      (1 + nlink)) :
    Spares (fun id _ => id = src.id ∨ id = s ∨ id = d) cleared
      ((moved.touched s sctime smtime).touched d dctime dmtime) := by
  have linked : Spares (fun id _ => id = src.id ∨ id = s ∨ id = d) cleared
      ((turned.setattr src.id .ctime time).entered d new src.id nlink) :=
    ((redirected.mono fun _ _ inside => .inr inside.1).trans (spares_setattr (.inl rfl))).trans
      (spares_entered (.inl rfl))
  have lost : Spares (fun id _ => id = src.id ∨ id = s ∨ id = d) cleared moved := by
    rw [movedEq]
    exact linked.trans (spares_left fun _ => .inl rfl)
  exact (lost.trans (spares_touched (fun _ _ times => .inr (.inl times.1)) sctime smtime)).trans
    (spares_touched (fun _ _ times => .inr (.inr times.1)) dctime dmtime)

/-- The destination is out of the way. -/
structure Prepared (before : Dbs) (d : UInt64) (new : Bytes) (src : NodeRef)
    (dst : Option NodeRef) (cleared : Dbs) : Prop where
  alters : Alters (Yields d new dst) (before.GivesWay src dst) before cleared
  absent : ∀ id, before.GivesWay src dst id → ∀ name, cleared.get .nodes id name = none
  count : dst ≠ some src →
    cleared.get .nodes src.id Attr.nlink.name = before.get .nodes src.id Attr.nlink.name
  positive : dst = some src → ∀ nlink, cleared.attr UInt32 src.id .nlink = .ok nlink →
    ¬ UInt32.toCInt nlink ≤ 0

/-- Two nodes that are there are the same when their ids are. -/
theorem eq_of_id (isNode : dbs.getnode n.id = .ok n) (other : dbs.getnode m.id = .ok m)
    (same : n.id = m.id) : n = m := by
  rw [same, other] at isNode
  exact (Except.ok.inj isNode).symm

namespace Located

variable (placed : before.Located s old d new src dst)

include placed

theorem srcNode : before.getnode src.id = .ok src :=
  getchild_ok_getnode placed.srcChild

theorem dstNode (isDst : dst = some r) : before.getnode r.id = .ok r :=
  getchild_ok_getnode (placed.dstChild r isDst)

theorem not_givesWay_src : ¬ before.GivesWay src dst src.id := by
  rintro ⟨r, nlink, isDst, other, same, -⟩
  exact other (eq_of_id (placed.dstNode isDst) placed.srcNode same.symm)

theorem not_givesWay_parent : ¬ before.GivesWay src dst s := by
  rintro ⟨r, nlink, isDst, -, same, -⟩
  exact (placed.dstApart r isDst).1 same.symm

theorem not_arrivals : ¬ Arrivals d new src dst s old := by
  rintro ((same | ⟨unnamed, -⟩) | ⟨unnamed, -⟩)
  · exact placed.apart same
  · exact unnamed placed.oldName
  · exact unnamed placed.oldName

end Located

/-- A directory does not give way to itself. -/
theorem Located.not_yields_src (placed : before.Located s old d new src dst) (tree : before.Tree)
    (isDirectory : src.kind = .directory) : ¬ Yields d new dst src.id name := by
  rintro (⟨same, -⟩ | ⟨-, r, isDst, same⟩)
  · exact placed.srcApart.2 same
  · have isSrc : src = r := eq_of_id placed.srcNode (placed.dstNode isDst) same
    have isDir : src = ⟨src.id, .directory⟩ := by rw [← isDirectory]
    have again := placed.dstChild r isDst
    rw [← isSrc, isDir] at again
    exact placed.apart (tree.parent placed.oldName placed.newName (isDir ▸ placed.srcChild) again)

theorem Cleared.fewer (clears : Cleared d new dst before after) : Fewer before after := by
  cases clears with
  | free => exact fun _ _ _ stored => stored
  | file time isFile loses => exact fewer_setattr.trans loses.fewer
  | directory time isDirectory few loses losesUp losesLast =>
      exact (loses.fewer.trans losesUp.fewer).trans (fewer_setattr.trans losesLast.fewer)

/-- A directory that gave way has lost its own entry. -/
theorem Cleared.bare (clears : Cleared d new (some r) before after)
    (isDirectory : r.kind = .directory) : after.get .directories r.id (str ".") = none := by
  cases clears with
  | file time isFile loses => exact absurd isDirectory isFile
  | directory time isDirectory few loses losesUp losesLast =>
      exact (losesUp.fewer.trans (fewer_setattr.trans losesLast.fewer)).absent loses.absent

/-- An entry of a turned directory is the new one of its parent or was there. -/
theorem Turned.origin {dir : UInt64} {value : Bytes} (turns : Turned src.id d before after)
    (isNode : before.getnode src.id = .ok src)
    (stored : after.get .directories dir name = some value) :
    (src.kind = .directory ∧ dir = src.id ∧ name = str "..") ∨
      before.get .directories dir name = some value := by
  cases turns with
  | file isSame isFile => exact .inr stored
  | directory isSame loses counted absent =>
      rw [isNode] at isSame
      rw [get_directories_entered] at stored
      split at stored
      · rename_i isUp
        exact .inl ⟨congrArg NodeRef.kind (Except.ok.inj isSame), isUp⟩
      · exact .inr (loses.fewer _ _ _ stored)

/-- What was in the way had a count. -/
theorem Cleared.counted (clears : Cleared d new (some r) before after) (tree : before.Tree)
    (placed : before.Located s old d new src (some r)) :
    ∃ nlink, before.attr UInt32 r.id .nlink = .ok nlink := by
  obtain ⟨entry, isNode⟩ := getchild_eq_ok_iff.mp (placed.dstChild r rfl)
  cases clears with
  | file time isFile loses =>
      obtain ⟨nlink, counted⟩ := loses.counted
      rw [loses.names (by rw [get_directories_setattr, entry]),
        attr_setattr_of_ne _ (.inr (by decide))] at counted
      exact ⟨nlink, counted⟩
  | directory time isDirectory few loses losesUp losesLast =>
      obtain ⟨nlink, counted⟩ := loses.counted
      have isDir : r = ⟨r.id, .directory⟩ := by rw [← isDirectory]
      rw [loses.names (tree.dot (isDir ▸ isNode))] at counted
      exact ⟨nlink, counted⟩

/-- What the destination gives way to is prepared. -/
theorem Cleared.prepared (clears : Cleared d new dst before cleared) (tree : before.Tree)
    (placed : before.Located s old d new src dst) (stays : cleared.getnode src.id = .ok n) :
    before.Prepared d new src dst cleared := by
  cases dst with
  | none =>
      cases clears
      exact {
        alters := .refl _ _ _
        absent := fun id givesWay => absurd givesWay nofun
        count := fun _ => rfl
        positive := nofun }
  | some r =>
      obtain ⟨nlink, counted⟩ := clears.counted tree placed
      have yielded : ∀ gone : UInt64 → Prop,
          (UInt32.toCInt (nlink - 1 - ownLinks r.kind) ≤ 0 → gone r.id) →
          Yielded (Yields d new (some r)) gone d new r before cleared
            (nlink - 1 - ownLinks r.kind) := by
        intro gone lasts
        exact clears.yielded tree placed rfl counted (.inl ⟨rfl, rfl⟩)
          (fun name unnamed => .inr ⟨unnamed, r, rfl, rfl⟩) lasts
      by_cases same : r = src
      · have lives : ¬ UInt32.toCInt (nlink - 1 - ownLinks r.kind) ≤ 0 := by
          intro last
          obtain ⟨mode, isMode, -⟩ := getnode_eq_ok_iff.mp stays
          have stored := getattr_eq_ok_iff.mp isMode
          rw [← same, (yielded (fun _ => True) fun _ => trivial).dies last] at stored
          cases stored
        have yields := yielded (before.GivesWay src (some r)) fun last => absurd last lives
        exact {
          alters := yields.alters
          absent := by
            rintro id ⟨_, -, ⟨⟩, other, -⟩
            exact absurd same other
          count := fun other => absurd (congrArg some same) other
          positive := by
            intro _ links isCount
            rw [← same, yields.lives lives] at isCount
            cases isCount
            exact lives }
      · have yields := yielded (before.GivesWay src (some r))
          fun last => ⟨r, nlink, rfl, same, rfl, counted, last⟩
        have srcOther : src.id ≠ r.id := fun sameId =>
          same (eq_of_id (placed.dstNode rfl) placed.srcNode sameId.symm)
        exact {
          alters := yields.alters
          absent := by
            rintro id ⟨_, links, ⟨⟩, -, rfl, isCount, last⟩
            rw [counted] at isCount
            cases isCount
            exact yields.dies last
          count := fun _ => yields.spares _ _ (not_or.mpr ⟨srcOther, placed.srcApart.2⟩)
          positive := fun isSrc => absurd (Option.some.inj isSrc) same }

/-- In a tree the steps of `rename` move an entry. -/
theorem Relinked.moved (relinked : Relinked s old d new src dst before after) (tree : before.Tree)
    (placed : before.Located s old d new src dst) : before.Moved s old d new src dst after := by
  obtain ⟨cleared, turned, moved, last, nlink, time, sctime, smtime, dctime, dmtime, clears, turns,
    counted, loses, afterEq⟩ := relinked
  have stays : ∃ n, cleared.getnode src.id = .ok n := by
    cases turns with
    | file isNode isFile => exact ⟨_, isNode⟩
    | directory isNode loses counted absent => exact ⟨_, isNode⟩
  obtain ⟨n, stays⟩ := stays
  have prepared := clears.prepared tree placed stays
  have srcNode : cleared.getnode src.id = .ok src := by
    rw [prepared.alters.getnode placed.not_givesWay_src, placed.srcNode]
  have sNode : cleared.getnode s = .ok ⟨s, .directory⟩ := by
    rw [prepared.alters.getnode placed.not_givesWay_parent, placed.srcDirectory]
  have upEntry : src.kind = .directory →
      cleared.get .directories src.id (str "..") = some (hostToDb s) := by
    intro isDirectory
    have isDir : src = ⟨src.id, .directory⟩ := by rw [← isDirectory]
    rw [prepared.alters.entries _ _ (placed.not_yields_src tree isDirectory)
      placed.not_givesWay_src,
      tree.dotdot placed.oldName (isDir ▸ placed.srcChild)]
  have arrived : ∀ dir name, ((turned.setattr src.id .ctime time).entered d new src.id nlink).get
      .directories dir name = if dir = d ∧ name = new then some (hostToDb src.id)
        else turned.get .directories dir name := by
    intro dir name
    rw [get_directories_entered, get_directories_setattr]
  have notNew : ¬ (s = d ∧ old = new) := placed.apart
  have kept : turned.get .directories s old ≠ none := by
    have present := loses.present
    rwa [arrived, if_neg notNew] at present
  have redirected : Redirected (Arrivals d new src dst) s d src cleared turned :=
    turns.redirected srcNode upEntry sNode placed.srcApart.1 kept fun name unnamed =>
      .inr ⟨unnamed, rfl⟩
  have early : Alters (Arrivals d new src dst) (before.GivesWay src dst) before
      ((turned.setattr src.id .ctime time).entered d new src.id nlink) :=
    (((prepared.alters.mono (fun _ _ => .inl) fun _ => id).trans
      (redirected.alters.mono (fun _ _ => id) fun _ => False.elim)).trans
        (.setattr (fun lasting => lasting.1 rfl) time)).trans (.entered (.inl (.inl ⟨rfl, rfl⟩)))
  have oldEntry : ((turned.setattr src.id .ctime time).entered d new src.id nlink).get
      .directories s old = some (hostToDb src.id) := by
    rw [early.entries _ _ placed.not_arrivals placed.not_givesWay_parent]
    exact (getchild_eq_ok_iff.mp placed.srcChild).1
  have movedEq : moved = ((turned.setattr src.id .ctime time).entered d new src.id nlink).left s old
      src (1 + nlink) :=
    loses.eq_left oldEntry (by rw [early.getnode placed.not_givesWay_src, placed.srcNode])
      (attr_entered_self _ _ _ _)
  have same : (1 + nlink : UInt32) - 1 = nlink := by
    rw [UInt32.add_comm, UInt32.add_sub_cancel]
  have clearedCount : cleared.attr UInt32 src.id .nlink = .ok nlink := by
    rw [attr_setattr_of_ne _ (.inr (by decide))] at counted
    rw [← counted]
    refine (attr_congr (redirected.spares _ _ ?_)).symm
    rintro ⟨isParent | isParent, -⟩
    · exact placed.srcApart.1 isParent
    · exact placed.srcApart.2 isParent
  have falls : UInt32.toCInt nlink ≤ 0 → before.FallsOut src dst src.id := by
    intro last
    have other : dst ≠ some src := fun isSrc =>
      prepared.positive isSrc nlink clearedCount last
    exact ⟨rfl, other, nlink, (attr_congr (prepared.count other)).symm.trans clearedCount, last⟩
  have lasts : before.FallsOut src dst src.id → UInt32.toCInt nlink ≤ 0 := by
    rintro ⟨-, other, links, isCount, last⟩
    rw [← attr_congr (prepared.count other), clearedCount] at isCount
    cases isCount
    exact last
  have late : Alters (fun dir name => dir = s ∧ name = old) (before.FallsOut src dst)
      ((turned.setattr src.id .ctime time).entered d new src.id nlink) moved := by
    rw [movedEq]
    exact .left ⟨rfl, rfl⟩ fun last => falls (same ▸ last)
  have notFalls : ∀ {id}, id ≠ src.id → ¬ before.FallsOut src dst id := fun other falls =>
    other falls.1
  have settled : ∀ dir name, after.get .directories dir name = moved.get .directories dir name := by
    intro dir name
    rw [afterEq, get_directories_touched, get_directories_touched]
  constructor
  · rw [settled, late.entries d new (fun both => notNew ⟨both.1.symm, both.2.symm⟩)
      (notFalls placed.srcApart.2.symm), arrived, if_pos ⟨rfl, rfl⟩]
  · rw [settled, movedEq, get_left_self]
  · intro isDirectory stays
    rw [settled, late.entries _ _ (fun both => placed.srcApart.1 both.1) stays, arrived,
      if_neg fun both => placed.srcApart.2 both.1, redirected.up isDirectory]
  · rw [afterEq]
    exact (((early.mono (fun _ _ => .inl) fun _ => .inl).trans
      (late.mono (fun _ _ => .inr) fun _ => .inr)).trans (.touched sctime smtime)).trans
        (.touched dctime dmtime)
  · rintro id (givesWay | fallsOut) name
    · have outside : ¬ (id = src.id ∨ id = s ∨ id = d) := by
        rintro (rfl | rfl | rfl)
        · exact placed.not_givesWay_src givesWay
        · exact placed.not_givesWay_parent givesWay
        · obtain ⟨r, links, isDst, -, isNode, -⟩ := givesWay
          exact (placed.dstApart r isDst).2 isNode.symm
      rw [afterEq, spares_relinked redirected.spares movedEq id name outside]
      exact prepared.absent id givesWay name
    · obtain rfl := fallsOut.1
      have outside : ∀ {dir : UInt64}, src.id ≠ dir → ¬ Times dir src.id name :=
        fun other times => other times.1
      rw [afterEq, spares_touched (fun _ _ => id) _ _ _ _ (outside placed.srcApart.2),
        spares_touched (fun _ _ => id) _ _ _ _ (outside placed.srcApart.1), movedEq,
        get_left_of_last (same.symm ▸ lasts fallsOut), if_pos ⟨rfl, .inl rfl⟩]
  · intro dir name value stored
    rw [settled] at stored
    have entry := loses.fewer _ _ _ stored
    rw [arrived] at entry
    split at entry
    · exact .inl ‹_›
    · rcases turns.origin srcNode entry with isUp | earlier
      · exact .inr (.inl isUp)
      · refine .inr (.inr ⟨clears.fewer _ _ _ earlier, ?_⟩)
        rintro r rfl isDirectory ⟨rfl, rfl⟩
        rw [clears.bare isDirectory] at earlier
        cases earlier

end Dbs

end OfflineFs
