import OfflineFs.Changes.Crowds
import OfflineFs.Changes.Renaming

/-!
# Moving a subtree

A successful rename in a tree takes what was at one path to another.  What the paths beneath
lead to moves along, and what any other path leads to stays, unless a count of links was read
as a negative number.
-/

namespace OfflineFs

open OfflineFs.Effect OfflineFs.Transition

namespace Dbs

variable {before after dbs : Dbs} {sctx : SContext} {os ns names : List Bytes}
variable {old new name : Bytes} {s d id dir : UInt64} {src r n m : NodeRef} {dst : Option NodeRef}

/-! ## Where trails lead -/

theorem Edge.functional {first second : NodeRef} (leads : dbs.Edge n name first)
    (again : dbs.Edge n name second) : first = second :=
  Except.ok.inj (leads.2.2.symm.trans again.2.2)

theorem Leads.functional (leads : dbs.Leads names n) (again : dbs.Leads names m) : n = m :=
  trail_functional leads again fun _ _ _ _ => Edge.functional

theorem leads_concat_iff : dbs.Leads (names ++ [name]) m ↔
    ∃ n, dbs.Leads names n ∧ dbs.Edge n name m :=
  trail_concat_iff

theorem Leads.getnode (tree : dbs.Tree) (leads : dbs.Leads names n) : dbs.getnode n.id = .ok n := by
  rcases List.eq_nil_or_concat names with rfl | ⟨front, name, rfl⟩
  · cases leads
    exact tree.root
  · rw [List.concat_eq_append] at leads
    obtain ⟨_, _, edge⟩ := leads_concat_iff.mp leads
    exact getchild_ok_getnode edge.2.2

/-- A node with the id of a directory is the directory. -/
theorem eq_directory (isNode : dbs.getnode n.id = .ok n) (same : n.id = d)
    (isDirectory : dbs.getnode d = .ok ⟨d, .directory⟩) : n = ⟨d, .directory⟩ :=
  eq_of_id isNode isDirectory same

/-! ## What the steps of a rename begin with -/

/-- Two paths that are renamed, and what they lead to. -/
structure Aimed (before : Dbs) (sctx : SContext) (os : List Bytes) (old : Bytes)
    (ns : List Bytes) (new : Bytes) (s d : UInt64) (src : NodeRef) (dst : Option NodeRef) :
    Prop where
  tree : before.Tree
  oldNormal : Normal (os ++ [old])
  newNormal : Normal (ns ++ [new])
  beneath : ¬ os ++ [old] <+: ns ++ [new]
  oldParent : before.resolve sctx (pathOf os) = .ok ⟨s, .directory⟩
  newParent : before.resolve sctx (pathOf ns) = .ok ⟨d, .directory⟩
  srcChild : before.getchild s old = .ok src
  dstChild : Warrant.destination before d new = .ok dst
  kinds : ∀ r, dst = some r → (src.kind = .directory ↔ r.kind = .directory)
  few : ∀ r, dst = some r → r.kind = .directory → (before.directories.attrs r.id).length ≤ 2

namespace Aimed

variable (aimed : before.Aimed sctx os old ns new s d src dst)

include aimed

theorem oldName : IsName old :=
  aimed.oldNormal.last.2

theorem newName : IsName new :=
  aimed.newNormal.last.2

theorem leadsOld : before.Leads os ⟨s, .directory⟩ :=
  aimed.tree.leads aimed.oldNormal.left aimed.oldParent

theorem leadsNew : before.Leads ns ⟨d, .directory⟩ :=
  aimed.tree.leads aimed.newNormal.left aimed.newParent

theorem leadsSrc : before.Leads (os ++ [old]) src :=
  leads_concat_iff.mpr ⟨_, aimed.leadsOld, rfl, aimed.oldName, aimed.srcChild⟩

theorem dst_iff : dst = some r ↔ before.getchild d new = .ok r := by
  constructor
  · rintro rfl
    exact Warrant.destination_eq_some aimed.dstChild
  · intro found
    have isDst := aimed.dstChild
    rw [Warrant.destination, found] at isDst
    exact (Except.ok.inj isDst).symm

theorem leadsDst (isDst : dst = some r) : before.Leads (ns ++ [new]) r :=
  leads_concat_iff.mpr ⟨_, aimed.leadsNew, rfl, aimed.newName, aimed.dst_iff.mp isDst⟩

/-- A directory that is replaced has nothing in it. -/
theorem childless (isDst : dst = some r) (nonempty : name ≠ []) : ¬ before.Edge r name m := by
  rintro ⟨isDirectory, isName, child⟩
  have isDir : r = ⟨r.id, .directory⟩ := by rw [← isDirectory]
  have found := aimed.dst_iff.mp isDst
  have own := aimed.tree.dot (isDir ▸ getchild_ok_getnode found)
  have up := aimed.tree.dotdot aimed.newName (isDir ▸ found)
  have third := (getchild_eq_ok_iff.mp child).1
  have three := three_names ⟨by decide, by decide, nonempty⟩
    ⟨by decide, isName.1.symm, isName.2.symm⟩ (own ▸ Option.some_ne_none _)
    (up ▸ Option.some_ne_none _) (third ▸ Option.some_ne_none _)
  exact absurd three (Nat.not_lt.mpr (aimed.few r isDst isDirectory))

/-- The first path is not beneath the second either. -/
theorem not_above : ¬ ns ++ [new] <+: os ++ [old] := by
  rintro ⟨rest, whole⟩
  rcases rest with _ | ⟨name, rest⟩
  · rw [List.append_nil] at whole
    exact aimed.beneath (whole ▸ List.prefix_refl _)
  · have along := aimed.leadsSrc
    rw [← whole] at along
    obtain ⟨middle, first, second⟩ := trail_append_iff.mp along
    obtain ⟨parent, leads, edge⟩ := leads_concat_iff.mp first
    obtain rfl := aimed.leadsNew.functional leads
    cases second with
    | cons leads _ =>
        have inside : name ∈ os ++ [old] := by simp [← whole]
        exact aimed.childless (aimed.dst_iff.mpr edge.2.2) (aimed.oldNormal name inside).1.1 leads

/-- The nodes and entries that a renaming is about. -/
theorem located : before.Located s old d new src dst where
  srcDirectory := aimed.leadsOld.getnode aimed.tree
  dstDirectory := aimed.leadsNew.getnode aimed.tree
  srcChild := aimed.srcChild
  dstChild r := aimed.dst_iff.mp
  oldName := aimed.oldName
  newName := aimed.newName
  kinds := aimed.kinds
  apart := by
    rintro ⟨rfl, rfl⟩
    have same := aimed.tree.unique rfl aimed.leadsOld aimed.leadsNew
    exact aimed.beneath (same ▸ List.prefix_refl _)
  srcApart := by
    have srcNode := getchild_ok_getnode aimed.srcChild
    constructor
    · intro same
      have isParent := eq_directory srcNode same (aimed.leadsOld.getnode aimed.tree)
      have loop := aimed.tree.unique rfl (isParent ▸ aimed.leadsSrc) aimed.leadsOld
      simp at loop
    · intro same
      have isParent := eq_directory srcNode same (aimed.leadsNew.getnode aimed.tree)
      have above := aimed.tree.unique rfl (isParent ▸ aimed.leadsSrc) aimed.leadsNew
      exact aimed.beneath (above ▸ List.prefix_append _ _)
  dstApart r isDst := by
    have dstNode := getchild_ok_getnode (aimed.dst_iff.mp isDst)
    constructor
    · intro same
      have isParent := eq_directory dstNode same (aimed.leadsOld.getnode aimed.tree)
      have above := aimed.tree.unique rfl (isParent ▸ aimed.leadsDst isDst) aimed.leadsOld
      exact aimed.not_above (above ▸ List.prefix_append _ _)
    · intro same
      have isParent := eq_directory dstNode same (aimed.leadsNew.getnode aimed.tree)
      have loop := aimed.tree.unique rfl (isParent ▸ aimed.leadsDst isDst) aimed.leadsNew
      simp at loop

end Aimed

/-! ## The names of a node that is replaced -/

/-- The databases without the entries that go when the destination gives way. -/
def spare (dbs : Dbs) (d : UInt64) (new : Bytes) (r : NodeRef) : Dbs :=
  if r.kind = .directory then (dbs.del .directories d new).del .directories r.id (str ".")
  else dbs.del .directories d new

theorem get_spare_eq_some_iff {value : Bytes} :
    (dbs.spare d new r).get .directories dir name = some value ↔
      dbs.get .directories dir name = some value ∧ ¬ (dir = d ∧ name = new) ∧
        ¬ (r.kind = .directory ∧ dir = r.id ∧ name = str ".") := by
  unfold spare
  by_cases isDirectory : r.kind = .directory
  · rw [if_pos isDirectory, get_del, get_del]
    simp only [isDirectory, eq_comm, true_and]
    grind
  · rw [if_neg isDirectory, get_del]
    simp only [isDirectory, eq_comm, true_and, false_and]
    grind

namespace Aimed

variable (aimed : before.Aimed sctx os old ns new s d src dst)

include aimed

/-- A node that is replaced has one name less then, and a directory its own less as well. -/
theorem refs_spare (isDst : dst = some r) :
    (before.spare d new r).refs r.id + 1 + (ownLinks r.kind).toNat = before.refs r.id := by
  obtain ⟨entry, isNode⟩ := getchild_eq_ok_iff.mp (aimed.dst_iff.mp isDst)
  have one := refs_del r.id entry
  rw [if_pos rfl] at one
  unfold spare
  by_cases isDirectory : r.kind = .directory
  · have isDir : r = ⟨r.id, .directory⟩ := by rw [← isDirectory]
    have own : (before.del .directories d new).get .directories r.id (str ".") =
        some (hostToDb r.id) := by
      rw [get_del, if_neg, aimed.tree.dot (isDir ▸ isNode)]
      rintro ⟨-, -, same⟩
      exact aimed.newName.1 same
    have two := refs_del r.id own
    rw [if_pos rfl] at two
    have links : (ownLinks r.kind).toNat = 1 := by rw [isDirectory]; rfl
    rw [if_pos isDirectory, links]
    omega
  · have links : (ownLinks r.kind).toNat = 0 := by
      cases kind : r.kind with
      | directory => exact absurd kind isDirectory
      | _ => rfl
    rw [if_neg isDirectory, links]
    omega

/-- With no more links than that it has no other names. -/
theorem sole (isDst : dst = some r)
    (few : before.refs r.id = 1 + (ownLinks r.kind).toNat)
    (stored : before.get .directories dir name = some (hostToDb r.id)) :
    (dir = d ∧ name = new) ∨ (r.kind = .directory ∧ dir = r.id ∧ name = str ".") := by
  by_contra other
  rw [not_or] at other
  have more := refs_pos_iff.mpr ⟨dir, name, get_spare_eq_some_iff.mpr ⟨stored, other.1, other.2⟩⟩
  have counted := aimed.refs_spare isDst
  omega

/-- Otherwise it has another name, and that is not in a directory that gives way. -/
theorem elsewhere (isDst : dst = some r) (other : r ≠ src)
    (stored : before.get .directories dir name = some (hostToDb r.id))
    (apart : ¬ (dir = d ∧ name = new))
    (notOwn : ¬ (r.kind = .directory ∧ dir = r.id ∧ name = str ".")) :
    dir ≠ r.id ∧ dir ≠ src.id := by
  have child := aimed.dst_iff.mp isDst
  have rNode := getchild_ok_getnode child
  have srcNode := getchild_ok_getnode aimed.srcChild
  have dirNode := (aimed.tree.entry stored).1
  have apartIds : r.id ≠ src.id := fun same => other (eq_of_id rNode srcNode same)
  have placed := aimed.located
  -- a directory has one name but its own and those of its children for it
  have named (isDirectory : r.kind = .directory) (isName : IsName name) : dir = d ∧ name = new := by
    have isDir : r = ⟨r.id, .directory⟩ := by rw [← isDirectory]
    exact aimed.tree.parent isName aimed.newName
      (isDir ▸ getchild_eq_ok_iff.mpr ⟨stored, rNode⟩) (isDir ▸ child)
  have unnamed (unnamed : ¬ IsName name) : name = str "." ∨ name = str ".." := by
    unfold IsName at unnamed
    tauto
  constructor
  · rintro rfl
    have isDirectory : r.kind = .directory :=
      congrArg NodeRef.kind (eq_of_id (m := ⟨r.id, .directory⟩) rNode dirNode rfl)
    have isDir : r = ⟨r.id, .directory⟩ := by rw [← isDirectory]
    by_cases isName : IsName name
    · exact apart (named isDirectory isName)
    · rcases unnamed isName with rfl | rfl
      · exact notOwn ⟨isDirectory, rfl, rfl⟩
      · rw [aimed.tree.dotdot aimed.newName (isDir ▸ child), Option.some.injEq, hostToDb_inj]
          at stored
        exact (placed.dstApart r isDst).2 stored.symm
  · rintro rfl
    have isDirectory : src.kind = .directory :=
      congrArg NodeRef.kind (eq_of_id (m := ⟨src.id, .directory⟩) srcNode dirNode rfl)
    have isDir : src = ⟨src.id, .directory⟩ := by rw [← isDirectory]
    by_cases isName : IsName name
    · exact placed.srcApart.2 (named ((aimed.kinds r isDst).mp isDirectory) isName).1
    · rcases unnamed isName with rfl | rfl
      · rw [aimed.tree.dot dirNode, Option.some.injEq, hostToDb_inj] at stored
        exact apartIds stored.symm
      · rw [aimed.tree.dotdot aimed.oldName (isDir ▸ aimed.srcChild), Option.some.injEq,
          hostToDb_inj] at stored
        exact (placed.dstApart r isDst).1 stored.symm

end Aimed

/-! ## What has moved -/

/-- The counts of links, read as signed numbers, are positive for a node that keeps a name. -/
structure Movable (dbs : Dbs) (oldpath newpath : Bytes) : Prop where
  source : ∀ src nlink, dbs.resolve superuser oldpath = .ok src →
    dbs.resolve superuser newpath ≠ .ok src → dbs.attr UInt32 src.id .nlink = .ok nlink →
      0 < UInt32.toCInt nlink
  target : ∀ src r nlink, dbs.resolve superuser oldpath = .ok src →
    dbs.resolve superuser newpath = .ok r → r ≠ src → dbs.attr UInt32 r.id .nlink = .ok nlink →
      0 ≤ UInt32.toCInt (nlink - 1 - ownLinks r.kind)

/-- A caller finds the directory with these names and may search it. -/
def Searches (dbs : Dbs) (caller : SContext) (names : List Bytes) : Prop :=
  ∃ d, dbs.resolve caller (pathOf names) = .ok d ∧ dbs.access d.id caller xOk = .ok ()

/-- What was at one path is at another, with all that is beneath, and the rest is as before. -/
structure Renamed (sctx : SContext) (os : List Bytes) (old : Bytes) (ns : List Bytes) (new : Bytes)
    (before after : Dbs) : Prop where
  searches : before.Searches sctx os ∧ before.Searches sctx ns
  moves : ∀ caller, before.Searches caller os → before.Searches caller ns →
    ∀ suffix, Normal suffix → after.resolve caller (pathOf (ns ++ [new] ++ suffix)) =
      before.resolve caller (pathOf (os ++ [old] ++ suffix))
  leaves : ∀ caller n, after.resolve caller (pathOf (os ++ [old])) ≠ .ok n
  others : ∀ caller names, Normal names → ¬ os ++ [old] <+: names → ¬ ns ++ [new] <+: names →
    after.resolve caller (pathOf names) = before.resolve caller (pathOf names)
  up : ∀ src d, before.resolve superuser (pathOf (os ++ [old])) = .ok src →
    src.kind = .directory → before.resolve superuser (pathOf ns) = .ok d →
      after.get .directories src.id (str "..") = some (hostToDb d.id)
  attributes : ∀ id name, Lasting name →
    after.get .nodes id name = before.get .nodes id name ∨
      ∃ r, before.resolve superuser (pathOf (ns ++ [new])) = .ok r ∧ id = r.id ∧
        after.refs r.id = 0 ∧ ∀ any, after.get .nodes r.id any = none

theorem Tree.resolve_superuser_concat (tree : dbs.Tree) (normal : Normal (names ++ [name]))
    (parent : dbs.resolve superuser (pathOf names) = .ok ⟨d, .directory⟩) :
    dbs.resolve superuser (pathOf (names ++ [name])) = dbs.getchild d name := by
  rw [tree.resolve_concat normal.proper, parent]
  change dbs.look superuser ⟨d, .directory⟩ name = _
  rw [look, access_superuser]
  rfl

theorem toCInt_eq_zero_iff {value : UInt32} : UInt32.toCInt value = 0 ↔ value = 0 := by
  rw [← UInt32.toNat_inj]
  have bound := UInt32.toNat_lt value
  unfold UInt32.toCInt
  rw [UInt32.toNat_zero]
  split
  · omega
  · omega

namespace Aimed

variable (aimed : before.Aimed sctx os old ns new s d src dst)

include aimed

theorem resolve_old : before.resolve superuser (pathOf (os ++ [old])) = .ok src := by
  rw [aimed.tree.resolve_superuser_concat aimed.oldNormal
    (aimed.tree.resolve_superuser aimed.oldNormal.left.proper aimed.oldParent), aimed.srcChild]

theorem resolve_new_iff : before.resolve superuser (pathOf (ns ++ [new])) = .ok r ↔
    dst = some r := by
  rw [aimed.tree.resolve_superuser_concat aimed.newNormal
    (aimed.tree.resolve_superuser aimed.newNormal.left.proper aimed.newParent), aimed.dst_iff]

/-- The conditions are about what the steps begin with. -/
theorem movable_iff : before.Movable (pathOf (os ++ [old])) (pathOf (ns ++ [new])) ↔
    ¬ before.FallsOut src dst src.id ∧
      ∀ r nlink, dst = some r → r ≠ src → before.attr UInt32 r.id .nlink = .ok nlink →
        0 ≤ UInt32.toCInt (nlink - 1 - ownLinks r.kind) := by
  constructor
  · intro movable
    constructor
    · rintro ⟨-, other, nlink, counted, last⟩
      have positive := movable.source src nlink aimed.resolve_old
        (fun found => other (aimed.resolve_new_iff.mp found)) counted
      omega
    · intro r nlink isDst other counted
      exact movable.target src r nlink aimed.resolve_old (aimed.resolve_new_iff.mpr isDst) other
        counted
  · rintro ⟨stays, target⟩
    constructor
    · intro n nlink found other counted
      rw [aimed.resolve_old] at found
      cases found
      by_contra last
      exact stays ⟨rfl, fun isDst => other (aimed.resolve_new_iff.mpr isDst), nlink, counted,
        Int.not_lt.mp last⟩
    · intro n r nlink found isNew other counted
      rw [aimed.resolve_old] at found
      cases found
      exact target r nlink (aimed.resolve_new_iff.mp isNew) other counted

/-- The number of names is the stored count of links. -/
theorem refs_eq {nlink : UInt32} (isNode : before.getnode n.id = .ok n)
    (counted : before.attr UInt32 n.id .nlink = .ok nlink) : before.refs n.id = nlink.toNat := by
  rw [← aimed.tree.counted isNode, links_eq counted]

/-- A node that gives way with a count that is zero then has no other name. -/
theorem refs_of_zero {nlink : UInt32} (isDst : dst = some r)
    (counted : before.attr UInt32 r.id .nlink = .ok nlink) :
    UInt32.toCInt (nlink - 1 - ownLinks r.kind) = 0 ↔
      before.refs r.id = 1 + (ownLinks r.kind).toNat := by
  have rNode := getchild_ok_getnode (aimed.dst_iff.mp isDst)
  have least := aimed.refs_spare isDst
  rw [aimed.refs_eq rNode counted] at least ⊢
  rw [toCInt_eq_zero_iff]
  constructor
  · intro zero
    have same : nlink = 0 + ownLinks r.kind + 1 :=
      UInt32.sub_eq_iff_eq_add.mp (UInt32.sub_eq_iff_eq_add.mp zero)
    rw [same]
    cases r.kind <;> rfl
  · intro same
    have sum : (1 + ownLinks r.kind).toNat = 1 + (ownLinks r.kind).toNat := by
      cases r.kind <;> rfl
    have equal : nlink = 1 + ownLinks r.kind := UInt32.toNat_inj.mp (same.trans sum.symm)
    rw [equal]
    cases r.kind <;> rfl

end Aimed

/-! ## After the steps -/

section Steps

variable (aimed : before.Aimed sctx os old ns new s d src dst)
  (moved : before.Moved s old d new src dst after)

include aimed moved

/-- A node that gives way for good has no names left. -/
theorem Aimed.vanishes (stays : ¬ before.FallsOut src dst src.id) (isDst : dst = some r)
    (other : r ≠ src) (few : before.refs r.id = 1 + (ownLinks r.kind).toNat) :
    after.refs r.id = 0 := by
  have apart : r.id ≠ src.id := fun same =>
    other (eq_of_id (aimed.located.dstNode isDst) aimed.located.srcNode same)
  have arrived : ∀ value, after.get .directories d new = some value → value ≠ hostToDb r.id := by
    rintro value stored rfl
    rw [moved.arrives, Option.some.injEq, hostToDb_inj] at stored
    exact apart stored.symm
  by_contra named
  obtain ⟨dir, name, stored⟩ := refs_pos_iff.mp (Nat.pos_of_ne_zero named)
  rcases moved.origin dir name _ stored with ⟨rfl, rfl⟩ | ⟨isDirectory, rfl, rfl⟩ | ⟨earlier, kept⟩
  · exact arrived _ stored rfl
  · rw [moved.up isDirectory stays, Option.some.injEq, hostToDb_inj] at stored
    exact (aimed.located.dstApart r isDst).2 stored.symm
  · rcases aimed.sole isDst few earlier with ⟨rfl, rfl⟩ | ⟨isDirectory, own⟩
    · exact arrived _ stored rfl
    · exact kept r isDst isDirectory own

/-- A node that gives way with a negative count keeps a name. -/
theorem Aimed.lingers (isDst : dst = some r) (other : r ≠ src)
    (more : before.refs r.id ≠ 1 + (ownLinks r.kind).toNat) : after.refs r.id ≠ 0 := by
  have counted := aimed.refs_spare isDst
  obtain ⟨dir, name, spared⟩ := refs_pos_iff.mp (show 0 < (before.spare d new r).refs r.id by omega)
  obtain ⟨stored, apart, notOwn⟩ := get_spare_eq_some_iff.mp spared
  obtain ⟨notDst, notSrc⟩ := aimed.elsewhere isDst other stored apart notOwn
  apply Nat.ne_of_gt
  apply refs_pos_iff.mpr
  refine ⟨dir, name, ?_⟩
  rw [moved.alters.entries dir name, stored]
  · rintro (((isNew | ⟨-, r', isDst', rfl⟩) | ⟨-, rfl⟩) | ⟨rfl, rfl⟩)
    · exact apart isNew
    · rw [isDst] at isDst'
      cases isDst'
      exact notDst rfl
    · exact notSrc rfl
    · rw [(getchild_eq_ok_iff.mp aimed.srcChild).1, Option.some.injEq, hostToDb_inj] at stored
      exact other (eq_of_id (aimed.located.dstNode isDst) aimed.located.srcNode stored.symm)
  · rintro (⟨r', -, isDst', -, rfl, -⟩ | ⟨rfl, -⟩)
    · rw [isDst] at isDst'
      cases isDst'
      exact notDst rfl
    · exact notSrc rfl

end Steps

/-- Names along which nothing has changed. -/
def Avoids (os : List Bytes) (old : Bytes) (ns : List Bytes) (new : Bytes) (names : List Bytes) :
    Prop :=
  (∀ name ∈ names, IsName name) ∧ names ≠ os ++ [old] ∧ ¬ ns ++ [new] <+: names

/-- The permissions of a node whose attributes last are as before. -/
theorem access_congr (same : ∀ attr, Lasting attr →
    after.get .nodes id attr = before.get .nodes id attr) (caller : SContext) (mode : UInt32) :
    after.access id caller mode = before.access id caller mode := by
  have modes : after.attr UInt32 id .mode = before.attr UInt32 id .mode :=
    attr_congr (same _ ⟨by decide, by decide, by decide⟩)
  have uids : after.attr UInt32 id .uid = before.attr UInt32 id .uid :=
    attr_congr (same _ ⟨by decide, by decide, by decide⟩)
  have gids : after.attr UInt32 id .gid = before.attr UInt32 id .gid :=
    attr_congr (same _ ⟨by decide, by decide, by decide⟩)
  simp only [access, granted, modes, uids, gids]

/-- The entry of a directory is found at one place. -/
theorem Aimed.trace_eq {trace front : List Bytes}
    (aimed : before.Aimed sctx os old ns new s d src dst)
    (leads : before.Leads trace n) (isDirectory : n.kind = .directory)
    (again : before.Leads front ⟨n.id, .directory⟩) : trace = front := by
  obtain ⟨id, kind⟩ := n
  obtain rfl : kind = .directory := isDirectory
  exact aimed.tree.unique rfl leads again

section Settled

variable (aimed : before.Aimed sctx os old ns new s d src dst)
  (moved : before.Moved s old d new src dst after)
  (movable : before.Movable (pathOf (os ++ [old])) (pathOf (ns ++ [new])))

include aimed movable

theorem Aimed.givesWay (gone : before.GivesWay src dst id ∨ before.FallsOut src dst id) :
    ∃ r, dst = some r ∧ r ≠ src ∧ id = r.id ∧
      before.refs r.id = 1 + (ownLinks r.kind).toNat := by
  obtain ⟨stays, target⟩ := aimed.movable_iff.mp movable
  rcases gone with ⟨r, nlink, isDst, other, rfl, counted, last⟩ | falls
  · have zero := le_antisymm last (target r nlink isDst other counted)
    exact ⟨r, isDst, other, rfl, (aimed.refs_of_zero isDst counted).mp zero⟩
  · exact absurd (falls.1 ▸ falls) stays

/-- Where no change is, nothing gives way. -/
theorem Aimed.remains {trace : List Bytes} (leads : before.Leads trace n)
    (apart : ¬ ns ++ [new] <+: trace) :
    ¬ (before.GivesWay src dst n.id ∨ before.FallsOut src dst n.id) := by
  intro gone
  obtain ⟨r, isDst, other, same, few⟩ := aimed.givesWay movable gone
  obtain rfl := eq_of_id (leads.getnode aimed.tree) (aimed.located.dstNode isDst) same
  rcases List.eq_nil_or_concat trace with rfl | ⟨front, name, rfl⟩
  · cases leads
    exact aimed.tree.top aimed.newName (aimed.dst_iff.mp isDst) rfl
  · rw [List.concat_eq_append] at leads apart
    obtain ⟨parent, inside, edge⟩ := leads_concat_iff.mp leads
    rcases aimed.sole isDst few (getchild_eq_ok_iff.mp edge.2.2).1 with ⟨isNew, rfl⟩ | ⟨-, -, own⟩
    · obtain rfl := aimed.trace_eq inside edge.1 (isNew ▸ aimed.leadsNew)
      exact apart (List.prefix_refl _)
    · exact edge.2.1.1 own

include moved

/-- A step along names where nothing has changed is as before. -/
theorem Aimed.look_eq (caller : SContext) {trace : List Bytes} (leads : before.Leads trace n)
    (avoids : Avoids os old ns new (trace ++ [name])) :
    after.look caller n name = before.look caller n name := by
  obtain ⟨named, notOld, notNew⟩ := avoids
  have isName : IsName name := named name (List.mem_append_right _ (List.mem_singleton.mpr rfl))
  have remains := aimed.remains movable leads fun above =>
    notNew (above.trans (List.prefix_append trace [name]))
  have granted := access_congr
    (fun attr lasting => moved.alters.nodes n.id attr lasting remains) caller xOk
  unfold look
  rw [granted]
  cases before.access n.id caller xOk with
  | error e => rfl
  | ok =>
      by_cases isDirectory : n.kind = .directory
      · have atNew : ¬ (n.id = d ∧ name = new) := by
          rintro ⟨rfl, rfl⟩
          obtain rfl := aimed.trace_eq leads isDirectory aimed.leadsNew
          exact notNew (List.prefix_refl _)
        have atOld : ¬ (n.id = s ∧ name = old) := by
          rintro ⟨rfl, rfl⟩
          obtain rfl := aimed.trace_eq leads isDirectory aimed.leadsOld
          exact notOld rfl
        have entry : after.get .directories n.id name = before.get .directories n.id name := by
          apply moved.alters.entries _ _ _ remains
          rintro (((isNew | ⟨unnamed, -⟩) | ⟨unnamed, -⟩) | isOld)
          · exact atNew isNew
          · exact unnamed isName
          · exact unnamed isName
          · exact atOld isOld
        simp only [if_pos isDirectory]
        cases stored : before.get .directories n.id name with
        | none => rw [getchild, getchild, getattr, getattr, entry, stored]
        | some value =>
            obtain ⟨child, found⟩ := (aimed.tree.entry stored).2
            obtain ⟨isEntry, isNode⟩ := getchild_eq_ok_iff.mp found
            rw [found]
            apply getchild_eq_ok_iff.mpr
            refine ⟨entry.trans isEntry, ?_⟩
            rw [moved.alters.getnode, isNode]
            intro gone
            obtain ⟨r, isDst, -, same, few⟩ := aimed.givesWay movable gone
            rw [same] at isEntry
            rcases aimed.sole isDst few isEntry with isNew | ⟨-, -, own⟩
            · exact atNew isNew
            · exact isName.1 own
      · simp only [if_neg isDirectory]

theorem Aimed.foldlM_eq (caller : SContext) {trace rest : List Bytes} (leads : before.Leads trace n)
    (avoided : ∀ front, front ≠ [] → front <+: rest → Avoids os old ns new (trace ++ front)) :
    rest.foldlM (after.look caller) n = rest.foldlM (before.look caller) n := by
  apply foldlM_eq_of_avoids leads avoided
  · intro trace v label last _ avoids found
    obtain ⟨-, isDirectory, child⟩ := look_eq_ok_iff.mp found
    exact ⟨isDirectory, avoids.1 label (by simp), child⟩
  · intro trace v label along avoids
    exact aimed.look_eq moved movable caller along avoids

theorem Aimed.root_after : after.getnode 0 = .ok ⟨0, .directory⟩ := by
  have remains := aimed.remains movable (.nil _) (by simp)
  exact (moved.alters.getnode remains).trans aimed.tree.root

/-- A path that is neither at nor beneath one of the two is looked up as before. -/
theorem Aimed.resolve_eq (caller : SContext) (normal : Normal names)
    (notOld : ¬ os ++ [old] <+: names) (notNew : ¬ ns ++ [new] <+: names) :
    after.resolve caller (pathOf names) = before.resolve caller (pathOf names) := by
  rw [aimed.tree.resolve_eq normal.proper, resolve_eq_foldlM (aimed.root_after moved movable)
    normal.proper]
  apply aimed.foldlM_eq moved movable caller (.nil _)
  intro front _ isPrefix
  rw [List.nil_append]
  refine ⟨fun name member => (normal name (isPrefix.subset member)).2, ?_, ?_⟩
  · rintro rfl
    exact notOld isPrefix
  · exact fun above => notNew (above.trans isPrefix)

/-- The parent of the new name is found as before, and the node that was moved is there. -/
theorem Aimed.resolve_moved (caller : SContext) (old_ : before.Searches caller os)
    (new_ : before.Searches caller ns) {suffix : List Bytes} (normal : Normal suffix) :
    after.resolve caller (pathOf (ns ++ [new] ++ suffix)) =
      before.resolve caller (pathOf (os ++ [old] ++ suffix)) := by
  obtain ⟨parent, foundOld, searchOld⟩ := old_
  obtain rfl := (aimed.tree.leads aimed.oldNormal.left foundOld).functional aimed.leadsOld
  obtain ⟨parent, foundNew, searchNew⟩ := new_
  obtain rfl := (aimed.tree.leads aimed.newNormal.left foundNew).functional aimed.leadsNew
  have notOld : ¬ os ++ [old] <+: ns := fun above =>
    aimed.beneath (above.trans (List.prefix_append _ _))
  have notNew : ¬ ns ++ [new] <+: ns := fun above => by
    have short := above.length_le
    rw [List.length_append, List.length_singleton] at short
    omega
  have root := aimed.root_after moved movable
  have arrives : ns.foldlM (after.look caller) ⟨0, .directory⟩ = .ok ⟨d, .directory⟩ := by
    rw [← resolve_eq_foldlM root aimed.newNormal.left.proper,
      aimed.resolve_eq moved movable caller aimed.newNormal.left notOld notNew, foundNew]
  have isThere : after.look caller ⟨d, .directory⟩ new = .ok src := by
    have dRemains := aimed.remains movable aimed.leadsNew notNew
    have srcRemains := aimed.remains movable aimed.leadsSrc aimed.not_above
    apply look_eq_ok_iff.mpr
    refine ⟨?_, rfl, getchild_eq_ok_iff.mpr ⟨moved.arrives, ?_⟩⟩
    · rw [access_congr fun attr lasting => moved.alters.nodes d attr lasting dRemains, searchNew]
    · rw [moved.alters.getnode srcRemains, aimed.located.srcNode]
  have wasThere : before.look caller ⟨s, .directory⟩ old = .ok src :=
    look_eq_ok_iff.mpr ⟨searchOld, rfl, aimed.srcChild⟩
  have beyond : suffix.foldlM (after.look caller) src = suffix.foldlM (before.look caller) src := by
    apply aimed.foldlM_eq moved movable caller aimed.leadsSrc
    intro front nonempty isPrefix
    refine ⟨?_, by simpa using nonempty, ?_⟩
    · intro name member
      rcases List.mem_append.mp member with upper | lower
      · exact (aimed.oldNormal name upper).2
      · exact (normal name (isPrefix.subset lower)).2
    · intro above
      rcases List.prefix_or_prefix_of_prefix above (List.prefix_append (os ++ [old]) front) with
        isAbove | isBeneath
      · exact aimed.not_above isAbove
      · exact aimed.beneath isBeneath
  rw [resolve_eq_foldlM root (aimed.newNormal.append normal).proper,
    aimed.tree.resolve_eq (aimed.oldNormal.append normal).proper]
  rw [aimed.tree.resolve_eq aimed.oldNormal.left.proper] at foundOld
  rw [foldlM_through arrives isThere, foldlM_through foundOld wasThere, beyond]

/-- The old path leads nowhere. -/
theorem Aimed.resolve_left (caller : SContext) :
    after.resolve caller (pathOf (os ++ [old])) ≠ .ok n := by
  intro found
  have root := aimed.root_after moved movable
  have notOld : ¬ os ++ [old] <+: os := fun above => by
    have short := above.length_le
    rw [List.length_append, List.length_singleton] at short
    omega
  have notNew : ¬ ns ++ [new] <+: os := fun above =>
    aimed.not_above (above.trans (List.prefix_append _ _))
  have same := aimed.resolve_eq moved movable caller aimed.oldNormal.left notOld notNew
  rw [resolve_eq_foldlM root aimed.oldNormal.proper, foldlM_concat_eq_ok_iff] at found
  obtain ⟨parent, foundParent, looked⟩ := found
  rw [← resolve_eq_foldlM root aimed.oldNormal.left.proper, same] at foundParent
  obtain rfl := (aimed.tree.leads aimed.oldNormal.left foundParent).functional aimed.leadsOld
  obtain ⟨-, -, child⟩ := look_eq_ok_iff.mp looked
  have stored := (getchild_eq_ok_iff.mp child).1
  rw [moved.leaves] at stored
  cases stored

/-- The steps of a rename have moved the subtree if no count was read as a negative number. -/
theorem Aimed.renamed (searches : before.Searches sctx os ∧ before.Searches sctx ns) :
    Renamed sctx os old ns new before after := by
  obtain ⟨stays, -⟩ := aimed.movable_iff.mp movable
  constructor
  · exact searches
  · intro caller old_ new_ suffix normal
    exact aimed.resolve_moved moved movable caller old_ new_ normal
  · intro caller n
    exact aimed.resolve_left moved movable caller
  · intro caller names normal notOld notNew
    exact aimed.resolve_eq moved movable caller normal notOld notNew
  · intro n p found isDirectory parent
    rw [aimed.resolve_old] at found
    cases found
    rw [aimed.tree.resolve_superuser aimed.newNormal.left.proper aimed.newParent] at parent
    cases parent
    exact moved.up isDirectory stays
  · intro id name lasting
    by_cases gone : before.GivesWay src dst id ∨ before.FallsOut src dst id
    · obtain ⟨r, isDst, other, rfl, few⟩ := aimed.givesWay movable gone
      exact .inr ⟨r, aimed.resolve_new_iff.mpr isDst, rfl,
        aimed.vanishes moved stays isDst other few,
        fun any => moved.absent r.id gone any⟩
    · exact .inl (moved.alters.nodes id name lasting gone)

end Settled

/-- If the subtree has moved, no count was read as a negative number. -/
theorem Aimed.movable_of_renamed (aimed : before.Aimed sctx os old ns new s d src dst)
    (moved : before.Moved s old d new src dst after)
    (renamed : Renamed sctx os old ns new before after) :
    before.Movable (pathOf (os ++ [old])) (pathOf (ns ++ [new])) := by
  apply aimed.movable_iff.mpr
  constructor
  · intro falls
    obtain ⟨parent, foundOld, searchOld⟩ := renamed.searches.1
    obtain rfl := (aimed.tree.leads aimed.oldNormal.left foundOld).functional aimed.leadsOld
    have wasThere : before.resolve sctx (pathOf (os ++ [old])) = .ok src := by
      rw [aimed.tree.resolve_eq aimed.oldNormal.left.proper] at foundOld
      rw [aimed.tree.resolve_eq aimed.oldNormal.proper]
      exact foldlM_concat_eq_ok_iff.mpr
        ⟨_, foundOld, look_eq_ok_iff.mpr ⟨searchOld, rfl, aimed.srcChild⟩⟩
    have isThere := renamed.moves sctx renamed.searches.1 renamed.searches.2 [] nofun
    rw [List.append_nil, List.append_nil, wasThere] at isThere
    obtain ⟨mode, isMode, -⟩ := getnode_eq_ok_iff.mp (resolve_ok_getnode isThere)
    have stored := getattr_eq_ok_iff.mp isMode
    rw [moved.absent src.id (.inr falls)] at stored
    cases stored
  · intro r nlink isDst other counted
    by_contra negative
    have gone : before.GivesWay src dst r.id :=
      ⟨r, nlink, isDst, other, rfl, counted, by omega⟩
    have more : before.refs r.id ≠ 1 + (ownLinks r.kind).toNat := by
      rw [Ne, ← aimed.refs_of_zero isDst counted]
      omega
    have absent := moved.absent r.id (.inl gone) Attr.mode.name
    rcases renamed.attributes r.id Attr.mode.name ⟨by decide, by decide, by decide⟩ with
      same | ⟨r', isNew, sameId, unnamed, -⟩
    · obtain ⟨mode, isMode, -⟩ := getnode_eq_ok_iff.mp (aimed.located.dstNode isDst)
      rw [absent, getattr_eq_ok_iff.mp isMode] at same
      cases same
    · rw [← sameId] at unnamed
      exact aimed.lingers moved isDst other more unnamed

/-- A destination that was cleared was empty. -/
theorem Cleared.few {cleared : Dbs} (clears : Cleared d new dst before cleared)
    (isDst : dst = some r)
    (isDirectory : r.kind = .directory) : (before.directories.attrs r.id).length ≤ 2 := by
  cases clears with
  | free => cases isDst
  | file time isFile loses =>
      cases isDst
      exact absurd isDirectory isFile
  | directory time isDirectory few loses losesUp losesLast =>
      cases isDst
      exact few

end Dbs

namespace FS

variable {fs : FS} {ctx : Context} {sctx : SContext} {world : World} {os ns : List Bytes}
variable {old new : Bytes}

/-- What a rename in a tree begins with and what its steps have done. -/
theorem rename_aims (null : fs.pcache = PathCache_null) (caller : ctx.sctx = some sctx)
    (tree : world.dbs.Tree) (oldNormal : Normal (os ++ [old])) (newNormal : Normal (ns ++ [new]))
    (beneath : ¬ os ++ [old] <+: ns ++ [new])
    (returns : (exec (fs.rename ctx (pathOf (os ++ [old])) (pathOf (ns ++ [new]))) world).1 =
      .ok 0) :
    ∃ s d src dst, world.dbs.Aimed sctx os old ns new s d src dst ∧
      world.dbs.Moved s old d new src dst
        (exec (fs.rename ctx (pathOf (os ++ [old])) (pathOf (ns ++ [new]))) world).2.dbs ∧
      world.dbs.Searches sctx os ∧ world.dbs.Searches sctx ns := by
  have apart : pathOf (os ++ [old]) ≠ pathOf (ns ++ [new]) := by
    intro same
    rw [pathOf_injOn oldNormal.proper newNormal.proper same] at beneath
    exact beneath (List.prefix_refl _)
  obtain ⟨other, s, d, src, dst, isCaller, srcParent, dstParent, srcChild, dstChild, kinds,
    ⟨srcSearch, dstSearch⟩, relinked⟩ := rename_succeeds null apart (Prod.ext returns rfl)
  rw [caller] at isCaller
  cases isCaller
  rw [Dbs.Parent, splitPath_pathOf oldNormal.last.1.1 oldNormal.last.1.2] at srcParent
  rw [Dbs.Parent, splitPath_pathOf newNormal.last.1.1 newNormal.last.1.2] at dstParent
  rw [leafOf_pathOf oldNormal.last.1.1 oldNormal.last.1.2] at srcChild relinked
  rw [leafOf_pathOf newNormal.last.1.1 newNormal.last.1.2] at dstChild relinked
  have aimed : world.dbs.Aimed sctx os old ns new s d src dst := {
    tree := tree
    oldNormal := oldNormal
    newNormal := newNormal
    beneath := beneath
    oldParent := srcParent
    newParent := dstParent
    srcChild := srcChild
    dstChild := dstChild
    kinds := kinds
    few := by
      obtain ⟨cleared, -, -, -, -, -, -, -, -, -, clears, -⟩ := relinked
      intro r isDst
      exact clears.few isDst }
  exact ⟨s, d, src, dst, aimed, relinked.moved tree aimed.located, ⟨_, srcParent, srcSearch⟩,
    ⟨_, dstParent, dstSearch⟩⟩

end FS

set_option maxRecDepth 100000 in
/-- The world with one file is a tree. -/
theorem tree_loneFile : loneFile.dbs.Tree := by
  have listed {d : UInt64} {name value : Bytes}
      (stored : loneFile.dbs.get .directories d name = some value) :
      ((⟨d, name⟩ : Key UInt64), value) ∈ loneFile.dbs.directories.toList :=
    Std.ExtTreeMap.mem_toList_iff_getElem?_eq_some.mpr stored
  have isThere {id : UInt64} {n : NodeRef} (isNode : loneFile.dbs.getnode id = .ok n) :
      ∃ entry ∈ loneFile.dbs.nodes.toList, entry.1.id = id := by
    obtain ⟨mode, isMode, -⟩ := Dbs.getnode_eq_ok_iff.mp isNode
    have stored : loneFile.dbs.get .nodes id Attr.mode.name = some (hostToDb mode) :=
      Dbs.getattr_eq_ok_iff.mp isMode
    exact ⟨_, Std.ExtTreeMap.mem_toList_iff_getElem?_eq_some.mpr stored, rfl⟩
  have entries : ∀ entry ∈ loneFile.dbs.directories.toList,
      loneFile.dbs.getnode entry.1.id = .ok ⟨entry.1.id, .directory⟩ ∧
        (loneFile.dbs.getchild entry.1.id entry.1.name).toOption.isSome ∧
        (IsName entry.1.name →
          loneFile.dbs.getchild entry.1.id entry.1.name = .ok ⟨1, .file⟩) := by
    decide +kernel
  have nodes : ∀ entry ∈ loneFile.dbs.nodes.toList,
      loneFile.dbs.links entry.1.id = loneFile.dbs.refs entry.1.id ∧
        (loneFile.dbs.getnode entry.1.id = .ok ⟨entry.1.id, .directory⟩ →
          loneFile.dbs.get .directories entry.1.id (str ".") = some (hostToDb entry.1.id)) := by
    decide +kernel
  have isFile {d : UInt64} {name : Bytes} {n : NodeRef} (isName : IsName name)
      (child : loneFile.dbs.getchild d name = .ok n) : n = ⟨1, .file⟩ := by
    have found := (entries _ (listed (Dbs.getchild_eq_ok_iff.mp child).1)).2.2 isName
    exact Except.ok.inj (child.symm.trans found)
  constructor
  · decide +kernel
  · intro d name value stored
    obtain ⟨isDirectory, isSome, -⟩ := entries _ (listed stored)
    refine ⟨isDirectory, ?_⟩
    cases child : loneFile.dbs.getchild d name with
    | error e => simp [child, Except.toOption] at isSome
    | ok n => exact ⟨n, rfl⟩
  · intro d isDirectory
    obtain ⟨entry, member, rfl⟩ := isThere isDirectory
    exact (nodes entry member).2 isDirectory
  · intro d name c isName child
    cases isFile isName child
  · intro d e name other c isName _ child _
    cases isFile isName child
  · intro d name n isName child
    rw [isFile isName child]
    decide
  · intro id n isNode
    obtain ⟨entry, member, rfl⟩ := isThere isNode
    exact (nodes entry member).1

set_option maxRecDepth 100000 in
/-- The file can be moved to a free name. -/
theorem movable_loneFile : loneFile.dbs.Movable (pathOf [str "f"]) (pathOf [str "g"]) := by
  have found : loneFile.dbs.resolve Dbs.superuser (pathOf [str "f"]) = .ok ⟨1, .file⟩ := by
    decide +kernel
  have missing : loneFile.dbs.resolve Dbs.superuser (pathOf [str "g"]) = .error .notFound := by
    decide +kernel
  have counted : loneFile.dbs.attr UInt32 1 .nlink = .ok 1 := by decide +kernel
  constructor
  · intro src nlink isSrc _ isCount
    rw [found] at isSrc
    cases isSrc
    rw [counted] at isCount
    cases isCount
    decide
  · intro src r nlink _ isDst
    rw [missing] at isDst
    cases isDst

/-- A rename in a tree that returns zero moves the subtree, changes what the paths beneath lead
to accordingly and nothing else, exactly when no count of links is read as a negative number. -/
theorem FS.rename_moves_iff {fs : FS} {ctx : Context} {sctx : SContext} {world : World}
    {os ns : List Bytes} {old new : Bytes} (null : fs.pcache = PathCache_null)
    (caller : ctx.sctx = some sctx) (tree : world.dbs.Tree) (oldNormal : Normal (os ++ [old]))
    (newNormal : Normal (ns ++ [new]))
    (beneath : ¬ os ++ [old] <+: ns ++ [new])
    (returns : (exec (fs.rename ctx (pathOf (os ++ [old])) (pathOf (ns ++ [new]))) world).1 =
      .ok 0) :
    Dbs.Renamed sctx os old ns new world.dbs
        (exec (fs.rename ctx (pathOf (os ++ [old])) (pathOf (ns ++ [new]))) world).2.dbs ↔
      world.dbs.Movable (pathOf (os ++ [old])) (pathOf (ns ++ [new])) := by
  obtain ⟨s, d, src, dst, aimed, moved, searches⟩ :=
    rename_aims null caller tree oldNormal newNormal beneath returns
  constructor
  · exact aimed.movable_of_renamed moved
  · intro movable
    exact aimed.renamed moved movable searches

set_option maxRecDepth 100000 in
theorem FS.rename_moves_loneFile :
    Dbs.Renamed rootContext.caller [] (str "f") [] (str "g") loneFile.dbs
      (exec (uncached.rename rootContext (pathOf ([] ++ [str "f"])) (pathOf ([] ++ [str "g"])))
        loneFile).2.dbs :=
  (FS.rename_moves_iff rfl rfl tree_loneFile (by decide +kernel) (by decide +kernel)
    (by decide +kernel) (by decide +kernel)).mpr movable_loneFile

/-! ## A file with too many names -/

theorem crowdName_isName (k : Nat) : IsName (crowdName k) := by
  constructor
  · exact fun same => absurd (List.cons.inj same).1 (by decide)
  · exact fun same => absurd (List.cons.inj same).1 (by decide)

/-- Renaming a file to a free name succeeds. -/
theorem FS.rename_returns {fs : FS} {ctx : Context} {sctx : SContext} {world : World}
    {oldpath newpath : Bytes} {s d : UInt64} {n : NodeRef} {nlink : UInt32}
    (null : fs.pcache = PathCache_null) (caller : ctx.sctx = some sctx)
    (srcParent : world.dbs.Parent sctx oldpath s) (dstParent : world.dbs.Parent sctx newpath d)
    (granted : world.dbs.access s sctx (xOk ||| wOk) = .ok ())
    (grantedDst : world.dbs.access d sctx (xOk ||| wOk) = .ok ())
    (child : world.dbs.getchild s (leafOf oldpath) = .ok n) (isFile : n.kind ≠ .directory)
    (allowed : world.dbs.checkStickyBit sctx s n.id = .ok ())
    (counted : world.dbs.attr UInt32 n.id .nlink = .ok nlink)
    (free : world.dbs.get .directories d (leafOf newpath) = none) :
    (exec (fs.rename ctx oldpath newpath) world).1 = .ok 0 := by
  obtain ⟨mode, isMode, kind⟩ := Dbs.getnode_eq_ok_iff.mp (Dbs.getchild_ok_getnode child)
  have notDirectory : sIsdir mode = false := by
    by_contra isDirectory
    apply isFile
    rw [kind]
    exact kindOfMode_eq_directory_iff.mpr (Bool.not_eq_false _ ▸ isDirectory)
  have apart : ¬ (s = d ∧ leafOf oldpath = leafOf newpath) := by
    rintro ⟨rfl, same⟩
    rw [same, Dbs.getchild_eq_ok_iff, free] at child
    cases child.1
  have found : Warrant.destination world.dbs d (leafOf newpath) = .ok none := by
    rw [Warrant.destination, Dbs.getchild, Dbs.getattr, free]
  let stamped := world.tick.withDbs (world.dbs.setattr n.id .ctime world.now)
  have stillCounted : stamped.dbs.attr UInt32 n.id .nlink = .ok nlink := by
    rw [World.withDbs_dbs, Dbs.attr_setattr_of_ne _ (.inr (by decide)), counted]
  have stillFree : stamped.dbs.get .directories d (leafOf newpath) = none := by
    rw [World.withDbs_dbs, Dbs.get_directories_setattr, free]
  have adds := Directory.exec_addchild (d := ⟨d, .directory⟩) stillCounted stillFree
  have modes : Dbs.Alters (fun _ _ => True) (fun _ => False) world.dbs
      (stamped.dbs.entered d (leafOf newpath) n.id nlink) :=
    (Dbs.Alters.setattr (fun lasting => lasting.1 rfl) world.now).trans (.entered trivial)
  let entered := stamped.withDbs (stamped.dbs.entered d (leafOf newpath) n.id nlink)
  have stillChild : entered.dbs.getchild s (leafOf oldpath) = .ok n := by
    obtain ⟨entry, isNode⟩ := Dbs.getchild_eq_ok_iff.mp child
    apply Dbs.getchild_eq_ok_iff.mpr
    rw [World.withDbs_dbs, Dbs.get_directories_entered, if_neg apart, World.withDbs_dbs,
      Dbs.get_directories_setattr]
    exact ⟨entry, (modes.getnode id).trans isNode⟩
  obtain ⟨after, deletes, -⟩ := Directory.exec_delchild (d := ⟨s, .directory⟩)
    stillChild (Dbs.attr_entered_self _ _ _ _)
  have drops : exec (PathCache.invalidate PathCache_null oldpath) world = (.ok (), world) := rfl
  have keeps : exec (fs.removeDestination sctx newpath ⟨⟨d, .directory⟩, leafOf newpath⟩ n none)
      world = (.ok none, world) := rfl
  have turns : exec (moveDotDot n ⟨d, .directory⟩) world = (.ok (), world) := by
    simp only [moveDotDot, exec_bind, Node.exec_getattr, isMode, Outcome.ofExcept_ok,
      Outcome.andThen_ok, notDirectory, Bool.false_eq_true, if_false, exec_pure]
  rw [rename_eq, exec_request, caller]
  simp only [null, exec_bind, Path.exec_resolve_null srcParent, Path.exec_resolve_null dstParent,
    Outcome.andThen_ok, Directory.exec_getchild, child, Outcome.ofExcept_ok,
    Warrant.exec_findchild]
  simp only [found, Outcome.ofExcept_ok, Outcome.andThen_ok, Option.isSome_none,
    Bool.false_eq_true, false_and, if_false, relink, exec_bind, Node.exec_access, granted,
    grantedDst, exec_checkStickyBit, allowed]
  simp only [keeps, Outcome.andThen_ok]
  simp only [exec_bind]
  -- the steps after the checks run one after another
  rw [turns, Outcome.andThen_ok, null, drops, Outcome.andThen_ok, Node.exec_setTime,
    Outcome.andThen_ok, adds, Outcome.andThen_ok, deletes, Outcome.andThen_ok]
  rfl

/-- A crowd of names for the file keeps the tree. -/
theorem exists_crowded_tree (k : Nat) (small : k < 2 ^ 32 - 1) : ∃ world,
    Reaches (World.after uncached) World.Ordinary mountedWorld world ∧ world.dbs.Crowded k ∧
      world.dbs.Tree := by
  induction k with
  | zero =>
      have idsLeft : mountedWorld.dbs.nodes.IdsLeft := Db.idsLeft_of_keys (by decide +kernel)
      exact ⟨loneFile, .step _ .start ⟨fun both => both.2, idsLeft⟩, crowded_loneFile,
        tree_loneFile⟩
  | succ k ih =>
      obtain ⟨world, reached, crowded, tree⟩ := ih (by omega)
      obtain ⟨-, linked, more⟩ := crowded.linking
      refine ⟨_, .step (crowdCall k) reached ⟨fun both => both.2, crowded.idsLeft⟩, more, ?_⟩
      have fits : k + 1 < UInt32.size := by
        unfold UInt32.size
        omega
      have size : (UInt32.ofNat (k + 1)).toNat = k + 1 := UInt32.toNat_ofNat_of_lt' fits
      exact tree.linked linked crowded.root crowded.file nofun (crowdName_isName k) crowded.counted
        (by omega)

/-- A file with 2^31 names is lost when one of them is changed. -/
theorem FS.rename_crowd_lost : ∃ world new,
    Reaches (World.after uncached) World.Ordinary mountedWorld world ∧ world.dbs.Tree ∧
      Normal [new] ∧ ¬ [str "f"] <+: [new] ∧
      (exec (uncached.rename rootContext (pathOf [str "f"]) (pathOf [new])) world).1 = .ok 0 ∧
      ¬ Dbs.Renamed rootContext.caller [] (str "f") [] new world.dbs
        (exec (uncached.rename rootContext (pathOf [str "f"]) (pathOf [new])) world).2.dbs := by
  obtain ⟨k, size⟩ : ∃ k, k + 1 = 2 ^ 31 := ⟨2 ^ 31 - 1, by decide⟩
  obtain ⟨world, reached, crowded, tree⟩ := exists_crowded_tree k (by omega)
  have newNormal : Normal ([] ++ [crowdName k]) := by
    intro name member
    rw [List.mem_singleton.mp member]
    exact ⟨⟨crowdName_ne_nil k, slash_notMem_crowdName k⟩, crowdName_isName k⟩
  have oldNormal : Normal ([] ++ [str "f"]) := by decide
  have apart : ¬ [] ++ [str "f"] <+: [] ++ [crowdName k] := by
    rintro ⟨rest, same⟩
    exact absurd (List.cons.inj (List.cons.inj same).1).1 (by decide)
  have oldPath : pathOf [str "f"] = slash :: str "f" := by decide
  have newPath : pathOf [crowdName k] = slash :: crowdName k := by
    rw [pathOf, List.flatMap_cons, List.flatMap_nil, List.append_nil]
  have oldLeaf : leafOf (pathOf [str "f"]) = str "f" := by decide
  have free : world.dbs.get .directories 0 (leafOf (pathOf [crowdName k])) = none := by
    rw [newPath, leafOf_crowd, crowded.free k le_rfl]
  have child : world.dbs.getchild 0 (leafOf (pathOf [str "f"])) = .ok ⟨1, .file⟩ := by
    rw [oldLeaf, crowded.child]
  have returns : (exec (uncached.rename rootContext (pathOf [str "f"]) (pathOf [crowdName k]))
      world).1 = .ok 0 :=
    FS.rename_returns rfl rfl (oldPath ▸ crowded.parent (by decide) (by decide))
      (newPath ▸ crowded.parent (crowdName_ne_nil k) (slash_notMem_crowdName k)) rfl rfl child
      (by decide) (Dbs.checkStickyBit_root rfl crowded.root) crowded.counted free
  refine ⟨world, crowdName k, reached, tree, newNormal, apart, returns, ?_⟩
  intro renamed
  obtain ⟨s, d, src, dst, aimed, moved, -⟩ :=
    FS.rename_aims rfl rfl tree oldNormal newNormal apart returns
  have movable := aimed.movable_of_renamed moved renamed
  have isRoot : world.dbs.resolve Dbs.superuser (pathOf []) = .ok ⟨0, .directory⟩ := by
    rw [tree.resolve_eq .nil]
    rfl
  have isOld : world.dbs.resolve Dbs.superuser (pathOf ([] ++ [str "f"])) = .ok ⟨1, .file⟩ := by
    rw [tree.resolve_superuser_concat oldNormal isRoot, crowded.child]
  have isNew : world.dbs.resolve Dbs.superuser (pathOf ([] ++ [crowdName k])) ≠ .ok ⟨1, .file⟩ := by
    rw [tree.resolve_superuser_concat newNormal isRoot]
    intro found
    rw [Dbs.getchild_eq_ok_iff, crowded.free k le_rfl] at found
    cases found.1
  have positive := movable.source _ _ isOld isNew crowded.counted
  rw [size] at positive
  exact absurd toCInt_crowd (Int.not_le.mpr positive)

end OfflineFs
