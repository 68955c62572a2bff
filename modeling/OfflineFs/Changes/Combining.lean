import OfflineFs.Changes.Refusals
import OfflineFs.Changes.Withdrawing

/-!
# What single changes amount to

The entries that come and go in a request, taken together, are a name that comes, goes or
moves in the hierarchy.
-/

namespace OfflineFs

open OfflineFs.Effect OfflineFs.Transition

namespace Dbs

variable {dbs before middle after last : Dbs} {s d e c id dir : UInt64}
variable {name leaf old new : Bytes} {n m src : NodeRef} {kind : NodeKind} {p : Path}

/-- Two entries of a node count. -/
theorem two_le_refs (first : dbs.get .directories d name = some (hostToDb id))
    (second : dbs.get .directories e leaf = some (hostToDb id)) (apart : ¬ (e = d ∧ leaf = name)) :
    2 ≤ dbs.refs id := by
  have one := refs_del id first
  have other : (dbs.del .directories d name).get .directories e leaf = some (hostToDb id) := by
    rw [get_del, if_neg, second]
    rintro ⟨-, rfl, rfl⟩
    exact apart ⟨rfl, rfl⟩
  have remains := refs_pos_of_entry other
  rw [if_pos rfl] at one
  omega

/-- A node with another entry stays. -/
theorem Parted.getnode_of_two (parted : before.Parted d name id after) (two : 2 ≤ before.refs id)
    (other : UInt64) : after.getnode other = before.getnode other := by
  rw [parted.getnode, if_neg]
  rintro ⟨-, isLast⟩
  omega

theorem Parted.alike_left (alike : before.Alike middle) (parted : middle.Parted d name id after) :
    before.Parted d name id after where
  present := by rw [← alike.entries, parted.present]
  entries dir leaf := by rw [parted.entries, alike.entries]
  getnode other := by rw [parted.getnode, alike.refs, alike.getnode]
  links other := by rw [parted.links, alike.links]

theorem Joined.alike_left (alike : before.Alike middle) (joined : middle.Joined d name id after) :
    before.Joined d name id after where
  free := by rw [← alike.entries, joined.free]
  entries dir leaf := by rw [joined.entries, alike.entries]
  getnode other := by rw [joined.getnode, alike.getnode]
  links other := by rw [joined.links, alike.links]

/-! ## New nodes -/

namespace Hierarchy

variable (hierarchy : before.Hierarchy)

include hierarchy

/-- Every directory with entries is a node. -/
theorem directoriesOfNodes : before.DirectoriesOfNodes := by
  intro id name present
  obtain ⟨value, stored⟩ := Option.ne_none_iff_exists'.mp present
  obtain ⟨mode, isMode, -⟩ := getnode_eq_ok_iff.mp (hierarchy.directory_of_entry stored)
  refine ⟨Attr.mode.name, ?_⟩
  rw [getattr_eq_ok_iff.mp isMode]
  exact Option.some_ne_none _

variable (idsLeft : before.nodes.IdsLeft)

include idsLeft

theorem not_node_nextId (n : NodeRef) : before.getnode before.nodes.nextId ≠ .ok n := by
  intro isNode
  obtain ⟨mode, isMode, -⟩ := getnode_eq_ok_iff.mp isNode
  have stored := getattr_eq_ok_iff.mp isMode
  rw [get_nextId idsLeft hierarchy.directoriesOfNodes] at stored
  cases stored

theorem ne_nextId (isNode : before.getnode d = .ok n) : d ≠ before.nodes.nextId := by
  rintro rfl
  exact hierarchy.not_node_nextId idsLeft n isNode

theorem refs_nextId : before.refs before.nodes.nextId = 0 := by
  by_contra named
  obtain ⟨dir, leaf, stored⟩ := refs_pos_iff.mp (Nat.pos_of_ne_zero named)
  obtain ⟨m, -, same, isNode⟩ := hierarchy.child_of_entry stored
  rw [hostToDb_inj] at same
  exact hierarchy.not_node_nextId idsLeft m (same ▸ isNode)

omit idsLeft in
/-- A name that is free in a directory is neither of its own. -/
theorem isName_of_free (directory : before.getnode d = .ok ⟨d, .directory⟩)
    (free : before.get .directories d name = none) : IsName name := by
  constructor
  · rintro rfl
    rw [hierarchy.tree.dot directory] at free
    cases free
  · rintro rfl
    obtain ⟨e, up, -⟩ := hierarchy.exists_up directory
    rw [up] at free
    cases free

omit idsLeft in
/-- The name of a file is neither of those of a directory. -/
theorem isName_of_file (child : before.getchild d name = .ok n) (isFile : n.kind ≠ .directory) :
    IsName name := by
  obtain ⟨stored, isNode⟩ := getchild_eq_ok_iff.mp child
  have directory := hierarchy.directory_of_entry stored
  constructor
  · rintro rfl
    rw [hierarchy.eq_of_self stored, directory] at isNode
    exact isFile (congrArg NodeRef.kind (Except.ok.inj isNode)).symm
  · rintro rfl
    obtain ⟨e, up, upNode⟩ := hierarchy.exists_up directory
    rw [stored, Option.some.injEq, hostToDb_inj] at up
    rw [up, upNode] at isNode
    exact isFile (congrArg NodeRef.kind (Except.ok.inj isNode)).symm

end Hierarchy

/-- What is left of other nodes when one was made. -/
theorem getnode_of_spares {region : UInt64 → Bytes → Prop} (spares : Spares region before after)
    (outside : ¬ region id Attr.mode.name) : after.getnode id = before.getnode id :=
  getnode_congr (spares _ _ outside)

theorem links_of_spares {region : UInt64 → Bytes → Prop} (spares : Spares region before after)
    (outside : ¬ region id Attr.nlink.name) : after.links id = before.links id :=
  links_congr (spares _ _ outside)

theorem not_newborn (other : id ≠ before.nodes.nextId) {attr : Attr} (notCtime : attr ≠ .ctime)
    (notMtime : attr ≠ .mtime) : ¬ before.Newborn d id attr.name := by
  rintro (isNew | ⟨-, same | same⟩)
  · exact other isNew
  · exact notCtime (Attr.name_inj.mp same)
  · exact notMtime (Attr.name_inj.mp same)

theorem Gained.alike_right (gained : before.Gained d name n middle) (alike : middle.Alike after) :
    before.Gained d name n after where
  directory := gained.directory
  isName := gained.isName
  spelled := gained.spelled
  isFile := gained.isFile
  found := gained.found
  free := gained.free
  entries dir leaf := by rw [alike.entries, gained.entries]
  getnode id := by rw [alike.getnode, gained.getnode]
  links id := by rw [alike.links, gained.links]

theorem Founded.alike_right (founded : before.Founded d name id middle)
    (alike : middle.Alike after) : before.Founded d name id after where
  directory := founded.directory
  isName := founded.isName
  spelled := founded.spelled
  fresh := founded.fresh
  free := founded.free
  entries dir leaf := by rw [alike.entries, founded.entries]
  getnode other := by rw [alike.getnode, founded.getnode]
  links other := by rw [alike.links, founded.links]

section Entered

variable (entered : Offimport.Entered before p kind after)

include entered

theorem spares_of_entered : Spares (fun id _ => id = before.nodes.nextId) before after := by
  obtain ⟨-, atime, mtime, ctime, -, rfl⟩ := entered
  exact (spares_made (fun _ => rfl) atime mtime ctime kind).trans (spares_entered rfl)

/-- A new node has its class at once, unless it is a neutral one. -/
theorem getnode_of_entered (classed : kind ≠ .node) :
    after.getnode before.nodes.nextId = .ok ⟨before.nodes.nextId, kind⟩ := by
  obtain ⟨-, atime, mtime, ctime, -, rfl⟩ := entered
  rw [getnode_congr (get_nodes_entered _ _ _ _ (by decide)), getnode_eq_ok_iff]
  cases kind with
  | node => exact absurd rfl classed
  | file => exact ⟨sIfreg, attr_setattr_self _ _ _ _, congrArg _ (by decide)⟩
  | directory =>
      refine ⟨sIfdir, ?_, congrArg _ (by decide)⟩
      rw [made, attr_congr (get_nodes_entered _ _ _ _ (by decide)), typed, attr_setattr_self]
  | symlink =>
      refine ⟨sIflnk, ?_, congrArg _ (by decide)⟩
      rw [made, attr_congr (get_put_of_ne (.inr (by decide))), typed, attr_setattr_self]

end Entered

section Files

variable (hierarchy : before.Hierarchy)

include hierarchy

/-- A node was made and entered, and has a class now. -/
theorem Named.gained (named : before.Named d leaf after) (idsLeft : before.nodes.IdsLeft)
    (directory : before.getnode d = .ok ⟨d, .directory⟩) (spelled : leaf ≠ [] ∧ slash ∉ leaf)
    (isNode : after.getnode before.nodes.nextId = .ok ⟨before.nodes.nextId, kind⟩)
    (isFile : kind ≠ .directory) : before.Gained d leaf ⟨before.nodes.nextId, kind⟩ after where
  directory := directory
  isName := hierarchy.isName_of_free directory named.free
  spelled := spelled
  isFile := isFile
  found := .inr (hierarchy.not_node_nextId idsLeft)
  free := named.free
  entries := named.entries
  getnode id := by
    split
    · rename_i same
      rw [same, isNode]
    · rename_i other
      exact getnode_of_spares named.others (not_newborn other (by decide) (by decide))
  links id := by
    split
    · rename_i same
      rw [same, hierarchy.balanced, hierarchy.refs_nextId idsLeft, links_eq named.counted]
      rfl
    · rename_i other
      exact links_of_spares named.others (not_newborn other (by decide) (by decide))

/-- A file got another name. -/
theorem Joined.gained (joined : before.Joined d name n.id after)
    (directory : before.getnode d = .ok ⟨d, .directory⟩) (spelled : name ≠ [] ∧ slash ∉ name)
    (isNode : before.getnode n.id = .ok n) (isFile : n.kind ≠ .directory) :
    before.Gained d name n after where
  directory := directory
  isName := hierarchy.isName_of_free directory joined.free
  spelled := spelled
  isFile := isFile
  found := .inl isNode
  free := joined.free
  entries := joined.entries
  getnode id := by
    rw [joined.getnode]
    split
    · rename_i same
      rw [same, isNode]
    · rfl
  links := joined.links

/-- A directory was made and entered, and knows its parent now. -/
theorem founded (idsLeft : before.nodes.IdsLeft)
    (directory : before.getnode p.parent.id = .ok ⟨p.parent.id, .directory⟩)
    (spelled : p.leaf ≠ [] ∧ slash ∉ p.leaf)
    (entered : Offimport.Entered before p .directory middle)
    (joined : middle.Joined before.nodes.nextId (str "..") p.parent.id after) :
    before.Founded p.parent.id p.leaf before.nodes.nextId after := by
  have isNode := getnode_of_entered entered (by decide)
  have spares := spares_of_entered entered
  have apart := hierarchy.ne_nextId idsLeft directory
  obtain ⟨unused, atime, mtime, ctime, free, rfl⟩ := entered
  have freeBefore : before.get .directories p.parent.id p.leaf = none := by
    rw [get_directories_made, if_neg fun both => apart both.2.1] at free
    exact free
  constructor
  · exact directory
  · exact hierarchy.isName_of_free directory freeBefore
  · exact spelled
  · exact hierarchy.not_node_nextId idsLeft
  · exact freeBefore
  · intro dir leaf
    rw [joined.entries, get_directories_entered, get_directories_made]
    simp only [true_and]
  · intro other
    rw [joined.getnode]
    split
    · rename_i same
      rw [same, isNode]
    · rename_i notNew
      exact getnode_of_spares spares notNew
  · intro other
    rw [joined.links]
    by_cases isNew : other = before.nodes.nextId
    · rw [if_pos isNew, if_neg fun isParent => apart (isParent.symm.trans isNew), isNew,
        links_entered, if_pos rfl]
      rfl
    · rw [if_neg isNew, links_of_spares spares isNew]

/-- A new directory has no parent yet. -/
theorem up_of_entered (idsLeft : before.nodes.IdsLeft)
    (directory : before.getnode p.parent.id = .ok ⟨p.parent.id, .directory⟩)
    (entered : Offimport.Entered before p .directory after) :
    after.get .directories before.nodes.nextId (str "..") = none := by
  obtain ⟨-, atime, mtime, ctime, -, rfl⟩ := entered
  have apart := hierarchy.ne_nextId idsLeft directory
  rw [get_directories_entered, if_neg fun both => apart both.1.symm, get_directories_made,
    if_neg fun both => absurd both.2.2 (by decide), get_nextId idsLeft hierarchy.directoriesOfNodes]

end Files

/-! ## Names that go -/

section Dropping

theorem Dropped.alike_right (dropped : before.Dropped d name n middle)
    (alike : middle.Alike after) :
    before.Dropped d name n after where
  child := dropped.child
  isName := dropped.isName
  bare := dropped.bare
  entries dir leaf := by rw [alike.entries, dropped.entries]
  getnode id := by rw [alike.getnode, dropped.getnode]
  balanced := alike.balanced dropped.balanced
  fewer isFile := by rw [alike.refs, dropped.fewer isFile]

/-- A file lost a name. -/
theorem Parted.dropped (parted : before.Parted d name n.id after)
    (child : before.getchild d name = .ok n) (isName : IsName name) (isFile : n.kind ≠ .directory)
    (balanced : before.Balanced) : before.Dropped d name n after where
  child := child
  isName := isName
  bare isDirectory := absurd isDirectory isFile
  entries dir leaf := by
    rw [parted.entries]
    simp only [isFile, false_and, or_false]
  getnode id := by
    rw [parted.getnode]
    simp only [isFile, false_or]
  balanced := parted.balanced balanced
  fewer _ := by rw [parted.refs, if_pos rfl]

/-- A directory lost its own entries, and had no others. -/
structure Emptied (before : Dbs) (c : UInt64) (after : Dbs) : Prop where
  entries : ∀ dir leaf, after.get .directories dir leaf =
    if dir = c then none else before.get .directories dir leaf
  getnode : ∀ id, after.getnode id = before.getnode id
  balanced : after.Balanced
  single : after.refs c = 1
  fewer : ∀ id, after.refs id ≤ before.refs id

theorem Emptied.alike_right (emptied : before.Emptied c middle) (alike : middle.Alike after) :
    before.Emptied c after where
  entries dir leaf := by rw [alike.entries, emptied.entries]
  getnode id := by rw [alike.getnode, emptied.getnode]
  balanced := alike.balanced emptied.balanced
  single := by rw [alike.refs, emptied.single]
  fewer id := by
    rw [alike.refs]
    exact emptied.fewer id

variable (hierarchy : before.Hierarchy) (child : before.getchild d name = .ok ⟨c, .directory⟩)
variable (isName : IsName name)

include hierarchy child isName

omit isName in
theorem Hierarchy.own_child : before.getchild c (str ".") = .ok ⟨c, .directory⟩ := by
  have isNode := getchild_ok_getnode child
  exact getchild_eq_ok_iff.mpr ⟨hierarchy.tree.dot isNode, isNode⟩

theorem Hierarchy.up_child : before.getchild c (str "..") = .ok ⟨d, .directory⟩ :=
  getchild_eq_ok_iff.mpr ⟨hierarchy.tree.dotdot isName child,
    hierarchy.directory_of_entry (getchild_eq_ok_iff.mp child).1⟩

/-- A directory has its own entry and its name. -/
theorem Hierarchy.two_le_refs_child : 2 ≤ before.refs c := by
  apply two_le_refs (getchild_eq_ok_iff.mp child).1
    (hierarchy.tree.dot (getchild_ok_getnode child))
  rintro ⟨-, same⟩
  exact isName.1 same.symm

/-- The parent of a directory has its own entry and the one of the directory. -/
theorem Hierarchy.two_le_refs_parent : 2 ≤ before.refs d := by
  apply two_le_refs (hierarchy.tree.dotdot isName child)
    (hierarchy.tree.dot (hierarchy.directory_of_entry (getchild_eq_ok_iff.mp child).1))
  rintro ⟨-, same⟩
  exact absurd same (by decide)

theorem Hierarchy.parent_ne : d ≠ c := by
  rintro rfl
  have up := hierarchy.tree.dotdot isName child
  rcases hierarchy.up_cases up with ⟨isRoot, -⟩ | ⟨-, other, isOther, again⟩
  · exact hierarchy.tree.top isName child isRoot
  · obtain ⟨names, leads⟩ := hierarchy.reached (getchild_ok_getnode child)
    have longer : before.Leads (names ++ [name]) ⟨d, .directory⟩ :=
      leads_concat.mpr ⟨_, leads, rfl, isName, child⟩
    have same := hierarchy.tree.unique rfl leads longer
    exact absurd (List.append_right_eq_self.mp same.symm) (List.cons_ne_nil name [])

section Own

variable (own : before.Parted c (str ".") c middle)

include own

/-- The entry for the parent is still there, and the parent has its own. -/
theorem Hierarchy.up_child_own : middle.getchild c (str "..") = .ok ⟨d, .directory⟩ := by
  obtain ⟨stored, isNode⟩ := getchild_eq_ok_iff.mp (hierarchy.up_child child isName)
  have two := hierarchy.two_le_refs_child child isName
  rw [getchild_eq_ok_iff, own.entries, if_neg fun site => absurd site.2 (by decide), stored,
    own.getnode_of_two two, isNode]
  exact ⟨rfl, rfl⟩

theorem Hierarchy.two_le_refs_own : 2 ≤ middle.refs d := by
  rw [own.refs, if_neg (hierarchy.parent_ne child isName)]
  exact hierarchy.two_le_refs_parent child isName

/-- Both entries of its own are gone. -/
theorem Hierarchy.emptied (bare : ∀ leaf, IsName leaf → before.get .directories c leaf = none)
    (up : middle.Parted c (str "..") d after) : before.Emptied c after := by
  have entries : ∀ dir leaf, after.get .directories dir leaf =
      if dir = c then none else before.get .directories dir leaf := by
    intro dir leaf
    rw [up.entries, own.entries]
    by_cases inside : dir = c
    · rw [if_pos inside, inside]
      by_cases isUp : leaf = str ".."
      · rw [if_pos ⟨rfl, isUp⟩]
      · rw [if_neg fun site => isUp site.2]
        by_cases isOwn : leaf = str "."
        · rw [if_pos ⟨rfl, isOwn⟩]
        · rw [if_neg fun site => isOwn site.2, bare leaf ⟨isOwn, isUp⟩]
    · rw [if_neg inside, if_neg fun site => inside site.1, if_neg fun site => inside site.1]
  constructor
  · exact entries
  · intro id
    rw [up.getnode_of_two (hierarchy.two_le_refs_own child isName own),
      own.getnode_of_two (hierarchy.two_le_refs_child child isName)]
  · exact up.balanced (own.balanced hierarchy.balanced)
  · -- another entry would be a second name, or that of a directory beneath
    have outside := hierarchy.parent_ne child isName
    have named : after.get .directories d name = some (hostToDb c) := by
      rw [entries, if_neg outside, (getchild_eq_ok_iff.mp child).1]
    have one := refs_del c named
    rw [if_pos rfl] at one
    have others : (after.del .directories d name).refs c = 0 := by
      by_contra remains
      obtain ⟨dir, leaf, stored⟩ := refs_pos_iff.mp (Nat.pos_of_ne_zero remains)
      rw [get_del] at stored
      split at stored
      · cases stored
      · rename_i notSite
        rw [entries] at stored
        split at stored
        · cases stored
        · rename_i notInside
          by_cases isLeaf : IsName leaf
          · have again : before.getchild dir leaf = .ok ⟨c, .directory⟩ :=
              getchild_eq_ok_iff.mpr ⟨stored, getchild_ok_getnode child⟩
            obtain ⟨rfl, rfl⟩ := hierarchy.tree.parent isName isLeaf child again
            exact notSite ⟨rfl, rfl, rfl⟩
          · by_cases isOwn : leaf = str "."
            · subst isOwn
              exact notInside (hierarchy.eq_of_self stored).symm
            · have isUp : leaf = str ".." := not_not.mp fun other => isLeaf ⟨isOwn, other⟩
              subst isUp
              rcases hierarchy.up_cases stored with ⟨-, isRoot⟩ | ⟨-, inside, isInside, below⟩
              · exact hierarchy.tree.top isName child isRoot
              · have absent := bare inside isInside
                rw [(getchild_eq_ok_iff.mp below).1] at absent
                cases absent
    omega
  · intro id
    rw [up.refs, own.refs]
    omega

end Own

variable (emptied : before.Emptied c middle)

include emptied

theorem Hierarchy.child_emptied : middle.getchild d name = .ok ⟨c, .directory⟩ := by
  obtain ⟨stored, isNode⟩ := getchild_eq_ok_iff.mp child
  rw [getchild_eq_ok_iff, emptied.entries, if_neg (hierarchy.parent_ne child isName),
    emptied.getnode]
  exact ⟨stored, isNode⟩

omit hierarchy in
/-- An empty directory lost its name. -/
theorem Emptied.dropped (bare : ∀ leaf, IsName leaf → before.get .directories c leaf = none)
    (parted : middle.Parted d name c after) : before.Dropped d name ⟨c, .directory⟩ after where
  child := child
  isName := isName
  bare _ := bare
  entries dir leaf := by
    rw [parted.entries, emptied.entries]
    by_cases inside : dir = c
    · rw [if_pos inside, ite_self, if_pos]
      exact .inr ⟨rfl, inside⟩
    · simp only [inside, and_false, or_false, if_false]
  getnode id := by
    rw [parted.getnode, emptied.single, emptied.getnode]
    simp only [and_true, true_or]
  balanced := parted.balanced emptied.balanced
  fewer isFile := absurd rfl isFile

end Dropping

/-! ## Names that move -/

/-- The entry of a directory for its parent leads to another directory. -/
structure Rehung (before : Dbs) (src : NodeRef) (d : UInt64) (after : Dbs) : Prop where
  entries : ∀ dir leaf, after.get .directories dir leaf =
    if src.kind = .directory ∧ dir = src.id ∧ leaf = str ".." then some (hostToDb d)
    else before.get .directories dir leaf
  getnode : ∀ id, after.getnode id = before.getnode id
  balanced : after.Balanced

theorem Rehung.alike_right (rehung : before.Rehung src d middle)
    (alike : middle.Alike after) : before.Rehung src d after where
  entries dir leaf := by rw [alike.entries, rehung.entries]
  getnode id := by rw [alike.getnode, rehung.getnode]
  balanced := alike.balanced rehung.balanced

section Moving

variable (hierarchy : before.Hierarchy)

include hierarchy

/-- A file has no parent to find. -/
theorem Hierarchy.rehung_file (isFile : src.kind ≠ .directory) :
    before.Rehung src d before where
  entries dir leaf := by rw [if_neg fun both => isFile both.1]
  getnode _ := rfl
  balanced := hierarchy.balanced

variable (child : before.getchild s old = .ok src) (isName : IsName old)

include child isName

theorem Hierarchy.rehung (isDirectory : src.kind = .directory)
    (parted : before.Parted src.id (str "..") s middle)
    (joined : middle.Joined src.id (str "..") d after) : before.Rehung src d after where
  entries dir leaf := by
    rw [joined.entries, parted.entries]
    simp only [isDirectory, true_and]
    split <;> rfl
  getnode id := by
    have isDir : src = ⟨src.id, .directory⟩ := by rw [← isDirectory]
    rw [isDir] at child
    rw [joined.getnode, parted.getnode_of_two (hierarchy.two_le_refs_parent child isName)]
  balanced := joined.balanced (parted.balanced hierarchy.balanced)

end Moving

namespace Rehung

variable (rehung : before.Rehung src d middle) (newName : IsName new)

include rehung newName

theorem free (free : before.get .directories d new = none) :
    middle.get .directories d new = none := by
  rw [rehung.entries, if_neg fun both => newName.2 both.2.2, free]

variable (child : before.getchild s old = .ok src) (isName : IsName old)

include child isName

/-- The old name is still there when there is the new one. -/
theorem child_joined (free : before.get .directories d new = none)
    (joined : middle.Joined d new src.id after) :
    after.getchild s old = .ok src ∧ 2 ≤ after.refs src.id := by
  obtain ⟨stored, isNode⟩ := getchild_eq_ok_iff.mp child
  have apart : ¬ (s = d ∧ old = new) := by
    rintro ⟨rfl, rfl⟩
    rw [free] at stored
    cases stored
  have still : after.get .directories s old = some (hostToDb src.id) := by
    rw [joined.entries, if_neg apart, rehung.entries, if_neg fun both => isName.2 both.2.2, stored]
  have arrived : after.get .directories d new = some (hostToDb src.id) := by
    rw [joined.entries, if_pos ⟨rfl, rfl⟩]
  constructor
  · rw [getchild_eq_ok_iff, joined.getnode, rehung.getnode]
    exact ⟨still, isNode⟩
  · exact two_le_refs arrived still apart

/-- A node entered at the new name and left at the old one is shifted. -/
theorem shifted (directory : before.getnode d = .ok ⟨d, .directory⟩)
    (spelled : new ≠ [] ∧ slash ∉ new) (free : before.get .directories d new = none)
    (joined : middle.Joined d new src.id after) (parted : after.Parted s old src.id last) :
    before.Shifted s old d new src last where
  child := child
  oldName := isName
  directory := directory
  newName := newName
  spelled := spelled
  free := free
  entries dir leaf := by rw [parted.entries, joined.entries, rehung.entries]
  getnode id := by
    rw [parted.getnode_of_two (rehung.child_joined newName child isName free joined).2,
      joined.getnode, rehung.getnode]
  balanced := parted.balanced (joined.balanced rehung.balanced)

end Rehung

theorem Shifted.alike_right (shifted : before.Shifted s old d new src middle)
    (alike : middle.Alike after) : before.Shifted s old d new src after where
  child := shifted.child
  oldName := shifted.oldName
  directory := shifted.directory
  newName := shifted.newName
  spelled := shifted.spelled
  free := shifted.free
  entries dir leaf := by rw [alike.entries, shifted.entries]
  getnode id := by rw [alike.getnode, shifted.getnode]
  balanced := alike.balanced shifted.balanced

end Dbs

end OfflineFs
