import OfflineFs.Changes.Reshaping

/-!
# Names that go and names that move

A file loses a name, and is gone with its last.  A directory goes when it has nothing but
its own entries.  A node that moves has its new name before it loses the old one.
-/

namespace OfflineFs

open OfflineFs.Effect OfflineFs.Transition

namespace Dbs

variable {before after : Dbs} {s d id dir : UInt64} {name old new leaf : Bytes}
variable {n m src : NodeRef} {os ns front names : List Bytes}

/-! ## A name goes -/

/-- A name went, and with it a file that had no other, or a directory without names in it. -/
structure Dropped (before : Dbs) (d : UInt64) (name : Bytes) (n : NodeRef) (after : Dbs) : Prop
    where
  child : before.getchild d name = .ok n
  isName : IsName name
  bare : n.kind = .directory → ∀ leaf, IsName leaf → before.get .directories n.id leaf = none
  entries : ∀ dir leaf, after.get .directories dir leaf =
    if (dir = d ∧ leaf = name) ∨ (n.kind = .directory ∧ dir = n.id) then none
    else before.get .directories dir leaf
  getnode : ∀ id, after.getnode id =
    if id = n.id ∧ (n.kind = .directory ∨ before.refs n.id = 1) then .error .notFound
    else before.getnode id
  balanced : after.Balanced
  fewer : n.kind ≠ .directory → after.refs n.id = before.refs n.id - 1

namespace Dropped

variable (dropped : before.Dropped d name n after)

include dropped

theorem entry_before {value : Bytes} (stored : after.get .directories dir leaf = some value) :
    ¬ (dir = d ∧ leaf = name) ∧ ¬ (n.kind = .directory ∧ dir = n.id) ∧
      before.get .directories dir leaf = some value := by
  rw [dropped.entries] at stored
  split at stored
  · cases stored
  · rename_i outside
    rw [not_or] at outside
    exact ⟨outside.1, outside.2, stored⟩

theorem entry_kept (notSite : ¬ (dir = d ∧ leaf = name))
    (notGone : ¬ (n.kind = .directory ∧ dir = n.id)) :
    after.get .directories dir leaf = before.get .directories dir leaf := by
  rw [dropped.entries, if_neg]
  rintro (site | gone)
  · exact notSite site
  · exact notGone gone

theorem node_before (isNode : after.getnode id = .ok m) :
    ¬ (id = n.id ∧ (n.kind = .directory ∨ before.refs n.id = 1)) ∧ before.getnode id = .ok m := by
  rw [dropped.getnode] at isNode
  split at isNode
  · cases isNode
  · exact ⟨‹_›, isNode⟩

theorem child_before (child : after.getchild dir leaf = .ok m) :
    ¬ (dir = d ∧ leaf = name) ∧ before.getchild dir leaf = .ok m := by
  obtain ⟨stored, isNode⟩ := getchild_eq_ok_iff.mp child
  obtain ⟨notSite, -, earlier⟩ := dropped.entry_before stored
  exact ⟨notSite, getchild_eq_ok_iff.mpr ⟨earlier, (dropped.node_before isNode).2⟩⟩

theorem node : before.getnode n.id = .ok n :=
  getchild_ok_getnode dropped.child

theorem directory_kept (isDirectory : before.getnode dir = .ok ⟨dir, .directory⟩)
    (notGone : ¬ (n.kind = .directory ∧ dir = n.id)) :
    after.getnode dir = .ok ⟨dir, .directory⟩ := by
  rw [dropped.getnode, if_neg, isDirectory]
  rintro ⟨rfl, gone | isLast⟩
  · exact notGone ⟨gone, rfl⟩
  · have node := dropped.node
    rw [isDirectory] at node
    exact notGone ⟨(congrArg NodeRef.kind (Except.ok.inj node)).symm, rfl⟩

variable (hierarchy : before.Hierarchy)

include hierarchy

theorem directory : before.getnode d = .ok ⟨d, .directory⟩ :=
  hierarchy.directory_of_entry (getchild_eq_ok_iff.mp dropped.child).1

theorem not_root : n.id ≠ 0 :=
  hierarchy.tree.top dropped.isName dropped.child

/-- What has still an entry is still there. -/
theorem getnode_of_entry (stored : after.get .directories dir leaf = some (hostToDb id)) :
    after.getnode id = before.getnode id := by
  obtain ⟨notSite, notGone, earlier⟩ := dropped.entry_before stored
  rw [dropped.getnode, if_neg]
  rintro ⟨rfl, isDirectory | isLast⟩
  · have isDir : n = ⟨n.id, .directory⟩ := by rw [← isDirectory]
    rcases isName_or_own leaf with isName | rfl | rfl
    · have again : before.getchild dir leaf = .ok n :=
        getchild_eq_ok_iff.mpr ⟨earlier, dropped.node⟩
      have child := dropped.child
      rw [isDir] at again child
      exact notSite (hierarchy.tree.parent isName dropped.isName again child)
    · exact notGone ⟨isDirectory, (hierarchy.eq_of_self earlier).symm⟩
    · rcases hierarchy.up_cases earlier with ⟨-, isRoot⟩ | ⟨-, inside, isInside, child⟩
      · exact dropped.not_root hierarchy isRoot
      · have absent := dropped.bare isDirectory inside isInside
        rw [(getchild_eq_ok_iff.mp child).1] at absent
        cases absent
  · by_cases isDirectory : n.kind = .directory
    · have isDir : n = ⟨n.id, .directory⟩ := by rw [← isDirectory]
      have own : before.get .directories n.id (str ".") = some (hostToDb n.id) :=
        hierarchy.tree.dot (isDir ▸ dropped.node)
      have one := refs_del n.id own
      have entry := (getchild_eq_ok_iff.mp dropped.child).1
      have other : (before.del .directories n.id (str ".")).get .directories d name =
          some (hostToDb n.id) := by
        rw [get_del, if_neg, entry]
        rintro ⟨-, -, impossible⟩
        exact dropped.isName.1 impossible.symm
      have remains := refs_pos_of_entry other
      rw [if_pos rfl, isLast] at one
      omega
    · have remains := refs_pos_of_entry stored
      rw [dropped.fewer isDirectory] at remains
      omega

theorem child_kept (child : before.getchild dir leaf = .ok m) (notSite : ¬ (dir = d ∧ leaf = name))
    (notGone : ¬ (n.kind = .directory ∧ dir = n.id)) : after.getchild dir leaf = .ok m := by
  obtain ⟨stored, isNode⟩ := getchild_eq_ok_iff.mp child
  rw [← dropped.entry_kept notSite notGone] at stored
  rw [getchild_eq_ok_iff, dropped.getnode_of_entry hierarchy stored]
  exact ⟨stored, isNode⟩

/-- Only what was at the name is no longer reached. -/
theorem leads (above : before.Leads front ⟨d, .directory⟩) :
    after.Leads = Namespace.pruned before.Leads (front ++ [name]) := by
  apply trail_pruned hierarchy.tree.rooted edge_functional above rfl
  intro u leaf m
  constructor
  · rintro ⟨isDirectory, isName, child⟩
    obtain ⟨notSite, earlier⟩ := dropped.child_before child
    refine ⟨⟨isDirectory, isName, earlier⟩, ?_⟩
    rintro ⟨rfl, rfl⟩
    exact notSite ⟨rfl, rfl⟩
  · rintro ⟨⟨isDirectory, isName, child⟩, notGone⟩
    refine ⟨isDirectory, isName, dropped.child_kept hierarchy child ?_ ?_⟩
    · rintro ⟨rfl, rfl⟩
      exact notGone ⟨directory_eq_iff.mpr ⟨isDirectory, rfl⟩, rfl⟩
    · rintro ⟨gone, same⟩
      have absent := dropped.bare gone leaf isName
      rw [← same, (getchild_eq_ok_iff.mp child).1] at absent
      cases absent

/-- Nothing is beneath what goes. -/
theorem bare_leads (above : before.Leads front ⟨d, .directory⟩) :
    Namespace.Bare before.Leads (front ++ [name]) := by
  intro leaf m leads
  obtain ⟨w, first, edge⟩ := leads_concat.mp leads
  have isThere : before.Leads (front ++ [name]) n :=
    leads_concat.mpr ⟨_, above, rfl, dropped.isName, dropped.child⟩
  obtain rfl : w = n := hierarchy.formed.functional first isThere
  obtain ⟨isDirectory, isName, stored, -⟩ := edge_iff.mp edge
  rw [dropped.bare isDirectory leaf isName] at stored
  cases stored

/-- The directories that are left are a tree. -/
theorem tree : after.Tree := by
  constructor
  · rw [dropped.getnode, if_neg fun both => dropped.not_root hierarchy both.1.symm, hierarchy.root]
  · intro dir leaf value stored
    obtain ⟨notSite, notGone, earlier⟩ := dropped.entry_before stored
    obtain ⟨isDirectory, m, child⟩ := hierarchy.tree.entry earlier
    exact ⟨dropped.directory_kept isDirectory notGone, m,
      dropped.child_kept hierarchy child notSite notGone⟩
  · intro dir isDirectory
    obtain ⟨notGone, isDir⟩ := dropped.node_before isDirectory
    rw [dropped.entry_kept, hierarchy.tree.dot isDir]
    · exact fun site => dropped.isName.1 site.2.symm
    · exact fun gone => notGone ⟨gone.2, .inl gone.1⟩
  · intro dir leaf c isName child
    have earlier := (dropped.child_before child).2
    obtain ⟨notGone, -⟩ := dropped.node_before (getchild_ok_getnode child)
    rw [dropped.entry_kept, hierarchy.tree.dotdot isName earlier]
    · exact fun site => dropped.isName.2 site.2.symm
    · exact fun gone => notGone ⟨gone.2, .inl gone.1⟩
  · intro dir e leaf other c isName otherName child again
    exact hierarchy.tree.parent isName otherName (dropped.child_before child).2
      (dropped.child_before again).2
  · intro dir leaf m isName child
    exact hierarchy.tree.top isName (dropped.child_before child).2
  · intro id m isNode
    exact dropped.balanced id

/-- A directory that is left was reached otherwise. -/
theorem reached (isDirectory : after.getnode dir = .ok ⟨dir, .directory⟩) :
    ∃ names, after.Leads names ⟨dir, .directory⟩ := by
  obtain ⟨notGone, isDir⟩ := dropped.node_before isDirectory
  obtain ⟨names, leads⟩ := hierarchy.reached isDir
  obtain ⟨front, above⟩ := hierarchy.reached (dropped.directory hierarchy)
  rw [dropped.leads hierarchy above]
  refine ⟨names, leads, fun isPrefix => ?_⟩
  have bare := dropped.bare_leads hierarchy above
  rw [hierarchy.formed.eq_of_bare bare leads isPrefix] at leads
  have isThere : before.Leads (front ++ [name]) n :=
    leads_concat.mpr ⟨_, above, rfl, dropped.isName, dropped.child⟩
  have same := hierarchy.formed.functional leads isThere
  exact notGone ⟨congrArg NodeRef.id same, .inl (congrArg NodeRef.kind same).symm⟩

/-- What a directory that goes had an entry for, but itself, is its parent. -/
theorem eq_parent (isDirectory : n.kind = .directory) (other : id ≠ n.id)
    (stored : before.get .directories n.id leaf = some (hostToDb id)) : id = d := by
  rcases isName_or_own leaf with isName | rfl | rfl
  · rw [dropped.bare isDirectory leaf isName] at stored
    cases stored
  · exact absurd (hierarchy.eq_of_self stored) other
  · have isDir : n = ⟨n.id, .directory⟩ := by rw [← isDirectory]
    have child := dropped.child
    rw [isDir] at child
    rw [hierarchy.tree.dotdot dropped.isName child, Option.some.injEq, hostToDb_inj] at stored
    exact stored.symm

/-- Every node that is left has an entry. -/
theorem alive (isNode : after.getnode m.id = .ok m) : 0 < after.refs m.id := by
  obtain ⟨notGone, earlier⟩ := dropped.node_before isNode
  by_cases same : m.id = n.id
  · have isFile : n.kind ≠ .directory := fun gone => notGone ⟨same, .inl gone⟩
    have remains := hierarchy.alive earlier
    have more : before.refs n.id ≠ 1 := fun isLast => notGone ⟨same, .inr isLast⟩
    rw [same] at remains ⊢
    rw [dropped.fewer isFile]
    omega
  · obtain ⟨dir, leaf, stored⟩ := refs_pos_iff.mp (hierarchy.alive earlier)
    by_cases gone : n.kind = .directory ∧ dir = n.id
    · obtain ⟨isDirectory, rfl⟩ := gone
      -- The parent has lost the entry of the directory, and has its own still.
      have isParent := dropped.eq_parent hierarchy isDirectory same stored
      refine refs_pos_iff.mpr ⟨d, str ".", ?_⟩
      rw [isParent, dropped.entry_kept, hierarchy.tree.dot (dropped.directory hierarchy)]
      · exact fun site => dropped.isName.1 site.2.symm
      · exact fun gone => same (isParent.trans gone.2)
    · refine refs_pos_iff.mpr ⟨dir, leaf, ?_⟩
      rw [dropped.entry_kept _ gone, stored]
      rintro ⟨rfl, rfl⟩
      rw [(getchild_eq_ok_iff.mp dropped.child).1, Option.some.injEq, hostToDb_inj] at stored
      exact same stored.symm

/-- Taking a name away keeps the hierarchy. -/
theorem keeps : after.Hierarchy where
  tree := dropped.tree hierarchy
  ceiling := by
    rw [dropped.entry_kept, hierarchy.ceiling]
    · exact fun site => dropped.isName.2 site.2.symm
    · exact fun gone => dropped.not_root hierarchy gone.2.symm
  reached := dropped.reached hierarchy
  spelled stored := hierarchy.spelled (dropped.entry_before stored).2.2
  balanced := dropped.balanced
  alive := dropped.alive hierarchy

end Dropped

/-! ## A name moves -/

/-- A name was replaced by a free one, which is not beneath it, and a directory knows its new
parent. -/
structure Shifted (before : Dbs) (s : UInt64) (old : Bytes) (d : UInt64) (new : Bytes)
    (src : NodeRef) (after : Dbs) : Prop where
  child : before.getchild s old = .ok src
  oldName : IsName old
  directory : before.getnode d = .ok ⟨d, .directory⟩
  newName : IsName new
  spelled : new ≠ [] ∧ slash ∉ new
  free : before.get .directories d new = none
  entries : ∀ dir leaf, after.get .directories dir leaf =
    if dir = s ∧ leaf = old then none
    else if dir = d ∧ leaf = new then some (hostToDb src.id)
    else if src.kind = .directory ∧ dir = src.id ∧ leaf = str ".." then some (hostToDb d)
    else before.get .directories dir leaf
  getnode : ∀ id, after.getnode id = before.getnode id
  balanced : after.Balanced

namespace Shifted

variable (shifted : before.Shifted s old d new src after)

include shifted

theorem apart : ¬ (d = s ∧ new = old) := by
  rintro ⟨rfl, rfl⟩
  have stored := (getchild_eq_ok_iff.mp shifted.child).1
  rw [shifted.free] at stored
  cases stored

theorem node : before.getnode src.id = .ok src :=
  getchild_ok_getnode shifted.child

theorem entry_named (isName : IsName leaf) : after.get .directories dir leaf =
    if dir = s ∧ leaf = old then none
    else if dir = d ∧ leaf = new then some (hostToDb src.id)
    else before.get .directories dir leaf := by
  rw [shifted.entries]
  congr 1
  congr 1
  rw [if_neg]
  rintro ⟨-, -, same⟩
  exact isName.2 same

theorem entry_own : after.get .directories dir (str ".") =
    before.get .directories dir (str ".") := by
  rw [shifted.entries, if_neg fun site => shifted.oldName.1 site.2.symm,
    if_neg fun site => shifted.newName.1 site.2.symm,
    if_neg fun site => absurd site.2.2 (by decide)]

theorem entry_up : after.get .directories dir (str "..") =
    if src.kind = .directory ∧ dir = src.id then some (hostToDb d)
    else before.get .directories dir (str "..") := by
  rw [shifted.entries, if_neg fun site => shifted.oldName.2 site.2.symm,
    if_neg fun site => shifted.newName.2 site.2.symm]
  simp only [and_true]

theorem child_new : after.getchild d new = .ok src := by
  rw [getchild_eq_ok_iff, shifted.entries, if_neg shifted.apart, if_pos ⟨rfl, rfl⟩,
    shifted.getnode, shifted.node]
  exact ⟨rfl, rfl⟩

/-- The children after a move. -/
theorem child_iff (isName : IsName leaf) : after.getchild dir leaf = .ok m ↔
    (before.getchild dir leaf = .ok m ∧ ¬ (dir = s ∧ leaf = old) ∧ ¬ (dir = d ∧ leaf = new)) ∨
      (dir = d ∧ leaf = new ∧ m = src) := by
  constructor
  · intro child
    obtain ⟨stored, isNode⟩ := getchild_eq_ok_iff.mp child
    rw [shifted.entry_named isName] at stored
    rw [shifted.getnode] at isNode
    split at stored
    · cases stored
    · rename_i notOld
      split at stored
      · rename_i site
        rw [Option.some.injEq, hostToDb_inj] at stored
        rw [← stored, shifted.node] at isNode
        exact .inr ⟨site.1, site.2, (Except.ok.inj isNode).symm⟩
      · exact .inl ⟨getchild_eq_ok_iff.mpr ⟨stored, isNode⟩, notOld, ‹_›⟩
  · rintro (⟨child, notOld, notNew⟩ | ⟨rfl, rfl, rfl⟩)
    · rw [getchild_eq_ok_iff, shifted.entry_named isName, if_neg notOld, if_neg notNew,
        shifted.getnode]
      exact getchild_eq_ok_iff.mp child
    · exact shifted.child_new

variable (hierarchy : before.Hierarchy)

include hierarchy

theorem parent : before.getnode s = .ok ⟨s, .directory⟩ :=
  hierarchy.directory_of_entry (getchild_eq_ok_iff.mp shifted.child).1

/-- What was at the old name and beneath is at the new one. -/
theorem leads (aboveOld : before.Leads os ⟨s, .directory⟩)
    (aboveNew : before.Leads ns ⟨d, .directory⟩)
    (outside : ¬ os ++ [old] <+: ns ++ [new]) :
    after.Leads = Namespace.moved before.Leads (os ++ [old]) (ns ++ [new]) := by
  apply trail_moved hierarchy.tree.rooted edge_functional aboveOld rfl aboveNew rfl
    ⟨rfl, shifted.oldName, shifted.child⟩ outside
  intro u leaf m
  constructor
  · rintro ⟨isDirectory, isName, child⟩
    rcases (shifted.child_iff isName).mp child with ⟨earlier, notOld, notNew⟩ | ⟨site, rfl, rfl⟩
    · refine .inl ⟨⟨isDirectory, isName, earlier⟩, ?_, ?_⟩
      · rintro ⟨rfl, rfl⟩
        exact notOld ⟨rfl, rfl⟩
      · rintro ⟨rfl, rfl⟩
        exact notNew ⟨rfl, rfl⟩
    · exact .inr ⟨directory_eq_iff.mpr ⟨isDirectory, site⟩, rfl, rfl⟩
  · rintro (⟨⟨isDirectory, isName, child⟩, notOld, notNew⟩ | ⟨rfl, rfl, rfl⟩)
    · refine ⟨isDirectory, isName, (shifted.child_iff isName).mpr (.inl ⟨child, ?_, ?_⟩)⟩
      · rintro ⟨site, rfl⟩
        exact notOld ⟨directory_eq_iff.mpr ⟨isDirectory, site⟩, rfl⟩
      · rintro ⟨site, rfl⟩
        exact notNew ⟨directory_eq_iff.mpr ⟨isDirectory, site⟩, rfl⟩
    · exact ⟨rfl, shifted.newName, shifted.child_new⟩

/-- The entry of a directory for its parent after a move is for a directory. -/
theorem up_exists {value : Bytes} (stored : after.get .directories dir (str "..") = some value) :
    after.getnode dir = .ok ⟨dir, .directory⟩ ∧ ∃ m, after.getchild dir (str "..") = .ok m := by
  have isUp : after.get .directories dir (str "..") = _ := shifted.entry_up
  split at isUp
  · rename_i isSrc
    refine ⟨?_, ⟨d, .directory⟩, ?_⟩
    · rw [shifted.getnode, isSrc.2, shifted.node, ← isSrc.1]
    · rw [getchild_eq_ok_iff, isUp, shifted.getnode, shifted.directory]
      exact ⟨rfl, rfl⟩
  · rw [isUp] at stored
    obtain ⟨isDirectory, m, child⟩ := hierarchy.tree.entry stored
    refine ⟨(shifted.getnode dir).trans isDirectory, m, ?_⟩
    rw [getchild_eq_ok_iff, isUp, shifted.getnode]
    exact getchild_eq_ok_iff.mp child

/-- Each entry after a move is one of a directory, and for a node. -/
theorem entry_exists {value : Bytes} (stored : after.get .directories dir leaf = some value) :
    after.getnode dir = .ok ⟨dir, .directory⟩ ∧ ∃ m, after.getchild dir leaf = .ok m := by
  rcases isName_or_own leaf with isName | rfl | rfl
  · rw [shifted.entry_named isName] at stored
    split at stored
    · cases stored
    · rename_i notOld
      split at stored
      · rename_i site
        obtain ⟨rfl, rfl⟩ := site
        exact ⟨(shifted.getnode dir).trans shifted.directory, src, shifted.child_new⟩
      · obtain ⟨isDirectory, m, child⟩ := hierarchy.tree.entry stored
        exact ⟨(shifted.getnode dir).trans isDirectory, m,
          (shifted.child_iff isName).mpr (.inl ⟨child, notOld, ‹_›⟩)⟩
  · rw [shifted.entry_own] at stored
    obtain ⟨isDirectory, m, child⟩ := hierarchy.tree.entry stored
    refine ⟨(shifted.getnode dir).trans isDirectory, m, ?_⟩
    rw [getchild_eq_ok_iff, shifted.entry_own, shifted.getnode]
    exact getchild_eq_ok_iff.mp child
  · exact shifted.up_exists hierarchy stored

/-- A directory that moves was at its old name and nowhere else. -/
theorem eq_old (earlier : before.getchild dir leaf = .ok src) (isName : IsName leaf)
    (isDirectory : src.kind = .directory) : dir = s ∧ leaf = old := by
  have isDir : src = ⟨src.id, .directory⟩ := by rw [← isDirectory]
  have child := shifted.child
  rw [isDir] at earlier child
  exact hierarchy.tree.parent isName shifted.oldName earlier child

/-- The directories after a move are a tree. -/
theorem tree : after.Tree := by
  constructor
  · rw [shifted.getnode, hierarchy.root]
  · exact fun stored => shifted.entry_exists hierarchy stored
  · intro dir isDirectory
    rw [shifted.getnode] at isDirectory
    rw [shifted.entry_own, hierarchy.tree.dot isDirectory]
  · intro dir leaf c isName child
    rw [shifted.entry_up]
    rcases (shifted.child_iff isName).mp child with ⟨earlier, notOld, -⟩ | ⟨rfl, -, rfl⟩
    · rw [if_neg, hierarchy.tree.dotdot isName earlier]
      rintro ⟨isDirectory, rfl⟩
      have isDir : src = ⟨src.id, .directory⟩ := by rw [← isDirectory]
      exact notOld (shifted.eq_old hierarchy (isDir ▸ earlier) isName isDirectory)
    · rw [if_pos ⟨rfl, rfl⟩]
  · intro dir e leaf other c isName otherName child again
    rcases (shifted.child_iff isName).mp child with ⟨earlier, notOld, -⟩ | ⟨rfl, rfl, rfl⟩
    · rcases (shifted.child_iff otherName).mp again with ⟨earlierToo, -⟩ | ⟨rfl, rfl, rfl⟩
      · exact hierarchy.tree.parent isName otherName earlier earlierToo
      · exact absurd (shifted.eq_old hierarchy earlier isName rfl) notOld
    · rcases (shifted.child_iff otherName).mp again with ⟨earlier, notOld, -⟩ | ⟨rfl, rfl, -⟩
      · exact absurd (shifted.eq_old hierarchy earlier otherName rfl) notOld
      · exact ⟨rfl, rfl⟩
  · intro dir leaf m isName child
    rcases (shifted.child_iff isName).mp child with ⟨earlier, -⟩ | ⟨-, -, rfl⟩
    · exact hierarchy.tree.top isName earlier
    · exact hierarchy.tree.top shifted.oldName shifted.child
  · intro id m isNode
    exact shifted.balanced id

/-- Every node has an entry after a move. -/
theorem alive (isNode : after.getnode m.id = .ok m) : 0 < after.refs m.id := by
  rw [shifted.getnode] at isNode
  by_cases isSrc : m.id = src.id
  · refine refs_pos_iff.mpr ⟨d, new, ?_⟩
    rw [isSrc]
    exact (getchild_eq_ok_iff.mp shifted.child_new).1
  · obtain ⟨dir, leaf, stored⟩ := refs_pos_iff.mp (hierarchy.alive isNode)
    by_cases isName : IsName leaf
    · refine refs_pos_iff.mpr ⟨dir, leaf, ?_⟩
      rw [shifted.entry_named isName, if_neg, if_neg, stored]
      · rintro ⟨rfl, rfl⟩
        rw [shifted.free] at stored
        cases stored
      · rintro ⟨rfl, rfl⟩
        rw [(getchild_eq_ok_iff.mp shifted.child).1, Option.some.injEq, hostToDb_inj] at stored
        exact isSrc stored.symm
    · refine refs_pos_iff.mpr ⟨m.id, str ".", ?_⟩
      rw [shifted.entry_own, hierarchy.tree.dot (hierarchy.directory_of_own stored isName)]

variable (aboveOld : before.Leads os ⟨s, .directory⟩) (aboveNew : before.Leads ns ⟨d, .directory⟩)
variable (outside : ¬ os ++ [old] <+: ns ++ [new])

include aboveOld aboveNew outside

/-- Directories beneath the old name are reached through the new one. -/
theorem reached (isDirectory : after.getnode dir = .ok ⟨dir, .directory⟩) :
    ∃ names, after.Leads names ⟨dir, .directory⟩ := by
  rw [shifted.getnode] at isDirectory
  obtain ⟨names, leads⟩ := hierarchy.reached isDirectory
  rw [shifted.leads hierarchy aboveOld aboveNew outside]
  by_cases isPrefix : os ++ [old] <+: names
  · obtain ⟨rest, rfl⟩ := isPrefix
    exact ⟨ns ++ [new] ++ rest, .inl ⟨rest, rfl, leads⟩⟩
  · refine ⟨names, .inr ⟨leads, isPrefix, fun beneath => ?_⟩⟩
    obtain ⟨w, nearer⟩ := hierarchy.formed.exists_of_prefix leads beneath
    obtain ⟨parent, above, edge⟩ := leads_concat.mp nearer
    obtain rfl := hierarchy.formed.functional above aboveNew
    have stored := (edge_iff.mp edge).2.2.1
    rw [shifted.free] at stored
    cases stored

/-- A move to a place outside what is moved keeps the hierarchy. -/
theorem keeps : after.Hierarchy where
  tree := shifted.tree hierarchy
  ceiling := by
    rw [shifted.entry_up, if_neg, hierarchy.ceiling]
    rintro ⟨-, isRoot⟩
    exact hierarchy.tree.top shifted.oldName shifted.child isRoot.symm
  reached := shifted.reached hierarchy aboveOld aboveNew outside
  spelled {dir leaf value} stored := by
    rw [shifted.entries] at stored
    split at stored
    · cases stored
    · split at stored
      · rename_i site
        rw [site.2]
        exact shifted.spelled
      · split at stored
        · rename_i site
          rw [site.2.2]
          decide
        · exact hierarchy.spelled stored
  balanced := shifted.balanced
  alive := shifted.alive hierarchy

end Shifted

end Dbs

end OfflineFs
