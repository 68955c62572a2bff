import OfflineFs.Changes.Hierarchy

/-!
# How the hierarchy changes

A name comes for a file, or for a new directory.  A name goes, and with it a file that had
no other or an empty directory.  A name is replaced by one elsewhere.  Each leaves a
hierarchy, and a namespace that has changed in the one place.
-/

namespace OfflineFs

open OfflineFs.Effect OfflineFs.Transition

namespace Dbs

variable {before after : Dbs} {s d id dir : UInt64} {name old new leaf : Bytes}
variable {n m src : NodeRef} {os ns front : List Bytes}

/-! ## A name comes -/

/-- A name came for a file that was there, or is new. -/
structure Gained (before : Dbs) (d : UInt64) (name : Bytes) (n : NodeRef) (after : Dbs) : Prop where
  directory : before.getnode d = .ok ⟨d, .directory⟩
  isName : IsName name
  spelled : name ≠ [] ∧ slash ∉ name
  isFile : n.kind ≠ .directory
  found : before.getnode n.id = .ok n ∨ ∀ m, before.getnode n.id ≠ .ok m
  free : before.get .directories d name = none
  entries : ∀ dir leaf, after.get .directories dir leaf =
    if dir = d ∧ leaf = name then some (hostToDb n.id) else before.get .directories dir leaf
  getnode : ∀ id, after.getnode id = if id = n.id then .ok n else before.getnode id
  links : ∀ id, after.links id = before.links id + if id = n.id then 1 else 0

namespace Gained

variable (gained : before.Gained d name n after)

include gained

theorem kept (isNode : before.getnode id = .ok m) : after.getnode id = .ok m := by
  rw [gained.getnode]
  split
  · rename_i same
    rcases gained.found with found | absent
    · rw [← isNode, same, found]
    · exact absurd (same ▸ isNode) (absent m)
  · exact isNode

theorem entry_kept {value : Bytes} (stored : before.get .directories dir leaf = some value) :
    after.get .directories dir leaf = some value := by
  rw [gained.entries, if_neg, stored]
  rintro ⟨rfl, rfl⟩
  rw [gained.free] at stored
  cases stored

theorem directory_iff : after.getnode id = .ok ⟨id, .directory⟩ ↔
    before.getnode id = .ok ⟨id, .directory⟩ := by
  constructor
  · intro isDirectory
    rw [gained.getnode] at isDirectory
    split at isDirectory
    · cases isDirectory
      exact absurd rfl gained.isFile
    · exact isDirectory
  · exact gained.kept

theorem child_kept (child : before.getchild dir leaf = .ok m) :
    after.getchild dir leaf = .ok m := by
  obtain ⟨stored, isNode⟩ := getchild_eq_ok_iff.mp child
  exact getchild_eq_ok_iff.mpr ⟨gained.entry_kept stored, gained.kept isNode⟩

theorem child_new : after.getchild d name = .ok n := by
  rw [getchild_eq_ok_iff, gained.entries, if_pos ⟨rfl, rfl⟩, gained.getnode, if_pos rfl]
  exact ⟨rfl, rfl⟩

variable (hierarchy : before.Hierarchy)

include hierarchy

/-- A child after a node was entered: the new one, or one from before. -/
theorem child_cases (child : after.getchild dir leaf = .ok m) :
    (dir = d ∧ leaf = name ∧ m = n) ∨ before.getchild dir leaf = .ok m := by
  obtain ⟨stored, isNode⟩ := getchild_eq_ok_iff.mp child
  rw [gained.entries] at stored
  split at stored
  · rename_i site
    rw [Option.some.injEq, hostToDb_inj] at stored
    rw [gained.getnode, if_pos stored.symm] at isNode
    exact .inl ⟨site.1, site.2, (Except.ok.inj isNode).symm⟩
  · obtain ⟨w, found, same, isThere⟩ := hierarchy.child_of_entry stored
    rw [hostToDb_inj] at same
    have again := gained.kept isThere
    rw [← same, isNode] at again
    rw [Except.ok.inj again] at stored ⊢
    exact .inr (getchild_eq_ok_iff.mpr ⟨stored, isThere⟩)

/-- What leads somewhere afterwards: what did before, and the new name. -/
theorem leads (above : before.Leads front ⟨d, .directory⟩) :
    after.Leads = Namespace.bound before.Leads (front ++ [name]) n := by
  apply trail_bound hierarchy.tree.rooted above rfl
  · intro leaf m edge
    exact gained.isFile edge.1
  · rintro rfl
    exact gained.isFile rfl
  · intro u leaf m
    constructor
    · rintro ⟨isDirectory, isName, child⟩
      rcases gained.child_cases hierarchy child with ⟨isParent, rfl, rfl⟩ | earlier
      · exact .inr ⟨directory_eq_iff.mpr ⟨isDirectory, isParent⟩, rfl, rfl⟩
      · exact .inl ⟨isDirectory, isName, earlier⟩
    · rintro (⟨isDirectory, isName, child⟩ | ⟨rfl, rfl, rfl⟩)
      · exact ⟨isDirectory, isName, gained.child_kept child⟩
      · exact ⟨rfl, gained.isName, gained.child_new⟩

/-- A node that is no directory, entered at a free name, keeps the hierarchy. -/
theorem keeps : after.Hierarchy where
  tree := by
    constructor
    · exact gained.directory_iff.mpr hierarchy.root
    · intro dir leaf value stored
      rw [gained.entries] at stored
      split at stored
      · rename_i site
        obtain ⟨rfl, rfl⟩ := site
        exact ⟨gained.directory_iff.mpr gained.directory, n, gained.child_new⟩
      · obtain ⟨isDirectory, m, child⟩ := hierarchy.tree.entry stored
        exact ⟨gained.directory_iff.mpr isDirectory, m, gained.child_kept child⟩
    · intro dir isDirectory
      exact gained.entry_kept (hierarchy.tree.dot (gained.directory_iff.mp isDirectory))
    · intro dir leaf c isName child
      rcases gained.child_cases hierarchy child with ⟨-, -, rfl⟩ | earlier
      · exact absurd rfl gained.isFile
      · exact gained.entry_kept (hierarchy.tree.dotdot isName earlier)
    · intro dir e leaf other c isName otherName child again
      rcases gained.child_cases hierarchy child with ⟨-, -, rfl⟩ | earlier
      · exact absurd rfl gained.isFile
      · rcases gained.child_cases hierarchy again with ⟨-, -, rfl⟩ | earlierToo
        · exact absurd rfl gained.isFile
        · exact hierarchy.tree.parent isName otherName earlier earlierToo
    · intro dir leaf m isName child
      rcases gained.child_cases hierarchy child with ⟨-, -, rfl⟩ | earlier
      · intro isRoot
        have root := gained.getnode m.id
        rw [if_pos rfl, isRoot, gained.directory_iff.mpr hierarchy.root] at root
        exact gained.isFile (congrArg NodeRef.kind (Except.ok.inj root)).symm
      · exact hierarchy.tree.top isName earlier
    · intro id m isNode
      rw [gained.links, refs_added name gained.free gained.entries, hierarchy.balanced]
  ceiling := gained.entry_kept hierarchy.ceiling
  reached {c} isDirectory := by
    obtain ⟨names, leads⟩ := hierarchy.reached (gained.directory_iff.mp isDirectory)
    obtain ⟨front, above⟩ := hierarchy.reached gained.directory
    rw [gained.leads hierarchy above]
    exact ⟨names, .inl leads⟩
  spelled stored := by
    rw [gained.entries] at stored
    split at stored
    · rename_i site
      rw [site.2]
      exact gained.spelled
    · exact hierarchy.spelled stored
  balanced id := by
    rw [gained.links, refs_added name gained.free gained.entries, hierarchy.balanced]
  alive {m} isNode := by
    rw [refs_added name gained.free gained.entries]
    rw [gained.getnode] at isNode
    split at isNode
    · rename_i same
      rw [if_pos same]
      exact Nat.succ_pos _
    · exact Nat.add_pos_left (hierarchy.alive isNode) _

end Gained

/-! ## A directory comes -/

/-- A directory was made, and entered at a free name. -/
structure Founded (before : Dbs) (d : UInt64) (name : Bytes) (id : UInt64) (after : Dbs) :
    Prop where
  directory : before.getnode d = .ok ⟨d, .directory⟩
  isName : IsName name
  spelled : name ≠ [] ∧ slash ∉ name
  fresh : ∀ m, before.getnode id ≠ .ok m
  free : before.get .directories d name = none
  entries : ∀ dir leaf, after.get .directories dir leaf =
    if dir = id ∧ leaf = str ".." then some (hostToDb d)
    else if dir = d ∧ leaf = name then some (hostToDb id)
    else if dir = id ∧ leaf = str "." then some (hostToDb id)
    else before.get .directories dir leaf
  getnode : ∀ other, after.getnode other =
    if other = id then .ok ⟨id, .directory⟩ else before.getnode other
  links : ∀ other, after.links other =
    if other = id then 2 else before.links other + if other = d then 1 else 0

namespace Founded

variable (founded : before.Founded d name id after)

include founded

theorem apart : d ≠ id := by
  rintro rfl
  exact founded.fresh _ founded.directory

theorem kept {other : UInt64} (isNode : before.getnode other = .ok m) :
    after.getnode other = .ok m := by
  rw [founded.getnode, if_neg, isNode]
  rintro rfl
  exact founded.fresh m isNode

theorem child_new : after.getchild d name = .ok ⟨id, .directory⟩ := by
  rw [getchild_eq_ok_iff, founded.entries, if_neg fun both => founded.apart both.1,
    if_pos ⟨rfl, rfl⟩, founded.getnode, if_pos rfl]
  exact ⟨rfl, rfl⟩

variable (hierarchy : before.Hierarchy)

include hierarchy

/-- Nothing was entered in the new directory before. -/
theorem empty (leaf : Bytes) : before.get .directories id leaf = none := by
  by_contra present
  obtain ⟨value, stored⟩ := Option.ne_none_iff_exists'.mp present
  exact founded.fresh _ (hierarchy.directory_of_entry stored)

theorem unnamed : before.refs id = 0 := by
  by_contra named
  obtain ⟨dir, leaf, stored⟩ := refs_pos_iff.mp (Nat.pos_of_ne_zero named)
  obtain ⟨m, -, same, isNode⟩ := hierarchy.child_of_entry stored
  rw [hostToDb_inj] at same
  exact founded.fresh m (same ▸ isNode)

theorem entry_kept {value : Bytes} (stored : before.get .directories dir leaf = some value) :
    after.get .directories dir leaf = some value := by
  have other : dir ≠ id := by
    rintro rfl
    rw [founded.empty hierarchy] at stored
    cases stored
  rw [founded.entries, if_neg fun both => other both.1, if_neg, if_neg fun both => other both.1,
    stored]
  rintro ⟨rfl, rfl⟩
  rw [founded.free] at stored
  cases stored

/-- The new directory has two entries, and its parent one more. -/
theorem refs (other : UInt64) : after.refs other =
    if other = id then 2 else before.refs other + if other = d then 1 else 0 := by
  have apart := founded.apart
  let one := before.put .directories id (str ".") (hostToDb id)
  let two := one.put .directories d name (hostToDb id)
  have first : one.refs other = before.refs other + if other = id then 1 else 0 := by
    apply refs_added (str ".") (founded.empty hierarchy (str "."))
    intro dir leaf
    rw [get_put]
    simp only [true_and, eq_comm]
  have second : two.refs other = one.refs other + if other = id then 1 else 0 := by
    apply refs_added name
    · rw [get_put, if_neg fun both => apart both.2.1.symm, founded.free]
    · intro dir leaf
      rw [get_put]
      simp only [true_and, eq_comm]
  have third : after.refs other = two.refs other + if other = d then 1 else 0 := by
    apply refs_added (str "..")
    · rw [get_put, if_neg fun both => apart both.2.1, get_put,
        if_neg fun both => absurd both.2.2 (by decide), founded.empty hierarchy]
    · intro dir leaf
      rw [founded.entries, get_put, get_put]
      simp only [true_and, eq_comm]
  rw [third, second, first]
  by_cases isNew : other = id
  · have notUp : other ≠ d := fun isUp => apart (isUp.symm.trans isNew)
    rw [if_pos isNew, if_pos isNew, if_neg notUp, isNew, founded.unnamed hierarchy]
  · rw [if_neg isNew, if_neg isNew]
    rfl

theorem child_kept (child : before.getchild dir leaf = .ok m) :
    after.getchild dir leaf = .ok m := by
  obtain ⟨stored, isNode⟩ := getchild_eq_ok_iff.mp child
  exact getchild_eq_ok_iff.mpr ⟨founded.entry_kept hierarchy stored, founded.kept isNode⟩

/-- A child after a directory was founded: the new one, or one from before. -/
theorem child_cases (isName : IsName leaf) (child : after.getchild dir leaf = .ok m) :
    (dir = d ∧ leaf = name ∧ m = ⟨id, .directory⟩) ∨ before.getchild dir leaf = .ok m := by
  obtain ⟨stored, isNode⟩ := getchild_eq_ok_iff.mp child
  rw [founded.entries, if_neg fun both => isName.2 both.2] at stored
  split at stored
  · rename_i site
    rw [Option.some.injEq, hostToDb_inj] at stored
    rw [founded.getnode, if_pos stored.symm] at isNode
    exact .inl ⟨site.1, site.2, (Except.ok.inj isNode).symm⟩
  · rw [if_neg fun both => isName.1 both.2] at stored
    obtain ⟨w, found, same, isThere⟩ := hierarchy.child_of_entry stored
    rw [hostToDb_inj] at same
    have again := founded.kept isThere
    rw [← same, isNode] at again
    rw [Except.ok.inj again] at stored ⊢
    exact .inr (getchild_eq_ok_iff.mpr ⟨stored, isThere⟩)

/-- One more list leads somewhere. -/
theorem leads (above : before.Leads front ⟨d, .directory⟩) :
    after.Leads = Namespace.bound before.Leads (front ++ [name]) ⟨id, .directory⟩ := by
  apply trail_bound hierarchy.tree.rooted above rfl
  · intro leaf m edge
    have stored := (edge_iff.mp edge).2.2.1
    rw [founded.empty hierarchy] at stored
    cases stored
  · exact fun same => founded.apart (congrArg NodeRef.id same).symm
  · intro u leaf m
    constructor
    · rintro ⟨isDirectory, isName, child⟩
      rcases founded.child_cases hierarchy isName child with ⟨isParent, rfl, rfl⟩ | earlier
      · exact .inr ⟨directory_eq_iff.mpr ⟨isDirectory, isParent⟩, rfl, rfl⟩
      · exact .inl ⟨isDirectory, isName, earlier⟩
    · rintro (⟨isDirectory, isName, child⟩ | ⟨rfl, rfl, rfl⟩)
      · exact ⟨isDirectory, isName, founded.child_kept hierarchy child⟩
      · exact ⟨rfl, founded.isName, founded.child_new⟩

/-- Each entry is one of a directory, and for a node, also with the new ones. -/
theorem entry_exists {value : Bytes} (stored : after.get .directories dir leaf = some value) :
    after.getnode dir = .ok ⟨dir, .directory⟩ ∧ ∃ m, after.getchild dir leaf = .ok m := by
  have newNode : after.getnode id = .ok ⟨id, .directory⟩ := by
    rw [founded.getnode, if_pos rfl]
  rw [founded.entries] at stored
  split at stored
  · rename_i site
    obtain ⟨rfl, rfl⟩ := site
    refine ⟨newNode, ⟨d, .directory⟩, getchild_eq_ok_iff.mpr ⟨?_, founded.kept founded.directory⟩⟩
    rw [founded.entries, if_pos ⟨rfl, rfl⟩]
  · split at stored
    · rename_i site
      obtain ⟨rfl, rfl⟩ := site
      exact ⟨founded.kept founded.directory, _, founded.child_new⟩
    · split at stored
      · rename_i site
        obtain ⟨rfl, rfl⟩ := site
        refine ⟨newNode, ⟨dir, .directory⟩, getchild_eq_ok_iff.mpr ⟨?_, newNode⟩⟩
        rw [founded.entries, if_neg fun both => absurd both.2 (by decide),
          if_neg fun both => founded.apart both.1.symm, if_pos ⟨rfl, rfl⟩]
      · obtain ⟨isDirectory, m, child⟩ := hierarchy.tree.entry stored
        exact ⟨founded.kept isDirectory, m, founded.child_kept hierarchy child⟩

/-- The new directory has one name. -/
theorem parent_unique {e : UInt64} {other : Bytes} {c : UInt64} (isName : IsName leaf)
    (otherName : IsName other) (child : after.getchild dir leaf = .ok ⟨c, .directory⟩)
    (again : after.getchild e other = .ok ⟨c, .directory⟩) : dir = e ∧ leaf = other := by
  rcases founded.child_cases hierarchy isName child with ⟨rfl, rfl, same⟩ | earlier
  · cases same
    rcases founded.child_cases hierarchy otherName again with ⟨rfl, rfl, -⟩ | earlier
    · exact ⟨rfl, rfl⟩
    · exact absurd (getchild_ok_getnode earlier) (founded.fresh _)
  · rcases founded.child_cases hierarchy otherName again with ⟨-, -, same⟩ | earlierToo
    · cases same
      exact absurd (getchild_ok_getnode earlier) (founded.fresh _)
    · exact hierarchy.tree.parent isName otherName earlier earlierToo

/-- The directories with the new one are a tree. -/
theorem tree : after.Tree := by
  constructor
  · exact founded.kept hierarchy.root
  · exact fun stored => founded.entry_exists hierarchy stored
  · intro dir isDirectory
    by_cases isNew : dir = id
    · rw [isNew, founded.entries, if_neg fun both => absurd both.2 (by decide),
        if_neg fun both => founded.apart both.1.symm, if_pos ⟨rfl, rfl⟩]
    · rw [founded.getnode, if_neg isNew] at isDirectory
      exact founded.entry_kept hierarchy (hierarchy.tree.dot isDirectory)
  · intro dir leaf c isName child
    rcases founded.child_cases hierarchy isName child with ⟨rfl, -, same⟩ | earlier
    · cases same
      rw [founded.entries, if_pos ⟨rfl, rfl⟩]
    · exact founded.entry_kept hierarchy (hierarchy.tree.dotdot isName earlier)
  · exact fun isName otherName => founded.parent_unique hierarchy isName otherName
  · intro dir leaf m isName child
    rcases founded.child_cases hierarchy isName child with ⟨-, -, rfl⟩ | earlier
    · rintro rfl
      exact founded.fresh _ hierarchy.root
    · exact hierarchy.tree.top isName earlier
  · intro other m isNode
    rw [founded.links, founded.refs hierarchy, hierarchy.balanced]

/-- A new directory with its own entries keeps the hierarchy. -/
theorem keeps : after.Hierarchy where
  tree := founded.tree hierarchy
  ceiling := founded.entry_kept hierarchy hierarchy.ceiling
  reached {c} isDirectory := by
    obtain ⟨front, above⟩ := hierarchy.reached founded.directory
    rw [founded.leads hierarchy above]
    by_cases isNew : c = id
    · rw [isNew]
      exact ⟨front ++ [name], .inr ⟨rfl, rfl⟩⟩
    · rw [founded.getnode, if_neg isNew] at isDirectory
      obtain ⟨names, leads⟩ := hierarchy.reached isDirectory
      exact ⟨names, .inl leads⟩
  spelled stored := by
    rw [founded.entries] at stored
    split at stored
    · rename_i site
      rw [site.2]
      decide
    · split at stored
      · rename_i site
        rw [site.2]
        exact founded.spelled
      · split at stored
        · rename_i site
          rw [site.2]
          decide
        · exact hierarchy.spelled stored
  balanced other := by rw [founded.links, founded.refs hierarchy, hierarchy.balanced]
  alive {m} isNode := by
    rw [founded.refs hierarchy]
    rw [founded.getnode] at isNode
    split at isNode
    · rename_i same
      rw [if_pos same]
      exact Nat.two_pos
    · rename_i other
      rw [if_neg other]
      exact Nat.add_pos_left (hierarchy.alive isNode) _

end Founded

end Dbs

end OfflineFs
