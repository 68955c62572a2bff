import OfflineFs.Changes.Balance
import OfflineFs.Transition.Namespace

/-!
# The hierarchy of directories

A tree of directories in which the root leads everywhere and nothing is left over.  It
stays one when a node gets a name, when a directory is made, and when a file or an empty
directory goes.  The names that lead somewhere change like a namespace then.
-/

namespace OfflineFs

open OfflineFs.Effect OfflineFs.Transition

namespace Dbs

/-- A tree in which the root is its own parent, every directory is reached from the root,
every name is a component of a path, and every node has as many links as entries, one at
least. -/
structure Hierarchy (dbs : Dbs) : Prop where
  tree : dbs.Tree
  ceiling : dbs.get .directories 0 (str "..") = some (hostToDb (0 : UInt64))
  reached : ∀ {d}, dbs.getnode d = .ok ⟨d, .directory⟩ → ∃ names, dbs.Leads names ⟨d, .directory⟩
  spelled : ∀ {d name value}, dbs.get .directories d name = some value → name ≠ [] ∧ slash ∉ name
  balanced : dbs.Balanced
  alive : ∀ {n}, dbs.getnode n.id = .ok n → 0 < dbs.refs n.id

variable {dbs before after : Dbs} {d e id : UInt64} {name leaf other value : Bytes}
variable {n m u w : NodeRef} {names front : List Bytes}

theorem edge_iff : dbs.Edge n name m ↔ n.kind = .directory ∧ IsName name ∧
    dbs.get .directories n.id name = some (hostToDb m.id) ∧ dbs.getnode m.id = .ok m := by
  rw [Edge, getchild_eq_ok_iff]

theorem edge_functional (n : NodeRef) (name : Bytes) (m w : NodeRef) (first : dbs.Edge n name m)
    (second : dbs.Edge n name w) : m = w := by
  have same := first.2.2.symm.trans second.2.2
  exact Except.ok.inj same

theorem leads_concat : dbs.Leads (names ++ [name]) m ↔
    ∃ n, dbs.Leads names n ∧ dbs.Edge n name m :=
  trail_concat_iff

theorem directory_eq_iff : n = ⟨d, .directory⟩ ↔ n.kind = .directory ∧ n.id = d := by
  constructor
  · rintro rfl
    exact ⟨rfl, rfl⟩
  · rintro ⟨isDirectory, rfl⟩
    rw [← isDirectory]

namespace Hierarchy

/-- The names of the hierarchy are a namespace. -/
theorem formed (hierarchy : dbs.Hierarchy) :
    Namespace.Formed (fun n : NodeRef => n.kind = .directory) dbs.Leads :=
  hierarchy.tree.rooted.formed edge_functional

variable (hierarchy : dbs.Hierarchy)

include hierarchy

theorem root : dbs.getnode 0 = .ok ⟨0, .directory⟩ :=
  hierarchy.tree.root

/-- What leads somewhere leads to a node that is there. -/
theorem getnode_of_leads (leads : dbs.Leads names n) : dbs.getnode n.id = .ok n := by
  induction names using List.reverseRecOn with
  | nil =>
      cases leads
      exact hierarchy.root
  | append_singleton names name _ =>
      obtain ⟨middle, -, edge⟩ := leads_concat.mp leads
      exact (edge_iff.mp edge).2.2.2

theorem directory_of_entry (stored : dbs.get .directories d name = some value) :
    dbs.getnode d = .ok ⟨d, .directory⟩ :=
  (hierarchy.tree.entry stored).1

/-- An entry is for a node that is there. -/
theorem child_of_entry (stored : dbs.get .directories d name = some value) :
    ∃ n, dbs.get .directories d name = some (hostToDb n.id) ∧ value = hostToDb n.id ∧
      dbs.getnode n.id = .ok n := by
  obtain ⟨-, n, child⟩ := hierarchy.tree.entry stored
  obtain ⟨found, isNode⟩ := getchild_eq_ok_iff.mp child
  rw [stored, Option.some.injEq] at found
  exact ⟨n, found ▸ stored, found, isNode⟩

/-- A directory other than the root has a name in its parent. -/
theorem exists_name (isDirectory : dbs.getnode d = .ok ⟨d, .directory⟩) (below : d ≠ 0) :
    ∃ parent name, IsName name ∧ dbs.getchild parent name = .ok ⟨d, .directory⟩ := by
  obtain ⟨names, leads⟩ := hierarchy.reached isDirectory
  rcases List.eq_nil_or_concat names with rfl | ⟨most, name, rfl⟩
  · cases leads
    exact absurd rfl below
  · rw [List.concat_eq_append] at leads
    obtain ⟨parent, -, -, isName, child⟩ := leads_concat.mp leads
    exact ⟨parent.id, name, isName, child⟩

/-- The parent of a directory is where its name is, and the root has itself. -/
theorem up_cases (stored : dbs.get .directories d (str "..") = some (hostToDb e)) :
    d = 0 ∧ e = 0 ∨
      d ≠ 0 ∧ ∃ name, IsName name ∧ dbs.getchild e name = .ok ⟨d, .directory⟩ := by
  by_cases isRoot : d = 0
  · left
    refine ⟨isRoot, ?_⟩
    rw [isRoot, hierarchy.ceiling, Option.some.injEq, hostToDb_inj] at stored
    exact stored.symm
  · right
    obtain ⟨parent, name, isName, child⟩ :=
      hierarchy.exists_name (hierarchy.directory_of_entry stored) isRoot
    have up := hierarchy.tree.dotdot isName child
    rw [stored, Option.some.injEq, hostToDb_inj] at up
    exact ⟨isRoot, name, isName, up ▸ child⟩

theorem exists_up (isDirectory : dbs.getnode d = .ok ⟨d, .directory⟩) :
    ∃ e, dbs.get .directories d (str "..") = some (hostToDb e) ∧
      dbs.getnode e = .ok ⟨e, .directory⟩ := by
  by_cases isRoot : d = 0
  · rw [isRoot]
    exact ⟨0, hierarchy.ceiling, hierarchy.root⟩
  · obtain ⟨parent, name, isName, child⟩ := hierarchy.exists_name isDirectory isRoot
    have up := hierarchy.tree.dotdot isName child
    exact ⟨parent, up, hierarchy.directory_of_entry (getchild_eq_ok_iff.mp child).1⟩

/-- The entry of a directory for itself is for itself. -/
theorem eq_of_self (stored : dbs.get .directories d (str ".") = some (hostToDb e)) : e = d := by
  have own := hierarchy.tree.dot (hierarchy.directory_of_entry stored)
  rw [stored, Option.some.injEq, hostToDb_inj] at own
  exact own

/-- The entries of a directory that are not names are for directories. -/
theorem directory_of_own (stored : dbs.get .directories d name = some (hostToDb e))
    (own : ¬ IsName name) : dbs.getnode e = .ok ⟨e, .directory⟩ := by
  have isDir := hierarchy.directory_of_entry stored
  rcases isName_or_own name with isName | rfl | rfl
  · exact absurd isName own
  · rw [hierarchy.eq_of_self stored, isDir]
  · obtain ⟨up, isUp, upNode⟩ := hierarchy.exists_up isDir
    rw [stored, Option.some.injEq, hostToDb_inj] at isUp
    rw [isUp, upNode]

/-- Every node is reached from the root. -/
theorem exists_leads (isNode : dbs.getnode n.id = .ok n) : ∃ names, dbs.Leads names n := by
  obtain ⟨d, name, stored⟩ := refs_pos_iff.mp (hierarchy.alive isNode)
  by_cases isName : IsName name
  · obtain ⟨names, leads⟩ := hierarchy.reached (hierarchy.directory_of_entry stored)
    exact ⟨names ++ [name], leads_concat.mpr ⟨_, leads, edge_iff.mpr ⟨rfl, isName, stored, isNode⟩⟩⟩
  · have isDirectory := hierarchy.directory_of_own stored isName
    rw [isNode] at isDirectory
    rw [Except.ok.inj isDirectory]
    apply hierarchy.reached
    rw [isNode, isDirectory]

/-- A directory that counts as empty has only its own entries. -/
theorem bare_of_few (isDirectory : dbs.getnode d = .ok ⟨d, .directory⟩)
    (few : (dbs.directories.attrs d).length ≤ 2) (isName : IsName name) :
    dbs.get .directories d name = none := by
  by_contra present
  obtain ⟨value, stored⟩ := Option.ne_none_iff_exists'.mp present
  obtain ⟨e, up, -⟩ := hierarchy.exists_up isDirectory
  have three := three_names ⟨by decide, by decide, (hierarchy.spelled stored).1⟩
    ⟨by decide, isName.1.symm, isName.2.symm⟩
    (hierarchy.tree.dot isDirectory ▸ Option.some_ne_none _) (up ▸ Option.some_ne_none _) present
  exact absurd three (Nat.not_lt.mpr few)

end Hierarchy

/-- What counts is the same, and so is the hierarchy. -/
theorem Alike.edge_eq (alike : before.Alike after) : after.Edge = before.Edge := by
  funext n name m
  rw [Edge, Edge, alike.getchild]

theorem Alike.leads (alike : before.Alike after) : after.Leads = before.Leads := by
  funext names n
  rw [Leads, Leads, alike.edge_eq]

/-- What is alike in names and counts is a hierarchy as well. -/
theorem Hierarchy.alike (hierarchy : before.Hierarchy) (alike : before.Alike after) :
    after.Hierarchy where
  tree := by
    constructor
    · rw [alike.getnode, hierarchy.root]
    · intro d name value stored
      rw [alike.entries] at stored
      rw [alike.getnode, alike.getchild]
      exact hierarchy.tree.entry stored
    · intro d isDirectory
      rw [alike.getnode] at isDirectory
      rw [alike.entries, hierarchy.tree.dot isDirectory]
    · intro d name c isName child
      rw [alike.getchild] at child
      rw [alike.entries, hierarchy.tree.dotdot isName child]
    · intro d e name other c isName otherName child again
      rw [alike.getchild] at child again
      exact hierarchy.tree.parent isName otherName child again
    · intro d name n isName child
      rw [alike.getchild] at child
      exact hierarchy.tree.top isName child
    · intro id n isNode
      exact alike.balanced hierarchy.balanced id
  ceiling := by rw [alike.entries, hierarchy.ceiling]
  reached isDirectory := by
    rw [alike.getnode] at isDirectory
    rw [alike.leads]
    exact hierarchy.reached isDirectory
  spelled stored := by
    rw [alike.entries] at stored
    exact hierarchy.spelled stored
  balanced := alike.balanced hierarchy.balanced
  alive isNode := by
    rw [alike.getnode] at isNode
    rw [alike.refs]
    exact hierarchy.alive isNode

end Dbs

end OfflineFs
