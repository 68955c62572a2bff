import OfflineFs.Caches.Paths
import OfflineFs.Caches.Search
import OfflineFs.Changes.Undoing
import OfflineFs.Transition.Trail

/-!
# The directory tree

What can be relied on in databases whose directories form a tree, and how paths are looked
up in them.  The entries other than `.` and `..` are the edges of the tree.
-/

namespace OfflineFs

open OfflineFs.Effect OfflineFs.Transition

/-! ## Normal paths -/

/-- Components that are neither empty nor `.` nor `..`, and have no slash in them. -/
def Normal (names : List Bytes) : Prop :=
  ∀ name ∈ names, (name ≠ [] ∧ slash ∉ name) ∧ IsName name

instance (names : List Bytes) : Decidable (Normal names) :=
  inferInstanceAs (Decidable (∀ name ∈ names, (name ≠ [] ∧ slash ∉ name) ∧ IsName name))

/-- The absolute path with these components; without any it is empty. -/
def pathOf (names : List Bytes) : Bytes :=
  names.flatMap fun name => slash :: name

namespace Normal

variable {names more : List Bytes} {name : Bytes}

theorem proper (normal : Normal names) : Proper names :=
  fun name member => (normal name member).1

theorem append (normal : Normal names) (also : Normal more) : Normal (names ++ more) := by
  intro name member
  rcases List.mem_append.mp member with first | second
  · exact normal name first
  · exact also name second

theorem left (normal : Normal (names ++ more)) : Normal names :=
  fun name member => normal name (List.mem_append_left more member)

theorem last (normal : Normal (names ++ [name])) : (name ≠ [] ∧ slash ∉ name) ∧ IsName name :=
  normal name (List.mem_append_right names (List.mem_singleton.mpr rfl))

end Normal

theorem pathOf_concat (names : List Bytes) (name : Bytes) :
    pathOf (names ++ [name]) = pathOf names ++ slash :: name := by
  rw [pathOf, List.flatMap_append, List.flatMap_singleton]
  rfl

theorem tokenize_pathOf {names : List Bytes} (proper : Proper names) :
    tokenize (pathOf names) = names := by
  induction names using List.reverseRecOn with
  | nil => rfl
  | append_singleton names name ih =>
      have isLast := proper name (List.mem_append_right names (List.mem_singleton.mpr rfl))
      rw [pathOf_concat, tokenize_append, tokenize_plain isLast.2, component, if_neg isLast.1,
        ih fun other member => proper other (List.mem_append_left [name] member)]

theorem pathOf_injOn {first second : List Bytes} (firstProper : Proper first)
    (secondProper : Proper second) (same : pathOf first = pathOf second) : first = second := by
  rw [← tokenize_pathOf firstProper, ← tokenize_pathOf secondProper, same]

theorem splitPath_pathOf {names : List Bytes} {name : Bytes} (nonempty : name ≠ [])
    (plain : slash ∉ name) : splitPath (pathOf (names ++ [name])) = (pathOf names, name) := by
  have ending : Ending (pathOf names ++ slash :: name ++ []) (pathOf names) name :=
    .leaf plain nonempty nofun
  rw [List.append_nil] at ending
  rw [pathOf_concat, ending.splitPath]

theorem leafOf_pathOf {names : List Bytes} {name : Bytes} (nonempty : name ≠ [])
    (plain : slash ∉ name) : leafOf (pathOf (names ++ [name])) = name := by
  rw [leafOf, splitPath_pathOf nonempty plain]

/-! ## The tree -/

namespace Dbs

variable {dbs : Dbs} {sctx : SContext} {n m : NodeRef} {names : List Bytes} {name : Bytes}

/-- A caller who may do anything. -/
def superuser : SContext :=
  ⟨0, 0, []⟩

/-- One round of the loop of `PathCache_null::getnode`. -/
def look (dbs : Dbs) (sctx : SContext) (n : NodeRef) (name : Bytes) : Except Err NodeRef :=
  match dbs.access n.id sctx xOk with
  | .error e => .error e
  | .ok _ => if n.kind = .directory then dbs.getchild n.id name else .error (.badCast .directory)

/-- Walking down a list of names is a fold. -/
theorem walk_eq_foldlM (sctx : SContext) (start : NodeRef) (names : List Bytes) :
    dbs.walk sctx start names = names.foldlM (dbs.look sctx) start := by
  induction names generalizing start with
  | nil => rfl
  | cons name names ih =>
      rw [walk, List.foldlM_cons, look]
      cases dbs.access start.id sctx xOk with
      | error e => rfl
      | ok =>
          by_cases isDirectory : start.kind = .directory
          · simp only [if_pos isDirectory]
            cases dbs.getchild start.id name with
            | error e => rfl
            | ok child => exact ih child
          · simp only [if_neg isDirectory]
            rfl

theorem look_eq_ok_iff : dbs.look sctx n name = .ok m ↔
    dbs.access n.id sctx xOk = .ok () ∧ n.kind = .directory ∧ dbs.getchild n.id name = .ok m := by
  unfold look
  split
  · rename_i e denied
    simp [denied]
  · rename_i granted
    rw [granted]
    by_cases isDirectory : n.kind = .directory
    · simp [isDirectory]
    · simp [isDirectory]

/-- A path is looked up from the root, one component after another. -/
theorem resolve_eq_foldlM (root : dbs.getnode 0 = .ok ⟨0, .directory⟩) (proper : Proper names) :
    dbs.resolve sctx (pathOf names) = names.foldlM (dbs.look sctx) ⟨0, .directory⟩ := by
  rw [resolve, root, tokenize_pathOf proper]
  exact walk_eq_foldlM _ _ _

/-- A directory has an entry for a node. -/
def Edge (dbs : Dbs) (n : NodeRef) (name : Bytes) (m : NodeRef) : Prop :=
  n.kind = .directory ∧ IsName name ∧ dbs.getchild n.id name = .ok m

/-- What is relied on in a tree of directories.  Each directory has one name at most, its
own entries are right, every entry is in a directory and for a node, and the counts of
links are the numbers of entries. -/
structure Tree (dbs : Dbs) : Prop where
  root : dbs.getnode 0 = .ok ⟨0, .directory⟩
  entry : ∀ {d name value}, dbs.get .directories d name = some value →
    dbs.getnode d = .ok ⟨d, .directory⟩ ∧ ∃ n, dbs.getchild d name = .ok n
  dot : ∀ {d}, dbs.getnode d = .ok ⟨d, .directory⟩ →
    dbs.get .directories d (str ".") = some (hostToDb d)
  dotdot : ∀ {d name c}, IsName name → dbs.getchild d name = .ok ⟨c, .directory⟩ →
    dbs.get .directories c (str "..") = some (hostToDb d)
  parent : ∀ {d e name other c}, IsName name → IsName other →
    dbs.getchild d name = .ok ⟨c, .directory⟩ → dbs.getchild e other = .ok ⟨c, .directory⟩ →
      d = e ∧ name = other
  top : ∀ {d name n}, IsName name → dbs.getchild d name = .ok n → n.id ≠ 0
  counted : ∀ {id n}, dbs.getnode id = .ok n → dbs.links id = dbs.refs id

/-- The names that lead from the root to a node. -/
def Leads (dbs : Dbs) (names : List Bytes) (n : NodeRef) : Prop :=
  Trail dbs.Edge ⟨0, .directory⟩ names n

namespace Tree

theorem rooted (tree : dbs.Tree) : Rooted dbs.Edge (fun n => n.kind = .directory) ⟨0, .directory⟩
    where
  inner_of_edge edge := edge.1
  edge_unique := by
    rintro ⟨d, _⟩ ⟨e, _⟩ name other ⟨c, _⟩ ⟨⟩ ⟨⟨⟩, isName, child⟩ ⟨⟨⟩, otherName, otherChild⟩
    obtain ⟨rfl, rfl⟩ := tree.parent isName otherName child otherChild
    exact ⟨rfl, rfl⟩
  not_edge_start n name edge := tree.top edge.2.1 edge.2.2 rfl

theorem unique (tree : dbs.Tree) {other : List Bytes} (isDirectory : n.kind = .directory)
    (leads : dbs.Leads names n) (again : dbs.Leads other n) : names = other :=
  tree.rooted.trail_unique isDirectory leads again

theorem resolve_eq (tree : dbs.Tree) (proper : Proper names) :
    dbs.resolve sctx (pathOf names) = names.foldlM (dbs.look sctx) ⟨0, .directory⟩ :=
  resolve_eq_foldlM tree.root proper

/-- A path that resolves leads to its node. -/
theorem leads (tree : dbs.Tree) (normal : Normal names)
    (found : dbs.resolve sctx (pathOf names) = .ok n) : dbs.Leads names n := by
  rw [tree.resolve_eq normal.proper] at found
  apply trail_of_foldlM _ found
  intro v name last member looked
  obtain ⟨-, isDirectory, child⟩ := look_eq_ok_iff.mp looked
  exact ⟨isDirectory, (normal name member).2, child⟩

end Tree

theorem access_superuser {id : UInt64} {mode : UInt32} :
    dbs.access id superuser mode = .ok () := by
  rw [access, superuser]
  simp

/-- What one caller finds the superuser finds too. -/
theorem Tree.resolve_superuser (tree : dbs.Tree) (proper : Proper names)
    (found : dbs.resolve sctx (pathOf names) = .ok n) :
    dbs.resolve superuser (pathOf names) = .ok n := by
  rw [tree.resolve_eq proper] at found ⊢
  apply foldlM_eq_ok_of_imp _ found
  intro v name last looked
  obtain ⟨-, isDirectory, child⟩ := look_eq_ok_iff.mp looked
  exact look_eq_ok_iff.mpr ⟨access_superuser, isDirectory, child⟩

/-- The last component of a path is looked up in the directory that the others lead to. -/
theorem Tree.resolve_concat (tree : dbs.Tree) (proper : Proper (names ++ [name])) :
    dbs.resolve sctx (pathOf (names ++ [name])) =
      (dbs.resolve sctx (pathOf names) >>= fun d => dbs.look sctx d name) := by
  rw [tree.resolve_eq proper, tree.resolve_eq fun other member =>
    proper other (List.mem_append_left [name] member), List.foldlM_append]
  congr 1
  funext d
  rw [List.foldlM_cons]
  exact bind_pure _

/-- A tree with one more name for a file is one, as long as the count of links holds it. -/
theorem Tree.linked {after : Dbs} {d : UInt64} {nlink : UInt32} (tree : dbs.Tree)
    (linked : dbs.Linked d name n nlink after) (dirNode : dbs.getnode d = .ok ⟨d, .directory⟩)
    (isNode : dbs.getnode n.id = .ok n) (isFile : n.kind ≠ .directory) (isName : IsName name)
    (counted : dbs.attr UInt32 n.id .nlink = .ok nlink) (small : nlink.toNat + 1 < 2 ^ 32) :
    after.Tree := by
  have modes : ∀ id, after.getnode id = dbs.getnode id := by
    intro id
    apply getnode_congr
    apply linked.others
    rintro (times | ⟨-, same | same⟩)
    · exact not_times_mode times
    · exact absurd same (by decide)
    · exact absurd same (by decide)
  have notRoot : n.id ≠ 0 := by
    intro same
    rw [same, tree.root] at isNode
    cases isNode
    exact isFile rfl
  have earlier {dir : UInt64} {leaf : Bytes} {m : NodeRef}
      (child : after.getchild dir leaf = .ok m) :
      (dir = d ∧ leaf = name ∧ m = n) ∨ dbs.getchild dir leaf = .ok m := by
    obtain ⟨stored, isThere⟩ := getchild_eq_ok_iff.mp child
    rw [modes] at isThere
    rw [linked.entries] at stored
    split at stored
    case isTrue site =>
      rw [Option.some.injEq, hostToDb_inj] at stored
      rw [← stored, isNode] at isThere
      exact .inl ⟨site.1, site.2, (Except.ok.inj isThere).symm⟩
    case isFalse => exact .inr (getchild_eq_ok_iff.mpr ⟨stored, isThere⟩)
  have kept {dir : UInt64} {leaf : Bytes} {value : Bytes}
      (stored : dbs.get .directories dir leaf = some value) :
      after.get .directories dir leaf = some value :=
    linked.grows.entries dir leaf value stored
  constructor
  · rw [modes, tree.root]
  · intro dir leaf value stored
    rw [linked.entries] at stored
    split at stored
    case isTrue site =>
      obtain ⟨rfl, rfl⟩ := site
      refine ⟨(modes dir).trans dirNode, n, getchild_eq_ok_iff.mpr ⟨?_, (modes n.id).trans isNode⟩⟩
      rw [linked.entries, if_pos ⟨rfl, rfl⟩]
    case isFalse =>
      obtain ⟨isDir, m, child⟩ := tree.entry stored
      exact ⟨(modes dir).trans isDir, m, linked.grows.getchild child⟩
  · intro dir isDir
    exact kept (tree.dot ((modes dir).symm.trans isDir))
  · intro dir leaf c leafName child
    rcases earlier child with ⟨-, -, rfl⟩ | child
    · exact absurd rfl isFile
    · exact kept (tree.dotdot leafName child)
  · intro dir e leaf other c leafName otherName child again
    rcases earlier child with ⟨-, -, rfl⟩ | child
    · exact absurd rfl isFile
    · rcases earlier again with ⟨-, -, rfl⟩ | again
      · exact absurd rfl isFile
      · exact tree.parent leafName otherName child again
  · intro dir leaf m leafName child
    rcases earlier child with ⟨-, -, rfl⟩ | child
    · exact notRoot
    · exact tree.top leafName child
  · intro id m isThere
    rw [modes] at isThere
    have before := tree.counted isThere
    have refs : after.refs id = dbs.refs id + if n.id = id then 1 else 0 := by
      rw [← refs_entered name nlink linked.free]
      apply refs_congr
      apply directories_ext
      intro dir leaf
      rw [linked.entries, get_directories_entered]
    by_cases same : n.id = id
    · subst same
      have sum : (1 + nlink).toNat = (1 + nlink.toNat) % 2 ^ 32 := UInt32.toNat_add 1 nlink
      rw [links_eq counted] at before
      rw [refs, if_pos rfl, links_eq linked.counted]
      omega
    · rw [refs, if_neg same, Nat.add_zero, ← before]
      apply links_congr
      apply linked.others
      rintro (times | ⟨isSame, -⟩)
      · exact absurd times.2 (by decide)
      · exact same isSame.symm

end Dbs

end OfflineFs
