import OfflineFs.Changes.Renaming

/-!
# Entries and links in step

What a change says of the entries, of the classes of the nodes and of their counts of
links.  As long as a count can be read as a signed number, an entry comes and goes with one
link, and a node goes with its last entry.
-/

namespace OfflineFs

open OfflineFs.Effect OfflineFs.Map

/-- The last link goes when there was one at most, also when the greatest count that can be
read was passed by one. -/
theorem toCInt_pred_nonpos_iff_of_le {nlink : UInt32} (small : nlink.toNat ≤ 2 ^ 31) :
    UInt32.toCInt (nlink - 1) ≤ 0 ↔ nlink.toNat ≤ 1 := by
  have predecessor : (nlink - 1).toNat = (2 ^ 32 - 1 + nlink.toNat) % 2 ^ 32 :=
    UInt32.toNat_sub nlink 1
  unfold UInt32.toCInt
  split <;> omega

namespace Dbs

variable {dbs before middle after : Dbs} {d id : UInt64} {name leaf value : Bytes} {n : NodeRef}
variable {kind : NodeKind} {nlink : UInt32}

theorem exists_attr_of_links (linked : 0 < dbs.links id) :
    ∃ nlink, dbs.attr UInt32 id .nlink = .ok nlink ∧ nlink.toNat = dbs.links id := by
  cases counted : dbs.attr UInt32 id .nlink with
  | ok nlink => exact ⟨nlink, rfl, (links_eq counted).symm⟩
  | error e =>
      rw [links, counted] at linked
      exact absurd linked (Nat.lt_irrefl 0)

theorem getnode_of_absent (absent : dbs.get .nodes id Attr.mode.name = none) :
    dbs.getnode id = .error .notFound := by
  rw [getnode, attr, getattr, absent]

theorem refs_pos_of_entry (stored : dbs.get .directories d name = some (hostToDb id)) :
    0 < dbs.refs id :=
  refs_pos_iff.mpr ⟨d, name, stored⟩

/-- Every node has as many links as it has entries. -/
def Balanced (dbs : Dbs) : Prop :=
  ∀ id, dbs.links id = dbs.refs id

/-! ## Nothing that counts -/

/-- The entries, the classes of the nodes and their counts of links are the same. -/
structure Alike (before after : Dbs) : Prop where
  entries : ∀ d name, after.get .directories d name = before.get .directories d name
  getnode : ∀ id, after.getnode id = before.getnode id
  links : ∀ id, after.links id = before.links id

namespace Alike

theorem refl (dbs : Dbs) : Alike dbs dbs where
  entries _ _ := rfl
  getnode _ := rfl
  links _ := rfl

theorem trans (first : Alike before middle) (second : Alike middle after) : Alike before after where
  entries d name := (second.entries d name).trans (first.entries d name)
  getnode id := (second.getnode id).trans (first.getnode id)
  links id := (second.links id).trans (first.links id)

theorem put (notMode : name ≠ Attr.mode.name) (notLinks : name ≠ Attr.nlink.name)
    (value : Bytes) : Alike dbs (dbs.put .nodes id name value) where
  entries d leaf := by
    rw [get_put, if_neg]
    rintro ⟨impossible, -⟩
    cases impossible
  getnode other := getnode_congr (get_put_of_ne (.inr notMode))
  links other := links_congr (get_put_of_ne (.inr notLinks))

theorem setattr {T : Type} [HostInt T] {attr : Attr} (notMode : attr ≠ .mode)
    (notLinks : attr ≠ .nlink) (value : T) : Alike dbs (dbs.setattr id attr value) :=
  put (fun same => notMode (Attr.name_inj.mp same)) (fun same => notLinks (Attr.name_inj.mp same)) _

/-- Erasing another attribute leaves the names and the counts alike. -/
theorem del (notMode : name ≠ Attr.mode.name) (notLinks : name ≠ Attr.nlink.name) :
    Alike dbs (dbs.del .nodes id name) where
  entries d leaf := by
    rw [get_del, if_neg]
    rintro ⟨impossible, -⟩
    cases impossible
  getnode other := by
    apply getnode_congr
    rw [get_del, if_neg]
    rintro ⟨-, -, same⟩
    exact notMode same
  links other := by
    apply links_congr
    rw [get_del, if_neg]
    rintro ⟨-, -, same⟩
    exact notLinks same

/-- The mode of a node may change as long as its class does not. -/
theorem setMode {mode : UInt32} (kind : NodeKind) (isNode : dbs.getnode id = .ok ⟨id, kind⟩)
    (same : kindOfMode mode = kind) : Alike dbs (dbs.setattr id .mode mode) where
  entries d leaf := get_directories_setattr dbs id .mode mode d leaf
  getnode other := by
    by_cases isOther : id = other
    · subst isOther
      rw [isNode, getnode_eq_ok_iff]
      exact ⟨mode, attr_setattr_self _ _ _ _, by rw [same]⟩
    · exact getnode_congr (get_put_of_ne (.inl isOther))
  links other := links_congr (get_put_of_ne (.inr (by decide)))

section Reading

variable (alike : Alike before after)

include alike

theorem directories : after.directories = before.directories :=
  directories_ext alike.entries

theorem refs (id : UInt64) : after.refs id = before.refs id :=
  refs_congr alike.directories

theorem getchild (d : UInt64) (name : Bytes) : after.getchild d name = before.getchild d name := by
  have nodes : after.getnode = before.getnode := funext alike.getnode
  rw [Dbs.getchild, Dbs.getchild, Dbs.getattr, Dbs.getattr, alike.entries, nodes]

theorem balanced (balanced : before.Balanced) : after.Balanced := fun id => by
  rw [alike.links, alike.refs, balanced]

end Reading

end Alike

/-! ## An entry comes -/

/-- One more entry is one more for its node. -/
theorem refs_added (name : Bytes) (free : before.get .directories d name = none)
    (entries : ∀ dir leaf, after.get .directories dir leaf =
      if dir = d ∧ leaf = name then some (hostToDb id) else before.get .directories dir leaf)
    (other : UInt64) : after.refs other = before.refs other + if other = id then 1 else 0 := by
  have counted : (before.entered d name id 0).refs other = _ := refs_entered name 0 free
  rw [← refs_congr (directories_ext fun dir leaf => ?_), counted]
  · simp only [eq_comm]
  · rw [entries, get_directories_entered]

/-- An entry came with a link of its node. -/
structure Joined (before : Dbs) (d : UInt64) (name : Bytes) (id : UInt64) (after : Dbs) : Prop where
  free : before.get .directories d name = none
  entries : ∀ dir leaf, after.get .directories dir leaf =
    if dir = d ∧ leaf = name then some (hostToDb id) else before.get .directories dir leaf
  getnode : ∀ other, after.getnode other = before.getnode other
  links : ∀ other, after.links other = before.links other + if other = id then 1 else 0

/-- Entering a node at a free name and counting it joins them. -/
theorem joined_entered (free : dbs.get .directories d name = none)
    (counted : dbs.attr UInt32 id .nlink = .ok nlink) (small : dbs.links id < 2 ^ 31) :
    dbs.Joined d name id (dbs.entered d name id nlink) where
  free := free
  entries dir leaf := get_directories_entered d name id nlink
  getnode other := getnode_congr (get_nodes_entered d name id nlink (by decide))
  links other := by
    rw [links_eq counted] at small
    rw [links_entered]
    split
    · rename_i same
      rw [same, links_eq counted, toNat_one_add small]
    · rfl

namespace Joined

variable (joined : before.Joined d name id after)

include joined

theorem refs (other : UInt64) :
    after.refs other = before.refs other + if other = id then 1 else 0 :=
  refs_added _ joined.free joined.entries other

theorem balanced (balanced : before.Balanced) : after.Balanced := fun other => by
  rw [joined.links, joined.refs, balanced]

end Joined

/-! ## An entry goes -/

/-- An entry went with a link of its node, or with its node when that was the last. -/
structure Parted (before : Dbs) (d : UInt64) (name : Bytes) (id : UInt64) (after : Dbs) : Prop where
  present : before.get .directories d name = some (hostToDb id)
  entries : ∀ dir leaf, after.get .directories dir leaf =
    if dir = d ∧ leaf = name then none else before.get .directories dir leaf
  getnode : ∀ other, after.getnode other =
    if other = id ∧ before.refs id = 1 then .error .notFound else before.getnode other
  links : ∀ other, after.links other = before.links other - if other = id then 1 else 0

/-- A directory that loses its last entry has no entries itself, but possibly that one. -/
theorem Loses.parted (loses : before.Loses d name n after)
    (balanced : before.links n.id = before.refs n.id) (small : before.refs n.id ≤ 2 ^ 31)
    (clean : n.kind = .directory → before.refs n.id = 1 → ∀ leaf, ¬ (n.id = d ∧ leaf = name) →
      before.get .directories n.id leaf = none) : before.Parted d name n.id after := by
  obtain ⟨nlink, child, counted, rfl⟩ := loses
  have present := (getchild_eq_ok_iff.mp child).1
  have remains : 0 < before.refs n.id := refs_pos_of_entry present
  rw [links_eq counted] at balanced
  have last : UInt32.toCInt (nlink - 1) ≤ 0 ↔ before.refs n.id = 1 := by
    rw [toCInt_pred_nonpos_iff_of_le (by omega), balanced]
    omega
  have erased : ∀ dir leaf, (before.del .directories d name).get .directories dir leaf =
      if dir = d ∧ leaf = name then none else before.get .directories dir leaf := by
    intro dir leaf
    rw [get_del]
    simp only [true_and, eq_comm]
  constructor
  · exact present
  · intro dir leaf
    by_cases isLast : before.refs n.id = 1
    · rw [get_left_of_last (last.mpr isLast), erased]
      split
      · rename_i gone
        obtain ⟨rfl, impossible | isDirectory⟩ := gone
        · cases impossible
        · split
          · rfl
          · exact (clean isDirectory isLast leaf ‹_›).symm
      · rfl
    · rw [get_left_of_more (fun impossible => isLast (last.mp impossible)), if_neg, erased]
      rintro ⟨impossible, -⟩
      cases impossible
  · intro other
    by_cases isLast : before.refs n.id = 1
    · split
      · rename_i gone
        apply getnode_of_absent
        rw [get_left_of_last (last.mpr isLast), if_pos ⟨gone.1, .inl rfl⟩]
      · rename_i stays
        apply getnode_congr
        rw [get_left_of_last (last.mpr isLast), if_neg fun both => stays ⟨both.1, isLast⟩,
          get_nodes_del]
    · rw [if_neg fun both => isLast both.2]
      apply getnode_congr
      rw [get_left_of_more (fun impossible => isLast (last.mp impossible)), if_neg, get_nodes_del]
      rintro ⟨-, -, impossible⟩
      exact absurd impossible (by decide)
  · intro other
    have sameLinks : (before.del .directories d name).links other = before.links other :=
      links_congr (get_nodes_del d name Attr.nlink.name)
    rw [left, unlinked]
    by_cases isLast : before.refs n.id = 1
    · rw [if_pos (last.mpr isLast), links_removed, sameLinks]
      split
      · rename_i same
        rw [same, links_eq counted]
        omega
      · rfl
    · have predecessor : (nlink - 1).toNat = (2 ^ 32 - 1 + nlink.toNat) % 2 ^ 32 :=
        UInt32.toNat_sub nlink 1
      rw [if_neg fun impossible => isLast (last.mp impossible), links_setNlink, sameLinks]
      split
      · rename_i same
        rw [same, links_eq counted]
        omega
      · rfl

namespace Parted

variable (parted : before.Parted d name id after)

include parted

/-- One entry less refers to the node. -/
theorem refs (other : UInt64) :
    after.refs other = before.refs other - if other = id then 1 else 0 := by
  have counted := refs_del other parted.present
  have same : after.refs other = (before.del .directories d name).refs other := by
    apply refs_congr
    apply directories_ext
    intro dir leaf
    rw [parted.entries, get_del]
    simp only [true_and, eq_comm]
  simp only [hostToDb_inj] at counted
  rw [same]
  by_cases isNode : other = id
  · rw [if_pos isNode.symm] at counted
    rw [if_pos isNode]
    omega
  · rw [if_neg (Ne.symm isNode)] at counted
    rw [if_neg isNode]
    omega

theorem balanced (balanced : before.Balanced) : after.Balanced := fun other => by
  rw [parted.links, parted.refs, balanced]

end Parted

end Dbs

end OfflineFs
