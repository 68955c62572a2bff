import OfflineFs.Changes.Primitives

/-!
# Link counts and entries

The number of entries that name a node, and the number of links that the node has
stored.  Every change moves both alike, or takes the node away with its last entry.
-/

namespace OfflineFs

open OfflineFs.Effect OfflineFs.Map

namespace Dbs

variable {dbs now after : Dbs} {id d n : UInt64} {name value : Bytes}

/-- The number of entries for a node. -/
def refs (dbs : Dbs) (id : UInt64) : Nat :=
  countIf (fun _ value => value = hostToDb id) dbs.directories

/-- The stored number of links of a node. -/
def links (dbs : Dbs) (id : UInt64) : Nat :=
  match dbs.attr UInt32 id .nlink with
  | .ok nlink => nlink.toNat
  | .error _ => 0

theorem links_eq {nlink : UInt32} (counted : dbs.attr UInt32 id .nlink = .ok nlink) :
    dbs.links id = nlink.toNat := by
  rw [links, counted]

theorem links_congr
    (same : after.get .nodes id Attr.nlink.name = now.get .nodes id Attr.nlink.name) :
    after.links id = now.links id := by
  rw [links, links, attr_congr same]

theorem links_of_absent (absent : dbs.get .nodes id Attr.nlink.name = none) : dbs.links id = 0 := by
  rw [links, attr, getattr, absent]

theorem refs_pos_iff :
    0 < dbs.refs id ↔ ∃ d name, dbs.get .directories d name = some (hostToDb id) := by
  rw [refs, countIf_pos_iff]
  constructor
  · rintro ⟨⟨d, name⟩, value, stored, isNode⟩
    refine ⟨d, name, ?_⟩
    rw [← of_decide_eq_true isNode]
    exact stored
  · rintro ⟨d, name, stored⟩
    exact ⟨⟨d, name⟩, hostToDb id, stored, decide_eq_true rfl⟩

theorem refs_congr (same : after.directories = now.directories) : after.refs id = now.refs id := by
  rw [refs, refs, same]

@[simp]
theorem refs_put (attr written : Bytes) : (dbs.put .nodes n attr written).refs id = dbs.refs id :=
  refs_congr rfl

@[simp]
theorem refs_setattr {T : Type} [HostInt T] (attr : Attr) (stored : T) :
    (dbs.setattr n attr stored).refs id = dbs.refs id :=
  refs_congr rfl

theorem refs_created (n atime mtime ctime : UInt64) :
    (dbs.created n atime mtime ctime).refs id = dbs.refs id :=
  refs_congr rfl

theorem refs_entered (leaf : Bytes) (nlink : UInt32) (absent : dbs.get .directories d leaf = none) :
    (dbs.entered d leaf n nlink).refs id = dbs.refs id + if n = id then 1 else 0 := by
  have counted : countIf (fun _ value => decide (value = hostToDb id))
      (dbs.directories.insert ⟨d, leaf⟩ (hostToDb n)) = _ := countIf_insert absent
  simp only [decide_eq_true_eq, hostToDb_inj] at counted
  exact counted

theorem refs_del (id : UInt64) (present : dbs.get .directories d name = some value) :
    (dbs.del .directories d name).refs id + (if value = hostToDb id then 1 else 0) =
      dbs.refs id := by
  have counted := countIf_erase (fun _ value => decide (value = hostToDb id)) present
  simp only [decide_eq_true_eq] at counted
  exact counted

theorem refs_del_of_absent (absent : dbs.get .directories d name = none) :
    (dbs.del .directories d name).refs id = dbs.refs id := by
  have same : (dbs.del .directories d name).directories = dbs.directories := erase_eq_self absent
  exact refs_congr same

theorem refs_wipe_le (d : UInt64) : (dbs.wipe .directories d).refs id ≤ dbs.refs id :=
  countIf_filter_le _

theorem refs_removed_le (dbs : Dbs) (id : UInt64) (n : NodeRef) :
    (dbs.removed n).refs id ≤ dbs.refs id := by
  unfold removed
  split
  · exact (refs_wipe_le n.id).trans' (Nat.le_of_eq (refs_congr rfl))
  · exact Nat.le_of_eq (refs_congr rfl)

theorem links_removed (n : NodeRef) :
    (dbs.removed n).links id = if id = n.id then 0 else dbs.links id := by
  split
  · rename_i same
    exact links_of_absent (by rw [get_removed, if_pos ⟨same, .inl rfl⟩])
  · rename_i other
    exact links_congr (by rw [get_removed, if_neg fun both => other both.1])

/-- Entering a node raises its count, which wraps. -/
theorem links_entered (leaf : Bytes) (nlink : UInt32) :
    (dbs.entered d leaf n nlink).links id =
      if id = n then (1 + nlink).toNat else dbs.links id := by
  split
  · rename_i same
    rw [same, links, attr_entered_self]
  · rename_i other
    apply links_congr
    rw [entered, get_put, if_neg, get_setattr, if_neg]
    · rintro ⟨-, same, -⟩
      exact other same.symm
    · rintro ⟨impossible, -⟩
      cases impossible

theorem links_setNlink (nlink : UInt32) :
    (dbs.setattr n .nlink nlink).links id = if id = n then nlink.toNat else dbs.links id := by
  split
  · rename_i same
    rw [same, links, attr_setattr_self]
  · rename_i other
    apply links_congr
    rw [get_setattr, if_neg]
    rintro ⟨-, same, -⟩
    exact other same.symm

end Dbs

/-! ## Counts that cover the entries -/

/-- No node has more entries than links. -/
def Dbs.Counted (dbs : Dbs) : Prop :=
  ∀ id, dbs.refs id ≤ dbs.links id

/-- No count of links is past a bound. -/
def Dbs.Bounded (dbs : Dbs) (bound : Nat) : Prop :=
  ∀ id, dbs.links id ≤ bound

/-- The counts of links are as small as their stored values. -/
theorem Dbs.bounded_of_values {dbs : Dbs} {bound : Nat}
    (small : ∀ entry ∈ dbs.nodes.toList, entry.1.name = Attr.nlink.name → beNat entry.2 ≤ bound) :
    dbs.Bounded bound := by
  intro id
  unfold links
  cases counted : dbs.attr UInt32 id .nlink with
  | error e => exact Nat.zero_le bound
  | ok nlink =>
      have stored : dbs.nodes[(⟨id, Attr.nlink.name⟩ : Key UInt64)]? = some (hostToDb nlink) :=
        getattr_eq_ok_iff.mp counted
      have listed := Std.ExtTreeMap.mem_toList_iff_getElem?_eq_some.mpr stored
      have least := small _ listed rfl
      rwa [hostToDb, beNat_beBytes, Nat.mod_eq_of_lt (HostInt.toNat_lt nlink)] at least

theorem toCInt_nonpos_iff {nlink : UInt32} (small : nlink.toNat < 2 ^ 31) :
    UInt32.toCInt nlink ≤ 0 ↔ nlink.toNat = 0 := by
  unfold UInt32.toCInt
  split
  · omega
  · omega

/-- The last link goes when there was one at most. -/
theorem toCInt_pred_nonpos_iff {nlink : UInt32} (small : nlink.toNat < 2 ^ 31) :
    UInt32.toCInt (nlink - 1) ≤ 0 ↔ nlink.toNat ≤ 1 := by
  have predecessor : (nlink - 1).toNat = (2 ^ 32 - 1 + nlink.toNat) % 2 ^ 32 :=
    UInt32.toNat_sub nlink 1
  unfold UInt32.toCInt
  split
  · omega
  · omega

theorem toNat_one_add {nlink : UInt32} (small : nlink.toNat < 2 ^ 31) :
    (1 + nlink).toNat = nlink.toNat + 1 := by
  have sum : (1 + nlink).toNat = (1 + nlink.toNat) % 2 ^ 32 := UInt32.toNat_add 1 nlink
  omega

namespace Dbs

variable {dbs : Dbs} {bound : Nat} {d : UInt64} {name : Bytes} {n : NodeRef} {nlink : UInt32}

theorem Counted.removed (counted : dbs.Counted) (unused : (dbs.removed n).refs n.id = 0) :
    (dbs.removed n).Counted := by
  intro id
  have fewer := refs_removed_le dbs id n
  have before := counted id
  rw [links_removed]
  split
  · rename_i same
    rw [same, unused]
  · omega

/-- Every node still has a count. -/
theorem Counted.entered {n : UInt64} (counted : dbs.Counted) (bounded : dbs.Bounded bound)
    (small : bound < 2 ^ 31) (absent : dbs.get .directories d name = none)
    (isCount : dbs.attr UInt32 n .nlink = .ok nlink) : (dbs.entered d name n nlink).Counted := by
  intro id
  have before := counted id
  have least := bounded n
  rw [links_eq isCount] at least
  rw [refs_entered name nlink absent, links_entered]
  by_cases same : id = n
  · rw [same, links_eq isCount] at before
    rw [same, if_pos rfl, if_pos rfl, toNat_one_add (by omega)]
    omega
  · rw [if_neg (Ne.symm same), if_neg same]
    omega

theorem Bounded.entered {n : UInt64} (bounded : dbs.Bounded bound) (small : bound < 2 ^ 31)
    (isCount : dbs.attr UInt32 n .nlink = .ok nlink) :
    (dbs.entered d name n nlink).Bounded (bound + 1) := by
  intro id
  have least := bounded n
  rw [links_eq isCount] at least
  rw [links_entered]
  split
  · rw [toNat_one_add (by omega)]
    omega
  · exact (bounded id).trans (Nat.le_succ bound)

/-- An entry goes with one link, or with its node when that was the last. -/
theorem Counted.left (counted : dbs.Counted) (bounded : dbs.Bounded bound) (small : bound < 2 ^ 31)
    (child : dbs.getchild d name = .ok n) (isCount : dbs.attr UInt32 n.id .nlink = .ok nlink) :
    (dbs.left d name n nlink).Counted := by
  have stored := (getchild_eq_ok_iff.mp child).1
  have least := bounded n.id
  have atNode := counted n.id
  rw [links_eq isCount] at least atNode
  have sameLinks : ∀ id, (dbs.del .directories d name).links id = dbs.links id :=
    fun id => links_congr (get_nodes_del d name Attr.nlink.name)
  have erased : (dbs.del .directories d name).Counted := by
    intro id
    have fewer := refs_del id stored
    have before := counted id
    rw [sameLinks]
    omega
  have one := refs_del n.id stored
  rw [if_pos rfl] at one
  unfold Dbs.left unlinked
  split
  · rename_i last
    rw [toCInt_pred_nonpos_iff (by omega)] at last
    apply erased.removed
    have fewer := refs_removed_le (dbs.del .directories d name) n.id n
    omega
  · rename_i more
    rw [toCInt_pred_nonpos_iff (by omega)] at more
    intro id
    have before := erased id
    have predecessor : (nlink - 1).toNat = (2 ^ 32 - 1 + nlink.toNat) % 2 ^ 32 :=
      UInt32.toNat_sub nlink 1
    rw [links_setNlink, refs_setattr]
    split
    · rename_i same
      rw [same]
      omega
    · exact before

/-- The counts stay below their bound. -/
theorem Bounded.left (bounded : dbs.Bounded bound)
    (isCount : dbs.attr UInt32 n.id .nlink = .ok nlink)
    (small : bound < 2 ^ 31) : (dbs.left d name n nlink).Bounded bound := by
  have least := bounded n.id
  rw [links_eq isCount] at least
  have sameLinks : ∀ id, (dbs.del .directories d name).links id = dbs.links id :=
    fun id => links_congr (get_nodes_del d name Attr.nlink.name)
  intro id
  have before := bounded id
  unfold Dbs.left unlinked
  split
  · rw [links_removed, sameLinks]
    split
    · omega
    · exact before
  · rename_i more
    rw [toCInt_pred_nonpos_iff (by omega)] at more
    have predecessor : (nlink - 1).toNat = (2 ^ 32 - 1 + nlink.toNat) % 2 ^ 32 :=
      UInt32.toNat_sub nlink 1
    rw [links_setNlink, sameLinks]
    split
    · omega
    · exact before

end Dbs

end OfflineFs
