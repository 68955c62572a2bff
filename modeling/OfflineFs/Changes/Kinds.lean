import OfflineFs.Run.Files

/-!
# Changes of the databases

What a request writes, in steps that each leave the link counts and the entries in
agreement: attributes of nodes, new nodes, entries that are added together with a
link, and entries that go together with a link, possibly the last one.
-/

namespace OfflineFs

open OfflineFs.Effect

namespace Dbs

/-- A neutral node. -/
def created (dbs : Dbs) (id atime mtime ctime : UInt64) : Dbs :=
  let reserved := dbs.put .nodes id [] []
  let neutral := ((reserved.setattr id .dev (0 : UInt64)).setattr id .nlink (0 : UInt32)).setattr id
    .size (0 : UInt64)
  ((neutral.setattr id .atime atime).setattr id .mtime mtime).setattr id .ctime ctime

/-- What the virtual `remove` of a node erases. -/
def removed (dbs : Dbs) (n : NodeRef) : Dbs :=
  match n.kind with
  | .directory => (dbs.wipe .directories n.id).wipe .nodes n.id
  | _ => dbs.wipe .nodes n.id

/-- An entry is added and its node has one more link. -/
def entered (dbs : Dbs) (d : UInt64) (name : Bytes) (n : UInt64) (nlink : UInt32) : Dbs :=
  (dbs.setattr n .nlink (1 + nlink)).put .directories d name (hostToDb n)

/-- A node has one link less, and is gone if that was the last. -/
def unlinked (dbs : Dbs) (n : NodeRef) (nlink : UInt32) : Dbs :=
  if UInt32.toCInt (nlink - 1) ≤ 0 then dbs.removed n else dbs.setattr n.id .nlink (nlink - 1)

/-- An entry goes and its node has one link less. -/
def left (dbs : Dbs) (d : UInt64) (name : Bytes) (n : NodeRef) (nlink : UInt32) : Dbs :=
  (dbs.del .directories d name).unlinked n nlink

end Dbs

/-- One change. -/
inductive Change
  | put (id : UInt64) (name value : Bytes)
  | del (id : UInt64) (name : Bytes)
  | create (id atime mtime ctime : UInt64)
  | enter (d : UInt64) (name : Bytes) (n : UInt64) (nlink : UInt32)
  | leave (d : UInt64) (name : Bytes) (n : NodeRef) (nlink : UInt32)
  | strip (d : UInt64) (name : Bytes)
  | discard (n : NodeRef)

namespace Change

/-- The databases after a change. -/
def apply (dbs : Dbs) : Change → Dbs
  | put id name value => dbs.put .nodes id name value
  | del id name => dbs.del .nodes id name
  | create id atime mtime ctime => dbs.created id atime mtime ctime
  | enter d name n nlink => dbs.entered d name n nlink
  | leave d name n nlink => dbs.left d name n nlink
  | strip d name => dbs.del .directories d name
  | discard n => dbs.removed n

/-- The number of entries that a change adds. -/
def added : Change → Nat
  | enter _ _ _ _ => 1
  | _ => 0

end Change

/-! ## What is read after a change -/

namespace Dbs

variable (dbs : Dbs) (n : NodeRef)

@[simp]
theorem get_removed (table : Table) (id : UInt64) (name : Bytes) :
    (dbs.removed n).get table id name =
      if id = n.id ∧ (table = .nodes ∨ n.kind = .directory) then none
      else dbs.get table id name := by
  unfold removed
  cases kind : n.kind <;> cases table <;> simp [get_wipe, eq_comm]

/-- Only the directories register of a removed directory is erased. -/
theorem get_removed_directories (id : UInt64) (name : Bytes) :
    (dbs.removed n).get .directories id name =
      if id = n.id ∧ n.kind = .directory then none else dbs.get .directories id name := by
  simp

theorem get_setattr {T : Type} [HostInt T] (id : UInt64) (attr : Attr) (value : T) (table : Table)
    (other : UInt64) (name : Bytes) :
    (dbs.setattr id attr value).get table other name =
      if table = .nodes ∧ id = other ∧ attr.name = name then some (hostToDb value)
      else dbs.get table other name := by
  rw [setattr, get_put]
  simp only [eq_comm]

theorem get_directories_setattr {T : Type} [HostInt T] (id : UInt64) (attr : Attr) (value : T)
    (other : UInt64) (name : Bytes) :
    (dbs.setattr id attr value).get .directories other name =
      dbs.get .directories other name := by
  rw [get_setattr, if_neg]
  rintro ⟨impossible, -⟩
  cases impossible

theorem get_directories_created (id atime mtime ctime other : UInt64) (name : Bytes) :
    (dbs.created id atime mtime ctime).get .directories other name =
      dbs.get .directories other name := by
  simp only [created, get_directories_setattr, get_put]
  simp

/-- A new node changes no other. -/
theorem get_created_of_ne {id other : UInt64} (apart : id ≠ other) (atime mtime ctime : UInt64)
    (table : Table) (name : Bytes) :
    (dbs.created id atime mtime ctime).get table other name = dbs.get table other name := by
  simp [created, get_setattr, get_put, apart]

end Dbs

/-! ## Attributes -/

namespace Dbs

variable {dbs now after : Dbs} {id other : UInt64} {attr : Attr}

theorem attr_congr {T : Type} [HostInt T] {attr : Attr}
    (same : after.get .nodes id attr.name = now.get .nodes id attr.name) :
    after.attr T id attr = now.attr T id attr := by
  rw [Dbs.attr, Dbs.attr, getattr, getattr, same]

theorem get_put_of_ne {written name value : Bytes} (apart : other ≠ id ∨ written ≠ name) :
    (dbs.put .nodes other written value).get .nodes id name = dbs.get .nodes id name := by
  rw [get_put, if_neg]
  rintro ⟨-, sameId, sameName⟩
  rcases apart with differs | differs
  · exact differs sameId
  · exact differs sameName

theorem get_nodes_del (d : UInt64) (leaf name : Bytes) :
    (dbs.del .directories d leaf).get .nodes id name = dbs.get .nodes id name := by
  rw [get_del, if_neg]
  rintro ⟨impossible, -⟩
  cases impossible

theorem get_nodes_entered (d : UInt64) (leaf : Bytes) (n : UInt64) (nlink : UInt32)
    (notLinks : attr ≠ .nlink) :
    (dbs.entered d leaf n nlink).get .nodes id attr.name = dbs.get .nodes id attr.name := by
  rw [entered, get_put, if_neg, get_setattr, if_neg]
  · rintro ⟨-, -, same⟩
    exact notLinks (Attr.name_inj.mp same).symm
  · rintro ⟨impossible, -⟩
    cases impossible

theorem attr_entered_self (d : UInt64) (leaf : Bytes) (n : UInt64) (nlink : UInt32) :
    (dbs.entered d leaf n nlink).attr UInt32 n .nlink = .ok (1 + nlink) := by
  rw [← attr_setattr_self dbs n .nlink (1 + nlink)]
  apply attr_congr
  rw [entered, get_put, if_neg]
  rintro ⟨impossible, -⟩
  cases impossible

theorem get_nodes_removed (dbs : Dbs) (n : NodeRef) (id : UInt64) :
    (∀ name, (dbs.removed n).get .nodes id name = dbs.get .nodes id name) ∨
      ∀ name, (dbs.removed n).get .nodes id name = none := by
  by_cases erased : id = n.id
  · exact .inr fun name => by rw [get_removed, if_pos ⟨erased, .inl rfl⟩]
  · exact .inl fun name => by rw [get_removed, if_neg fun both => erased both.1]

/-- A node that loses a link has its other attributes, or is gone. -/
theorem get_nodes_left (d : UInt64) (leaf : Bytes) (n : NodeRef) (nlink : UInt32) (id : UInt64) :
    (∀ attr : Attr, attr ≠ .nlink →
        (dbs.left d leaf n nlink).get .nodes id attr.name = dbs.get .nodes id attr.name) ∨
      ∀ name, (dbs.left d leaf n nlink).get .nodes id name = none := by
  unfold left unlinked
  split
  · refine (get_nodes_removed _ n id).imp_left fun same attr _ => ?_
    rw [same, get_nodes_del]
  · refine .inl fun attr notLinks => ?_
    rw [get_setattr, if_neg, get_nodes_del]
    rintro ⟨-, -, same⟩
    exact notLinks (Attr.name_inj.mp same).symm

end Dbs

/-! ## Entries -/

namespace Dbs

variable {dbs : Dbs} {d : UInt64} {name value : Bytes}

theorem get_directories_entered (dir : UInt64) (leaf : Bytes) (n : UInt64) (nlink : UInt32) :
    (dbs.entered dir leaf n nlink).get .directories d name =
      if d = dir ∧ name = leaf then some (hostToDb n) else dbs.get .directories d name := by
  rw [entered, get_put, get_directories_setattr]
  simp [eq_comm]

theorem get_directories_unlinked_eq_some {n : NodeRef} {nlink : UInt32}
    (stored : (dbs.unlinked n nlink).get .directories d name = some value) :
    dbs.get .directories d name = some value := by
  unfold unlinked at stored
  split at stored
  · rw [get_removed_directories] at stored
    split at stored
    · cases stored
    · exact stored
  · rwa [get_directories_setattr] at stored

theorem get_directories_del_eq_some {dir : UInt64} {leaf : Bytes}
    (stored : (dbs.del .directories dir leaf).get .directories d name = some value) :
    dbs.get .directories d name = some value := by
  rw [get_del] at stored
  split at stored
  · cases stored
  · exact stored

end Dbs

/-- An entry that is there after a change was there before, or was added by it. -/
theorem Change.entry_of_apply {dbs : Dbs} {change : Change} {d : UInt64} {name value : Bytes}
    (stored : (change.apply dbs).get .directories d name = some value) :
    dbs.get .directories d name = some value ∨
      ∃ n nlink, change = .enter d name n nlink ∧ value = hostToDb n := by
  cases change with
  | put id attr written =>
      left
      rw [Change.apply, Dbs.get_put, if_neg] at stored
      · exact stored
      · rintro ⟨impossible, -⟩
        cases impossible
  | del id attr =>
      left
      rw [Change.apply, Dbs.get_del, if_neg] at stored
      · exact stored
      · rintro ⟨impossible, -⟩
        cases impossible
  | create id atime mtime ctime =>
      left
      rwa [Change.apply, Dbs.get_directories_created] at stored
  | enter dir leaf n nlink =>
      rw [Change.apply, Dbs.get_directories_entered] at stored
      split at stored
      · rename_i same
        obtain ⟨rfl, rfl⟩ := same
        exact .inr ⟨n, nlink, rfl, (Option.some.inj stored).symm⟩
      · exact .inl stored
  | leave dir leaf n nlink =>
      exact .inl (Dbs.get_directories_del_eq_some (Dbs.get_directories_unlinked_eq_some stored))
  | strip dir leaf => exact .inl (Dbs.get_directories_del_eq_some stored)
  | discard n =>
      left
      rw [Change.apply, Dbs.get_removed_directories] at stored
      split at stored
      · cases stored
      · exact stored

end OfflineFs
