import OfflineFs.Changes.Attributes
import OfflineFs.Changes.Links

/-!
# Nodes with all their attributes

The attributes that `getattr` reads are there for every node that has a mode or a
count of links.  Permitted changes keep this for every node but a new one, and keep
the counts of links above the numbers of entries.
-/

namespace OfflineFs

open OfflineFs.Effect OfflineFs.Map

/-- The attributes that `getattr` and the path cache read. -/
abbrev vital : List Attr :=
  [.dev, .nlink, .mode, .uid, .gid, .size, .atime, .mtime, .ctime]

/-- The attributes of a neutral node. -/
abbrev neutral : List Attr :=
  [.ctime, .mtime, .atime, .size, .nlink, .dev]

namespace Dbs

variable {dbs now : Dbs} {id other : UInt64} {name value : Bytes} {attr : Attr}

/-- A node that has attributes, of the width that they are read with. -/
def Has (dbs : Dbs) (attrs : List Attr) (id : UInt64) : Prop :=
  ∀ attr ∈ attrs, ∃ value, dbs.get .nodes id attr.name = some value ∧ attr.Fits value

/-- A node with all its attributes. -/
abbrev Whole (dbs : Dbs) (id : UInt64) : Prop :=
  dbs.Has vital id

/-- A node that has a mode or a count of links. -/
def Begins (dbs : Dbs) (id : UInt64) : Prop :=
  dbs.get .nodes id Attr.nlink.name ≠ none ∨ dbs.get .nodes id Attr.mode.name ≠ none

/-- Every node is whole, and no entry is past the count of links. -/
structure Complete (dbs : Dbs) : Prop where
  ids : ∀ d name value, dbs.get .directories d name = some value → ∃ id : UInt64,
    value = hostToDb id
  whole : ∀ id, dbs.Begins id → dbs.Whole id
  counted : dbs.Counted

section Has

variable {attrs : List Attr}

theorem Has.congr (has : now.Has attrs id)
    (same : ∀ attr ∈ attrs, dbs.get .nodes id attr.name = now.get .nodes id attr.name) :
    dbs.Has attrs id := by
  intro attr listed
  rw [same attr listed]
  exact has attr listed

theorem Has.mono {fewer : List Attr} (has : dbs.Has attrs id) (listed : fewer ⊆ attrs) :
    dbs.Has fewer id :=
  fun attr member => has attr (listed member)

theorem Has.cons (first : dbs.Has [attr] id) (has : dbs.Has attrs id) :
    dbs.Has (attr :: attrs) id := by
  intro read listed
  rcases List.mem_cons.mp listed with rfl | others
  · exact first read (List.mem_singleton.mpr rfl)
  · exact has read others

/-- Storing a value that fits. -/
theorem Has.put (has : dbs.Has attrs id)
    (fits : ∀ attr ∈ attrs, name = attr.name → attr.Fits value) :
    (dbs.put .nodes other name value).Has attrs id := by
  intro attr listed
  rw [get_put]
  split
  · rename_i same
    exact ⟨value, rfl, fits attr listed same.2.2⟩
  · exact has attr listed

theorem Has.setattr {T : Type} [HostInt T] (has : dbs.Has attrs id) (attr : Attr)
    (sized : attr.width = some (HostInt.size T)) (stored : T) :
    (dbs.setattr other attr stored).Has attrs id := by
  apply has.put
  intro read _ same
  rw [← Attr.name_inj.mp same]
  exact Attr.fits_hostToDb sized stored

/-- Storing one attribute more. -/
theorem Has.add {T : Type} [HostInt T] (has : dbs.Has attrs id) (attr : Attr)
    (sized : attr.width = some (HostInt.size T)) (stored : T) :
    (dbs.setattr id attr stored).Has (attr :: attrs) id := by
  intro read listed
  rcases List.mem_cons.mp listed with rfl | others
  · exact ⟨_, by rw [get_setattr, if_pos ⟨rfl, rfl, rfl⟩], Attr.fits_hostToDb sized stored⟩
  · exact has.setattr attr sized stored read others

/-- An attribute read with its own width is there. -/
theorem Has.read {T : Type} [HostInt T] (has : dbs.Has attrs id) (listed : attr ∈ attrs)
    (sized : attr.width = some (HostInt.size T)) : ∃ value : T, dbs.attr T id attr = .ok value := by
  obtain ⟨bytes, stored, fits⟩ := has attr listed
  have readable := dbToHost_isSome_iff.mpr (fits _ sized)
  obtain ⟨value, isValue⟩ := Option.isSome_iff_exists.mp readable
  refine ⟨value, getattr_eq_ok_iff.mpr ?_⟩
  rw [stored, dbToHost_eq_some_iff.mp isValue]

theorem get_nodes_put_directories {d : UInt64} {leaf : Bytes} :
    (dbs.put .directories d leaf value).get .nodes id name = dbs.get .nodes id name := by
  rw [get_put, if_neg]
  rintro ⟨impossible, -⟩
  cases impossible

theorem Has.entered {d n : UInt64} {leaf : Bytes} {nlink : UInt32} (has : dbs.Has attrs id) :
    (dbs.entered d leaf n nlink).Has attrs id :=
  (has.setattr .nlink rfl (1 + nlink)).congr fun _ _ => get_nodes_put_directories

/-- What a neutral node has. -/
theorem has_created (atime mtime ctime : UInt64) :
    (dbs.created id atime mtime ctime).Has neutral id := by
  have nothing : (dbs.put .nodes id [] []).Has [] id := nofun
  exact (((((nothing.add .dev rfl (0 : UInt64)).add .nlink rfl (0 : UInt32)).add .size rfl
    (0 : UInt64)).add .atime rfl atime).add .mtime rfl mtime).add .ctime rfl ctime

end Has

theorem begins_of_getnode {n : NodeRef} (isNode : dbs.getnode n.id = .ok n) : dbs.Begins n.id := by
  rcases n with ⟨id, kind⟩
  obtain ⟨mode, isMode, -⟩ := getnode_eq_ok_iff.mp isNode
  right
  rw [getattr_eq_ok_iff.mp isMode]
  exact Option.some_ne_none _

theorem begins_congr (links : dbs.get .nodes id Attr.nlink.name = now.get .nodes id Attr.nlink.name)
    (mode : dbs.get .nodes id Attr.mode.name = now.get .nodes id Attr.mode.name) :
    dbs.Begins id ↔ now.Begins id := by
  rw [Begins, Begins, links, mode]

theorem not_begins_of_gone (gone : ∀ name, dbs.get .nodes id name = none) : ¬ dbs.Begins id :=
  fun begins => begins.elim (absurd (gone _)) (absurd (gone _))

/-- Counting the links of a node that has a count makes no node begin. -/
theorem begins_of_setNlink {n : UInt64} {nlink stored : UInt32}
    (isCount : dbs.attr UInt32 n .nlink = .ok nlink)
    (begins : (dbs.setattr n .nlink stored).Begins id) : dbs.Begins id := by
  rcases begins with links | mode
  · left
    rw [get_setattr] at links
    split at links
    · rename_i same
      rw [← same.2.1, getattr_eq_ok_iff.mp isCount]
      exact Option.some_ne_none _
    · exact links
  · right
    rw [get_setattr, if_neg] at mode
    · exact mode
    · rintro ⟨-, -, same⟩
      exact absurd (Attr.name_inj.mp same) (by decide)

end Dbs

namespace Dbs

variable {exempt : UInt64 → Prop} {bound : Nat} {now : Dbs} {id : UInt64} {name value : Bytes}

/-- What holds of the databases while nodes are made: those may be without attributes. -/
structure Partly (exempt : UInt64 → Prop) (bound : Nat) (now : Dbs) : Prop where
  ids : ∀ d name value, now.get .directories d name = some value → ∃ id : UInt64,
    value = hostToDb id
  whole : ∀ id, ¬ exempt id → now.Begins id → now.Whole id
  counted : now.Counted
  bounded : now.Bounded bound

/-- Storing an attribute other than the count of links. -/
theorem Partly.put (partly : Partly exempt bound now)
    (fits : ∀ attr ∈ vital, name = attr.name → attr.Fits value) (notLinks : name ≠ Attr.nlink.name)
    (present : exempt id ∨ name ≠ Attr.mode.name ∨
      now.get .nodes id Attr.mode.name ≠ none) :
    Partly exempt bound (now.put .nodes id name value) where
  ids d leaf stored isStored := by
    rw [Dbs.get_put, if_neg] at isStored
    · exact partly.ids d leaf stored isStored
    · rintro ⟨impossible, -⟩
      cases impossible
  whole other apart begins := by
    refine (partly.whole other apart ?_).put fits
    rcases begins with links | mode
    · left
      rwa [Dbs.get_put_of_ne (.inr notLinks)] at links
    · right
      rw [Dbs.get_put] at mode
      split at mode
      · rename_i same
        obtain ⟨-, rfl, isMode⟩ := same
        rcases present with isExempt | notMode | present
        · exact absurd isExempt apart
        · exact absurd isMode notMode
        · exact present
      · exact mode
  counted other := by
    rw [Dbs.refs_put, Dbs.links_congr (Dbs.get_put_of_ne (.inr notLinks))]
    exact partly.counted other
  bounded other := by
    rw [Dbs.links_congr (Dbs.get_put_of_ne (.inr notLinks))]
    exact partly.bounded other

/-- Erasing an attribute that is not vital. -/
theorem Partly.del (partly : Partly exempt bound now) (other : ∀ attr ∈ vital, name ≠ attr.name) :
    Partly exempt bound (now.del .nodes id name) := by
  have same : ∀ node, ∀ attr ∈ vital, (now.del .nodes id name).get .nodes node attr.name =
      now.get .nodes node attr.name := by
    intro node attr listed
    rw [Dbs.get_del, if_neg]
    rintro ⟨-, -, sameName⟩
    exact other attr listed sameName
  exact {
    ids := partly.ids
    whole := fun node apart begins =>
      (partly.whole node apart ((Dbs.begins_congr (same node .nlink (by decide))
        (same node .mode (by decide))).mp begins)).congr (same node)
    counted := fun node => by
      rw [Dbs.links_congr (same node .nlink (by decide))]
      exact partly.counted node
    bounded := fun node => by
      rw [Dbs.links_congr (same node .nlink (by decide))]
      exact partly.bounded node }

/-- A new node has no link, and there is no entry for it. -/
theorem Partly.created (partly : Partly exempt bound now) (isExempt : exempt id)
    (unused : now.refs id = 0) (atime mtime ctime : UInt64) :
    Partly exempt bound (now.created id atime mtime ctime) := by
  have noLinks : (now.created id atime mtime ctime).links id = 0 := by
    rw [Dbs.links, Dbs.created]
    simp [Dbs.attr_setattr_of_ne]
  have sameLinks : ∀ other, other ≠ id →
      (now.created id atime mtime ctime).links other = now.links other :=
    fun other apart => Dbs.links_congr (Dbs.get_created_of_ne _ (Ne.symm apart) _ _ _ _ _)
  exact {
    ids := fun d leaf stored isStored => by
      rw [Dbs.get_directories_created] at isStored
      exact partly.ids d leaf stored isStored
    whole := fun other apart begins => by
      have differs : id ≠ other := by
        rintro rfl
        exact apart isExempt
      have same : ∀ name, (now.created id atime mtime ctime).get .nodes other name =
          now.get .nodes other name := Dbs.get_created_of_ne _ differs _ _ _ _
      exact (partly.whole other apart ((Dbs.begins_congr (same _) (same _)).mp begins)).congr
        fun attr _ => same attr.name
    counted := fun other => by
      rw [Dbs.refs_created]
      by_cases isNew : other = id
      · rw [isNew, unused]
        exact Nat.zero_le _
      · rw [sameLinks other isNew]
        exact partly.counted other
    bounded := fun other => by
      by_cases isNew : other = id
      · rw [isNew, noLinks]
        exact Nat.zero_le _
      · rw [sameLinks other isNew]
        exact partly.bounded other }

/-- Entering a node raises the bound by one. -/
theorem Partly.entered {d n : UInt64} {nlink : UInt32} (partly : Partly exempt bound now)
    (small : bound < 2 ^ 31) (absent : now.get .directories d name = none)
    (isCount : now.attr UInt32 n .nlink = .ok nlink) :
    Partly exempt (bound + 1) (now.entered d name n nlink) where
  ids dir leaf stored isStored := by
    rw [Dbs.get_directories_entered] at isStored
    split at isStored
    · exact ⟨n, (Option.some.inj isStored).symm⟩
    · exact partly.ids dir leaf stored isStored
  whole id apart begins := by
    have linked : (now.setattr n .nlink (1 + nlink)).Begins id :=
      (Dbs.begins_congr Dbs.get_nodes_put_directories Dbs.get_nodes_put_directories).mp begins
    have whole : (now.setattr n .nlink (1 + nlink)).Whole id :=
      (partly.whole id apart (Dbs.begins_of_setNlink isCount linked)).setattr .nlink rfl (1 + nlink)
    exact whole.congr fun attr _ => Dbs.get_nodes_put_directories
  counted := partly.counted.entered partly.bounded small absent isCount
  bounded := partly.bounded.entered small isCount

/-- An entry that goes leaves the nodes as they were. -/
theorem Partly.erased (partly : Partly exempt bound now) (d : UInt64) (name : Bytes) :
    Partly exempt bound (now.del .directories d name) := by
  have same : ∀ (id : UInt64) (attr : Attr), (now.del .directories d name).get .nodes id attr.name =
      now.get .nodes id attr.name := fun _ attr => Dbs.get_nodes_del d name attr.name
  exact {
    ids := fun dir leaf stored isStored =>
      partly.ids dir leaf stored (Dbs.get_directories_del_eq_some isStored)
    whole := fun id apart begins =>
      (partly.whole id apart ((Dbs.begins_congr (same _ _) (same _ _)).mp begins)).congr
        fun attr _ => same id attr
    counted := fun id => by
      rw [Dbs.links_congr (same id .nlink)]
      refine Nat.le_trans ?_ (partly.counted id)
      cases stored : now.get .directories d name with
      | none => exact Nat.le_of_eq (Dbs.refs_del_of_absent stored)
      | some value =>
          have fewer := Dbs.refs_del id stored
          omega
    bounded := fun id => by
      rw [Dbs.links_congr (same id .nlink)]
      exact partly.bounded id }

/-- A node without entries goes. -/
theorem Partly.removed {n : NodeRef} (partly : Partly exempt bound now)
    (unused : (now.removed n).refs n.id = 0) : Partly exempt bound (now.removed n) where
  ids d leaf stored isStored := by
    rw [Dbs.get_removed_directories] at isStored
    split at isStored
    · cases isStored
    · exact partly.ids d leaf stored isStored
  whole id apart begins := by
    rcases Dbs.get_nodes_removed now n id with same | gone
    · exact (partly.whole id apart ((Dbs.begins_congr (same _) (same _)).mp begins)).congr
        fun attr _ => same attr.name
    · exact absurd begins (Dbs.not_begins_of_gone gone)
  counted := partly.counted.removed unused
  bounded id := by
    rw [Dbs.links_removed]
    split
    · exact Nat.zero_le _
    · exact partly.bounded id

/-- Leaving a name keeps the bound. -/
theorem Partly.left {d : UInt64} {n : NodeRef} {nlink : UInt32} (partly : Partly exempt bound now)
    (small : bound < 2 ^ 31) (child : now.getchild d name = .ok n)
    (isCount : now.attr UInt32 n.id .nlink = .ok nlink) :
    Partly exempt bound (now.left d name n nlink) where
  ids dir leaf stored isStored := partly.ids dir leaf stored
    (Dbs.get_directories_del_eq_some (Dbs.get_directories_unlinked_eq_some isStored))
  whole id apart begins := by
    have erased := partly.erased d name
    unfold Dbs.left Dbs.unlinked at begins ⊢
    split at begins
    · rename_i last
      rw [if_pos last]
      rcases Dbs.get_nodes_removed (now.del .directories d name) n id with same | gone
      · exact (erased.whole id apart ((Dbs.begins_congr (same _) (same _)).mp begins)).congr
          fun attr _ => same attr.name
      · exact absurd begins (Dbs.not_begins_of_gone gone)
    · rename_i more
      rw [if_neg more]
      have counted : (now.del .directories d name).attr UInt32 n.id .nlink = .ok nlink := by
        rw [Dbs.attr_del_directories, isCount]
      exact (erased.whole id apart (Dbs.begins_of_setNlink counted begins)).setattr .nlink rfl
        (nlink - 1)
  counted := partly.counted.left partly.bounded small child isCount
  bounded := partly.bounded.left isCount small

end Dbs

/-! ## One change and a run of changes -/

namespace Warrant

variable {w : Warrant} {bound : Nat} {now : Dbs} {id : UInt64} {name value : Bytes}

/-- The new node of a request that makes one. -/
def Exempt (w : Warrant) (id : UInt64) : Prop :=
  w.req.Births ∧ id = w.fresh

theorem name_ne_of_listed {listed : List Attr} {attr other : Attr} (member : attr ∈ listed)
    (apart : other ∉ listed) : attr.name ≠ other.name := by
  intro same
  rw [Attr.name_inj] at same
  exact apart (same ▸ member)

theorem fits_self {attr : Attr} {value : Bytes} (fits : attr.Fits value) :
    ∀ read ∈ vital, attr.name = read.name → read.Fits value := by
  intro read _ same
  rw [Attr.name_inj] at same
  exact same ▸ fits

theorem Guards.fits {attr : Attr} (guards : w.Guards now id attr value) : attr.Fits value := by
  cases guards <;> exact Attr.fits_hostToDb rfl _

/-- A guarded attribute is not the count of links, and the mode is looked at before
it is changed. -/
theorem Guards.looked {attr : Attr} (guards : w.Guards now id attr value) :
    attr ≠ .nlink ∧ (attr ≠ .mode ∨ now.get .nodes id Attr.mode.name ≠ none) := by
  have present : ∀ {old : UInt32}, now.attr UInt32 id .mode = .ok old →
      now.get .nodes id Attr.mode.name ≠ none := by
    intro old isOld
    rw [Dbs.getattr_eq_ok_iff.mp isOld]
    exact Option.some_ne_none _
  cases guards with
  | chmod owns untouched isOld member => exact ⟨by decide, .inr (present isOld)⟩
  | clear owns isOld cleared isCleared => exact ⟨by decide, .inr (present isOld)⟩
  | group => exact ⟨by decide, .inl (by decide)⟩
  | owner => exact ⟨by decide, .inl (by decide)⟩

/-- A new node that goes again leaves no entry for itself. -/
theorem refs_abandoned {n : NodeRef} (unused : w.start.refs w.fresh = 0) (isFresh : n.id = w.fresh)
    (enclosed : ∀ d name, d ≠ w.fresh ∨ n.kind ≠ .directory →
      now.get .directories d name = w.start.get .directories d name) :
    (now.removed n).refs n.id = 0 := by
  by_contra used
  obtain ⟨d, name, stored⟩ := Dbs.refs_pos_iff.mp (Nat.pos_of_ne_zero used)
  rw [Dbs.get_removed_directories] at stored
  split at stored
  · cases stored
  · rename_i kept
    have apart : d ≠ w.fresh ∨ n.kind ≠ .directory := by
      rw [← not_and_or, ← isFresh]
      exact kept
    rw [enclosed d name apart, isFresh] at stored
    have referred := Dbs.refs_pos_iff.mpr ⟨d, name, stored⟩
    omega

/-- One permitted change. -/
theorem partly_change {change : Change} (partly : Dbs.Partly w.Exempt bound now)
    (permits : w.Permits now change) (complete : w.start.Complete) (idsLeft : w.start.nodes.IdsLeft)
    (locked : ¬ w.Unlocked) (small : bound + change.added < 2 ^ 31) :
    Dbs.Partly w.Exempt (bound + change.added) (change.apply now) := by
  have absent : ∀ name, w.start.get .nodes w.fresh name = none := Db.getElem?_nextId idsLeft
  have unused : w.start.refs w.fresh = 0 := by
    have covered := complete.counted w.fresh
    rw [Dbs.links_of_absent (absent _)] at covered
    exact Nat.le_zero.mp covered
  have unreserved : ∀ {name : Bytes}, (reservedPrefix.isPrefixOf name = true → w.Unlocked) →
      ∀ attr : Attr, name ≠ attr.name := by
    rintro name free attr rfl
    exact locked (free attr.reservedPrefix_isPrefix)
  have fewer : bound < 2 ^ 31 := Nat.lt_of_le_of_lt (Nat.le_add_right _ _) small
  cases permits with
  | @stamp attr listed id value =>
      have sized : attr.width = some (HostInt.size UInt64) := by
        revert listed
        cases attr <;> decide
      exact partly.put (fits_self (Attr.fits_hostToDb sized value))
        (name_ne_of_listed listed (by decide)) (.inr (.inl (name_ne_of_listed listed (by decide))))
  | @place attr listed id value =>
      refine partly.put ?_ (name_ne_of_listed listed (by decide))
        (.inr (.inl (name_ne_of_listed listed (by decide))))
      intro read isVital same
      have distinct : ∀ placed ∈ placing, placed ∉ vital := by decide
      rw [Attr.name_inj] at same
      exact absurd (same ▸ isVital) (distinct attr listed)
  | mark free id value =>
      exact partly.put (fun attr _ same => absurd same (unreserved free attr)) (unreserved free _)
        (.inr (.inl (unreserved free _)))
  | unmark free id => exact partly.del fun attr _ => unreserved free attr
  | imported importing listed fits present =>
      exact partly.put (fits_self fits) (name_ne_of_listed listed (by decide)) (.inr (.inr present))
  | create first births atime mtime ctime =>
      rw [first] at partly ⊢
      exact partly.created ⟨births, rfl⟩ unused atime mtime ctime
  | own listed fits alive =>
      refine partly.put (fits_self fits) (name_ne_of_listed listed (by decide)) ?_
      by_cases births : w.req.Births
      · exact .inl ⟨births, rfl⟩
      · obtain ⟨value, stored, -⟩ :=
          partly.whole w.fresh (fun isExempt => births isExempt.1) (.inl alive) .mode (by decide)
        right
        right
        rw [stored]
        exact Option.some_ne_none _
  | guarded guards =>
      obtain ⟨notLinks, looked⟩ := guards.looked
      refine partly.put (fits_self guards.fits) ?_ (.inr (looked.imp_left ?_))
      · rwa [ne_eq, Attr.name_inj]
      · intro notMode
        rwa [ne_eq, Attr.name_inj]
  | enter absent counted entering => exact partly.entered fewer absent counted
  | leave child counted leaving => exact partly.left fewer child counted
  | strip child uncounted leaving => exact partly.erased _ _
  | @unused n nlink counted last =>
      apply partly.removed
      have least := partly.bounded n.id
      have covered := partly.counted n.id
      rw [Dbs.links_eq counted] at least covered
      rw [toCInt_nonpos_iff (by omega)] at last
      have removes := Dbs.refs_removed_le now n.id n
      omega
  | abandon isFresh enclosed => exact partly.removed (refs_abandoned unused isFresh enclosed)

/-- A run of permitted changes. -/
theorem Written.partly {count : Nat} (written : w.Written count now) (complete : w.start.Complete)
    (idsLeft : w.start.nodes.IdsLeft) (locked : ¬ w.Unlocked) (bounded : w.start.Bounded bound)
    (small : bound + count < 2 ^ 31) : Dbs.Partly w.Exempt (bound + count) now := by
  induction written with
  | start => exact ⟨complete.ids, fun id _ => complete.whole id, complete.counted, bounded⟩
  | change _ permits ih =>
      rw [← Nat.add_assoc] at small ⊢
      exact partly_change (ih (by omega)) permits complete idsLeft locked small

end Warrant

end OfflineFs
