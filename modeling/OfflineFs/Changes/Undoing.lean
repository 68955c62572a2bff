import OfflineFs.Changes.Successes

/-!
# Creating and removing again

What a request that creates a name has written is found and taken away by the request
that removes the name, as long as the count of links can be read as a signed number.
-/

namespace OfflineFs

open OfflineFs.Effect OfflineFs.Effect.Program OfflineFs.Transition

/-! ## Looking up in databases that grew -/

namespace Dbs

variable {before after : Dbs} {sctx other : SContext} {d e id : UInt64} {name path : Bytes}
variable {start n m : NodeRef} {region : UInt64 → Bytes → Prop}

/-- Whatever could be looked up still can. -/
structure Grows (before after : Dbs) : Prop where
  nodes : ∀ id n, before.getnode id = .ok n → after.getnode id = .ok n
  entries : ∀ d name value, before.get .directories d name = some value →
    after.get .directories d name = some value

theorem Grows.getchild (grows : before.Grows after) (child : before.getchild d name = .ok n) :
    after.getchild d name = .ok n := by
  rw [getchild_eq_ok_iff] at child ⊢
  exact ⟨grows.entries _ _ _ child.1, grows.nodes _ _ child.2⟩

/-- Two callers are led along the same nodes. -/
theorem Grows.walk {names : List Bytes} (grows : before.Grows after)
    (found : before.walk sctx start names = .ok n) (again : after.walk other start names = .ok m) :
    m = n := by
  induction names generalizing start with
  | nil =>
      cases found
      cases again
      rfl
  | cons name names ih =>
      unfold Dbs.walk at found again
      split at found
      · cases found
      · split at again
        · cases again
        · split at found
          · rename_i isDirectory
            rw [if_pos isDirectory] at again
            split at found
            · cases found
            · rename_i child isChild
              rw [grows.getchild isChild] at again
              exact ih found again
          · cases found

theorem Grows.resolve (grows : before.Grows after) (found : before.resolve sctx path = .ok n)
    (again : after.resolve other path = .ok m) : m = n := by
  unfold Dbs.resolve at found again
  split at found
  · cases found
  · rename_i root isRoot
    rw [grows.nodes _ _ isRoot] at again
    exact grows.walk found again

theorem Grows.parent (grows : before.Grows after) (found : before.Parent sctx path d)
    (again : after.Parent other path e) : e = d :=
  congrArg NodeRef.id (grows.resolve found again)

/-- Nodes that are there keep their class when no mode of theirs was written. -/
theorem grows_of_spares (spares : Spares region before after)
    (modes : ∀ id, before.get .nodes id Attr.mode.name ≠ none → ¬ region id Attr.mode.name)
    (entries : ∀ d name value, before.get .directories d name = some value →
      after.get .directories d name = some value) : before.Grows after where
  nodes id n isNode := by
    obtain ⟨mode, isMode, -⟩ := getnode_eq_ok_iff.mp isNode
    rw [getnode_congr, isNode]
    apply spares
    apply modes
    rw [getattr_eq_ok_iff.mp isMode]
    exact Option.some_ne_none _
  entries := entries

theorem not_times_mode : ¬ Times d id Attr.mode.name := by
  rintro ⟨-, same | same⟩
  · exact absurd same (by decide)
  · exact absurd same (by decide)

/-- The mode of a node that is there is not one of a new node. -/
theorem not_newborn_mode (idsLeft : before.nodes.IdsLeft)
    (present : before.get .nodes id Attr.mode.name ≠ none) :
    ¬ before.Newborn d id Attr.mode.name := by
  rintro (rfl | times)
  · exact present (Db.getElem?_nextId idsLeft _)
  · exact not_times_mode times

theorem Named.grows {leaf : Bytes} (named : before.Named d leaf after)
    (idsLeft : before.nodes.IdsLeft) : before.Grows after := by
  apply grows_of_spares named.others
  · exact fun id => not_newborn_mode idsLeft
  · intro dir name value stored
    rw [named.entries, if_neg, stored]
    rintro ⟨rfl, rfl⟩
    rw [named.free] at stored
    cases stored

/-- A new directory leaves what was there. -/
theorem Housed.grows {leaf : Bytes} (housed : before.Housed d leaf after)
    (idsLeft : before.nodes.IdsLeft) : before.Grows after := by
  apply grows_of_spares housed.others
  · rintro id present (newborn | ⟨-, same⟩)
    · exact not_newborn_mode idsLeft present newborn
    · exact absurd same (by decide)
  · intro dir name value stored
    have own : ∀ listed ∈ [str ".", str ".."], ¬ (dir = before.nodes.nextId ∧ name = listed) := by
      rintro listed member ⟨rfl, rfl⟩
      rw [housed.clean name member] at stored
      cases stored
    rw [housed.entries, if_neg (own _ (by decide)), if_neg, if_neg (own _ (by decide)), stored]
    rintro ⟨rfl, rfl⟩
    rw [housed.free] at stored
    cases stored

theorem Linked.grows {leaf : Bytes} {nlink : UInt32} (linked : before.Linked d leaf n nlink after) :
    before.Grows after := by
  apply grows_of_spares linked.others
  · rintro id - (times | ⟨-, same | same⟩)
    · exact not_times_mode times
    · exact absurd same (by decide)
    · exact absurd same (by decide)
  · intro dir name value stored
    rw [linked.entries, if_neg, stored]
    rintro ⟨rfl, rfl⟩
    rw [linked.free] at stored
    cases stored

/-! ## Names that go again -/

variable {middle final : Dbs} {leaf : Bytes} {nlink : UInt32} {time : UInt64}

theorem directories_ext
    (same : ∀ d name, after.get .directories d name = before.get .directories d name) :
    after.directories = before.directories := by
  apply Std.ExtTreeMap.ext_getElem?
  rintro ⟨d, name⟩
  exact same d name

/-- The times of a directory are written, and all else is as before. -/
structure Returned (region : UInt64 → Bytes → Prop) (before after : Dbs) : Prop where
  directories : after.directories = before.directories
  nodes : Spares region before after

theorem child_setattr {T : Type} [HostInt T] {id : UInt64} {attr : Attr} {stored : T}
    (child : (middle.setattr id attr stored).getchild d leaf = .ok n) :
    middle.get .directories d leaf = some (hostToDb n.id) := by
  rw [← (getchild_eq_ok_iff.mp child).1, get_directories_setattr]

/-- A node that was made goes with its only name. -/
theorem Named.returned (named : before.Named d leaf middle) (idsLeft : before.nodes.IdsLeft)
    (other : n.kind ≠ .directory)
    (loses : (middle.setattr n.id .ctime time).Loses d leaf n final) (ctime mtime : UInt64) :
    Returned (Times d) before (final.touched d ctime mtime) := by
  obtain ⟨nlink, child, counted, rfl⟩ := loses
  have isNew : n.id = before.nodes.nextId := by
    have stored := child_setattr child
    rw [named.entries, if_pos ⟨rfl, rfl⟩, Option.some.injEq, hostToDb_inj] at stored
    exact stored.symm
  have isOne : nlink = 1 := by
    rw [attr_setattr_of_ne _ (.inr (by decide)), isNew, named.counted] at counted
    exact (Except.ok.inj counted).symm
  have last : UInt32.toCInt (nlink - 1) ≤ 0 := by
    rw [isOne]
    decide
  constructor
  · apply directories_ext
    intro dir name
    rw [get_directories_touched, get_left_of_last last, if_neg, get_del]
    · by_cases isName : dir = d ∧ name = leaf
      · rw [if_pos ⟨rfl, isName.1.symm, isName.2.symm⟩, isName.1, isName.2, named.free]
      · rw [if_neg fun same => isName ⟨same.2.1.symm, same.2.2.symm⟩, get_directories_setattr,
          named.entries, if_neg isName]
    · rintro ⟨-, impossible | isDirectory⟩
      · cases impossible
      · exact other isDirectory
  · intro id name outside
    have touched : ∀ now : Dbs, (now.touched d ctime mtime).get .nodes id name =
        now.get .nodes id name :=
          fun now => spares_touched (fun _ _ within => within) ctime mtime id name outside
    rw [touched, get_left_of_last last]
    by_cases isFresh : id = n.id
    · rw [if_pos ⟨isFresh, .inl rfl⟩, isFresh, isNew]
      exact (Db.getElem?_nextId idsLeft name).symm
    · rw [if_neg fun both => isFresh both.1, get_nodes_del, setattr,
        get_put_of_ne (.inl (Ne.symm isFresh))]
      apply named.others
      rintro (same | times)
      · exact isFresh (same.trans isNew.symm)
      · exact outside times

/-- A node gets its links back when their count is positive as a signed number, and goes
otherwise. -/
theorem Linked.returned_iff (linked : before.Linked d leaf m nlink middle)
    (counted : before.attr UInt32 m.id .nlink = .ok nlink)
    (loses : (middle.setattr n.id .ctime time).Loses d leaf n final) (ctime mtime : UInt64) :
    Returned (fun id name => Times d id name ∨ id = m.id ∧ name = Attr.ctime.name) before
        (final.touched d ctime mtime) ↔ 0 < UInt32.toCInt nlink := by
  obtain ⟨more, child, recounted, rfl⟩ := loses
  have isSame : n.id = m.id := by
    have stored := child_setattr child
    rw [linked.entries, if_pos ⟨rfl, rfl⟩, Option.some.injEq, hostToDb_inj] at stored
    exact stored.symm
  have isMore : more - 1 = nlink := by
    rw [attr_setattr_of_ne _ (.inr (by decide)), isSame, linked.counted] at recounted
    rw [← Except.ok.inj recounted, UInt32.add_comm, UInt32.add_sub_cancel]
  have notTimes : ∀ id, ¬ Times d id Attr.nlink.name := by
    rintro id ⟨-, same | same⟩
    · exact absurd same (by decide)
    · exact absurd same (by decide)
  have touched : ∀ (now : Dbs) id name, ¬ Times d id name →
      (now.touched d ctime mtime).get .nodes id name = now.get .nodes id name :=
    fun now => spares_touched (fun _ _ within => within) ctime mtime
  constructor
  · intro returned
    by_contra last
    have gone := returned.nodes m.id Attr.nlink.name
      (not_or.mpr ⟨notTimes _, fun both => absurd both.2 (by decide)⟩)
    rw [touched _ _ _ (notTimes _), get_left_of_last (by rw [isMore]; omega),
      if_pos ⟨isSame.symm, .inl rfl⟩, getattr_eq_ok_iff.mp counted] at gone
    cases gone
  · intro positive
    have left : ¬ UInt32.toCInt (more - 1) ≤ 0 := by
      rw [isMore]
      omega
    constructor
    · apply directories_ext
      intro dir name
      rw [get_directories_touched, get_left_of_more left, if_neg nofun, get_del]
      by_cases isName : dir = d ∧ name = leaf
      · rw [if_pos ⟨rfl, isName.1.symm, isName.2.symm⟩, isName.1, isName.2, linked.free]
      · rw [if_neg fun same => isName ⟨same.2.1.symm, same.2.2.symm⟩, get_directories_setattr,
          linked.entries, if_neg isName]
    · intro id name outside
      rw [not_or] at outside
      rw [touched _ _ _ outside.1, get_left_of_more left, get_nodes_del, isMore]
      split
      · rename_i isCount
        rw [← isCount.2.1, ← isCount.2.2, isSame]
        exact (getattr_eq_ok_iff.mp counted).symm
      · rename_i notCount
        rw [isSame] at notCount ⊢
        rw [setattr, get_put_of_ne]
        · apply linked.others
          rintro (times | ⟨rfl, rfl | rfl⟩)
          · exact outside.1 times
          · exact outside.2 ⟨rfl, rfl⟩
          · exact notCount ⟨rfl, rfl, rfl⟩
        · by_contra same
          rw [not_or, not_not, not_not] at same
          exact outside.2 ⟨same.1.symm, same.2.symm⟩

theorem Loses.names (loses : before.Loses d name n after)
    (stored : before.get .directories d name = some (hostToDb id)) : n.id = id := by
  obtain ⟨nlink, child, -, -⟩ := loses
  have found := (getchild_eq_ok_iff.mp child).1
  rw [stored, Option.some.injEq, hostToDb_inj] at found
  exact found.symm

theorem Loses.eq (loses : before.Loses d name n after)
    (counted : before.attr UInt32 n.id .nlink = .ok nlink) :
    after = before.left d name n nlink := by
  obtain ⟨found, -, isFound, rfl⟩ := loses
  rw [counted] at isFound
  rw [Except.ok.inj isFound]

theorem Loses.getchild (loses : before.Loses d name n after) : before.getchild d name = .ok n := by
  obtain ⟨nlink, child, -, -⟩ := loses
  exact child

theorem Loses.getnode (loses : before.Loses d name n after) : before.getnode n.id = .ok n :=
  getchild_ok_getnode loses.getchild

/-- The databases after an empty directory lost its own entries. -/
def emptied (dbs : Dbs) (id d : UInt64) (nlink : UInt32) : Dbs :=
  (((dbs.del .directories id (str ".")).setattr id .nlink (1 : UInt32)).del .directories id
    (str "..")).setattr d .nlink nlink

theorem get_directories_emptied (dir : UInt64) :
    (before.emptied id d nlink).get .directories dir name =
      if dir = id ∧ (name = str "." ∨ name = str "..") then none
      else before.get .directories dir name := by
  rw [emptied, get_directories_setattr, get_del, get_directories_setattr, get_del]
  by_cases isOwn : dir = id
  · by_cases isUp : name = str ".."
    · simp [isOwn, isUp]
    · by_cases isSelf : name = str "."
      · simp [isOwn, isSelf]
      · simp [isOwn, isUp, isSelf, Ne.symm isUp, Ne.symm isSelf]
  · simp [isOwn, Ne.symm isOwn]

theorem get_nodes_emptied (apart : id ≠ e) :
    (before.emptied e d nlink).get .nodes id name =
      if id = d ∧ name = Attr.nlink.name then some (hostToDb nlink)
      else before.get .nodes id name := by
  rw [emptied, get_setattr, get_nodes_del, setattr, get_put_of_ne (.inl apart.symm), get_nodes_del]
  simp only [true_and, eq_comm]

theorem getnode_emptied : (before.emptied d e nlink).getnode id = before.getnode id := by
  rw [emptied, getnode_setattr (by decide), getnode_del, getnode_setattr (by decide), getnode_del]

/-- Both links that a new directory has made go again, and the count of links of its
parent is what it was. -/
theorem Housed.emptied {own up : NodeRef} {one two : Dbs} (housed : before.Housed d leaf middle)
    (apart : d ≠ before.nodes.nextId)
    (loses : middle.Loses before.nodes.nextId (str ".") own one)
    (losesUp : one.Loses before.nodes.nextId (str "..") up two)
    (counted : before.attr UInt32 d .nlink = .ok nlink)
    (kept : two.get .directories d leaf ≠ none)
    (isParent : middle.getnode d = .ok ⟨d, .directory⟩) :
    two = middle.emptied before.nodes.nextId d nlink := by
  have selfEntry : middle.get .directories before.nodes.nextId (str ".") =
      some (hostToDb before.nodes.nextId) := by
    rw [housed.entries, if_neg fun both => absurd both.2 (by decide),
      if_neg fun both => apart both.1.symm, if_pos ⟨rfl, rfl⟩]
  have isSelf : own.id = before.nodes.nextId := loses.names selfEntry
  have oneEq : one = (middle.del .directories before.nodes.nextId (str ".")).setattr
      before.nodes.nextId .nlink (1 : UInt32) := by
    have twice : middle.attr UInt32 own.id .nlink = .ok 2 := by rw [isSelf, housed.counted]
    rw [loses.eq twice, left, unlinked, if_neg (by decide), isSelf]
    rfl
  have upEntry : one.get .directories before.nodes.nextId (str "..") = some (hostToDb d) := by
    rw [oneEq, get_directories_setattr, get_directories_del_of_ne (.inr (by decide)),
      housed.entries, if_pos ⟨rfl, rfl⟩]
  have isUp : up.id = d := losesUp.names upEntry
  have recounted : one.attr UInt32 up.id .nlink = .ok (1 + nlink) := by
    obtain ⟨found, isFound, more⟩ := housed.above
    rw [counted] at isFound
    rw [isUp, oneEq, attr_setattr_of_ne _ (.inl apart.symm), attr_del_directories, more,
      Except.ok.inj isFound]
  have restored : 1 + nlink - 1 = nlink := by rw [UInt32.add_comm, UInt32.add_sub_cancel]
  rw [losesUp.eq recounted] at kept ⊢
  by_cases last : UInt32.toCInt (1 + nlink - 1) ≤ 0
  · have isDirectory : up.kind = .directory := by
      have isNode := losesUp.getnode
      rw [isUp, oneEq, getnode_setattr (by decide), getnode_del, isParent] at isNode
      rw [← Except.ok.inj isNode]
    rw [get_left_of_last last, if_pos ⟨isUp.symm, .inr isDirectory⟩] at kept
    exact absurd rfl kept
  · rw [left, unlinked, if_neg last, restored, isUp, oneEq]
    rfl

/-- A new directory that is empty has found an empty register. -/
theorem Housed.absent_of_few (housed : before.Housed d leaf middle)
    (apart : d ≠ before.nodes.nextId)
    (few : (middle.directories.attrs before.nodes.nextId).length ≤ 2)
    (nameless : before.get .directories before.nodes.nextId [] = none) (name : Bytes) :
    before.get .directories before.nodes.nextId name = none := by
  by_cases isOwn : name = [] ∨ name = str "." ∨ name = str ".."
  · rcases isOwn with rfl | rfl | rfl
    · exact nameless
    · exact housed.clean _ (by decide)
    · exact housed.clean _ (by decide)
  · simp only [not_or] at isOwn
    obtain ⟨notEmpty, notSelf, notParent⟩ := isOwn
    by_contra present
    have entry : ∀ read, middle.get .directories before.nodes.nextId read =
        if read = str ".." then some (hostToDb d)
        else if read = str "." then some (hostToDb before.nodes.nextId)
        else before.get .directories before.nodes.nextId read := by
      intro read
      have notName : ¬ (before.nodes.nextId = d ∧ read = leaf) := fun both => apart both.1.symm
      rw [housed.entries, if_neg notName]
      simp only [true_and]
    have many : 2 < (middle.directories.attrs before.nodes.nextId).length := by
      apply three_names ⟨by decide, by decide, notEmpty⟩
        ⟨by decide, Ne.symm notSelf, Ne.symm notParent⟩
      · rw [entry, if_neg (by decide), if_pos rfl]
        exact Option.some_ne_none _
      · rw [entry, if_pos rfl]
        exact Option.some_ne_none _
      · rwa [entry, if_neg notParent, if_neg notSelf]
    exact absurd many (Nat.not_lt.mpr few)

/-- A directory goes with its register, and leaves it as it was but for an entry without a
name. -/
theorem Housed.returned_iff {own up last : NodeRef} {one two : Dbs}
    (housed : before.Housed d leaf middle) (idsLeft : before.nodes.IdsLeft)
    (isParent : before.getnode d = .ok ⟨d, .directory⟩) (child : middle.getchild d leaf = .ok n)
    (isDirectory : n.kind = .directory) (few : (middle.directories.attrs n.id).length ≤ 2)
    (loses : middle.Loses n.id (str ".") own one) (losesUp : one.Loses n.id (str "..") up two)
    (losesLast : two.Loses d leaf last final) (ctime mtime : UInt64) :
    Returned (Times d) before (final.touched d ctime mtime) ↔
      before.get .directories before.nodes.nextId [] = none := by
  have apart : d ≠ before.nodes.nextId := ne_nextId idsLeft isParent
  have isNew : n.id = before.nodes.nextId := by
    have stored := (getchild_eq_ok_iff.mp child).1
    rw [housed.entries, if_neg fun both => apart both.1, if_pos ⟨rfl, rfl⟩, Option.some.injEq,
      hostToDb_inj] at stored
    exact stored.symm
  rw [isNew] at few loses losesUp
  obtain ⟨nlink, counted, -⟩ := housed.above
  have entryLast := (getchild_eq_ok_iff.mp losesLast.getchild).1
  have twoEq : two = middle.emptied before.nodes.nextId d nlink := by
    apply housed.emptied apart loses losesUp counted
    · rw [entryLast]
      exact Option.some_ne_none _
    · exact (housed.grows idsLeft).nodes d _ isParent
  have isLast : last = n := by
    have names : last.id = n.id := by
      apply losesLast.names
      rw [twoEq, get_directories_emptied, if_neg fun both => apart both.1]
      exact (getchild_eq_ok_iff.mp child).1
    have isNode := losesLast.getnode
    rw [names, twoEq, getnode_emptied, getchild_ok_getnode child] at isNode
    exact (Except.ok.inj isNode).symm
  have one : two.attr UInt32 last.id .nlink = .ok 1 := by
    rw [isLast, isNew, twoEq, Dbs.emptied, attr_setattr_of_ne _ (.inl apart),
      attr_del_directories, attr_setattr_self]
  have gets : ∀ table id name, final.get table id name =
      if id = before.nodes.nextId ∧ (table = .nodes ∨ n.kind = .directory) then none
      else (two.del .directories d leaf).get table id name := by
    intro table id name
    rw [losesLast.eq one, get_left_of_last (by decide), isLast, isNew]
  constructor
  · intro returned
    have same : (final.touched d ctime mtime).get .directories before.nodes.nextId [] =
        before.get .directories before.nodes.nextId [] := by
      change (final.touched d ctime mtime).directories[_]? = before.directories[_]?
      rw [returned.directories]
    rw [← same, get_directories_touched, gets, if_pos ⟨rfl, .inr isDirectory⟩]
  · intro nameless
    constructor
    · apply directories_ext
      intro dir name
      rw [get_directories_touched, gets]
      by_cases isOwn : dir = before.nodes.nextId
      · rw [if_pos ⟨isOwn, .inr isDirectory⟩, isOwn]
        exact (housed.absent_of_few apart few nameless name).symm
      · rw [if_neg fun both => isOwn both.1]
        by_cases isName : dir = d ∧ name = leaf
        · rw [isName.1, isName.2, get_del, if_pos ⟨rfl, rfl, rfl⟩, housed.free]
        · rw [get_directories_del_of_ne (not_and_or.mp isName), twoEq, get_directories_emptied,
            if_neg fun both => isOwn both.1, housed.entries, if_neg fun both => isOwn both.1,
            if_neg isName, if_neg fun both => isOwn both.1]
    · intro id name outside
      have touched : (final.touched d ctime mtime).get .nodes id name = final.get .nodes id name :=
        spares_touched (fun _ _ within => within) ctime mtime id name outside
      rw [touched, gets]
      by_cases isOwn : id = before.nodes.nextId
      · rw [if_pos ⟨isOwn, .inl rfl⟩, isOwn]
        exact (Db.getElem?_nextId idsLeft name).symm
      · rw [if_neg fun both => isOwn both.1, get_nodes_del, twoEq, get_nodes_emptied isOwn]
        split
        · rename_i isCount
          rw [isCount.1, isCount.2]
          exact (getattr_eq_ok_iff.mp counted).symm
        · rename_i notCount
          apply housed.others
          rintro ((isFresh | times) | isCount)
          · exact isOwn isFresh
          · exact outside times
          · exact notCount isCount

end Dbs

/-! ## Pairs of requests -/

/-- A way to create a name that the same name can be removed after. -/
inductive Undoing
  | mkdir (mode : UInt32)
  | mknod (mode : UInt32) (dev : UInt64)
  | symlink (target : Bytes)
  | link (oldpath : Bytes)

namespace Undoing

/-- The request that creates the name. -/
def creates (path : Bytes) : Undoing → Request
  | mkdir mode => .mkdir path mode
  | mknod mode dev => .mknod path mode dev
  | symlink target => .symlink target path
  | link oldpath => .link oldpath path

/-- The request that removes it. -/
def removes (path : Bytes) : Undoing → Request
  | mkdir _ => .rmdir path
  | mknod _ _ | symlink _ | link _ => .unlink path

/-- The times that the two requests set: of the directory of the name, and of the node that
is linked. -/
def Dates (before : Dbs) (sctx : SContext) (path : Bytes) (pair : Undoing) (id : UInt64)
    (name : Bytes) : Prop :=
  (∃ d, before.Parent sctx path d ∧ Dbs.Times d id name) ∨
    ∃ oldpath n, pair = .link oldpath ∧ before.resolve sctx oldpath = .ok n ∧ id = n.id ∧
      name = Attr.ctime.name

/-- The databases hold the same keys and values as before, but for those times. -/
structure Restores (sctx : SContext) (path : Bytes) (pair : Undoing) (before after : Dbs) :
    Prop where
  media : after.media = before.media
  directories : after.directories = before.directories
  nodes : ∀ id name, ¬ pair.Dates before sctx path id name →
    after.get .nodes id name = before.get .nodes id name

/-- What the removal relies on.  A register that was left over must not hold an entry
without a name, and the count of links that a node had must be positive as a signed
number. -/
def Reversible (before : Dbs) (sctx : SContext) : Undoing → Prop
  | mkdir _ => before.get .directories before.nodes.nextId [] = none
  | link oldpath => ∀ n nlink, before.resolve sctx oldpath = .ok n →
      before.attr UInt32 n.id .nlink = .ok nlink → 0 < UInt32.toCInt nlink
  | mknod _ _ | symlink _ => True

variable {sctx : SContext} {path : Bytes} {pair : Undoing} {before after : Dbs} {d : UInt64}

theorem restores_iff_returned {region : UInt64 → Bytes → Prop} (media : after.media = before.media)
    (dates : ∀ id name, pair.Dates before sctx path id name ↔ region id name) :
    pair.Restores sctx path before after ↔ Dbs.Returned region before after := by
  constructor
  · rintro ⟨-, directories, nodes⟩
    exact ⟨directories, fun id name outside => nodes id name fun date =>
      outside ((dates id name).mp date)⟩
  · rintro ⟨directories, nodes⟩
    exact ⟨media, directories, fun id name outside => nodes id name fun inside =>
      outside ((dates id name).mpr inside)⟩

/-- There is one directory that the name is in. -/
theorem parent_iff (parent : before.Parent sctx path d) {e : UInt64} :
    before.Parent sctx path e ↔ e = d := by
  constructor
  · intro other
    have same := Except.ok.inj (other.symm.trans parent)
    exact congrArg NodeRef.id same
  · rintro rfl
    exact parent

/-- Without a link only the times of the directory are set. -/
theorem dates_iff (parent : before.Parent sctx path d) (unlinked : ∀ oldpath, pair ≠ .link oldpath)
    (id : UInt64) (name : Bytes) :
    pair.Dates before sctx path id name ↔ Dbs.Times d id name := by
  constructor
  · rintro (⟨e, other, times⟩ | ⟨oldpath, n, isLink, -⟩)
    · rwa [(parent_iff parent).mp other] at times
    · exact absurd isLink (unlinked oldpath)
  · intro times
    exact .inl ⟨d, parent, times⟩

/-- `link` dates the directory and the node. -/
theorem dates_link_iff {oldpath : Bytes} {n : NodeRef} (parent : before.Parent sctx path d)
    (found : before.resolve sctx oldpath = .ok n) (id : UInt64) (name : Bytes) :
    (link oldpath).Dates before sctx path id name ↔
      Dbs.Times d id name ∨ id = n.id ∧ name = Attr.ctime.name := by
  constructor
  · rintro (⟨e, other, times⟩ | ⟨_, m, ⟨⟩, isNode, sameId, isTime⟩)
    · rw [(parent_iff parent).mp other] at times
      exact .inl times
    · rw [found] at isNode
      cases isNode
      exact .inr ⟨sameId, isTime⟩
  · rintro (times | ⟨sameId, isTime⟩)
    · exact .inl ⟨d, parent, times⟩
    · exact .inr ⟨oldpath, n, rfl, found, sameId, isTime⟩

theorem reversible_link_iff {oldpath : Bytes} {n : NodeRef} {nlink : UInt32}
    (found : before.resolve sctx oldpath = .ok n)
    (counted : before.attr UInt32 n.id .nlink = .ok nlink) :
    (link oldpath).Reversible before sctx ↔ 0 < UInt32.toCInt nlink := by
  constructor
  · exact fun reversible => reversible n nlink found counted
  · intro positive m other isNode isCount
    rw [found] at isNode
    cases isNode
    rw [counted] at isCount
    cases isCount
    exact positive

section Requests

variable {fs : FS} {ctx other : Context} {world middle after : World}

theorem caller_eq (caller : ctx.sctx = some sctx) : ctx.caller = sctx := by
  rw [Context.caller, caller]
  rfl

/-- A new node that is no directory goes without a trace. -/
theorem restores_named (null : fs.pcache = PathCache_null) (idsLeft : world.dbs.nodes.IdsLeft)
    (unlinked : ∀ oldpath, pair ≠ .link oldpath) (parent : world.dbs.Parent sctx path d)
    (named : world.dbs.Named d (leafOf path) middle.dbs)
    (media : after.dbs.media = world.dbs.media)
    (removed : exec (fs.unlink other path) middle = (.ok 0, after)) :
    pair.Restores sctx path world.dbs after.dbs := by
  obtain ⟨caller, e, n, time, final, ctime, mtime, -, again, notDirectory, loses, afterEq⟩ :=
    FS.unlink_succeeds null removed
  obtain rfl := (named.grows idsLeft).parent parent again
  rw [restores_iff_returned media (dates_iff parent unlinked), afterEq]
  exact named.returned idsLeft notDirectory loses ctime mtime

/-- The databases are restored exactly when the removal finds what it relies on. -/
theorem restores_iff (null : fs.pcache = PathCache_null) (idsLeft : world.dbs.nodes.IdsLeft)
    (created : exec ((pair.creates path).prog fs ctx) world = (.ok 0, middle))
    (removed : exec ((pair.removes path).prog fs other) middle = (.ok 0, after)) :
    pair.Restores ctx.caller path world.dbs after.dbs ↔ pair.Reversible world.dbs ctx.caller := by
  have media : after.dbs.media = world.dbs.media := by
    have first := exec_media ((pair.creates path).prog fs ctx) world
    have second := exec_media ((pair.removes path).prog fs other) middle
    rw [created] at first
    rw [removed] at second
    exact second.trans first
  cases pair with
  | mknod mode dev =>
      obtain ⟨sctx, d, caller, parent, named⟩ := FS.mknod_succeeds null created
      rw [caller_eq caller]
      exact iff_of_true (restores_named null idsLeft nofun parent named media removed) trivial
  | symlink target =>
      obtain ⟨sctx, d, caller, parent, named⟩ := FS.symlink_succeeds null created
      rw [caller_eq caller]
      exact iff_of_true (restores_named null idsLeft nofun parent named media removed) trivial
  | mkdir mode =>
      obtain ⟨sctx, d, caller, parent, housed⟩ := FS.mkdir_succeeds null idsLeft created
      obtain ⟨_, e, n, own, one, up, two, last, final, ctime, mtime, -, again, child, isDirectory,
        few, loses, losesUp, losesLast, afterEq⟩ := FS.rmdir_succeeds null removed
      obtain rfl := (housed.grows idsLeft).parent parent again
      have unlinked : ∀ oldpath, mkdir mode ≠ .link oldpath := nofun
      rw [caller_eq caller, restores_iff_returned media (dates_iff parent unlinked), afterEq]
      exact housed.returned_iff idsLeft parent.getnode child isDirectory few loses losesUp losesLast
        ctime mtime
  | link oldpath =>
      obtain ⟨sctx, d, n, nlink, caller, parent, found, counted, linked⟩ :=
        FS.link_succeeds null created
      obtain ⟨_, e, m, time, final, ctime, mtime, -, again, notDirectory, loses, afterEq⟩ :=
        FS.unlink_succeeds null removed
      obtain rfl := linked.grows.parent parent again
      rw [caller_eq caller, restores_iff_returned media (dates_link_iff parent found), afterEq,
        reversible_link_iff found counted]
      exact linked.returned_iff counted loses ctime mtime

end Requests

end Undoing

/-- A mount that looks paths up in the databases. -/
def uncached : FS :=
  { pcache := PathCache_null, defmedium := str "m", fuel := 16 }

/-- A directory in the root. -/
def oneDirectory : World :=
  mountedWorld.after uncached (rootContext, .mkdir (str "/d") 0o755)

set_option maxRecDepth 100000 in
theorem Undoing.restores_oneDirectory :
    (mkdir 0o755).Restores rootContext.caller (str "/d") mountedWorld.dbs
      (oneDirectory.after uncached (rootContext, .rmdir (str "/d"))).dbs := by
  have created : exec (((mkdir 0o755).creates (str "/d")).prog uncached rootContext) mountedWorld =
      (.ok 0, oneDirectory) := Prod.ext (by decide +kernel) rfl
  have removed : exec (((mkdir 0o755).removes (str "/d")).prog uncached rootContext) oneDirectory =
      (.ok 0, oneDirectory.after uncached (rootContext, .rmdir (str "/d"))) :=
    Prod.ext (by decide +kernel) rfl
  have reversible : (mkdir 0o755).Reversible mountedWorld.dbs rootContext.caller := by
    unfold Reversible
    decide +kernel
  exact (restores_iff rfl (Db.idsLeft_of_keys (by decide +kernel)) created removed).mpr reversible

end OfflineFs
