import OfflineFs.Changes.Sites
import OfflineFs.Run.Durable

/-!
# What successful requests have done

A request with result zero ran its body to the end.  For the requests that create and
those that remove, what it found on the way and what it has changed.  Paths are resolved by
the plain lookup.
-/

namespace OfflineFs

open OfflineFs.Effect OfflineFs.Effect.Program

/-! ## Attributes that are left alone -/

namespace Dbs

/-- The attributes of nodes outside a region are the same. -/
def Spares (region : UInt64 → Bytes → Prop) (before after : Dbs) : Prop :=
  ∀ id name, ¬ region id name → after.get .nodes id name = before.get .nodes id name

variable {region wider : UInt64 → Bytes → Prop} {dbs before middle after : Dbs}
variable {id d : UInt64} {name value : Bytes}

theorem Spares.refl (region : UInt64 → Bytes → Prop) (dbs : Dbs) : Spares region dbs dbs :=
  fun _ _ _ => rfl

theorem Spares.trans (first : Spares region before middle) (second : Spares region middle after) :
    Spares region before after :=
  fun id name outside => (second id name outside).trans (first id name outside)

theorem Spares.mono (spares : Spares region before after)
    (within : ∀ id name, region id name → wider id name) : Spares wider before after :=
  fun id name outside => spares id name fun inside => outside (within id name inside)

theorem spares_put (inside : region id name) :
    Spares region dbs (dbs.put .nodes id name value) := by
  intro other read outside
  rw [get_put, if_neg]
  rintro ⟨-, rfl, rfl⟩
  exact outside inside

theorem spares_setattr {T : Type} [HostInt T] {attr : Attr} {stored : T}
    (inside : region id attr.name) : Spares region dbs (dbs.setattr id attr stored) :=
  spares_put inside

theorem spares_entered {nlink : UInt32} (inside : region id Attr.nlink.name) :
    Spares region dbs (dbs.entered d name id nlink) := by
  have counted : Spares region dbs (dbs.setattr id .nlink (1 + nlink)) := spares_setattr inside
  exact counted.trans fun _ _ _ => get_nodes_put_directories

theorem spares_created (inside : ∀ name, region id name) (atime mtime ctime : UInt64) :
    Spares region dbs (dbs.created id atime mtime ctime) := by
  intro other read outside
  apply get_created_of_ne
  rintro rfl
  exact outside (inside read)

theorem spares_made (inside : ∀ name, region id name) (atime mtime ctime : UInt64)
    (kind : NodeKind) : Spares region dbs (dbs.made id atime mtime ctime kind) := by
  have created : Spares region dbs (dbs.created id atime mtime ctime) :=
    spares_created inside atime mtime ctime
  have typed : ∀ mode, Spares region dbs (dbs.typed id atime mtime ctime mode) :=
    fun mode => created.trans (spares_setattr (inside _))
  cases kind with
  | node => exact created
  | file => exact typed _
  | directory => exact (typed _).trans (spares_entered (inside _))
  | symlink => exact (typed _).trans (spares_put (inside _))

/-- What `touchParent` leaves. -/
def touched (dbs : Dbs) (d ctime mtime : UInt64) : Dbs :=
  (dbs.setattr d .ctime ctime).setattr d .mtime mtime

theorem get_directories_touched (ctime mtime other : UInt64) (name : Bytes) :
    (dbs.touched d ctime mtime).get .directories other name = dbs.get .directories other name := by
  rw [touched, get_directories_setattr, get_directories_setattr]

/-- The times of a directory that lost or got an entry. -/
def Times (d : UInt64) (id : UInt64) (name : Bytes) : Prop :=
  id = d ∧ (name = Attr.ctime.name ∨ name = Attr.mtime.name)

theorem spares_touched (inside : ∀ id name, Times d id name → region id name)
    (ctime mtime : UInt64) : Spares region dbs (dbs.touched d ctime mtime) :=
  (spares_setattr (inside _ _ ⟨rfl, .inl rfl⟩)).trans
    (spares_setattr (inside _ _ ⟨rfl, .inr rfl⟩))

/-! ## Entries and links that go -/

variable {n : NodeRef} {nlink : UInt32}

/-- The last link takes the node and its own entries along. -/
theorem get_left_of_last (last : UInt32.toCInt (nlink - 1) ≤ 0) (table : Table) (other : UInt64)
    (read : Bytes) :
    (dbs.left d name n nlink).get table other read =
      if other = n.id ∧ (table = .nodes ∨ n.kind = .directory) then none
      else (dbs.del .directories d name).get table other read := by
  rw [left, unlinked, if_pos last, get_removed]

theorem get_left_of_more (more : ¬ UInt32.toCInt (nlink - 1) ≤ 0) (table : Table)
    (other : UInt64) (read : Bytes) :
    (dbs.left d name n nlink).get table other read =
      if table = .nodes ∧ n.id = other ∧ Attr.nlink.name = read then some (hostToDb (nlink - 1))
      else (dbs.del .directories d name).get table other read := by
  rw [left, unlinked, if_neg more, get_setattr]

theorem get_left_self : (dbs.left d name n nlink).get .directories d name = none := by
  by_contra present
  obtain ⟨value, stored⟩ := Option.ne_none_iff_exists'.mp present
  have still := get_directories_unlinked_eq_some stored
  rw [get_del, if_pos ⟨rfl, rfl, rfl⟩] at still
  cases still

theorem get_directories_del_of_ne {dir : UInt64} {leaf : Bytes} (apart : dir ≠ d ∨ leaf ≠ name) :
    (dbs.del .directories d name).get .directories dir leaf = dbs.get .directories dir leaf := by
  rw [get_del, if_neg]
  rintro ⟨-, sameDir, sameName⟩
  rcases apart with differs | differs
  · exact differs sameDir.symm
  · exact differs sameName.symm

theorem spares_left (inside : ∀ name, region n.id name) :
    Spares region dbs (dbs.left d name n nlink) := by
  intro other read outside
  have apart : other ≠ n.id := by
    rintro rfl
    exact outside (inside read)
  by_cases last : UInt32.toCInt (nlink - 1) ≤ 0
  · rw [get_left_of_last last, if_neg fun both => apart both.1, get_nodes_del]
  · rw [get_left_of_more last, if_neg fun same => apart same.2.1.symm, get_nodes_del]

/-! ## Nodes and children that stay -/

theorem getnode_congr
    (same : after.get .nodes id Attr.mode.name = before.get .nodes id Attr.mode.name) :
    after.getnode id = before.getnode id := by
  rw [getnode, getnode, attr_congr same]

theorem getnode_setattr {T : Type} [HostInt T] {attr : Attr} {stored : T} {other : UInt64}
    (unlike : attr ≠ .mode) : (dbs.setattr id attr stored).getnode other = dbs.getnode other :=
  getnode_congr (get_put_of_ne (.inr fun same => unlike (Attr.name_inj.mp same)))

theorem getnode_del : (dbs.del .directories d name).getnode id = dbs.getnode id :=
  getnode_congr (get_nodes_del d name Attr.mode.name)

theorem getchild_congr
    (entry : after.get .directories d name = before.get .directories d name)
    (modes : ∀ id, after.get .nodes id Attr.mode.name = before.get .nodes id Attr.mode.name) :
    after.getchild d name = before.getchild d name := by
  have nodes : after.getnode = before.getnode := funext fun id => getnode_congr (modes id)
  rw [getchild, getchild, getattr, getattr, entry, nodes]

theorem getchild_setattr {T : Type} [HostInt T] {attr : Attr} {stored : T} (other : attr ≠ .mode) :
    (dbs.setattr id attr stored).getchild d name = dbs.getchild d name :=
  getchild_congr (get_directories_setattr dbs id attr stored d name) fun _ =>
    get_put_of_ne (.inr fun same => other (Attr.name_inj.mp same))

end Dbs

/-! ## Parts of requests -/

/-- The body of a request that returns 0 has returned 0. -/
theorem request_succeeds {ctx : Context} {body : SContext → FsProg Int} {world after : World}
    (succeeds : exec (request ctx errcode body) world = (.ok 0, after)) :
    ∃ sctx final, ctx.sctx = some sctx ∧ exec (body sctx) world = (.ok 0, final) ∧
      after.dbs = final.dbs := by
  rw [exec_request] at succeeds
  cases caller : ctx.sctx with
  | none =>
      rw [caller] at succeeds
      exact absurd (Outcome.ok.inj (congrArg Prod.fst succeeds)) (errcode_ne_zero .runtime)
  | some sctx =>
      rw [caller] at succeeds
      change handling errcode (exec (body sctx) world) = (.ok 0, after) at succeeds
      rcases result : exec (body sctx) world with ⟨outcome, final⟩
      rw [result] at succeeds
      cases outcome with
      | ok value =>
          cases succeeds
          exact ⟨sctx, final, rfl, result, rfl⟩
      | error e => exact absurd (Outcome.ok.inj (congrArg Prod.fst succeeds)) (errcode_ne_zero e)
      | fault stop => cases succeeds

theorem touchParent_succeeds {parent : NodeRef} {world after : World}
    (touches : exec (touchParent parent) world = (.ok (), after)) :
    ∃ ctime mtime, after.dbs = world.dbs.touched parent.id ctime mtime := by
  cases touches
  exact ⟨_, _, rfl⟩

theorem ofExcept_succeeds {α : Type} {read : Except Err α} {value : α} {world after : World}
    (reads : (Outcome.ofExcept read, world) = (.ok value, after)) :
    read = .ok value ∧ world = after := by
  cases read with
  | ok found =>
      cases reads
      exact ⟨rfl, rfl⟩
  | error e => cases reads

theorem setTime_succeeds {id : UInt64} {attr : Attr} {world after : World}
    (stamps : exec (Node.setTime id attr) world = (.ok (), after)) :
    ∃ time : UInt64, after.dbs = world.dbs.setattr id attr time := by
  cases stamps
  exact ⟨_, rfl⟩

theorem access_succeeds {n : NodeRef} {sctx : SContext} {mode : UInt32} {world after : World}
    (grants : exec (Node.access n sctx mode) world = (.ok (), after)) : world = after := by
  rw [Node.exec_access] at grants
  exact congrArg Prod.snd grants

theorem access_granted {n : NodeRef} {sctx : SContext} {mode : UInt32} {world after : World}
    (grants : exec (Node.access n sctx mode) world = (.ok (), after)) :
    world.dbs.access n.id sctx mode = .ok () := by
  rw [Node.exec_access] at grants
  exact (ofExcept_succeeds grants).1

theorem checkStickyBit_succeeds {sctx : SContext} {parent n : NodeRef} {world after : World}
    (checks : exec (checkStickyBit sctx parent n) world = (.ok (), after)) : world = after := by
  rw [exec_checkStickyBit] at checks
  exact congrArg Prod.snd checks

theorem getattr_succeeds {T : Type} [HostInt T] {id : UInt64} {attr : Attr} {value : T}
    {world after : World} (reads : exec (Node.getattr T id attr) world = (.ok value, after)) :
    world.dbs.attr T id attr = .ok value ∧ world = after := by
  rw [Node.exec_getattr] at reads
  exact ofExcept_succeeds reads

theorem getchild_succeeds {d n : NodeRef} {name : Bytes} {world after : World}
    (looks : exec (Directory.getchild d name) world = (.ok n, after)) :
    world.dbs.getchild d.id name = .ok n ∧ world = after := by
  rw [Directory.exec_getchild] at looks
  exact ofExcept_succeeds looks

theorem cast_succeeds {target : NodeKind} {n d : NodeRef} {world after : World}
    (casts : exec (Node.cast target n) world = (.ok d, after)) :
    n.kind = target ∧ n = d ∧ world = after := by
  rw [Node.exec_cast] at casts
  split at casts
  · cases casts
    exact ⟨‹_›, rfl, rfl⟩
  · cases casts

/-- The plain lookup leads to a directory in which the last component is looked up. -/
def Dbs.Parent (dbs : Dbs) (sctx : SContext) (path : Bytes) (d : UInt64) : Prop :=
  dbs.resolve sctx (splitPath path).1 = .ok ⟨d, .directory⟩

theorem Dbs.Parent.getnode {dbs : Dbs} {sctx : SContext} {path : Bytes} {d : UInt64}
    (parent : dbs.Parent sctx path d) : dbs.getnode d = .ok ⟨d, .directory⟩ :=
  Dbs.resolve_ok_getnode parent

theorem PathCache_null.getnode_succeeds {sctx : SContext} {path : Bytes} {n : NodeRef}
    {world after : World} (finds : exec (PathCache_null.getnode sctx path) world = (.ok n, after)) :
    world.dbs.resolve sctx path = .ok n ∧ world = after := by
  rw [PathCache_null.exec_getnode] at finds
  exact ofExcept_succeeds finds

/-- A path that is resolved has a directory as its parent. -/
theorem Path.resolve_succeeds {sctx : SContext} {path : Bytes} {p : Path} {world after : World}
    (finds : exec (Path.resolve PathCache_null sctx path) world = (.ok p, after)) :
    ∃ d, p = ⟨⟨d, .directory⟩, leafOf path⟩ ∧ world.dbs.Parent sctx path d ∧ world = after := by
  simp only [resolve, exec_bind, Outcome.andThen_eq_ok_iff, Node.exec_cast, exec_pure] at finds
  obtain ⟨n, begun, looks, parent, middle, casts, ends⟩ := finds
  obtain ⟨found, rfl⟩ := PathCache_null.getnode_succeeds looks
  by_cases isDirectory : n.kind = .directory
  · rw [if_pos isDirectory] at casts
    cases casts
    cases ends
    have isNode : n = ⟨n.id, .directory⟩ := by rw [← isDirectory]
    rw [isNode] at found
    exact ⟨n.id, by rw [isNode]; rfl, found, rfl⟩
  · rw [if_neg isDirectory] at casts
    cases casts

/-- An entry went with one link of its node. -/
def Dbs.Loses (before : Dbs) (d : UInt64) (name : Bytes) (n : NodeRef) (after : Dbs) : Prop :=
  ∃ nlink, before.getchild d name = .ok n ∧ before.attr UInt32 n.id .nlink = .ok nlink ∧
    after = before.left d name n nlink

namespace Directory

variable {d n : NodeRef} {name : Bytes} {world after : World}

/-- What `addchild` does when it returns. -/
theorem addchild_succeeds (adds : exec (addchild d name n) world = (.ok (), after)) :
    ∃ nlink, world.dbs.attr UInt32 n.id .nlink = .ok nlink ∧
      world.dbs.get .directories d.id name = none ∧
      after.dbs = world.dbs.entered d.id name n.id nlink := by
  cases counted : world.dbs.attr UInt32 n.id .nlink with
  | error e =>
      rw [exec_addchild_error counted] at adds
      cases adds
  | ok nlink =>
      cases stored : world.dbs.get .directories d.id name with
      | some value =>
          obtain ⟨last, result, -⟩ := exec_addchild_exists counted stored
          rw [result] at adds
          cases adds
      | none =>
          rw [exec_addchild counted stored] at adds
          cases adds
          exact ⟨nlink, rfl, rfl, rfl⟩

/-- What `delchild` does when it returns. -/
theorem delchild_succeeds (deletes : exec (delchild d name) world = (.ok (), after)) :
    ∃ n, world.dbs.Loses d.id name n after.dbs := by
  cases child : world.dbs.getchild d.id name with
  | error e =>
      rw [exec_delchild_error child] at deletes
      cases deletes
  | ok n =>
      cases counted : world.dbs.attr UInt32 n.id .nlink with
      | error e =>
          rw [exec_delchild_uncounted child counted] at deletes
          cases deletes
      | ok nlink =>
          obtain ⟨final, result, finalEq⟩ := exec_delchild child counted
          rw [result] at deletes
          cases deletes
          exact ⟨n, nlink, child, counted, finalEq⟩

end Directory

theorem Path.create_succeeds {kind : NodeKind} {createT : FsProg NodeRef} {p : Path}
    {sctx : SContext} {n : NodeRef} {world after : World} (makes : MakesClass kind createT)
    (creates : exec (p.create sctx createT) world = (.ok n, after)) :
    n = ⟨world.dbs.nodes.nextId, kind⟩ ∧ Offimport.Entered world.dbs p kind after.dbs := by
  have ended := Offimport.triple_create makes p sctx world rfl
  change Outcome.Satisfies _ _ _ (exec (p.create sctx createT) world) at ended
  rw [creates] at ended
  exact ended

/-! ## Requests that create -/

namespace Dbs

variable {before after : Dbs} {d : UInt64} {leaf : Bytes}

/-- Everything of a new node, and the times of its directory. -/
def Newborn (before : Dbs) (d : UInt64) (id : UInt64) (name : Bytes) : Prop :=
  id = before.nodes.nextId ∨ Times d id name

/-- A node was made that is no directory, and entered at a free name. -/
structure Named (before : Dbs) (d : UInt64) (leaf : Bytes) (after : Dbs) : Prop where
  free : before.get .directories d leaf = none
  entries : ∀ dir name, after.get .directories dir name =
    if dir = d ∧ name = leaf then some (hostToDb before.nodes.nextId)
    else before.get .directories dir name
  others : Spares (before.Newborn d) before after
  counted : after.attr UInt32 before.nodes.nextId .nlink = .ok 1

/-- A directory was made, and entered at a free name. -/
structure Housed (before : Dbs) (d : UInt64) (leaf : Bytes) (after : Dbs) : Prop where
  free : before.get .directories d leaf = none
  clean : ∀ name ∈ [str ".", str ".."], before.get .directories before.nodes.nextId name = none
  entries : ∀ dir name, after.get .directories dir name =
    if dir = before.nodes.nextId ∧ name = str ".." then some (hostToDb d)
    else if dir = d ∧ name = leaf then some (hostToDb before.nodes.nextId)
    else if dir = before.nodes.nextId ∧ name = str "." then some (hostToDb before.nodes.nextId)
    else before.get .directories dir name
  others : Spares (fun id name => before.Newborn d id name ∨ id = d ∧ name = Attr.nlink.name)
    before after
  counted : after.attr UInt32 before.nodes.nextId .nlink = .ok 2
  above : ∃ nlink, before.attr UInt32 d .nlink = .ok nlink ∧
    after.attr UInt32 d .nlink = .ok (1 + nlink)

/-- Attributes of nodes were written inside a region, and no count of links. -/
structure Adorned (region : UInt64 → Bytes → Prop) (before after : Dbs) : Prop where
  entries : ∀ dir name, after.get .directories dir name = before.get .directories dir name
  others : Spares region before after
  links : ∀ id, after.get .nodes id Attr.nlink.name = before.get .nodes id Attr.nlink.name

namespace Adorned

variable {region wider : UInt64 → Bytes → Prop} {middle : Dbs} {id : UInt64} {name : Bytes}

theorem trans (first : Adorned region before middle) (second : Adorned region middle after) :
    Adorned region before after where
  entries dir name := (second.entries dir name).trans (first.entries dir name)
  others := first.others.trans second.others
  links id := (second.links id).trans (first.links id)

theorem put (value : Bytes) (inside : region id name) (apart : name ≠ Attr.nlink.name) :
    Adorned region before (before.put .nodes id name value) where
  entries dir leaf := by
    rw [get_put, if_neg]
    rintro ⟨impossible, -⟩
    cases impossible
  others := spares_put inside
  links other := get_put_of_ne (.inr apart)

theorem setattr {T : Type} [HostInt T] {attr : Attr} (value : T) (inside : region id attr.name)
    (apart : attr ≠ .nlink) : Adorned region before (before.setattr id attr value) :=
  put _ inside fun same => apart (Attr.name_inj.mp same)

theorem touched (inside : ∀ id name, Times d id name → region id name) (ctime mtime : UInt64) :
    Adorned region before (before.touched d ctime mtime) :=
  (setattr ctime (inside _ _ ⟨rfl, .inl rfl⟩) (by decide)).trans
    (setattr mtime (inside _ _ ⟨rfl, .inr rfl⟩) (by decide))

end Adorned

theorem Named.adorned {middle : Dbs} (named : before.Named d leaf middle)
    (adorned : Adorned (before.Newborn d) middle after) : before.Named d leaf after where
  free := named.free
  entries dir name := (adorned.entries dir name).trans (named.entries dir name)
  others := named.others.trans adorned.others
  counted := (attr_congr (adorned.links _)).trans named.counted

theorem Housed.adorned {middle : Dbs} (housed : before.Housed d leaf middle)
    (adorned : Adorned (before.Newborn d) middle after) : before.Housed d leaf after where
  free := housed.free
  clean := housed.clean
  entries dir name := (adorned.entries dir name).trans (housed.entries dir name)
  others := housed.others.trans (adorned.others.mono fun _ _ => .inl)
  counted := (attr_congr (adorned.links _)).trans housed.counted
  above := by
    obtain ⟨nlink, counted, more⟩ := housed.above
    exact ⟨nlink, counted, (attr_congr (adorned.links _)).trans more⟩

/-- A new node has no entries but its own one, as a directory. -/
theorem get_directories_made (id atime mtime ctime : UInt64) (kind : NodeKind) (dir : UInt64)
    (name : Bytes) :
    (before.made id atime mtime ctime kind).get .directories dir name =
      if kind = .directory ∧ dir = id ∧ name = str "." then some (hostToDb id)
      else before.get .directories dir name := by
  cases kind with
  | node =>
      rw [if_neg fun isDirectory => absurd isDirectory.1 (by decide)]
      exact get_directories_created _ _ _ _ _ _ _
  | file =>
      rw [if_neg fun isDirectory => absurd isDirectory.1 (by decide)]
      exact get_directories_typed _ _
  | directory =>
      rw [made, get_directories_entered, get_directories_typed]
      simp only [true_and]
  | symlink =>
      rw [if_neg fun isDirectory => absurd isDirectory.1 (by decide), made, get_put, if_neg,
        get_directories_typed]
      rintro ⟨impossible, -⟩
      cases impossible

end Dbs

section Creating

variable {before after : Dbs} {p : Path} {kind : NodeKind}

/-- A new node that is no directory is named. -/
theorem Offimport.Entered.named (entered : Offimport.Entered before p kind after)
    (other : kind ≠ .directory) : before.Named p.parent.id p.leaf after := by
  obtain ⟨-, atime, mtime, ctime, free, rfl⟩ := entered
  have kept : ∀ dir name, (before.made before.nodes.nextId atime mtime ctime kind).get
      .directories dir name = before.get .directories dir name := by
    intro dir name
    rw [Dbs.get_directories_made, if_neg fun isDirectory => other isDirectory.1]
  constructor
  · rw [← kept, free]
  · intro dir name
    rw [Dbs.get_directories_entered, kept]
  · exact (Dbs.spares_made (fun _ => .inl rfl) atime mtime ctime kind).trans
      (Dbs.spares_entered (.inl rfl))
  · rw [Dbs.attr_entered_self]
    cases kind with
    | directory => exact absurd rfl other
    | _ => rfl

/-- A new directory that gets the entry of its parent is housed. -/
theorem Offimport.Entered.housed {nlink : UInt32}
    (entered : Offimport.Entered before p .directory after)
    (apart : p.parent.id ≠ before.nodes.nextId)
    (counted : after.attr UInt32 p.parent.id .nlink = .ok nlink)
    (absent : after.get .directories before.nodes.nextId (str "..") = none) :
    before.Housed p.parent.id p.leaf
      (after.entered before.nodes.nextId (str "..") p.parent.id nlink) := by
  obtain ⟨unused, atime, mtime, ctime, free, rfl⟩ := entered
  rw [Dbs.get_directories_made, if_neg fun own => apart own.2.1] at free
  rw [Dbs.get_directories_entered, if_neg fun both => apart both.1.symm,
    Dbs.get_directories_made, if_neg fun own => absurd own.2.2 (by decide)] at absent
  have made : Dbs.Spares (fun id name => before.Newborn p.parent.id id name) before
      ((before.made before.nodes.nextId atime mtime ctime .directory).entered p.parent.id p.leaf
        before.nodes.nextId (Dbs.ownLinks .directory)) :=
    (Dbs.spares_made (fun _ => .inl rfl) atime mtime ctime .directory).trans
      (Dbs.spares_entered (.inl rfl))
  have notNewborn : ¬ before.Newborn p.parent.id p.parent.id Attr.nlink.name := by
    rintro (same | ⟨-, same | same⟩)
    · exact apart same
    · exact absurd same (by decide)
    · exact absurd same (by decide)
  constructor
  · exact free
  · intro name listed
    rcases List.mem_pair.mp listed with rfl | rfl
    · exact unused rfl
    · exact absent
  · intro dir name
    rw [Dbs.get_directories_entered, Dbs.get_directories_entered, Dbs.get_directories_made]
    simp only [true_and]
  · exact (made.mono fun _ _ => .inl).trans (Dbs.spares_entered (.inr ⟨rfl, rfl⟩))
  · have linked : ∀ now : Dbs, now.attr UInt32 before.nodes.nextId .nlink = .ok 2 →
        (now.entered before.nodes.nextId (str "..") p.parent.id nlink).attr UInt32
          before.nodes.nextId .nlink = .ok 2 := by
      intro now isTwo
      rw [← isTwo]
      apply Dbs.attr_congr
      rw [Dbs.entered, Dbs.get_nodes_put_directories, Dbs.setattr, Dbs.get_put_of_ne (.inl apart)]
    apply linked
    rw [Dbs.attr_entered_self]
    rfl
  · refine ⟨nlink, ?_, Dbs.attr_entered_self _ _ _ _⟩
    rw [← counted]
    exact (Dbs.attr_congr (made _ _ notNewborn)).symm

end Creating

/-- A node got another name, one link more, and a new ctime. -/
structure Dbs.Linked (before : Dbs) (d : UInt64) (leaf : Bytes) (n : NodeRef) (nlink : UInt32)
    (after : Dbs) : Prop where
  free : before.get .directories d leaf = none
  entries : ∀ dir name, after.get .directories dir name =
    if dir = d ∧ name = leaf then some (hostToDb n.id) else before.get .directories dir name
  others : Spares (fun id name => Times d id name ∨
    id = n.id ∧ (name = Attr.ctime.name ∨ name = Attr.nlink.name)) before after
  counted : after.attr UInt32 n.id .nlink = .ok (1 + nlink)

namespace FS

variable {fs : FS} {ctx : Context} {world after : World} {path oldpath newpath : Bytes}

/-- What `mknod` does when it returns 0. -/
theorem mknod_succeeds (null : fs.pcache = PathCache_null) {mode : UInt32} {dev : UInt64}
    (succeeds : exec (fs.mknod ctx path mode dev) world = (.ok 0, after)) :
    ∃ sctx d, ctx.sctx = some sctx ∧ world.dbs.Parent sctx path d ∧
      world.dbs.Named d (leafOf path) after.dbs := by
  obtain ⟨sctx, final, caller, runs, same⟩ := request_succeeds succeeds
  simp only [null, exec_bind, Outcome.andThen_eq_ok_iff, Node.exec_setattr] at runs
  obtain ⟨p, begun, finds, n, named, creates, ⟨⟩, owned, ⟨⟩, ⟨⟩, grouped, ⟨⟩, ⟨⟩, moded, ⟨⟩,
    ⟨⟩, typed, types, ⟨⟩, touched, touches, ends⟩ := runs
  cases ends
  obtain ⟨d, rfl, parent, rfl⟩ := Path.resolve_succeeds finds
  obtain ⟨rfl, entered⟩ := Path.create_succeeds makesClass_node creates
  obtain ⟨ctime, mtime, touchedEq⟩ := touchParent_succeeds touches
  refine ⟨sctx, d, caller, parent, ?_⟩
  rw [same, touchedEq]
  have adorned : Dbs.Adorned (world.dbs.Newborn d) named.dbs
      (((named.dbs.setattr world.dbs.nodes.nextId .uid ctx.uid).setattr world.dbs.nodes.nextId
        .gid ctx.gid).setattr world.dbs.nodes.nextId .mode mode) :=
    ((Dbs.Adorned.setattr _ (.inl rfl) (by decide)).trans
      (Dbs.Adorned.setattr _ (.inl rfl) (by decide))).trans
        (Dbs.Adorned.setattr _ (.inl rfl) (by decide))
  have device : Dbs.Adorned (world.dbs.Newborn d) named.dbs typed.dbs := by
    unfold onlyIf at types
    split at types
    · cases types
      exact adorned.trans (Dbs.Adorned.setattr _ (.inl rfl) (by decide))
    · cases types
      exact adorned
  exact (entered.named (by decide)).adorned (device.trans (.touched (fun _ _ => .inr) ctime mtime))

/-- What `symlink` does when it returns 0. -/
theorem symlink_succeeds (null : fs.pcache = PathCache_null)
    (succeeds : exec (fs.symlink ctx oldpath newpath) world = (.ok 0, after)) :
    ∃ sctx d, ctx.sctx = some sctx ∧ world.dbs.Parent sctx newpath d ∧
      world.dbs.Named d (leafOf newpath) after.dbs := by
  obtain ⟨sctx, final, caller, runs, same⟩ := request_succeeds succeeds
  simp only [null, exec_bind, Outcome.andThen_eq_ok_iff, Node.exec_setattr, Node.exec_setattrv]
    at runs
  obtain ⟨p, begun, finds, n, named, creates, ⟨⟩, owned, ⟨⟩, ⟨⟩, grouped, ⟨⟩, ⟨⟩, targeted,
    ⟨⟩, ⟨⟩, touched, touches, ends⟩ := runs
  cases ends
  obtain ⟨d, rfl, parent, rfl⟩ := Path.resolve_succeeds finds
  obtain ⟨rfl, entered⟩ := Path.create_succeeds makesClass_symlink creates
  obtain ⟨ctime, mtime, touchedEq⟩ := touchParent_succeeds touches
  refine ⟨sctx, d, caller, parent, ?_⟩
  rw [same, touchedEq]
  have adorned : Dbs.Adorned (world.dbs.Newborn d) named.dbs
      (((named.dbs.setattr world.dbs.nodes.nextId .uid ctx.uid).setattr world.dbs.nodes.nextId
        .gid ctx.gid).put .nodes world.dbs.nodes.nextId Attr.symlink.name oldpath) :=
    ((Dbs.Adorned.setattr _ (.inl rfl) (by decide)).trans
      (Dbs.Adorned.setattr _ (.inl rfl) (by decide))).trans
        (Dbs.Adorned.put _ (.inl rfl) (by decide))
  exact (entered.named (by decide)).adorned (adorned.trans (.touched (fun _ _ => .inr) ctime mtime))

/-- What `mkdir` does when it returns 0. -/
theorem mkdir_succeeds (null : fs.pcache = PathCache_null) (idsLeft : world.dbs.nodes.IdsLeft)
    {mode : UInt32} (succeeds : exec (fs.mkdir ctx path mode) world = (.ok 0, after)) :
    ∃ sctx d, ctx.sctx = some sctx ∧ world.dbs.Parent sctx path d ∧
      world.dbs.Housed d (leafOf path) after.dbs := by
  obtain ⟨sctx, final, caller, runs, same⟩ := request_succeeds succeeds
  simp only [null, exec_bind, Outcome.andThen_eq_ok_iff, Node.exec_setattr] at runs
  obtain ⟨p, begun, finds, n, named, creates, ⟨⟩, housed, adds, ⟨⟩, owned, ⟨⟩, ⟨⟩, grouped,
    ⟨⟩, ⟨⟩, moded, ⟨⟩, ⟨⟩, touched, touches, ends⟩ := runs
  cases ends
  obtain ⟨d, rfl, parent, rfl⟩ := Path.resolve_succeeds finds
  obtain ⟨rfl, entered⟩ := Path.create_succeeds makesClass_directory creates
  obtain ⟨nlink, counted, absent, housedEq⟩ := Directory.addchild_succeeds adds
  obtain ⟨ctime, mtime, touchedEq⟩ := touchParent_succeeds touches
  refine ⟨sctx, d, caller, parent, ?_⟩
  rw [same, touchedEq]
  have made := entered.housed (Dbs.ne_nextId idsLeft parent.getnode) counted absent
  have adorned : Dbs.Adorned (world.dbs.Newborn d) housed.dbs
      (((housed.dbs.setattr world.dbs.nodes.nextId .uid ctx.uid).setattr world.dbs.nodes.nextId
        .gid ctx.gid).setattr world.dbs.nodes.nextId .mode (sIfdir ||| mode)) :=
    ((Dbs.Adorned.setattr _ (.inl rfl) (by decide)).trans
      (Dbs.Adorned.setattr _ (.inl rfl) (by decide))).trans
        (Dbs.Adorned.setattr _ (.inl rfl) (by decide))
  rw [← housedEq] at made
  exact made.adorned (adorned.trans (.touched (fun _ _ => .inr) ctime mtime))

/-- What `link` does when it returns 0. -/
theorem link_succeeds (null : fs.pcache = PathCache_null)
    (succeeds : exec (fs.link ctx oldpath newpath) world = (.ok 0, after)) :
    ∃ sctx d n nlink, ctx.sctx = some sctx ∧ world.dbs.Parent sctx newpath d ∧
      world.dbs.resolve sctx oldpath = .ok n ∧ world.dbs.attr UInt32 n.id .nlink = .ok nlink ∧
      world.dbs.Linked d (leafOf newpath) n nlink after.dbs := by
  obtain ⟨sctx, final, caller, runs, same⟩ := request_succeeds succeeds
  simp only [null, exec_bind, Outcome.andThen_eq_ok_iff] at runs
  obtain ⟨p, begun, finds, ⟨⟩, granted, grants, n, found, looks, ⟨⟩, stamped, stamps, ⟨⟩, named,
    adds, ⟨⟩, touched, touches, ends⟩ := runs
  cases ends
  obtain ⟨d, rfl, parent, rfl⟩ := Path.resolve_succeeds finds
  obtain rfl := access_succeeds grants
  obtain ⟨resolved, rfl⟩ := PathCache_null.getnode_succeeds looks
  obtain ⟨time, stampedEq⟩ := setTime_succeeds stamps
  obtain ⟨nlink, counted, absent, namedEq⟩ := Directory.addchild_succeeds adds
  obtain ⟨ctime, mtime, touchedEq⟩ := touchParent_succeeds touches
  rw [stampedEq, Dbs.attr_setattr_of_ne _ (.inr (by decide))] at counted
  rw [stampedEq, Dbs.get_directories_setattr] at absent
  refine ⟨sctx, d, n, nlink, caller, parent, resolved, counted, ?_⟩
  rw [same, touchedEq, namedEq, stampedEq]
  have adorned : ∀ now : Dbs, Dbs.Adorned (Dbs.Times d) now (now.touched d ctime mtime) :=
    fun now => .touched (fun _ _ => id) ctime mtime
  constructor
  · exact absent
  · intro dir name
    rw [(adorned _).entries, Dbs.get_directories_entered, Dbs.get_directories_setattr]
  · exact ((Dbs.spares_setattr (.inr ⟨rfl, .inl rfl⟩)).trans
      (Dbs.spares_entered (.inr ⟨rfl, .inr rfl⟩))).trans
        ((adorned _).others.mono fun _ _ => .inl)
  · exact (Dbs.attr_congr ((adorned _).links _)).trans (Dbs.attr_entered_self _ _ _ _)

end FS

/-! ## Requests that remove -/

namespace FS

variable {fs : FS} {ctx : Context} {world after : World} {path : Bytes}

/-- What `unlink` does when it returns 0. -/
theorem unlink_succeeds (null : fs.pcache = PathCache_null)
    (succeeds : exec (fs.unlink ctx path) world = (.ok 0, after)) :
    ∃ sctx d n time final ctime mtime, ctx.sctx = some sctx ∧ world.dbs.Parent sctx path d ∧
      n.kind ≠ .directory ∧
      (world.dbs.setattr n.id .ctime (time : UInt64)).Loses d (leafOf path) n final ∧
      after.dbs = final.touched d ctime mtime := by
  obtain ⟨sctx, final, caller, runs, same⟩ := request_succeeds succeeds
  simp only [null, exec_bind, Outcome.andThen_eq_ok_iff] at runs
  obtain ⟨p, begun, finds, ⟨⟩, granted, grants, n, found, looks, ⟨⟩, checked, checks, mode, read,
    reads, runs⟩ := runs
  obtain ⟨d, rfl, parent, rfl⟩ := Path.resolve_succeeds finds
  obtain rfl := access_succeeds grants
  obtain ⟨child, rfl⟩ := getchild_succeeds looks
  obtain rfl := checkStickyBit_succeeds checks
  obtain ⟨isMode, rfl⟩ := getattr_succeeds reads
  split at runs
  · cases runs
  · rename_i other
    simp only [exec_bind, Outcome.andThen_eq_ok_iff] at runs
    obtain ⟨⟨⟩, dropped, ⟨⟩, ⟨⟩, stamped, stamps, ⟨⟩, removed, deletes, ⟨⟩, touched,
      touches, ends⟩ :=
      runs
    cases ends
    obtain ⟨time, stampedEq⟩ := setTime_succeeds stamps
    obtain ⟨child', nlink, isChild, counted, removedEq⟩ := Directory.delchild_succeeds deletes
    obtain ⟨ctime, mtime, touchedEq⟩ := touchParent_succeeds touches
    rw [stampedEq] at isChild counted removedEq
    obtain rfl : n = child' := by
      rw [Dbs.getchild_setattr (by decide), child] at isChild
      exact Except.ok.inj isChild
    refine ⟨sctx, d, n, time, removed.dbs, ctime, mtime, caller, parent, ?_,
      ⟨nlink, isChild, counted, removedEq⟩, same.trans touchedEq⟩
    obtain ⟨stored, isStored, kind⟩ := Dbs.getnode_eq_ok_iff.mp (Dbs.getchild_ok_getnode child)
    rw [isMode] at isStored
    cases isStored
    rw [kind]
    exact fun isDirectory => other (kindOfMode_eq_directory_iff.mp isDirectory)

/-- What `rmdir` does when it returns 0. -/
theorem rmdir_succeeds (null : fs.pcache = PathCache_null)
    (succeeds : exec (fs.rmdir ctx path) world = (.ok 0, after)) :
    ∃ sctx d n own one up two last final ctime mtime, ctx.sctx = some sctx ∧
      world.dbs.Parent sctx path d ∧ world.dbs.getchild d (leafOf path) = .ok n ∧
      n.kind = .directory ∧ (world.dbs.directories.attrs n.id).length ≤ 2 ∧
      world.dbs.Loses n.id (str ".") own one ∧ one.Loses n.id (str "..") up two ∧
      two.Loses d (leafOf path) last final ∧ after.dbs = final.touched d ctime mtime := by
  obtain ⟨sctx, final, caller, runs, same⟩ := request_succeeds succeeds
  simp only [null, exec_bind, Outcome.andThen_eq_ok_iff] at runs
  obtain ⟨p, begun, finds, ⟨⟩, granted, grants, n, found, looks, d', cast, casts, ⟨⟩, checked,
    checks, count, counted, counts, runs⟩ := runs
  obtain ⟨d, rfl, parent, rfl⟩ := Path.resolve_succeeds finds
  obtain rfl := access_succeeds grants
  obtain ⟨child, rfl⟩ := getchild_succeeds looks
  obtain ⟨isDirectory, rfl, rfl⟩ := cast_succeeds casts
  obtain rfl := checkStickyBit_succeeds checks
  cases counts
  split at runs
  · cases runs
  · rename_i few
    simp only [exec_bind, Outcome.andThen_eq_ok_iff] at runs
    obtain ⟨⟨⟩, one, deletesOwn, ⟨⟩, two, deletesUp, ⟨⟩, three, deletes, ⟨⟩, dropped, ⟨⟩, ⟨⟩,
      touched,
      touches, ends⟩ := runs
    cases ends
    obtain ⟨own, loses⟩ := Directory.delchild_succeeds deletesOwn
    obtain ⟨up, losesUp⟩ := Directory.delchild_succeeds deletesUp
    obtain ⟨last, losesLast⟩ := Directory.delchild_succeeds deletes
    obtain ⟨ctime, mtime, touchedEq⟩ := touchParent_succeeds touches
    exact ⟨sctx, d, n, own, one.dbs, up, two.dbs, last, three.dbs, ctime, mtime, caller, parent,
      child, isDirectory, Nat.le_of_not_lt few, loses, losesUp, losesLast, same.trans touchedEq⟩

end FS

end OfflineFs
