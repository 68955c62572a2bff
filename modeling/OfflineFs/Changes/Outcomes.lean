import OfflineFs.Changes.Combining
import OfflineFs.Changes.Ownership
import OfflineFs.Changes.Settling
import OfflineFs.Changes.Sites
import OfflineFs.Run.Durable

/-!
# What each request does to the hierarchy

A request that returns 0 changes one name, in the way that it asks for.  A request that
returns anything else changes none.
-/

namespace OfflineFs

open OfflineFs.Effect OfflineFs.Effect.Program OfflineFs.Transition

/-- What the path cache finds. -/
def PathCache.Finds (pc : PathCache) (sctx : SContext) (world : World) (path : Bytes)
    (n : NodeRef) : Prop :=
  (exec (pc.getnode sctx path) world).1 = .ok n

/-- What the path cache finds after it was asked for another path. -/
def PathCache.FindsNext (pc : PathCache) (sctx : SContext) (world : World) (first path : Bytes)
    (n : NodeRef) : Prop :=
  pc.Finds sctx (exec (pc.getnode sctx first) world).2 path n

/-- The path of the directory of a path. -/
def parentOf (path : Bytes) : Bytes :=
  (splitPath path).1

/-- An absolute path with a component. -/
def Spelled (path : Bytes) : Prop :=
  path.head? = some slash ∧ leafOf path ≠ []

theorem Spelled.leaf {path : Bytes} (spelled : Spelled path) :
    leafOf path ≠ [] ∧ slash ∉ leafOf path := by
  refine ⟨spelled.2, ?_⟩
  obtain ⟨parentpath, leaf, ending⟩ := exists_ending spelled.1
  rw [leafOf, ending.splitPath]
  cases ending with
  | slashes only => exact List.not_mem_nil
  | leaf plain nonempty only => exact plain

/-- The name that a moved node had, and the one that it gets. -/
structure Dbs.Ends (before : Dbs) (s : UInt64) (old : Bytes) (d : UInt64) (new : Bytes) : Prop where
  apart : ¬ (s = d ∧ old = new)
  outside : ∀ {os ns}, before.Leads os ⟨s, .directory⟩ → before.Leads ns ⟨d, .directory⟩ →
    ¬ os ++ [old] <+: ns ++ [new]

namespace Request

/-- The change of one name that a request asks for. -/
inductive Reshapes (fs : FS) (sctx : SContext) (world : World) (after : Dbs) : Request → Prop
  | mknod {path : Bytes} {mode : UInt32} {dev d : UInt64}
      (finds : fs.pcache.Finds sctx world (parentOf path) ⟨d, .directory⟩)
      (gained : world.dbs.Gained d (leafOf path) ⟨world.dbs.nodes.nextId, kindOfMode mode⟩ after) :
      Reshapes fs sctx world after (.mknod path mode dev)
  | mkdir {path : Bytes} {mode : UInt32} {d : UInt64}
      (finds : fs.pcache.Finds sctx world (parentOf path) ⟨d, .directory⟩)
      (founded : world.dbs.Founded d (leafOf path) world.dbs.nodes.nextId after) :
      Reshapes fs sctx world after (.mkdir path mode)
  | symlink {oldpath newpath : Bytes} {d : UInt64}
      (finds : fs.pcache.Finds sctx world (parentOf newpath) ⟨d, .directory⟩)
      (gained : world.dbs.Gained d (leafOf newpath) ⟨world.dbs.nodes.nextId, .symlink⟩ after) :
      Reshapes fs sctx world after (.symlink oldpath newpath)
  | link {oldpath newpath : Bytes} {d : UInt64} {n : NodeRef}
      (finds : fs.pcache.Finds sctx world (parentOf newpath) ⟨d, .directory⟩)
      (findsNode : fs.pcache.FindsNext sctx world (parentOf newpath) oldpath n)
      (isNode : world.dbs.getnode n.id = .ok n)
      (gained : world.dbs.Gained d (leafOf newpath) n after) :
      Reshapes fs sctx world after (.link oldpath newpath)
  | unlink {path : Bytes} {d : UInt64} {n : NodeRef}
      (finds : fs.pcache.Finds sctx world (parentOf path) ⟨d, .directory⟩)
      (isFile : n.kind ≠ .directory)
      (dropped : world.dbs.Dropped d (leafOf path) n after) :
      Reshapes fs sctx world after (.unlink path)
  | rmdir {path : Bytes} {d c : UInt64}
      (finds : fs.pcache.Finds sctx world (parentOf path) ⟨d, .directory⟩)
      (dropped : world.dbs.Dropped d (leafOf path) ⟨c, .directory⟩ after) :
      Reshapes fs sctx world after (.rmdir path)
  | same {path : Bytes} (alike : world.dbs.Alike after) :
      Reshapes fs sctx world after (.rename path path)
  | move {oldpath newpath : Bytes} {s d : UInt64} {src : NodeRef}
      (finds : fs.pcache.Finds sctx world (parentOf oldpath) ⟨s, .directory⟩)
      (findsNew : fs.pcache.FindsNext sctx world (parentOf oldpath) (parentOf newpath)
        ⟨d, .directory⟩)
      (ends : world.dbs.Ends s (leafOf oldpath) d (leafOf newpath))
      (shifted : world.dbs.Shifted s (leafOf oldpath) d (leafOf newpath) src after) :
      Reshapes fs sctx world after (.rename oldpath newpath)
  | replace {oldpath newpath : Bytes} {s d : UInt64} {src dst : NodeRef} {middle : Dbs}
      (finds : fs.pcache.Finds sctx world (parentOf oldpath) ⟨s, .directory⟩)
      (findsNew : fs.pcache.FindsNext sctx world (parentOf oldpath) (parentOf newpath)
        ⟨d, .directory⟩)
      (ends : world.dbs.Ends s (leafOf oldpath) d (leafOf newpath))
      (dropped : world.dbs.Dropped d (leafOf newpath) dst middle)
      (shifted : middle.Shifted s (leafOf oldpath) d (leafOf newpath) src after) :
      Reshapes fs sctx world after (.rename oldpath newpath)

/-- What is relied on of a request, and what the kernel checks before it makes it.  A name
that is created is one; `mknod` does not make a directory, and `mkdir` nothing else; no
directory gets a second name; the entries of a directory for itself and for its parent are
neither removed nor moved; a node is not moved to its own name under another path; and no
directory is moved to a free name beneath itself.  The superuser does not write the
reserved attributes. -/
def Sensible (fs : FS) (ctx : Context) (world : World) : Request → Prop
  | mknod path mode _ => Spelled path ∧ kindOfMode mode ≠ .directory
  | mkdir path mode => Spelled path ∧ kindOfMode (sIfdir ||| mode) = .directory
  | symlink _ newpath => Spelled newpath
  | link oldpath newpath => Spelled newpath ∧ ∀ sctx n, ctx.sctx = some sctx →
      fs.pcache.FindsNext sctx world (parentOf newpath) oldpath n → n.kind ≠ .directory
  | rmdir path => IsName (leafOf path)
  | rename oldpath newpath => Spelled newpath ∧ IsName (leafOf oldpath) ∧ IsName (leafOf newpath) ∧
      ∀ sctx s d, ctx.sctx = some sctx →
        fs.pcache.Finds sctx world (parentOf oldpath) ⟨s, .directory⟩ →
        fs.pcache.FindsNext sctx world (parentOf oldpath) (parentOf newpath) ⟨d, .directory⟩ →
        (s = d → leafOf oldpath = leafOf newpath → oldpath = newpath) ∧
        (world.dbs.get .directories s (leafOf oldpath) ≠ none →
          world.dbs.get .directories d (leafOf newpath) = none →
            world.dbs.Ends s (leafOf oldpath) d (leafOf newpath))
  | request => ¬ (ctx.uid = 0 ∧ request.Reserved)

/-- How a request ends: it has changed the name that it was to change and returns 0, or no
name has changed. -/
inductive Outcome (fs : FS) (ctx : Context) (world : World) (request : Request) (code : Int)
    (after : Dbs) : Prop
  | done {sctx : SContext} (caller : ctx.sctx = some sctx) (succeeds : code = 0)
      (reshapes : request.Reshapes fs sctx world after)
  | left (fails : request.Names = true → code ≠ 0) (alike : world.dbs.Alike after)

end Request

section Requests

variable {fs : FS} {ctx : Context} {world : World} {valid : PathCacheState → Prop}
variable {halts : Prop}

/-- Whatever a request returns is said of its body, or follows an error. -/
theorem settles_request {onError : Err → Int} {body : SContext → FsProg Int}
    {post : SContext → Int → Dbs → Prop} (errors : ∀ e, onError e ≠ 0)
    (cached : valid world.cache)
    (settles : ∀ sctx, ctx.sctx = some sctx →
      Settles fs.pcache valid world.dbs.Alike halts (post sctx) (exec (body sctx) world)) :
    Settles fs.pcache valid world.dbs.Alike halts (fun code now =>
        (∃ sctx, ctx.sctx = some sctx ∧ post sctx code now) ∨ code ≠ 0 ∧ world.dbs.Alike now)
      (exec (request ctx onError body) world) := by
  rw [exec_request]
  cases caller : ctx.sctx with
  | none => exact ⟨cached, .inr ⟨errors _, .refl _⟩⟩
  | some sctx =>
      have ended := settles sctx caller
      simp only
      rcases result : exec (body sctx) world with ⟨outcome, after⟩
      rw [result] at ended
      cases outcome with
      | ok value => exact ⟨ended.1, .inl ⟨sctx, rfl, ended.2⟩⟩
      | error e => exact ⟨ended.1, .inr ⟨errors e, ended.2⟩⟩
      | fault stop => exact ended

/-- What the body of a request leaves. -/
def Leaves (fs : FS) (world : World) (request : Request) (sctx : SContext) (code : Int)
    (now : Dbs) : Prop :=
  code = 0 ∧ request.Reshapes fs sctx world now ∨ code ≠ 0 ∧ world.dbs.Alike now

theorem settles_naming {onError : Err → Int} {body : SContext → FsProg Int} {request : Request}
    (errors : ∀ e, onError e ≠ 0) (cached : valid world.cache)
    (settles : ∀ sctx, ctx.sctx = some sctx →
      Settles fs.pcache valid world.dbs.Alike halts (Leaves fs world request sctx)
        (exec (body sctx) world)) :
    Settles fs.pcache valid world.dbs.Alike halts (request.Outcome fs ctx world)
      (exec (OfflineFs.request ctx onError body) world) := by
  apply (settles_request errors cached settles).weaken id
  rintro code now (⟨sctx, caller, ⟨succeeds, reshapes⟩ | ⟨fails, alike⟩⟩ | ⟨fails, alike⟩)
  · exact .done caller succeeds reshapes
  · exact .left (fun _ => fails) alike
  · exact .left (fun _ => fails) alike

/-! ## Empty directories -/

section Emptying

variable {α : Type} {base : Dbs → Prop} {post : α → Dbs → Prop} {next : Unit → FsProg α}
variable {d c : UInt64} {name : Bytes}

/-- A directory that counts as empty loses its own entries. -/
theorem settles_emptying (cached : valid world.cache) (hierarchy : world.dbs.Hierarchy)
    (bounded : world.dbs.Bounded (2 ^ 31 - 4))
    (child : world.dbs.getchild d name = .ok ⟨c, .directory⟩) (isName : IsName name)
    (few : (world.dbs.directories.attrs c).length ≤ 2)
    (continues : ∀ now, valid now.cache → world.dbs.Emptied c now.dbs →
      Settles fs.pcache valid base halts post (exec (next ()) now)) :
    Settles fs.pcache valid base halts post
      (exec (Directory.delchild ⟨c, .directory⟩ (str ".") >>= fun _ =>
      Directory.delchild ⟨c, .directory⟩ (str "..") >>= next) world) := by
  have bare : ∀ leaf, IsName leaf → world.dbs.get .directories c leaf = none :=
    fun leaf => hierarchy.bare_of_few (Dbs.getchild_ok_getnode child) few
  have counts : ∀ {id}, world.dbs.refs id ≤ 2 ^ 31 := by
    intro id
    have few := bounded id
    rw [hierarchy.balanced] at few
    omega
  apply settles_delchild cached (hierarchy.own_child child) hierarchy.balanced counts
  · intro _ single
    have two := hierarchy.two_le_refs_child child isName
    rw [single] at two
    omega
  intro one cachedOne own
  apply settles_delchild cachedOne (n := ⟨d, .directory⟩)
    (hierarchy.up_child_own child isName own) (own.balanced hierarchy.balanced)
  · change one.dbs.refs d ≤ 2 ^ 31
    rw [own.refs]
    exact (Nat.sub_le _ _).trans counts
  · intro _ single
    have two := hierarchy.two_le_refs_own child isName own
    change one.dbs.refs d = 1 at single
    rw [single] at two
    omega
  intro two cachedTwo up
  exact continues two cachedTwo (hierarchy.emptied child isName own bare up)

/-- An emptied directory loses its name. -/
theorem settles_vacating {before : Dbs} (cached : valid world.cache) (hierarchy : before.Hierarchy)
    (child : before.getchild d name = .ok ⟨c, .directory⟩) (isName : IsName name)
    (few : (before.directories.attrs c).length ≤ 2) (emptied : before.Emptied c world.dbs)
    (continues : ∀ after, valid after.cache → before.Dropped d name ⟨c, .directory⟩ after.dbs →
      (∀ id, after.dbs.refs id ≤ before.refs id) →
      Settles fs.pcache valid base halts post (exec (next ()) after)) :
    Settles fs.pcache valid base halts post
      (exec (Directory.delchild ⟨d, .directory⟩ name >>= next) world) := by
  have bare : ∀ leaf, IsName leaf → before.get .directories c leaf = none :=
    fun leaf => hierarchy.bare_of_few (Dbs.getchild_ok_getnode child) few
  apply settles_delchild cached (n := ⟨c, .directory⟩)
    (hierarchy.child_emptied child isName emptied) emptied.balanced
  · change world.dbs.refs c ≤ 2 ^ 31
    rw [emptied.single]
    decide
  · intro _ _ leaf _
    rw [emptied.entries, if_pos rfl]
  intro after cachedAfter parted
  refine continues after cachedAfter (emptied.dropped child isName bare parted) fun id => ?_
  rw [parted.refs]
  exact (Nat.sub_le _ _).trans (emptied.fewer id)

end Emptying

/-! ## Creating -/

section Creating

variable (steady : fs.pcache.Steady valid) (cached : valid world.cache)
variable (hierarchy : world.dbs.Hierarchy) (roomy : world.dbs.Roomy)

include steady cached hierarchy roomy

/-- `mknod` enters a new node, or changes no name. -/
theorem settles_mknod {path : Bytes} {mode : UInt32} {dev : UInt64} (spelled : Spelled path)
    (isFile : kindOfMode mode ≠ .directory) :
    Settles fs.pcache valid world.dbs.Alike halts
      ((Request.mknod path mode dev).Outcome fs ctx world)
      (exec (fs.mknod ctx path mode dev) world) := by
  apply settles_naming errcode_ne_zero cached
  intro sctx caller
  apply settles_resolve cached steady (.refl _)
  intro d found cachedFound same finds directory
  apply settles_create .node cachedFound (same ▸ roomy.idsLeft)
    (same ▸ hierarchy.directoriesOfNodes) (same ▸ .refl _)
  rw [same]
  intro made cachedMade entered
  have named := entered.named (by decide)
  apply settles_store cachedMade
  intro owned cachedOwned ownedEq
  apply settles_store cachedOwned
  intro grouped cachedGrouped groupedEq
  apply settles_store cachedGrouped
  intro typed cachedTyped typedEq
  have gained : world.dbs.Gained d (leafOf path) ⟨world.dbs.nodes.nextId, kindOfMode mode⟩
      typed.dbs := by
    apply Dbs.Named.gained hierarchy _ roomy.idsLeft directory spelled.leaf _ isFile
    · rw [typedEq, groupedEq, ownedEq]
      exact ((named.adorned (.setattr _ (.inl rfl) (by decide))).adorned
        (.setattr _ (.inl rfl) (by decide))).adorned (.setattr _ (.inl rfl) (by decide))
    · rw [typedEq, Dbs.getnode_eq_ok_iff]
      exact ⟨mode, Dbs.attr_setattr_self _ _ _ _, rfl⟩
  have stamped : ∀ now, valid now.cache → typed.dbs.Alike now.dbs →
      Settles fs.pcache valid world.dbs.Alike halts (Leaves fs world (.mknod path mode dev) sctx)
        (exec (touchParent ⟨d, .directory⟩ >>= fun _ => Pure.pure 0) now) := by
    intro now cachedNow alike
    apply settles_touchParent cachedNow
    intro last cachedLast alikeLast
    apply settles_pure cachedLast
    exact .inl ⟨rfl, .mknod (congrArg Prod.fst finds) (gained.alike_right (alike.trans alikeLast))⟩
  unfold onlyIf
  split
  · exact settles_setattr cachedTyped (by decide) (by decide) stamped
  · exact stamped typed cachedTyped (.refl _)

/-- `symlink` enters a new node, or changes no name. -/
theorem settles_symlink {oldpath newpath : Bytes} (spelled : Spelled newpath) :
    Settles fs.pcache valid world.dbs.Alike halts
      ((Request.symlink oldpath newpath).Outcome fs ctx world)
      (exec (fs.symlink ctx oldpath newpath) world) := by
  apply settles_naming errcode_ne_zero cached
  intro sctx caller
  apply settles_resolve cached steady (.refl _)
  intro d found cachedFound same finds directory
  apply settles_create .symlink cachedFound (same ▸ roomy.idsLeft)
    (same ▸ hierarchy.directoriesOfNodes) (same ▸ .refl _)
  rw [same]
  intro made cachedMade entered
  have gained : world.dbs.Gained d (leafOf newpath) ⟨world.dbs.nodes.nextId, .symlink⟩ made.dbs :=
    (entered.named (by decide)).gained hierarchy roomy.idsLeft directory spelled.leaf
      (Dbs.getnode_of_entered entered (by decide)) (by decide)
  apply settles_setattr cachedMade (by decide) (by decide)
  intro owned cachedOwned alikeOwned
  apply settles_setattr cachedOwned (by decide) (by decide)
  intro grouped cachedGrouped alikeGrouped
  apply settles_put cachedGrouped
  intro aimed cachedAimed aimedEq
  have alikeAimed : grouped.dbs.Alike aimed.dbs := by
    rw [aimedEq]
    exact .put (by decide) (by decide) _
  apply settles_touchParent cachedAimed
  intro last cachedLast alikeLast
  apply settles_pure cachedLast
  exact .inl ⟨rfl, .symlink (congrArg Prod.fst finds) (gained.alike_right
    (((alikeOwned.trans alikeGrouped).trans alikeAimed).trans alikeLast))⟩

/-- `mkdir` enters a new directory with its own entries, or changes no name. -/
theorem settles_mkdir {path : Bytes} {mode : UInt32} (spelled : Spelled path)
    (isDirectory : kindOfMode (sIfdir ||| mode) = .directory) :
    Settles fs.pcache valid world.dbs.Alike halts ((Request.mkdir path mode).Outcome fs ctx world)
      (exec (fs.mkdir ctx path mode) world) := by
  apply settles_naming errcode_ne_zero cached
  intro sctx caller
  apply settles_resolve cached steady (.refl _)
  intro d found cachedFound same finds directory
  apply settles_create .directory cachedFound (same ▸ roomy.idsLeft)
    (same ▸ hierarchy.directoriesOfNodes) (same ▸ .refl _)
  rw [same]
  intro made cachedMade entered
  have apart := hierarchy.ne_nextId roomy.idsLeft directory
  have parentLinks : made.dbs.links d = world.dbs.links d :=
    Dbs.links_of_spares (Dbs.spares_of_entered entered) apart
  apply settles_addchild cachedMade
  · change 0 < made.dbs.links d
    rw [parentLinks, hierarchy.balanced]
    exact Dbs.refs_pos_of_entry (hierarchy.tree.dot directory)
  · change made.dbs.links d < 2 ^ 31
    have few := roomy.bounded d
    rw [parentLinks]
    omega
  · exact fun taken => absurd (Dbs.up_of_entered hierarchy roomy.idsLeft directory entered) taken
  intro housed cachedHoused joined
  have founded : world.dbs.Founded d (leafOf path) world.dbs.nodes.nextId housed.dbs :=
    Dbs.founded hierarchy roomy.idsLeft (p := ⟨⟨d, .directory⟩, leafOf path⟩) directory spelled.leaf
      entered joined
  apply settles_setattr cachedHoused (by decide) (by decide)
  intro owned cachedOwned alikeOwned
  apply settles_setattr cachedOwned (by decide) (by decide)
  intro grouped cachedGrouped alikeGrouped
  apply settles_store cachedGrouped
  intro typed cachedTyped typedEq
  have isNode : grouped.dbs.getnode world.dbs.nodes.nextId =
      .ok ⟨world.dbs.nodes.nextId, .directory⟩ := by
    rw [alikeGrouped.getnode, alikeOwned.getnode, founded.getnode, if_pos rfl]
  have alikeTyped : grouped.dbs.Alike typed.dbs := by
    rw [typedEq]
    exact .setMode _ isNode isDirectory
  apply settles_touchParent cachedTyped
  intro last cachedLast alikeLast
  apply settles_pure cachedLast
  exact .inl ⟨rfl, .mkdir (congrArg Prod.fst finds) (founded.alike_right
    (((alikeOwned.trans alikeGrouped).trans alikeTyped).trans alikeLast))⟩

/-- `link` enters a node that is no directory, or changes no name. -/
theorem settles_link {oldpath newpath : Bytes} (spelled : Spelled newpath)
    (files : ∀ sctx n, ctx.sctx = some sctx →
      fs.pcache.FindsNext sctx world (parentOf newpath) oldpath n → n.kind ≠ .directory) :
    Settles fs.pcache valid world.dbs.Alike halts
      ((Request.link oldpath newpath).Outcome fs ctx world)
      (exec (fs.link ctx oldpath newpath) world) := by
  apply settles_naming errcode_ne_zero cached
  intro sctx caller
  apply settles_resolve cached steady (.refl _)
  intro d found cachedFound same finds directory
  apply settles_access cachedFound (same ▸ .refl _)
  apply settles_getnode cachedFound steady (same ▸ .refl _)
  intro n seen cachedSeen sameSeen findsNode isNode
  rw [same] at sameSeen isNode
  have findsNext : fs.pcache.FindsNext sctx world (parentOf newpath) oldpath n := by
    rw [PathCache.FindsNext, parentOf, finds]
    exact congrArg Prod.fst findsNode
  apply settles_setTime cachedSeen (by decide) (by decide)
  intro stamped cachedStamped alike
  rw [sameSeen] at alike
  apply settles_addchild cachedStamped
  · rw [alike.links, hierarchy.balanced]
    exact hierarchy.alive isNode
  · have few := roomy.bounded n.id
    rw [alike.links]
    omega
  · exact fun _ => alike
  intro joined cachedJoined isJoined
  have gained : world.dbs.Gained d (leafOf newpath) n joined.dbs :=
    (isJoined.alike_left alike).gained hierarchy directory spelled.leaf isNode
      (files sctx n caller findsNext)
  apply settles_touchParent cachedJoined
  intro last cachedLast alikeLast
  apply settles_pure cachedLast
  exact .inl ⟨rfl, .link (congrArg Prod.fst finds) findsNext isNode (gained.alike_right alikeLast)⟩

/-! ## Removing -/

/-- `unlink` takes a name away, or changes none. -/
theorem settles_unlink {path : Bytes} :
    Settles fs.pcache valid world.dbs.Alike halts ((Request.unlink path).Outcome fs ctx world)
      (exec (fs.unlink ctx path) world) := by
  apply settles_naming errcode_ne_zero cached
  intro sctx caller
  apply settles_resolve cached steady (.refl _)
  intro d found cachedFound same finds directory
  apply settles_access cachedFound (same ▸ .refl _)
  apply settles_getchild cachedFound (same ▸ .refl _)
  intro n child
  rw [same] at child
  apply settles_sticky cachedFound (same ▸ .refl _)
  apply settles_attr cachedFound (same ▸ .refl _)
  intro mode isMode
  rw [same] at isMode
  have kind := kind_of_attr (Dbs.getchild_ok_getnode child) isMode
  split
  · apply settles_pure cachedFound
    exact .inr ⟨by decide, same ▸ .refl _⟩
  · rename_i other
    have isFile : n.kind ≠ .directory := by
      rw [kind]
      exact fun isDirectory => other (kindOfMode_eq_directory_iff.mp isDirectory)
    apply settles_invalidate cachedFound steady
    intro dropping cachedDropping sameDropping
    rw [same] at sameDropping
    apply settles_setTime cachedDropping (by decide) (by decide)
    intro stamped cachedStamped alike
    rw [sameDropping] at alike
    apply settles_delchild cachedStamped (n := n)
    · rw [alike.getchild, child]
    · exact alike.balanced hierarchy.balanced
    · have few := roomy.bounded n.id
      rw [alike.refs, ← hierarchy.balanced]
      omega
    · exact fun isDirectory => absurd isDirectory isFile
    intro parted cachedParted isParted
    have dropped : world.dbs.Dropped d (leafOf path) n parted.dbs :=
      (isParted.alike_left alike).dropped child (hierarchy.isName_of_file child isFile) isFile
        hierarchy.balanced
    apply settles_touchParent cachedParted
    intro last cachedLast alikeLast
    apply settles_pure cachedLast
    exact .inl ⟨rfl, .unlink (congrArg Prod.fst finds) isFile (dropped.alike_right alikeLast)⟩

/-- `rmdir` takes an empty directory away, or changes no name. -/
theorem settles_rmdir {path : Bytes} (isName : IsName (leafOf path)) :
    Settles fs.pcache valid world.dbs.Alike halts ((Request.rmdir path).Outcome fs ctx world)
      (exec (fs.rmdir ctx path) world) := by
  apply settles_naming errcode_ne_zero cached
  intro sctx caller
  apply settles_resolve cached steady (.refl _)
  intro d found cachedFound same finds directory
  have unchanged : world.dbs.Alike found.dbs := same ▸ .refl _
  apply settles_access cachedFound unchanged
  apply settles_getchild cachedFound unchanged
  intro n child
  apply settles_cast cachedFound unchanged
  intro isDirectory
  have isNode : n = ⟨n.id, .directory⟩ := by rw [← isDirectory]
  rw [isNode] at child ⊢
  apply settles_sticky cachedFound unchanged
  apply settles_look cachedFound (fun dbs => .ok (dbs.directories.attrs n.id).length)
    (Register.exec_countattrs .directories n.id) unchanged
  intro count counted
  split
  · apply settles_pure cachedFound
    exact .inr ⟨by decide, unchanged⟩
  · rename_i few
    rw [← Except.ok.inj counted] at few
    have tidy : found.dbs.Hierarchy := same ▸ hierarchy
    apply settles_emptying cachedFound tidy (same ▸ roomy.bounded) child isName
      (Nat.le_of_not_lt few)
    intro emptied cachedEmptied isEmptied
    apply settles_vacating cachedEmptied tidy child isName (Nat.le_of_not_lt few) isEmptied
    intro parted cachedParted dropped _
    rw [same] at dropped
    apply settles_invalidate cachedParted steady
    intro dropping cachedDropping sameDropping
    apply settles_touchParent cachedDropping
    intro last cachedLast alikeLast
    rw [sameDropping] at alikeLast
    apply settles_pure cachedLast
    exact .inl ⟨rfl, .rmdir (congrArg Prod.fst finds) (dropped.alike_right alikeLast)⟩

end Creating

end Requests

end OfflineFs
