import OfflineFs.Changes.Logic

/-!
# Requests that make nodes

A new node is neutral first, then of a class, then entered into its directory, and
only then owned.  One that could not be entered is removed again.
-/

namespace OfflineFs

open OfflineFs.Effect OfflineFs.Effect.Program

namespace Warrant

variable {w : Warrant} {added : Nat} {α : Type} {post : α → Dbs → Prop}

/-- A node was made, and no directory but its own was changed. -/
structure Begun (w : Warrant) (n : NodeRef) (now : Dbs) : Prop where
  id : n.id = w.fresh
  enclosed : ∀ d name, d ≠ w.fresh ∨ n.kind ≠ .directory →
    now.get .directories d name = w.start.get .directories d name
  alive : now.get .nodes w.fresh Attr.nlink.name ≠ none

/-- The node of the request is there. -/
def Alive (w : Warrant) (now : Dbs) : Prop :=
  now.get .nodes w.fresh Attr.nlink.name ≠ none

theorem alive_setattr {T : Type} [HostInt T] {now : Dbs} (alive : w.Alive now) (id : UInt64)
    (attr : Attr) (value : T) : w.Alive (now.setattr id attr value) := by
  unfold Alive
  rw [Dbs.get_setattr]
  split
  · exact nofun
  · exact alive

theorem alive_put {now : Dbs} (alive : w.Alive now) (id : UInt64) (name value : Bytes) :
    w.Alive (now.put .nodes id name value) := by
  unfold Alive
  rw [Dbs.get_put]
  split
  · exact nofun
  · exact alive

theorem alive_entered {now : Dbs} (alive : w.Alive now) (d : UInt64) (name : Bytes) (n : UInt64)
    (nlink : UInt32) : w.Alive (now.entered d name n nlink) := by
  unfold Alive Dbs.entered
  rw [Dbs.get_put, if_neg]
  · exact alive_setattr alive n .nlink (1 + nlink)
  · rintro ⟨impossible, -⟩
    cases impossible

/-- The new node is there. -/
structure Born (w : Warrant) (n : NodeRef) (now : Dbs) : Prop where
  id : n.id = w.fresh
  alive : w.Alive now

theorem Born.setattr {T : Type} [HostInt T] {n : NodeRef} {now : Dbs} (born : w.Born n now)
    (id : UInt64) (attr : Attr) (value : T) : w.Born n (now.setattr id attr value) :=
  ⟨born.id, alive_setattr born.alive id attr value⟩

/-! ## The classes of new nodes -/

/-- A new node begins without a name. -/
theorem keeps_create (births : w.req.Births) :
    w.Keeps (w.At 0 w.Unchanged) Node.create fun n => w.At 0 fun now =>
      n.kind = .node ∧ w.Begun n now := by
  intro world met
  change Outcome.Satisfies _ _ _ (exec Node.create world)
  obtain ⟨after, atime, mtime, ctime, result, afterEq⟩ := Node.exec_create world
  have same := met.eq_start
  rw [result]
  rw [same] at afterEq
  have permitted := (within_start (w := w)).change (.create rfl births atime mtime ctime) rfl
  have idEq : world.dbs.nodes.nextId = w.fresh := by rw [same]; rfl
  refine ⟨?_, rfl, idEq, ?_, ?_⟩
  · rw [afterEq]
    exact permitted
  · intro d name _
    rw [afterEq, Dbs.get_directories_created]
  · rw [afterEq]
    simp [Dbs.created, Dbs.get_setattr, Warrant.fresh]

/-- An attribute of the new node. -/
theorem keeps_own {T : Type} [HostInt T] {n : NodeRef} {attr : Attr} (listed : attr ∈ birthAttrs)
    (sized : attr.width = some (HostInt.size T)) (value : T) {condition : Dbs → Prop}
    (made : ∀ now, condition now → w.Born n now)
    (leads : ∀ now, condition now → condition (now.setattr n.id attr value)) :
    w.Keeps (w.At added condition) (Node.setattr n.id attr value) fun _ => w.At added condition :=
  keeps_setattr (fun now met => by
    rw [(made now met).id]
    exact .own listed (Attr.fits_hostToDb sized value) (made now met).alive) leads

theorem Begun.setattr {T : Type} [HostInt T] {n : NodeRef} {now : Dbs} (begun : w.Begun n now)
    (id : UInt64) (attr : Attr) (value : T) : w.Begun n (now.setattr id attr value) where
  id := begun.id
  enclosed d name apart := by rw [Dbs.get_directories_setattr, begun.enclosed d name apart]
  alive := alive_setattr begun.alive id attr value

theorem Begun.put {n : NodeRef} {now : Dbs} (begun : w.Begun n now) (id : UInt64)
    (name value : Bytes) : w.Begun n (now.put .nodes id name value) where
  id := begun.id
  enclosed d other apart := by
    rw [Dbs.get_put, if_neg, begun.enclosed d other apart]
    rintro ⟨impossible, -⟩
    cases impossible
  alive := alive_put begun.alive id name value

theorem Begun.removed {n : NodeRef} {now : Dbs} (begun : w.Begun n now) (d : UInt64)
    (name : Bytes) (apart : d ≠ w.fresh ∨ n.kind ≠ .directory) :
    (now.removed n).get .directories d name = w.start.get .directories d name := by
  rw [Dbs.get_removed_directories, if_neg, begun.enclosed d name apart]
  rintro ⟨same, directory⟩
  rcases apart with differs | other
  · exact differs (same.trans begun.id)
  · exact other directory

/-- What the class does to the neutral node before it is entered. -/
def Makes (w : Warrant) (createT : FsProg NodeRef) : Prop :=
  w.Keeps (w.At 0 w.Unchanged) createT fun n => w.At 1 (w.Begun n)

theorem At.mono {condition other : Dbs → Prop} {more : Nat} {now : Dbs}
    (met : w.At added condition now) (le : added ≤ more) (small : more ≤ 3)
    (weaken : condition now → other now) : w.At more other now :=
  ⟨met.1.mono le small, weaken met.2⟩

theorem makes_node (births : w.req.Births) : w.Makes Node.create :=
  (keeps_create births).weaken (fun _ => id) fun _ _ met =>
    met.mono (by decide) (by decide) And.right

/-- A new directory has its own entry. -/
theorem makes_directory (births : w.req.Births) : w.Makes Directory.create := by
  apply keeps_bind (keeps_create births)
  intro base
  apply keeps_of_fact (fun now met => met.2.1)
  intro isNode
  apply keeps_of_fact (fun now met => met.2.2.id)
  intro isFresh
  refine keeps_bind (keeps_own (by decide) rfl sIfdir ?_ ?_) ?_
  · exact fun now met => ⟨isFresh, met.2.alive⟩
  · exact fun now met => ⟨met.1, met.2.setattr base.id .mode sIfdir⟩
  · intro _
    have entering : w.Entering base.id (str ".") base.id := by
      rw [isFresh]
      exact .self
    refine keeps_bind (keeps_addchild (by decide) entering ?_) fun _ => keeps_pure fun now => id
    · intro now nlink met counted absent
      exact {
        id := isFresh
        enclosed := by
          intro d name apart
          have differs : d ≠ w.fresh := apart.resolve_right (not_not_intro rfl)
          rw [Dbs.entered, Dbs.get_put, if_neg, Dbs.get_directories_setattr,
            met.2.enclosed d name (.inl differs)]
          rintro ⟨-, same, -⟩
          exact differs (same.symm.trans isFresh)
        alive := alive_entered met.2.alive _ _ _ _ }

/-- A new symbolic link has a target, which is empty. -/
theorem makes_symlink (births : w.req.Births) : w.Makes Symlink.create := by
  apply keeps_bind (keeps_create births)
  intro base
  apply keeps_of_fact (fun now met => met.2.1)
  intro isNode
  apply keeps_of_fact (fun now met => met.2.2.id)
  intro isFresh
  refine keeps_bind (keeps_own (by decide) rfl sIflnk ?_ ?_) ?_
  · exact fun now met => ⟨isFresh, met.2.alive⟩
  · exact fun now met => ⟨met.1, met.2.setattr base.id .mode sIflnk⟩
  · intro _
    apply keeps_bind (keeps_setattrv (q := w.Begun ⟨base.id, .symlink⟩) ?_ ?_)
    · exact fun _ => keeps_pure fun now met => met.mono (by decide) (by decide) id
    · intro now met
      rw [isFresh]
      exact .own (by decide) (by exact nofun) met.2.alive
    · intro now met
      have isOther : base.kind ≠ .directory := by
        rw [met.1]
        exact nofun
      have begun := met.2.put base.id Attr.symlink.name []
      exact ⟨begun.id, fun d name _ => begun.enclosed d name (.inr isOther), begun.alive⟩

/-! ## Entering a new node -/

/-- A node that could not be entered is removed. -/
theorem keeps_abandon {n : NodeRef} (isFresh : n.id = w.fresh) :
    w.Keeps (w.Unlinked 1 (w.Begun n) n) (Node.remove n) fun _ now => w.Within 3 now := by
  rintro world ⟨within, before, begun, result⟩
  change Outcome.Satisfies _ _ _ (exec (Node.remove n) world)
  obtain ⟨after, removes, afterEq⟩ := Node.exec_remove n world
  rw [removes]
  have abandoned : w.Permits world.dbs (.discard n) := by
    refine .abandon isFresh ?_
    intro d name apart
    rcases result with same | removed
    · rw [same]
      exact begun.enclosed d name apart
    · rw [removed]
      exact begun.removed d name apart
  change w.Within 3 after.dbs
  rw [afterEq]
  exact (within.change abandoned rfl).limit

/-- A new node is entered where the caller may write, or removed again. -/
theorem keeps_path_create {p : Path} {createT : FsProg NodeRef} {next : NodeRef → FsProg α}
    (makes : w.Makes createT) (asks : w.req.asks = wOk ||| xOk)
    (directory : w.start.getnode p.parent.id = .ok ⟨p.parent.id, .directory⟩)
    (target : w.target p.parent.id) (listed : p.leaf ∈ w.req.adds)
    (continues : ∀ n, n.id = w.fresh → w.Enters p.parent.id p.leaf n.id →
      w.Keeps (w.At 2 (w.Born n)) (next n) post) :
    w.Keeps (w.At 0 w.Unchanged) (p.create w.sctx createT >>= next) post := by
  refine keeps_bind (q := fun n now => w.At 2 (w.Born n) now ∧
    w.Enters p.parent.id p.leaf n.id) ?_ ?_
  · apply keeps_access
    intro granted
    apply keeps_bind makes
    intro n
    apply keeps_of_fact (fun now met => met.2.id)
    intro isFresh
    have enters : w.Enters p.parent.id p.leaf n.id := by
      refine ⟨directory, target, ?_, listed, .inl isFresh⟩
      rw [asks]
      exact granted
    apply keeps_bind (keeps_catching (fun _ => w.Unlinked 1 (w.Begun n) n)
      (keeps_link (by decide : 1 + 1 ≤ 3) (.named enters) ?_) ?_)
    · exact fun _ => keeps_pure fun now met => ⟨met, enters⟩
    · exact fun now nlink begun _ _ => ⟨begun.id, alive_entered begun.alive _ _ _ _⟩
    · intro e
      exact keeps_bind (keeps_abandon isFresh) fun _ => keeps_throw fun now => id
  · intro n
    apply keeps_of_fact (fun now met => (⟨met.1.2.id, met.2⟩ : n.id = w.fresh ∧ _))
    rintro ⟨isFresh, enters⟩
    exact (continues n isFresh enters).weaken (fun now met => met.1) fun _ _ => id

/-! ## The requests -/

theorem keeps_owned {T : Type} [HostInt T] {n : NodeRef} {attr : Attr} (listed : attr ∈ birthAttrs)
    (sized : attr.width = some (HostInt.size T)) (value : T) :
    w.Keeps (w.At added (w.Born n)) (Node.setattr n.id attr value) fun _ => w.At added (w.Born n) :=
  keeps_own listed sized value (fun _ => id) fun _ born => born.setattr n.id attr value

theorem keeps_touched (parent n : NodeRef) :
    w.Keeps (w.At added (w.Born n)) (touchParent parent) fun _ => w.At added (w.Born n) :=
  keeps_touchParent parent fun _ attr time _ born => born.setattr parent.id attr time

section Requests

variable {fs : FS} {ctx : Context} {world : World}
variable (sound : fs.pcache.Sound) (found : world.dbs = w.start) (caller : ctx.sctx = some w.sctx)

include sound found caller

/-- `mknod` stays within its warrant. -/
theorem within_mknod {path : Bytes} {mode : UInt32} {dev : UInt64}
    (isReq : w.req = .mknod path mode dev)
    (leads : ∀ d, (exec (fs.pcache.getnode w.sctx (splitPath path).1) world).1 =
      .ok ⟨d, .directory⟩ →
      w.target d) :
    w.Within 3 (exec (fs.mknod ctx path mode dev) world).2.dbs := by
  apply within_resolving sound found caller leads
  intro p directory leafEq target
  have births : w.req.Births := by
    rw [isReq]
    exact trivial
  have listed : p.leaf ∈ w.req.adds := by
    rw [isReq, leafEq]
    exact List.mem_singleton.mpr rfl
  apply keeps_path_create (makes_node births) (by rw [isReq]; rfl) directory target listed
  intro n isFresh enters
  apply keeps_bind (keeps_owned (by decide) rfl ctx.uid)
  intro _
  apply keeps_bind (keeps_owned (by decide) rfl ctx.gid)
  intro _
  apply keeps_bind (keeps_owned (by decide) rfl mode)
  intro _
  apply keeps_bind
    (keeps_ite (fun _ => keeps_owned (by decide) rfl dev) fun _ => keeps_pure fun _ => id)
  intro _
  exact keeps_bind (keeps_touched p.parent n) fun _ => keeps_pure fun now met => met.1.limit

/-- `mkdir` stays within its warrant. -/
theorem within_mkdir {path : Bytes} {mode : UInt32} (isReq : w.req = .mkdir path mode)
    (leads : ∀ d, (exec (fs.pcache.getnode w.sctx (splitPath path).1) world).1 =
      .ok ⟨d, .directory⟩ →
      w.target d) :
    w.Within 3 (exec (fs.mkdir ctx path mode) world).2.dbs := by
  apply within_resolving sound found caller leads
  intro p directory leafEq target
  have births : w.req.Births := by
    rw [isReq]
    exact trivial
  have listed : p.leaf ∈ w.req.adds := by
    rw [isReq, leafEq]
    exact List.mem_singleton.mpr rfl
  apply keeps_path_create (makes_directory births) (by rw [isReq]; rfl) directory target listed
  intro n isFresh enters
  refine keeps_bind (keeps_addchild (q := w.Born n) (by decide) (.parent enters) ?_) ?_
  · exact fun now nlink born _ _ => ⟨isFresh, alive_entered born.alive _ _ _ _⟩
  · intro _
    apply keeps_bind (keeps_owned (by decide) rfl ctx.uid)
    intro _
    apply keeps_bind (keeps_owned (by decide) rfl ctx.gid)
    intro _
    apply keeps_bind (keeps_owned (by decide) rfl (sIfdir ||| mode))
    intro _
    exact keeps_bind (keeps_touched p.parent n) fun _ => keeps_pure fun now met => met.1.limit

/-- `symlink` stays within its warrant. -/
theorem within_symlink {oldpath newpath : Bytes} (isReq : w.req = .symlink oldpath newpath)
    (leads : ∀ d, (exec (fs.pcache.getnode w.sctx (splitPath newpath).1) world).1 =
      .ok ⟨d, .directory⟩ →
      w.target d) :
    w.Within 3 (exec (fs.symlink ctx oldpath newpath) world).2.dbs := by
  apply within_resolving sound found caller leads
  intro p directory leafEq target
  have births : w.req.Births := by
    rw [isReq]
    exact trivial
  have listed : p.leaf ∈ w.req.adds := by
    rw [isReq, leafEq]
    exact List.mem_singleton.mpr rfl
  apply keeps_path_create (makes_symlink births) (by rw [isReq]; rfl) directory target listed
  intro sl isFresh enters
  apply keeps_bind (keeps_owned (by decide) rfl ctx.uid)
  intro _
  apply keeps_bind (keeps_owned (by decide) rfl ctx.gid)
  intro _
  refine keeps_bind (keeps_setattrv (q := w.Born sl) ?_ ?_) ?_
  · intro now born
    rw [isFresh]
    exact .own (by decide) (by exact nofun) born.alive
  · exact fun now born => ⟨isFresh, alive_put born.alive _ _ _⟩
  · intro _
    exact keeps_bind (keeps_touched p.parent sl) fun _ => keeps_pure fun now met => met.1.limit

end Requests

end Warrant

end OfflineFs
