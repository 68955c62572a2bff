import OfflineFs.Changes.Births
import OfflineFs.Changes.Dressing

/-!
# Nodes that lines make

What an import makes for a line that names no existing node: a node of a class, entered
at the last component of the path, and for a directory the entry for its parent.
-/

namespace OfflineFs

open OfflineFs.Effect OfflineFs.Effect.Program

/-! ## Creating at a path -/

/-- The ways a path can be resolved. -/
theorem Path.exec_resolve_cases {pc : PathCache} (sound : pc.Sound) (sctx : SContext) (path : Bytes)
    (world : World) :
    (∃ cache, ∃ p : Path, exec (Path.resolve pc sctx path) world = (.ok p, world.withCache cache) ∧
      world.dbs.getnode p.parent.id = .ok ⟨p.parent.id, .directory⟩ ∧ p.leaf = leafOf path) ∨
    (∃ e cache, exec (Path.resolve pc sctx path) world = (.error e, world.withCache cache)) ∨
    ∃ stop cache,
      exec (Path.resolve pc sctx path) world = (.fault stop, world.withCache cache) := by
  obtain ⟨outcome, cache, result, present⟩ := sound.getnode sctx (splitPath path).1 world
  cases outcome with
  | error e =>
      right
      left
      exact ⟨e, cache, by simp only [resolve, exec_bind, result, Outcome.andThen_error]⟩
  | fault stop =>
      right
      right
      exact ⟨stop, cache, by simp only [resolve, exec_bind, result, Outcome.andThen_fault]⟩
  | ok n =>
      by_cases isDirectory : n.kind = .directory
      · left
        refine ⟨cache, ⟨n, (splitPath path).2⟩, ?_, ?_, rfl⟩
        · simp only [resolve, exec_bind, result, Outcome.andThen_ok, Node.exec_cast, isDirectory,
            if_true, exec_pure]
        · have isNode : n = ⟨n.id, .directory⟩ := by rw [← isDirectory]
          exact (present n rfl).trans (congrArg Except.ok isNode)
      · right
        left
        refine ⟨.badCast .directory, cache, ?_⟩
        simp only [resolve, exec_bind, result, Outcome.andThen_ok, Node.exec_cast, isDirectory,
          if_false, Outcome.andThen_error]

/-- The ways a node that was made can be entered. -/
theorem Path.exec_create_cases {p : Path} {sctx : SContext} {createT : FsProg NodeRef}
    {world made : World} {n : NodeRef} {nlink : UInt32}
    (makes : exec createT world = (.ok n, made))
    (counted : made.dbs.attr UInt32 n.id .nlink = .ok nlink) :
    (∃ e, exec (p.create sctx createT) world = (.error e, world)) ∨
    (∃ after, exec (p.create sctx createT) world = (.error .exists, after) ∧
      after.dbs = made.dbs.removed n) ∨
    made.dbs.get .directories p.parent.id p.leaf = none ∧
      exec (p.create sctx createT) world =
        (.ok n, made.withDbs (made.dbs.entered p.parent.id p.leaf n.id nlink)) := by
  cases granted : world.dbs.access p.parent.id sctx (wOk ||| xOk) with
  | error e => exact .inl ⟨e, exec_create_refused granted⟩
  | ok =>
      right
      cases taken : made.dbs.get .directories p.parent.id p.leaf with
      | some value => exact .inl (exec_create_taken granted makes counted taken)
      | none => exact .inr ⟨rfl, exec_create granted makes counted taken⟩

/-! ## The classes -/

/-- The class of the nodes that are made for a type. -/
def classOf (nodetype : UInt32) : NodeKind :=
  if nodetype = sIfreg then .file
  else if nodetype = sIfdir then .directory
  else if nodetype = sIflnk then .symlink
  else .node

namespace Dbs

variable {dbs : Dbs} {id atime mtime ctime : UInt64} {kind : NodeKind}

/-- A new node of a class, before it is entered. -/
def made (dbs : Dbs) (id atime mtime ctime : UInt64) : NodeKind → Dbs
  | .node => dbs.created id atime mtime ctime
  | .file => dbs.typed id atime mtime ctime sIfreg
  | .directory => (dbs.typed id atime mtime ctime sIfdir).entered id (str ".") id 0
  | .symlink => (dbs.typed id atime mtime ctime sIflnk).put .nodes id Attr.symlink.name []

/-- The number of entries that a new node has for itself. -/
def ownLinks : NodeKind → UInt32
  | .directory => 1
  | _ => 0

theorem attr_nlink_made : (dbs.made id atime mtime ctime kind).attr UInt32 id .nlink =
    .ok (ownLinks kind) := by
  cases kind with
  | node => exact attr_nlink_created _ _ _ _ _
  | file => exact attr_nlink_typed
  | directory => exact attr_entered_self _ _ _ _
  | symlink =>
      have same : (dbs.made id atime mtime ctime .symlink).attr UInt32 id .nlink = _ :=
        attr_congr (get_put_of_ne (.inr (by decide)))
      exact same.trans attr_nlink_typed

theorem has_made : (dbs.made id atime mtime ctime kind).Has neutral id := by
  cases kind with
  | node => exact has_created atime mtime ctime
  | file => exact has_typed.mono (by decide)
  | directory => exact (has_typed.mono (by decide)).entered
  | symlink => exact (has_typed.mono (by decide)).put_symlink (by decide)

/-- Removing a node hides what was written to it before. -/
theorem removed_put {table : Table} (erased : table = .nodes ∨ kind = .directory)
    (name value : Bytes) :
    (dbs.put table id name value).removed ⟨id, kind⟩ = dbs.removed ⟨id, kind⟩ := by
  apply ext_get
  · unfold removed
    cases kind <;> simp
  · intro read other attr
    rw [get_removed, get_removed, get_put]
    by_cases hidden : other = id ∧ (read = .nodes ∨ kind = .directory)
    · rw [if_pos hidden, if_pos hidden]
    · rw [if_neg hidden, if_neg hidden, if_neg]
      rintro ⟨rfl, rfl, -⟩
      exact hidden ⟨rfl, erased⟩

theorem removed_typed (mode : UInt32) :
    (dbs.typed id atime mtime ctime mode).removed ⟨id, kind⟩ = dbs.removed ⟨id, kind⟩ := by
  simp only [typed, created, setattr, removed_put (.inl rfl)]

theorem removed_made :
    (dbs.made id atime mtime ctime kind).removed ⟨id, kind⟩ = dbs.removed ⟨id, kind⟩ := by
  cases kind with
  | node => simp only [made, created, setattr, removed_put (.inl rfl)]
  | file => exact removed_typed sIfreg
  | directory =>
      rw [made, entered, removed_put (.inr rfl), setattr, removed_put (.inl rfl), removed_typed]
  | symlink => rw [made, removed_put (.inl rfl), removed_typed]

end Dbs

/-- Code that makes a node of a class, unless it is a directory whose register was left. -/
structure MakesClass (kind : NodeKind) (createT : FsProg NodeRef) : Prop where
  makes : ∀ world : World, (kind = .directory →
      world.dbs.get .directories world.dbs.nodes.nextId (str ".") = none) →
    ∃ after atime mtime ctime, exec createT world = (.ok ⟨world.dbs.nodes.nextId, kind⟩, after) ∧
      after.dbs = world.dbs.made world.dbs.nodes.nextId atime mtime ctime kind
  fails : ∀ (world : World) value, kind = .directory →
    world.dbs.get .directories world.dbs.nodes.nextId (str ".") = some value →
    ∃ after, exec createT world = (.error .exists, after) ∧
      after.dbs = world.dbs.removed ⟨world.dbs.nodes.nextId, kind⟩

theorem makesClass_node : MakesClass .node Node.create :=
  ⟨fun world _ => Node.exec_create world, nofun⟩

theorem makesClass_file : MakesClass .file File.create :=
  ⟨fun world _ => File.exec_create world, nofun⟩

theorem makesClass_symlink : MakesClass .symlink Symlink.create :=
  ⟨fun world _ => Symlink.exec_create world, nofun⟩

theorem makesClass_directory : MakesClass .directory Directory.create := by
  constructor
  · exact fun world absent => Directory.exec_create world (absent rfl)
  · intro world value _ taken
    obtain ⟨after, atime, mtime, ctime, fails, afterEq⟩ := Directory.exec_create_taken taken
    exact ⟨after, fails, by rw [afterEq, Dbs.removed_typed]⟩

/-! ## The node of a line -/

/-- A new node of a class, entered at a path. -/
def Dbs.born (dbs : Dbs) (p : Path) (atime mtime ctime : UInt64) (above : UInt32)
    (kind : NodeKind) : Dbs :=
  let id := dbs.nodes.nextId
  let named :=
    (dbs.made id atime mtime ctime kind).entered p.parent.id p.leaf id (Dbs.ownLinks kind)
  match kind with
  | .directory => named.entered id (str "..") p.parent.id above
  | _ => named

/-- What a line that names no node makes. -/
structure Dbs.Bears (before : Dbs) (p : Path) (path : Bytes) (n : NodeRef) (after : Dbs) :
    Prop where
  id : n.id = before.nodes.nextId
  clean : n.kind = .directory → ∀ name ∈ [str ".", str ".."],
    before.get .directories before.nodes.nextId name = none
  form : ∃ atime mtime ctime above,
    before.getnode p.parent.id = .ok ⟨p.parent.id, .directory⟩ ∧ p.leaf = leafOf path ∧
      (before.made before.nodes.nextId atime mtime ctime n.kind).get .directories p.parent.id
        p.leaf = none ∧
      (n.kind = .directory →
        ((before.made before.nodes.nextId atime mtime ctime n.kind).entered p.parent.id p.leaf
          before.nodes.nextId (Dbs.ownLinks n.kind)).attr UInt32 p.parent.id .nlink = .ok above) ∧
      Dbs.Dressed n.id placing (before.born p atime mtime ctime above n.kind) after

theorem Dbs.Bears.dressed {before now after : Dbs} {p : Path} {path : Bytes} {n : NodeRef}
    (bears : before.Bears p path n now) (dressed : Dbs.Dressed n.id placing now after) :
    before.Bears p path n after := by
  obtain ⟨isFresh, clean, atime, mtime, ctime, above, directory, leafEq, free, counted,
    placed⟩ := bears
  exact ⟨isFresh, clean, atime, mtime, ctime, above, directory, leafEq, free, counted,
    placed.trans dressed⟩

namespace Offimport

variable {pc : PathCache} {s : Settings} {nodetype : UInt32} {path : Bytes} {world after : World}

/-- Adding a file to a medium stores no more than what ties it to a chunk. -/
theorem dresses_addToMedium {n : NodeRef} (medium : Option Medium) :
    Calls (Dresses n.id placing) (addToMedium n path medium) := by
  cases medium with
  | none => trivial
  | some medium =>
      have placed : ∀ attr ∈ placing, ∀ value, attr.Fits value →
          Calls (Dresses n.id placing) (Node.setattrv n.id attr.name value) :=
        fun attr listed value fits => calls_perform ⟨rfl, rfl, .inl ⟨attr, listed, rfl, fits⟩⟩
      apply calls_bind (calls_pure ())
      intro _
      apply calls_bind (placed .source (by decide) _ nofun)
      intro _
      apply calls_bind (calls_perform trivial)
      intro order
      apply calls_bind (placed .mediumid (by decide) _
        (Attr.fits_hostToDb rfl (order.inMemory medium.id)))
      exact fun _ => placed .phid (by decide) _ nofun

/-- What a line that is skipped leaves. -/
def Skipped (before after : Dbs) : Prop :=
  after = before ∨ ∃ kind, after = before.removed ⟨before.nodes.nextId, kind⟩

variable {before : Dbs}

/-- Resolving a path changes nothing and finds its parent. -/
theorem triple_resolve (sound : pc.Sound) (sctx : SContext) (path : Bytes) :
    Triple fsHandler (fun world => world.dbs = before) (Path.resolve pc sctx path)
      (fun p world => world.dbs = before ∧
        before.getnode p.parent.id = .ok ⟨p.parent.id, .directory⟩ ∧ p.leaf = leafOf path)
      (fun _ world => world.dbs = before) fun _ => True := by
  rintro world rfl
  rcases Path.exec_resolve_cases sound sctx path world with
    ⟨cache, p, result, directory, leafEq⟩ | ⟨e, cache, result⟩ | ⟨stop, cache, result⟩
  · change Outcome.Satisfies _ _ _ (exec (Path.resolve pc sctx path) world)
    rw [result]
    exact ⟨rfl, directory, leafEq⟩
  · change Outcome.Satisfies _ _ _ (exec (Path.resolve pc sctx path) world)
    rw [result]
    exact rfl
  · change Outcome.Satisfies _ _ _ (exec (Path.resolve pc sctx path) world)
    rw [result]
    exact trivial

/-- A new node was entered at its name, which was free. -/
def Entered (before : Dbs) (p : Path) (kind : NodeKind) (after : Dbs) : Prop :=
  (kind = .directory → before.get .directories before.nodes.nextId (str ".") = none) ∧
  ∃ atime mtime ctime,
    (before.made before.nodes.nextId atime mtime ctime kind).get .directories p.parent.id p.leaf =
      none ∧
    after = (before.made before.nodes.nextId atime mtime ctime kind).entered p.parent.id p.leaf
      before.nodes.nextId (Dbs.ownLinks kind)

/-- A new node is entered at the path, or the name was taken and nothing is left behind. -/
theorem triple_create {kind : NodeKind} {createT : FsProg NodeRef} (makes : MakesClass kind createT)
    (p : Path) (sctx : SContext) :
    Triple fsHandler (fun world => world.dbs = before) (p.create sctx createT)
      (fun n world => n = ⟨before.nodes.nextId, kind⟩ ∧ Entered before p kind world.dbs)
      (fun e world => e = .exists → Skipped before world.dbs) fun _ => True := by
  rintro world rfl
  change Outcome.Satisfies _ _ _ (exec (p.create sctx createT) world)
  by_cases leftover : kind = .directory ∧
      world.dbs.get .directories world.dbs.nodes.nextId (str ".") ≠ none
  · obtain ⟨value, stored⟩ := Option.ne_none_iff_exists'.mp leftover.2
    obtain ⟨made, fails, madeEq⟩ := makes.fails world value leftover.1 stored
    cases granted : world.dbs.access p.parent.id sctx (wOk ||| xOk) with
    | error e =>
        rw [Path.exec_create_refused granted]
        exact fun _ => .inl rfl
    | ok =>
        rw [Path.exec_create_failed granted fails]
        exact fun _ => .inr ⟨kind, madeEq⟩
  · have absent : kind = .directory →
        world.dbs.get .directories world.dbs.nodes.nextId (str ".") = none := by
      intro isDirectory
      by_contra taken
      exact leftover ⟨isDirectory, taken⟩
    obtain ⟨made, atime, mtime, ctime, creates, madeEq⟩ := makes.makes world absent
    have counted : made.dbs.attr UInt32 world.dbs.nodes.nextId .nlink =
        .ok (Dbs.ownLinks kind) := by
      rw [madeEq, Dbs.attr_nlink_made]
    rcases Path.exec_create_cases creates counted with ⟨e, refused⟩ | ⟨after, taken, afterEq⟩ |
      ⟨free, enters⟩
    · rw [refused]
      exact fun _ => .inl rfl
    · rw [taken]
      exact fun _ => .inr ⟨kind, by rw [afterEq, madeEq, Dbs.removed_made]⟩
    · rw [enters]
      rw [madeEq] at free
      exact ⟨rfl, absent, atime, mtime, ctime, free, by rw [World.withDbs_dbs, madeEq]⟩

/-- The entry of a new directory for its parent. -/
theorem triple_parent {p : Path} (idsLeft : before.nodes.IdsLeft)
    (directory : before.getnode p.parent.id = .ok ⟨p.parent.id, .directory⟩)
    (leafEq : p.leaf = leafOf path)
    (clean : before.get .directories before.nodes.nextId (str "..") = none) :
    Triple fsHandler (fun world => Entered before p .directory world.dbs)
      (Directory.addchild ⟨before.nodes.nextId, .directory⟩ (str "..") p.parent)
      (fun _ world => before.Bears p path ⟨before.nodes.nextId, .directory⟩ world.dbs)
      (fun e world => e = .exists → Skipped before world.dbs) fun _ => True := by
  rintro world ⟨unused, atime, mtime, ctime, free, enteredEq⟩
  change Outcome.Satisfies _ _ _
    (exec (Directory.addchild ⟨before.nodes.nextId, .directory⟩ (str "..") p.parent) world)
  have apart : p.parent.id ≠ before.nodes.nextId := by
    intro isFresh
    obtain ⟨mode, isMode, -⟩ := Dbs.getnode_eq_ok_iff.mp directory
    have stored := Dbs.getattr_eq_ok_iff.mp isMode
    rw [isFresh] at stored
    exact absurd (stored.symm.trans (Db.getElem?_nextId idsLeft Attr.mode.name)) nofun
  have absent : world.dbs.get .directories before.nodes.nextId (str "..") = none := by
    rw [enteredEq, Dbs.get_directories_entered, if_neg fun both => apart both.1.symm, Dbs.made,
      Dbs.get_directories_entered, if_neg fun both => absurd both.2 (by decide),
      Dbs.get_directories_typed, clean]
  cases counted : world.dbs.attr UInt32 p.parent.id .nlink with
  | error e =>
      rw [Directory.exec_addchild_error counted]
      intro isExists
      rw [isExists] at counted
      exact (Dbs.getattr_error counted).elim nofun nofun
  | ok above =>
      rw [Directory.exec_addchild counted absent]
      refine ⟨rfl, fun _ => ?_, atime, mtime, ctime, above, directory, leafEq, free, ?_, ?_⟩
      · rintro name listed
        rcases List.mem_pair.mp listed with rfl | rfl
        · exact unused rfl
        · exact clean
      · intro _
        rw [enteredEq] at counted
        exact counted
      · rw [World.withDbs_dbs, enteredEq]
        exact .refl _ _ _

theorem exec_addToMedium (n : NodeRef) (path : Bytes) (medium : Option Medium) (world : World) :
    ∃ after, exec (addToMedium n path medium) world = (.ok (), after) := by
  cases medium with
  | none => exact ⟨world, rfl⟩
  | some medium => exact ⟨_, rfl⟩

/-- A node that is no directory is entered at its name alone. -/
theorem bears_entered {p : Path} {kind : NodeKind} {now : Dbs}
    (directory : before.getnode p.parent.id = .ok ⟨p.parent.id, .directory⟩)
    (leafEq : p.leaf = leafOf path) (other : kind ≠ .directory)
    (entered : Entered before p kind now) :
    before.Bears p path ⟨before.nodes.nextId, kind⟩ now := by
  obtain ⟨-, atime, mtime, ctime, free, enteredEq⟩ := entered
  refine ⟨rfl, fun isDirectory => absurd isDirectory other, atime, mtime, ctime, 0, directory,
    leafEq, free, fun isDirectory => absurd isDirectory other, ?_⟩
  have isBorn : now = before.born p atime mtime ctime 0 kind := by
    rw [enteredEq]
    cases kind with
    | directory => exact absurd rfl other
    | _ => rfl
  rw [isBorn]
  exact .refl _ _ _

theorem triple_entered {p : Path} {kind : NodeKind} {createT : FsProg NodeRef}
    (makes : MakesClass kind createT) (other : kind ≠ .directory)
    (directory : before.getnode p.parent.id = .ok ⟨p.parent.id, .directory⟩)
    (leafEq : p.leaf = leafOf path) :
    Triple fsHandler (fun world => world.dbs = before) (p.create superuser createT)
      (fun n world => n.kind = kind ∧ before.Bears p path n world.dbs)
      (fun e world => e = .exists → Skipped before world.dbs) fun _ => True := by
  refine (triple_create makes p superuser).weaken (fun _ => id) ?_ (fun _ _ => id) fun _ => id
  rintro n world ⟨rfl, entered⟩
  exact ⟨rfl, bears_entered directory leafEq other entered⟩

/-- The `create` of the class that a line of a type is made as. -/
def creatorOf (nodetype : UInt32) : FsProg NodeRef :=
  if nodetype = sIfreg then File.create
  else if nodetype = sIfdir then Directory.create
  else if nodetype = sIflnk then Symlink.create
  else Node.create

/-- A node of a type is made at a name, before it is tied to its parent or to a medium. -/
def Makes (p : Path) (nodetype : UInt32) (world : World) : Prop :=
  ∃ n, (exec (p.create superuser (creatorOf nodetype)) world).1 = .ok n

/-- What creating a node at a resolved path does. -/
theorem triple_createAt {p : Path} {start : World}
    (directory : start.dbs.getnode p.parent.id = .ok ⟨p.parent.id, .directory⟩)
    (leafEq : p.leaf = leafOf (s.pathPrefix ++ path)) (idsLeft : start.dbs.nodes.IdsLeft)
    (clean : nodetype = sIfdir → Makes p nodetype start →
      start.dbs.get .directories start.dbs.nodes.nextId (str "..") = none) :
    Triple fsHandler (· = start) (createAt p s nodetype path)
      (fun n world => Makes p nodetype start ∧ n.kind = classOf nodetype ∧
        start.dbs.Bears p (s.pathPrefix ++ path) n world.dbs)
      (fun e world => e = .exists → Skipped start.dbs world.dbs) fun _ => True := by
  unfold createAt classOf
  split
  · rename_i isFile
    refine triple_bind ((triple_entered makesClass_file (by decide) directory leafEq).result rfl) ?_
    rintro n world ⟨⟨isClass, bears⟩, made⟩
    change Outcome.Satisfies _ _ _
      (exec (addToMedium n path s.medium >>= fun _ => Pure.pure n) world)
    obtain ⟨after, adds⟩ := exec_addToMedium n path s.medium world
    rw [exec_bind, adds]
    exact ⟨⟨n, by rw [creatorOf, if_pos isFile]; exact congrArg Prod.fst made⟩, isClass,
      bears.dressed (dressed_of_exec (dresses_addToMedium s.medium) adds)⟩
  · rename_i notFile
    split
    · rename_i isDirectory
      refine triple_bind ((triple_create makesClass_directory p superuser).result rfl) fun d => ?_
      apply triple_of_fact (fun world met =>
        (⟨met.1.1, congrArg Prod.fst met.2⟩ : d = ⟨start.dbs.nodes.nextId, .directory⟩ ∧
          (exec (p.create superuser Directory.create) start).1 = .ok d))
      rintro ⟨rfl, made⟩
      have makes : Makes p nodetype start :=
        ⟨_, by rw [creatorOf, if_neg notFile, if_pos isDirectory]; exact made⟩
      apply triple_bind ((triple_parent idsLeft directory leafEq (clean isDirectory makes)).weaken
        (fun _ met => met.1.2) (fun _ _ => id) (fun _ _ => id) fun _ => id)
      exact fun _ => triple_pure fun world bears => ⟨makes, rfl, bears⟩
    · rename_i notDirectory
      split
      · rename_i isSymlink
        refine ((triple_entered makesClass_symlink (by decide) directory leafEq).result rfl).weaken
          (fun _ => id) ?_ (fun _ _ => id) fun _ => id
        rintro n world ⟨bears, made⟩
        exact ⟨⟨n, by
          rw [creatorOf, if_neg notFile, if_neg notDirectory, if_pos isSymlink]
          exact congrArg Prod.fst made⟩, bears⟩
      · rename_i notSymlink
        refine ((triple_entered makesClass_node (by decide) directory leafEq).result rfl).weaken
          (fun _ => id) ?_ (fun _ _ => id) fun _ => id
        rintro n world ⟨bears, made⟩
        exact ⟨⟨n, by
          rw [creatorOf, if_neg notFile, if_neg notDirectory, if_neg notSymlink]
          exact congrArg Prod.fst made⟩, bears⟩

/-- What creating the node of a line leaves. -/
theorem triple_createNode (sound : pc.Sound) {start : World} (idsLeft : start.dbs.nodes.IdsLeft)
    (clean : ∀ p last, exec (Path.resolve pc superuser (s.pathPrefix ++ path)) start =
      (.ok p, last) →
      nodetype = sIfdir → Makes p nodetype last →
      start.dbs.get .directories start.dbs.nodes.nextId (str "..") = none) :
    Triple fsHandler (· = start) (createNode pc s nodetype path)
      (fun n world => ∃ p last,
        exec (Path.resolve pc superuser (s.pathPrefix ++ path)) start = (.ok p, last) ∧
        Makes p nodetype last ∧ n.kind = classOf nodetype ∧
        start.dbs.Bears p (s.pathPrefix ++ path) n world.dbs)
      (fun e world => e = .exists → Skipped start.dbs world.dbs) fun _ => True := by
  have resolves : Triple fsHandler (fun world => world.dbs = start.dbs)
      (Path.resolve pc superuser (s.pathPrefix ++ path))
      (fun p world => world.dbs = start.dbs ∧
        start.dbs.getnode p.parent.id = .ok ⟨p.parent.id, .directory⟩ ∧
        p.leaf = leafOf (s.pathPrefix ++ path))
      (fun e world => e = .exists → Skipped start.dbs world.dbs) fun _ => True :=
    (triple_resolve sound superuser _).weaken (fun _ => id) (fun _ _ => id)
      (fun _ _ same _ => .inl same) fun _ => id
  refine triple_bind (resolves.result (rfl : start.dbs = start.dbs)) fun p => ?_
  rintro last ⟨⟨same, directory, leafEq⟩, resolved⟩
  rw [← same] at idsLeft clean directory ⊢
  apply Outcome.Satisfies.weaken
    (triple_createAt directory leafEq idsLeft (clean p last resolved) last rfl)
  · exact fun n world created => ⟨p, last, resolved, created⟩
  · exact fun _ _ => id
  · exact fun _ => id

/-! ## Lines -/

section Lines

variable {m : FMap} {a : Accounts} {n : NodeRef}

/-- The types that a line can name. -/
def namedTypes : List (Bytes × UInt32) :=
  [([], 0), (str "f", sIfreg), (str "d", sIfdir), (str "l", sIflnk), (str "c", sIfchr),
    (str "b", sIfblk), (str "p", sIfifo), (str "s", sIfsock)]

theorem resolveType_eq_ok {type : Bytes}
    (resolves : exec (resolveType type) world = (.ok nodetype, after)) :
    after = world ∧ (type, nodetype) ∈ namedTypes := by
  unfold resolveType at resolves
  split_ifs at resolves
  all_goals first
    | cases resolves; subst type; exact ⟨rfl, by decide⟩
    | cases resolves

/-- A line finds no node to modify, and its path is then taken apart. -/
def Resolves (pc : PathCache) (s : Settings) (m : FMap) (world : World) (p : Path)
    (last : World) : Prop :=
  ∃ looked, exec (findNode pc s (pathOf m)) world = (.ok none, looked) ∧
    exec (Path.resolve pc superuser (s.pathPrefix ++ pathOf m)) looked = (.ok p, last)

/-- A line without error makes a node. -/
def Creates (pc : PathCache) (s : Settings) (a : Accounts) (m : FMap) (world : World) : Prop :=
  s.allowCreate = true ∧ (exec (importFields pc s a m) world).1 = .ok () ∧
    ∃ nodetype p last, (m.type, nodetype) ∈ namedTypes ∧ Resolves pc s m world p last ∧
      Makes p (typeToCreate nodetype) last

/-- What a line without error did: it was skipped, or dressed a node that was there,
or one that it made. -/
inductive Imports (pc : PathCache) (s : Settings) (a : Accounts) (m : FMap) (world after : World) :
    Prop
  | skipped (creates : s.allowCreate = true) (same : Skipped world.dbs after.dbs)
  | modified {n : NodeRef} {nodetype : UInt32} {middle : World} (modifies : s.allowModify = true)
      (named : (m.type, nodetype) ∈ namedTypes)
      (leads : (exec (pc.getnode superuser (s.pathPrefix ++ pathOf m)) world).1 = .ok n)
      (same : middle.dbs = world.dbs)
      (sets : exec (setAttributes s a n false nodetype m) middle = (.ok (), after))
  | created {n : NodeRef} {nodetype : UInt32} {p : Path} {last middle : World}
      (creates : Creates pc s a m world)
      (resolves : Resolves pc s m world p last)
      (named : (m.type, nodetype) ∈ namedTypes)
      (bears : world.dbs.Bears p (s.pathPrefix ++ pathOf m) n middle.dbs)
      (kind : n.kind = classOf (typeToCreate nodetype))
      (sets : exec (setAttributes s a n true (typeToCreate nodetype) m) middle = (.ok (), after))

/-- Looking a path up changes nothing. -/
theorem findNode_eq_ok (sound : pc.Sound) {found : Option NodeRef}
    (finds : exec (findNode pc s path) world = (.ok found, after)) :
    after.dbs = world.dbs ∧
      match found with
      | some n => s.allowModify = true ∧
          (exec (pc.getnode superuser (s.pathPrefix ++ path)) world).1 = .ok n
      | none => True := by
  unfold findNode at finds
  split at finds
  · rename_i modifies
    obtain ⟨outcome, cache, result, -⟩ := sound.getnode superuser (s.pathPrefix ++ path) world
    simp only [exec_catching, exec_bind, result] at finds
    rw [result]
    cases outcome with
    | ok n =>
        cases finds
        exact ⟨rfl, modifies, rfl⟩
    | error e =>
        cases e with
        | notFound =>
            cases finds
            exact ⟨rfl, trivial⟩
        | _ => cases finds
    | fault stop => cases finds
  · cases finds
    exact ⟨rfl, trivial⟩

/-- What creating the node of a line does. -/
theorem tryCreate_eq_ok (sound : pc.Sound) (idsLeft : world.dbs.nodes.IdsLeft)
    (clean : ∀ p last, exec (Path.resolve pc superuser (s.pathPrefix ++ path)) world =
      (.ok p, last) →
      nodetype = sIfdir → Makes p nodetype last →
      world.dbs.get .directories world.dbs.nodes.nextId (str "..") = none) {made : Option NodeRef}
    (tries : exec (tryCreate pc s nodetype path) world = (.ok made, after)) :
    match made with
    | some n => ∃ p last,
        exec (Path.resolve pc superuser (s.pathPrefix ++ path)) world = (.ok p, last) ∧
        Makes p nodetype last ∧ n.kind = classOf nodetype ∧
        world.dbs.Bears p (s.pathPrefix ++ path) n after.dbs
    | none => Skipped world.dbs after.dbs := by
  have creates : Outcome.Satisfies _ _ _ (exec (createNode pc s nodetype path) world) :=
    triple_createNode sound idsLeft clean world rfl
  simp only [tryCreate, exec_catching, exec_bind] at tries
  rcases result : exec (createNode pc s nodetype path) world with ⟨outcome, middle⟩
  rw [result] at creates tries
  cases outcome with
  | ok n =>
      cases tries
      exact creates
  | error e =>
      cases e with
      | «exists» =>
          cases tries
          exact creates rfl
      | _ => cases tries
  | fault stop => cases tries

/-- What importing the fields of a line does when it succeeds. -/
theorem importFields_eq_ok (sound : pc.Sound) (idsLeft : world.dbs.nodes.IdsLeft)
    (clean : m.type = str "d" → Creates pc s a m world →
      world.dbs.get .directories world.dbs.nodes.nextId (str "..") = none)
    (imports : exec (importFields pc s a m) world = (.ok (), after)) :
    Imports pc s a m world after := by
  have without : (exec (importFields pc s a m) world).1 = .ok () := by rw [imports]
  unfold importFields at imports
  rw [exec_bind, Outcome.andThen_eq_ok_iff] at imports
  obtain ⟨nodetype, before, resolves, imports⟩ := imports
  obtain ⟨rfl, named⟩ := resolveType_eq_ok resolves
  split at imports
  · cases imports
  · rw [exec_bind, Outcome.andThen_eq_ok_iff] at imports
    obtain ⟨found, middle, finds, imports⟩ := imports
    obtain ⟨same, looked⟩ := findNode_eq_ok sound finds
    cases found with
    | some n => exact .modified looked.1 named looked.2 same imports
    | none =>
        unfold importNode at imports
        simp only at imports
        split at imports
        · rename_i creates
          rw [exec_bind, Outcome.andThen_eq_ok_iff] at imports
          obtain ⟨found, last, tries, imports⟩ := imports
          have directory : typeToCreate nodetype = sIfdir → m.type = str "d" := by
            have named : ∀ entry ∈ namedTypes, typeToCreate entry.2 = sIfdir →
                entry.1 = str "d" := by
              decide
            exact named _ ‹_›
          have made (p last resolved) (makes : Makes p (typeToCreate nodetype) last) :
              Creates pc s a m before :=
            ⟨creates, without, nodetype, p, last, named, ⟨middle, finds, resolved⟩, makes⟩
          have tried :=
            tryCreate_eq_ok sound (same ▸ idsLeft) (fun p last resolved isDirectory makes =>
            same ▸ clean (directory isDirectory) (made p last resolved makes)) tries
          rw [same] at tried
          cases found with
          | none =>
              cases imports
              exact .skipped creates tried
          | some n =>
              obtain ⟨p, last, resolved, makes, kind, bears⟩ := tried
              exact .created (made p last resolved makes) ⟨middle, finds, resolved⟩ named bears kind
                imports
        · cases imports

end Lines

end Offimport

end OfflineFs
