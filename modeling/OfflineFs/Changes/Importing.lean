import OfflineFs.Changes.Namespaces

/-!
# Importing into the hierarchy

A line that `offimport` reads adds at most the one name that it gives, for a node of the
type that it names.  Requests and imported lines together keep the hierarchy.
-/

namespace OfflineFs

open OfflineFs.Effect OfflineFs.Effect.Program OfflineFs.Transition

/-! ## Types -/

namespace Offimport

variable {n : NodeRef} {nodetype : UInt32}

/-- A node of a type is of its class. -/
theorem Typed.getnode {dbs : Dbs} {type : UInt32} (typed : Typed dbs n type) {kind : NodeKind}
    (classed : ∀ mode, mode &&& sIfmt = type → kindOfMode mode = kind) :
    dbs.getnode n.id = .ok ⟨n.id, kind⟩ := by
  obtain ⟨mode, isMode, isType⟩ := typed
  exact Dbs.getnode_eq_ok_iff.mpr ⟨mode, isMode, by rw [classed mode isType]⟩

/-- The types that lines name are types, and nodes are made in their classes. -/
theorem classed_of_named {type : Bytes} (named : (type, nodetype) ∈ namedTypes) :
    typeToCreate nodetype &&& sIfmt = typeToCreate nodetype ∧ typeToCreate nodetype ≠ 0 ∧
      ∀ mode, mode &&& sIfmt = typeToCreate nodetype →
        kindOfMode mode = classOf (typeToCreate nodetype) := by
  have each : ∀ entry ∈ namedTypes, typeToCreate entry.2 &&& sIfmt = typeToCreate entry.2 ∧
      typeToCreate entry.2 ≠ 0 ∧ kindOfMode (typeToCreate entry.2) =
        classOf (typeToCreate entry.2) := by
    decide
  obtain ⟨isType, notZero, kind⟩ := each _ named
  refine ⟨isType, notZero, fun mode same => ?_⟩
  rw [← kind]
  exact kindOfMode_congr (same.trans isType.symm)

end Offimport

/-! ## Nodes -/

namespace Dbs

variable {before middle after : Dbs} {n : NodeRef} {path : Bytes} {p : Path} {d : UInt64}
variable {attrs : List Attr}

/-- A node keeps its class when it is dressed, and nothing else changes. -/
theorem Dressed.alike (dressed : Dressed d attrs before after) (unlisted : .nlink ∉ attrs)
    (kept : after.getnode d = before.getnode d) : before.Alike after where
  entries := dressed.get_directories
  getnode id := by
    by_cases same : id = d
    · rw [same, kept]
    · exact getnode_congr (dressed.others id _ same)
  links id := links_congr (dressed.keeps unlisted id)

section Lines

variable (hierarchy : before.Hierarchy) (idsLeft : before.nodes.IdsLeft)

include hierarchy idsLeft

/-- A line that is skipped leaves everything that counts. -/
theorem Hierarchy.alike_skipped (skipped : Offimport.Skipped before after) :
    before.Alike after := by
  rcases skipped with rfl | ⟨kind, rfl⟩
  · exact .refl _
  · have absent := get_nextId idsLeft hierarchy.directoriesOfNodes
    have same : ∀ table id name, (before.removed ⟨before.nodes.nextId, kind⟩).get table id name =
        before.get table id name := by
      intro table id name
      rw [get_removed]
      split
      · rename_i hidden
        rw [hidden.1, absent]
      · rfl
    exact ⟨fun d name => same _ _ _, fun id => getnode_congr (same _ _ _),
      fun id => links_congr (same _ _ _)⟩

/-- What a line that makes a node leaves: a file with one name, or a directory with its
entries. -/
theorem Hierarchy.reshaped {p : Path} (bears : before.Bears p path n middle)
    (bounded : before.Bounded (2 ^ 31 - 4)) (spelled : leafOf path ≠ [] ∧ slash ∉ leafOf path)
    (dressed : Dressed n.id Offimport.dressing middle after)
    (isNode : after.getnode n.id = .ok n) :
    before.Gained p.parent.id (leafOf path) n after ∨
      n.kind = .directory ∧ before.Founded p.parent.id (leafOf path) n.id after := by
  obtain ⟨kind, rfl⟩ : ∃ kind, n = ⟨before.nodes.nextId, kind⟩ := ⟨n.kind, by rw [← bears.id]⟩
  obtain ⟨-, clean, atime, mtime, ctime, above, directory, leafEq, free, counted, placed⟩ := bears
  have whole : Dressed before.nodes.nextId (placing ++ Offimport.dressing)
      (before.born p atime mtime ctime above kind) after :=
    (placed.mono (by decide)).trans (dressed.mono (by decide))
  have apart := hierarchy.ne_nextId idsLeft directory
  have entered : Offimport.Entered before p kind
      ((before.made before.nodes.nextId atime mtime ctime kind).entered p.parent.id p.leaf
        before.nodes.nextId (ownLinks kind)) :=
    ⟨fun isDirectory => clean isDirectory _ (by decide), atime, mtime, ctime, free, rfl⟩
  have spares := spares_of_entered entered
  rw [← leafEq] at spelled ⊢
  by_cases isDirectory : kind = .directory
  · subst isDirectory
    have few : before.links p.parent.id ≤ 2 ^ 31 - 4 := bounded p.parent.id
    have joined := joined_entered (up_of_entered hierarchy idsLeft directory entered) (counted rfl)
      (by rw [links_of_spares spares apart]; omega)
    have founded := Dbs.founded hierarchy idsLeft directory spelled entered joined
    refine .inr ⟨rfl, founded.alike_right (whole.alike (by decide) ?_)⟩
    rw [isNode]
    change _ = (Dbs.entered _ _ _ _ _).getnode _
    rw [joined.getnode, getnode_of_entered entered (by decide)]
  · have isBorn : before.born p atime mtime ctime above kind =
        (before.made before.nodes.nextId atime mtime ctime kind).entered p.parent.id p.leaf
          before.nodes.nextId (ownLinks kind) := by
      cases kind with
      | directory => exact absurd rfl isDirectory
      | _ => rfl
    rw [isBorn] at whole
    have named : before.Named p.parent.id p.leaf after := by
      constructor
      · rw [get_directories_made, if_neg fun both => isDirectory both.1] at free
        exact free
      · intro dir name
        have same : (before.made before.nodes.nextId atime mtime ctime kind).get .directories dir
            name = before.get .directories dir name := by
          rw [get_directories_made, if_neg fun both => isDirectory both.1]
        rw [whole.get_directories, get_directories_entered, same]
      · intro id name outside
        have other : id ≠ before.nodes.nextId := fun same => outside (.inl same)
        rw [whole.others id name other, spares id name other]
      · rw [attr_congr (whole.keeps (by decide) _), attr_entered_self]
        cases kind with
        | directory => exact absurd rfl isDirectory
        | _ => rfl
    exact .inl (named.gained hierarchy idsLeft directory spelled isNode isDirectory)

end Lines

end Dbs

/-! ## Lines -/

/-- What a line adds: a name for a new node of its type, unless the namespace is left.
The name is that of the directory which the parent part of the line's path leads the
importing process to, and then the path's last component. -/
inductive Offimport.Adds (pc : PathCache) (s : Settings) (m : FMap) (world : World) :
    Namespace Bytes NodeRef → Prop
  | left : Adds pc s m world world.dbs.space
  | bound {front : List Bytes} {p : Path} {last : World} {n : NodeRef} {nodetype : UInt32}
      (named : (m.type, nodetype) ∈ namedTypes) (kind : n.kind = classOf (typeToCreate nodetype))
      (resolves : Resolves pc s m world p last)
      (above : world.dbs.space front ⟨p.parent.id, .directory⟩)
      (free : ∀ w, ¬ world.dbs.space (front ++ [leafOf (s.pathPrefix ++ Offimport.pathOf m)]) w)
      (fresh : ∀ names w, w.id = n.id → ¬ world.dbs.space names w) :
      Adds pc s m world
        (world.dbs.space.bound (front ++ [leafOf (s.pathPrefix ++ Offimport.pathOf m)]) n)

theorem Offimport.Adds.step {pc : PathCache} {s : Settings} {m : FMap} {world : World}
    {after : Namespace Bytes NodeRef} (adds : Adds pc s m world after) :
    Namespace.Step (fun n : NodeRef => n.kind = .directory) world.dbs.space after := by
  cases adds with
  | left => exact .keep
  | bound named kind resolves above free fresh =>
      exact .bind above rfl free fun _ names => fresh names _ rfl

/-- What is relied on of a line: it names no reserved attribute, its path has a last
component, and it does not change the type of a node that is there. -/
structure Offimport.Fair (pc : PathCache) (s : Settings) (m : FMap) (world : World) : Prop where
  free : m.Free
  spelled : Spelled (s.pathPrefix ++ Offimport.pathOf m)
  kept : ∀ n nodetype mode,
    (exec (pc.getnode superuser (s.pathPrefix ++ Offimport.pathOf m)) world).1 = .ok n →
    (m.type, nodetype) ∈ namedTypes → world.dbs.attr UInt32 n.id .mode = .ok mode →
    nodetype = 0 ∨ nodetype = mode &&& sIfmt

/-- A fair line keeps the hierarchy and adds at most the name of its path. -/
theorem Offimport.Imports.adds {pc : PathCache} {s : Settings} {a : Accounts} {m : FMap}
    {world after : World} (imports : Imports pc s a m world after) (sound : pc.Sound)
    (hierarchy : world.dbs.Hierarchy) (roomy : world.dbs.Roomy) (fair : Fair pc s m world) :
    after.dbs.Hierarchy ∧ Adds pc s m world after.dbs.space := by
  have unchanged (alike : world.dbs.Alike after.dbs) :
      after.dbs.Hierarchy ∧ Adds pc s m world after.dbs.space := by
    refine ⟨hierarchy.alike alike, ?_⟩
    rw [Dbs.space, alike.leads]
    exact .left
  cases imports with
  | skipped creates same => exact unchanged (hierarchy.alike_skipped roomy.idsLeft same)
  | @modified n nodetype middle modifies named leads same sets =>
      have isNode := sound.present _ _ _ _ leads
      obtain ⟨mode, isMode, isKind⟩ := Dbs.getnode_eq_ok_iff.mp isNode
      have agrees : Agrees middle.dbs n false nodetype (mode &&& sIfmt) := by
        rw [same]
        exact .inr ⟨rfl, ⟨mode, isMode, rfl⟩, fair.kept n nodetype mode leads named isMode⟩
      have isType : mode &&& sIfmt &&& sIfmt = mode &&& sIfmt := by
        rw [UInt32.and_assoc, UInt32.and_self]
      have typed := typed_setAttributes fair.free isType agrees sets
      have dressed := dressed_setAttributes fair.free sets
      rw [same] at dressed
      apply unchanged (dressed.alike (by decide) _)
      rw [isNode, typed.getnode fun other sameType => kindOfMode_congr sameType, ← isKind]
  | @created n nodetype p last middle creates resolves named bears kind sets =>
      obtain ⟨isType, notZero, classed⟩ := classed_of_named named
      have typed := typed_setAttributes fair.free isType (.inl ⟨rfl, rfl, notZero⟩) sets
      have isNode : after.dbs.getnode n.id = .ok n := by
        rw [typed.getnode classed, ← kind]
      have fresh : ∀ names w, w.id = n.id → ¬ world.dbs.space names w := by
        intro names w isNew leads
        have there := hierarchy.getnode_of_leads leads
        rw [isNew, bears.id] at there
        exact hierarchy.not_node_nextId roomy.idsLeft w there
      obtain gained | ⟨isDirectory, founded⟩ := hierarchy.reshaped roomy.idsLeft bears
        roomy.bounded fair.spelled.leaf (dressed_setAttributes fair.free sets) isNode
      · obtain ⟨front, above⟩ := hierarchy.reached gained.directory
        refine ⟨gained.keeps hierarchy, ?_⟩
        rw [Dbs.space, gained.leads hierarchy above]
        exact .bound named kind resolves above (hierarchy.not_leads_of_free above gained.free) fresh
      · obtain ⟨front, above⟩ := hierarchy.reached founded.directory
        have isDir : n = ⟨n.id, .directory⟩ := by rw [← isDirectory]
        refine ⟨founded.keeps hierarchy, ?_⟩
        rw [Dbs.space, founded.leads hierarchy above, ← isDir]
        exact .bound named kind resolves above (hierarchy.not_leads_of_free above founded.free)
          fresh

/-- A hierarchy, with what the fields of a line add, if they add anything. -/
def Offimport.Keeps (pc : PathCache) (s : Settings) (line : Bytes) (world : World) (after : Dbs) :
    Prop :=
  after.Hierarchy ∧ (after.space = world.dbs.space ∨
    ∃ m, s.format.matchText {} (line ++ [10]) = some m ∧ Adds pc s m world after.space)

/-! ## Sites -/

/-- What keeps the hierarchy of a site that calls and lines change in any order. -/
def Site.Prudent (fs : FS) (site : Site) : SiteOp → Prop
  | .call request => site.world.Prudent fs request
  | .start => True
  | .line s _ line => site.world.dbs.Roomy ∧ ∀ m, s.format.matchText {} (line ++ [10]) = some m →
      Offimport.Fair PathCache_hash s m site.importing

section Sites

variable {fs : FS} {valid : PathCacheState → Prop} {site : Site} {s : Offimport.Settings}
variable {a : Offimport.Accounts} {line : Bytes}

/-- A line leaves a hierarchy, in which it has added what it says. -/
theorem Site.adds (hierarchy : site.world.dbs.Hierarchy)
    (prudent : site.Prudent fs (.line s a line)) :
    Offimport.Keeps PathCache_hash s line site.importing (site.imported s a line).dbs := by
  obtain ⟨roomy, fair⟩ := prudent
  apply Site.dbs_imported
  · exact ⟨hierarchy, .inl rfl⟩
  · intro m after matched imports
    have clean := Dbs.get_nextId roomy.idsLeft hierarchy.directoriesOfNodes
    have ran : Offimport.Imports PathCache_hash s a m site.importing after :=
      Offimport.importFields_eq_ok PathCache_hash.sound roomy.idsLeft (fun _ _ => clean _ _) imports
    obtain ⟨keeps, adds⟩ := ran.adds PathCache_hash.sound hierarchy roomy (fair m matched)
    exact ⟨keeps, .inr ⟨m, matched, adds⟩⟩

theorem Offimport.Keeps.step {pc : PathCache} {world : World} {after : Dbs}
    (keeps : Offimport.Keeps pc s line world after) :
    Namespace.Step (fun n : NodeRef => n.kind = .directory) world.dbs.space after.space := by
  rcases keeps.2 with same | ⟨m, -, adds⟩
  · rw [same]
    exact .keep
  · exact adds.step

/-- The names of a site and its hierarchy. -/
structure Site.Grown (valid : PathCacheState → Prop) (site : Site) : Prop where
  orderly : site.world.Orderly valid
  grown : Relation.ReflTransGen (Namespace.Step fun n : NodeRef => n.kind = .directory) rootSpace
    site.world.dbs.space

/-- The start of a run. -/
theorem Site.grown_rebuilt (steady : fs.pcache.Steady valid) {media : Db UInt32}
    {getuid getgid : UInt32} {clock : Nat → UInt64}
    {reply : List SysEvent → SysCall → SysResult} {order : ByteOrder} :
    (Site.rebuilt media getuid getgid clock reply order).Grown valid := by
  have orderly : (World.rebuilt media getuid getgid clock reply order).Orderly valid :=
    World.orderly_rebuilt steady
  have same : (Site.rebuilt media getuid getgid clock reply order).world =
      World.rebuilt media getuid getgid clock reply order := by
    rw [Site.rebuilt]
  constructor
  · rw [same]
    exact orderly
  · rw [same, World.space_rebuilt]

theorem Site.Grown.after (steady : fs.pcache.Steady valid) (grown : site.Grown valid) {op : SiteOp}
    (prudent : site.Prudent fs op) : (site.after fs op).Grown valid := by
  cases op with
  | call request =>
      obtain ⟨orderly, refines⟩ := grown.orderly.after steady prudent
      exact ⟨orderly, grown.grown.tail refines.step⟩
  | start => exact ⟨grown.orderly, grown.grown⟩
  | line s a line =>
      have keeps := Site.adds grown.orderly.hierarchy prudent
      exact ⟨⟨keeps.1, grown.orderly.cached⟩, grown.grown.tail keeps.step⟩

/-- In every state that requests and imported lines in any order reach, each under its
conditions, the directories are a hierarchy whose names have grown from the root by single
changes.  A line adds the last component of its path for a new node of its type, in the
directory that the rest of the path leads to, or nothing. -/
theorem hierarchy_imported (steady : fs.pcache.Steady valid) {media : Db UInt32}
    {getuid getgid : UInt32} {clock : Nat → UInt64} {reply : List SysEvent → SysCall → SysResult}
    {order : ByteOrder}
    (reached : Reaches (Site.after fs) (Site.Prudent fs)
      (.rebuilt media getuid getgid clock reply order)
      site) :
    site.world.dbs.Hierarchy ∧
      Relation.ReflTransGen (Namespace.Step fun n : NodeRef => n.kind = .directory) rootSpace
        site.world.dbs.space ∧
      ∀ s a line, site.Prudent fs (.line s a line) → Offimport.Keeps PathCache_hash s line
        site.importing (site.after fs (.line s a line)).world.dbs := by
  have start : (Site.rebuilt media getuid getgid clock reply order).Grown valid :=
    Site.grown_rebuilt steady
  have grown : site.Grown valid :=
    reached.invariant start fun _ _ grown prudent => grown.after steady prudent
  exact ⟨grown.orderly.hierarchy, grown.grown,
    fun s a line prudent => Site.adds grown.orderly.hierarchy prudent⟩

end Sites

set_option maxRecDepth 100000 in
/-- The lines of the list are fair. -/
theorem cataloguing_prudent :
    Meets (Site.after mounted) (Site.Prudent mounted) mountedSite cataloguing := by
  refine .cons ⟨⟨?_, ?_⟩, ⟨⟨rfl, by decide⟩, by decide⟩, ?_⟩ (.cons trivial
    (.cons ⟨⟨?_, ?_⟩, fun m matched => ?_⟩ (.nil _)))
  · exact Db.idsLeft_of_keys (by decide +kernel)
  · exact Dbs.bounded_of_values (by decide +kernel)
  · exact fun _ => by decide +kernel
  · exact Db.idsLeft_of_keys (by decide +kernel)
  · exact Dbs.bounded_of_values (by decide +kernel)
  · rw [Option.some.inj (matched.symm.trans numbered_fields)]
    refine ⟨by decide, ⟨rfl, by decide⟩, fun n nodetype mode found => ?_⟩
    have missing : (exec (PathCache.getnode PathCache_hash Offimport.superuser (str "/d/f"))
        ((mountedSite.after mounted (.call (rootContext, .mkdir (str "/d") 0o755))).after mounted
          .start).importing).1 = .error .notFound := by
      decide +kernel
    have impossible : Outcome.ok n = .error Err.notFound := found.symm.trans missing
    cases impossible

theorem hierarchy_imported_cataloguing :
    (cataloguing.foldl (Site.after mounted) mountedSite).world.dbs.Hierarchy ∧
      Relation.ReflTransGen (Namespace.Step fun n : NodeRef => n.kind = .directory) rootSpace
        (cataloguing.foldl (Site.after mounted) mountedSite).world.dbs.space := by
  obtain ⟨hierarchy, grown, -⟩ :=
    hierarchy_imported PathCache_hash.steady cataloguing_prudent.reaches
  exact ⟨hierarchy, grown⟩

end OfflineFs
