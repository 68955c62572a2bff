import OfflineFs.Changes.Lineage
import OfflineFs.Changes.Root

/-!
# Sites whose nodes can be read

Requests and imported lines leave every node with all its attributes, unless a user is
imported by name, the counts of links or the ids run out, or a register is left behind.
-/

namespace OfflineFs

open OfflineFs.Effect OfflineFs.Effect.Program OfflineFs.Transition

namespace Dbs

variable {exempt : UInt64 → Prop} {bound more : Nat} {before now after : Dbs} {id : UInt64}

theorem Partly.mono (partly : Partly exempt bound now) (le : bound ≤ more) :
    Partly exempt more now :=
  ⟨partly.ids, partly.whole, partly.counted, fun id => (partly.bounded id).trans le⟩

theorem Complete.partly (complete : before.Complete) (bounded : before.Bounded bound) :
    Partly exempt bound before :=
  ⟨complete.ids, fun id _ => complete.whole id, complete.counted, bounded⟩

theorem Partly.complete (partly : Partly exempt bound now)
    (settled : ∀ id, exempt id → now.Settled id) : now.Complete := by
  refine ⟨partly.ids, fun id begins => ?_, partly.counted⟩
  by_cases isExempt : exempt id
  · exact settled id isExempt begins
  · exact partly.whole id isExempt begins

/-- The id that is handed out next is not in use. -/
theorem Complete.refs_nextId (complete : before.Complete) (idsLeft : before.nodes.IdsLeft) :
    before.refs before.nodes.nextId = 0 := by
  have covered := complete.counted before.nodes.nextId
  rw [links_of_absent (Db.getElem?_nextId idsLeft _)] at covered
  exact Nat.le_zero.mp covered

/-- Dressing a node keeps the others readable. -/
theorem Partly.dressed {n : UInt64} {attrs : List Attr} (partly : Partly exempt bound now)
    (dressed : Dressed n attrs now after) (unlisted : .nlink ∉ attrs)
    (begins : exempt n ∨ now.Begins n) : Partly exempt bound after where
  ids d name value stored := by
    rw [dressed.get_directories] at stored
    exact partly.ids d name value stored
  whole id apart begun := by
    by_cases same : id = n
    · subst same
      exact dressed.has (partly.whole id apart (begins.resolve_left apart))
    · have read : ∀ name, after.get .nodes id name = now.get .nodes id name :=
        fun name => dressed.others id name same
      exact dressed.has (partly.whole id apart ((begins_congr (read _) (read _)).mp begun))
  counted id := by
    rw [dressed.refs, links_congr (dressed.keeps unlisted id)]
    exact partly.counted id
  bounded id := by
    rw [links_congr (dressed.keeps unlisted id)]
    exact partly.bounded id

/-! ## Nodes that lines make -/

section Born

variable {kind : NodeKind} {p : Path} {path : Bytes} {n : NodeRef}

theorem Complete.partly_created (complete : before.Complete) (idsLeft : before.nodes.IdsLeft)
    (bounded : before.Bounded bound) (atime mtime ctime : UInt64) :
    Partly (· = before.nodes.nextId) bound
      (before.created before.nodes.nextId atime mtime ctime) := by
  apply (complete.partly bounded).created
  · rfl
  · exact complete.refs_nextId idsLeft

theorem Complete.partly_typed (complete : before.Complete) (idsLeft : before.nodes.IdsLeft)
    (bounded : before.Bounded bound) (atime mtime ctime : UInt64) (mode : UInt32) :
    Partly (· = before.nodes.nextId) bound
      (before.typed before.nodes.nextId atime mtime ctime mode) := by
  have fits : ∀ attr ∈ vital, Attr.mode.name = attr.name → attr.Fits (hostToDb mode) :=
    Warrant.fits_self (Attr.fits_hostToDb rfl mode)
  exact (complete.partly_created idsLeft bounded atime mtime ctime).put fits (by decide) (.inl rfl)

/-- A new node is the only one that lacks something. -/
theorem Complete.partly_made (complete : before.Complete) (idsLeft : before.nodes.IdsLeft)
    (bounded : before.Bounded bound) (small : bound < 2 ^ 31) (atime mtime ctime : UInt64)
    (clean : kind = .directory → before.get .directories before.nodes.nextId (str ".") = none) :
    Partly (· = before.nodes.nextId) (bound + 1)
      (before.made before.nodes.nextId atime mtime ctime kind) := by
  have typed := complete.partly_typed idsLeft bounded atime mtime ctime
  cases kind with
  | node =>
      exact (complete.partly_created idsLeft bounded atime mtime ctime).mono (Nat.le_succ bound)
  | file => exact (typed sIfreg).mono (Nat.le_succ bound)
  | directory =>
      have absent : (before.typed before.nodes.nextId atime mtime ctime sIfdir).get .directories
          before.nodes.nextId (str ".") = none := by
        rw [get_directories_typed, clean rfl]
      exact (typed sIfdir).entered small absent attr_nlink_typed
  | symlink =>
      refine ((typed sIflnk).put ?_ (by decide) (.inl rfl)).mono (Nat.le_succ bound)
      intro attr listed same
      rw [Attr.name_inj] at same
      exact absurd (same ▸ listed) (by decide)

/-- A directory that is there is not the next node. -/
theorem ne_nextId {d : UInt64} (idsLeft : before.nodes.IdsLeft)
    (directory : before.getnode d = .ok ⟨d, .directory⟩) : d ≠ before.nodes.nextId := by
  rintro rfl
  obtain ⟨mode, isMode, -⟩ := getnode_eq_ok_iff.mp directory
  have stored := getattr_eq_ok_iff.mp isMode
  exact absurd (stored.symm.trans (Db.getElem?_nextId idsLeft Attr.mode.name)) nofun

/-- The register of a new directory has no entry for a parent yet. -/
theorem absent_parent {p : Path} {atime mtime ctime : UInt64} {nlink : UInt32}
    (apart : p.parent.id ≠ id) (clean : before.get .directories id (str "..") = none) :
    ((before.made id atime mtime ctime .directory).entered p.parent.id p.leaf id nlink).get
      .directories id (str "..") = none := by
  rw [get_directories_entered, if_neg fun both => apart both.1.symm, made, get_directories_entered,
    if_neg fun both => absurd both.2 (by decide), get_directories_typed, clean]

/-- A node that a line makes has what a neutral one has, and the others are as before. -/
theorem Bears.partly (bears : before.Bears p path n after) (complete : before.Complete)
    (idsLeft : before.nodes.IdsLeft) (bounded : before.Bounded bound) (small : bound + 2 < 2 ^ 31) :
    Partly (· = n.id) (bound + 3) after ∧ after.Has neutral n.id := by
  obtain ⟨isFresh, clean, atime, mtime, ctime, above, directory, -, free, counted, placed⟩ := bears
  rw [isFresh] at placed ⊢
  have made : Partly (· = before.nodes.nextId) (bound + 1)
      (before.made before.nodes.nextId atime mtime ctime n.kind) :=
    complete.partly_made idsLeft bounded (by omega) atime mtime ctime fun isDirectory =>
      clean isDirectory _ (by decide)
  have named := made.entered (by omega) free attr_nlink_made
  suffices partly : Partly (· = before.nodes.nextId) (bound + 3)
      (before.born p atime mtime ctime above n.kind) ∧
      (before.born p atime mtime ctime above n.kind).Has neutral before.nodes.nextId from
    ⟨partly.1.dressed placed (by decide) (.inl rfl), placed.has partly.2⟩
  cases kind : n.kind with
  | directory =>
      rw [kind] at named counted
      have absent := clean kind (str "..") (by decide)
      exact ⟨named.entered (by omega) (absent_parent (ne_nextId idsLeft directory) absent)
        (counted rfl), has_made.entered.entered⟩
  | _ =>
      rw [kind] at named
      exact ⟨named.mono (Nat.le_succ _), has_made.entered⟩

end Born

end Dbs

/-! ## Steps -/

section Lines

variable {pc : PathCache} {s : Offimport.Settings} {a : Offimport.Accounts} {m : FMap}
variable {world after : World} {bound : Nat}

theorem Offimport.Skipped.complete {before now : Dbs} (skipped : Offimport.Skipped before now)
    (complete : before.Complete) (idsLeft : before.nodes.IdsLeft)
    (bounded : before.Bounded bound) : now.Complete := by
  rcases skipped with rfl | ⟨kind, rfl⟩
  · exact complete
  · have partly : Dbs.Partly (fun _ => False) bound before := complete.partly bounded
    have fewer : (before.removed ⟨before.nodes.nextId, kind⟩).refs before.nodes.nextId ≤
        before.refs before.nodes.nextId := Dbs.refs_removed_le _ _ _
    rw [complete.refs_nextId idsLeft] at fewer
    exact (partly.removed (Nat.le_zero.mp fewer)).complete nofun

/-- A line makes a node and names a user that is looked up. -/
def Offimport.Disowns (pc : PathCache) (s : Offimport.Settings) (a : Offimport.Accounts) (m : FMap)
    (world : World) : Prop :=
  m.NamesUser ∧ a.getpwnam m.user ≠ none ∧ Offimport.Creates pc s a m world

/-- Where only nodes are to be made, a line makes none when its name cannot be entered. -/
theorem Offimport.not_creates_of_refused {create : FsProg NodeRef} {e : Err}
    (never : s.allowModify = false)
    (named : ∀ nodetype, (m.type, nodetype) ∈ Offimport.namedTypes →
      Offimport.creatorOf (Offimport.typeToCreate nodetype) = create)
    (refused : (exec (Path.resolve pc Offimport.superuser (s.pathPrefix ++ Offimport.pathOf m) >>=
      fun p => p.create Offimport.superuser create) world).1 = .error e) :
    ¬ Offimport.Creates pc s a m world := by
  rintro ⟨-, -, nodetype, p, last, isType, ⟨looked, found, resolved⟩, n, makes⟩
  rw [Offimport.findNode, if_neg (by simp [never])] at found
  obtain rfl : world = looked := congrArg Prod.snd found
  rw [named nodetype isType] at makes
  rw [exec_bind, resolved] at refused
  cases refused.symm.trans makes

/-- A line that disowns no new node keeps all nodes readable. -/
theorem Offimport.Imports.complete (imports : Offimport.Imports pc s a m world after)
    (sound : pc.Sound) (complete : world.dbs.Complete) (idsLeft : world.dbs.nodes.IdsLeft)
    (bounded : world.dbs.Bounded bound) (small : bound + 2 < 2 ^ 31) (free : m.Free)
    (owned : ¬ Offimport.Disowns pc s a m world) : after.dbs.Complete := by
  cases imports with
  | skipped creates same => exact same.complete complete idsLeft bounded
  | @modified n nodetype middle modifies named leads same sets =>
      have begins := Dbs.begins_of_getnode (sound.present _ _ _ _ leads)
      have dressed := Offimport.dressed_setAttributes free sets
      rw [same] at dressed
      have partly : Dbs.Partly (fun _ => False) bound world.dbs := complete.partly bounded
      exact (partly.dressed dressed (by decide) (.inr begins)).complete nofun
  | @created n nodetype p last middle creates resolves named bears kind sets =>
      have dressed := Offimport.dressed_setAttributes free sets
      obtain ⟨partly, begun⟩ := bears.partly complete idsLeft bounded small
      apply (partly.dressed dressed (by decide) (.inl rfl)).complete
      rintro id rfl _
      apply Offimport.whole_setAttributes free _ sets begun
      intro names
      by_contra found
      exact owned ⟨names, found, creates⟩

end Lines

/-- A request leaves a register that the next directory would find. -/
def Request.Clean (dbs : Dbs) : Request → Prop
  | .mkdir _ _ => dbs.get .directories dbs.nodes.nextId (str "..") = none
  | _ => True

/-- A call keeps all nodes readable. -/
theorem World.complete_after {fs : FS} (sound : fs.pcache.Sound) {world : World} {call : Call}
    {bound : Nat} (complete : world.dbs.Complete) (idsLeft : world.dbs.nodes.IdsLeft)
    (bounded : world.dbs.Bounded bound) (small : bound + 3 < 2 ^ 31)
    (locked : ¬ (call.1.uid = 0 ∧ call.2.Reserved)) (clean : call.2.Clean world.dbs) :
    (world.after fs call).dbs.Complete := by
  obtain ⟨-, count, few, written⟩ := world.within_after sound call
  have unlocked : ¬ (world.warrant fs call).Unlocked := by
    intro unlocked
    exact locked ⟨call.1.caller_uid ▸ unlocked.1, unlocked.2⟩
  have partly := written.partly complete idsLeft unlocked bounded (by omega)
  apply partly.complete
  rintro id ⟨births, rfl⟩
  obtain ⟨ctx, request⟩ := call
  cases request with
  | mknod path mode dev => exact settled_mknod sound idsLeft path mode dev
  | mkdir path mode => exact settled_mkdir sound idsLeft complete path mode clean
  | symlink oldpath newpath => exact settled_symlink sound idsLeft oldpath newpath
  | _ => exact births.elim

/-! ## Reading -/

/-- Every entry names a node with all its attributes. -/
def Dbs.Readable (dbs : Dbs) : Prop :=
  ∀ d name value, dbs.get .directories d name = some value →
    ∃ id : UInt64, value = hostToDb id ∧ dbs.Whole id

/-- Neither `getattr` nor the path cache fails on a node that is there. -/
structure World.Serves (fs : FS) (world : World) : Prop where
  stats : ∀ ctx sctx path n, ctx.sctx = some sctx →
    (exec (fs.pcache.getnode sctx path) world).1 = .ok n →
    ∃ stat, (exec (fs.getattr ctx path) world).1 = .ok (.ok stat)
  caches : ∀ cen parent leaf up data, exec (PathCache_hash.readEntry parent) world =
    (.ok data, world) →
    world.dbs.getnode data.nodeid = .ok ⟨data.nodeid, .directory⟩ →
    world.dbs.get .directories data.nodeid leaf ≠ none →
    (exec (PathCache_hash.initEntry cen (some parent) (leaf :: up)) world).1 = .ok ()

theorem Dbs.Complete.readable {dbs : Dbs} (complete : dbs.Complete) : dbs.Readable := by
  intro d name value stored
  obtain ⟨id, rfl⟩ := complete.ids d name value stored
  refine ⟨id, rfl, complete.whole id (.inl ?_)⟩
  have referred : 0 < dbs.refs id := Dbs.refs_pos_iff.mpr ⟨d, name, stored⟩
  intro absent
  have covered := complete.counted id
  rw [Dbs.links_of_absent absent] at covered
  omega

theorem Dbs.Whole.getnode {dbs : Dbs} {id : UInt64} (whole : dbs.Whole id) :
    ∃ kind, dbs.getnode id = .ok ⟨id, kind⟩ := by
  obtain ⟨mode, isMode⟩ := whole.read (T := UInt32) (by decide : .mode ∈ vital) rfl
  exact ⟨_, Dbs.getnode_eq_ok_iff.mpr ⟨mode, isMode, rfl⟩⟩

/-- Where all nodes are readable, what a path leads to can be asked for. -/
theorem Dbs.Complete.serves {fs : FS} (sound : fs.pcache.Sound) {world : World}
    (complete : world.dbs.Complete) : world.Serves fs where
  stats ctx sctx path n caller leads := by
    obtain ⟨outcome, cache, result, present⟩ := sound.getnode sctx path world
    rw [result] at leads
    obtain rfl : outcome = .ok n := leads
    obtain ⟨mode, isMode, -⟩ := Dbs.getnode_eq_ok_iff.mp (present n rfl)
    have begins : world.dbs.Begins n.id := by
      right
      rw [Dbs.getattr_eq_ok_iff.mp isMode]
      exact Option.some_ne_none _
    have whole := complete.whole n.id begins
    obtain ⟨dev, isDev⟩ := whole.read (T := UInt64) (by decide : .dev ∈ vital) rfl
    obtain ⟨nlink, isNlink⟩ := whole.read (T := UInt32) (by decide : .nlink ∈ vital) rfl
    obtain ⟨uid, isUid⟩ := whole.read (T := UInt32) (by decide : .uid ∈ vital) rfl
    obtain ⟨gid, isGid⟩ := whole.read (T := UInt32) (by decide : .gid ∈ vital) rfl
    obtain ⟨size, isSize⟩ := whole.read (T := UInt64) (by decide : .size ∈ vital) rfl
    obtain ⟨atime, isAtime⟩ := whole.read (T := UInt64) (by decide : .atime ∈ vital) rfl
    obtain ⟨mtime, isMtime⟩ := whole.read (T := UInt64) (by decide : .mtime ∈ vital) rfl
    obtain ⟨ctime, isCtime⟩ := whole.read (T := UInt64) (by decide : .ctime ∈ vital) rfl
    simp only [FS.getattr, exec_request, caller, exec_bind, result, Outcome.andThen_ok,
      Node.exec_getattr, World.withCache_dbs, isDev, isNlink, isMode, isUid, isGid, isSize, isAtime,
      isMtime, isCtime, Outcome.ofExcept_ok, exec_pure, handling]
    exact ⟨_, rfl⟩
  caches cen parent leaf up data reads directory present := by
    obtain ⟨value, stored⟩ := Option.ne_none_iff_exists'.mp present
    obtain ⟨id, rfl, whole⟩ := complete.readable _ _ _ stored
    obtain ⟨kind, isNode⟩ := whole.getnode
    have child : world.dbs.getchild data.nodeid leaf = .ok ⟨id, kind⟩ :=
      Dbs.getchild_eq_ok_iff.mpr ⟨stored, isNode⟩
    obtain ⟨uid, isUid⟩ := whole.read (T := UInt32) (by decide : .uid ∈ vital) rfl
    obtain ⟨gid, isGid⟩ := whole.read (T := UInt32) (by decide : .gid ∈ vital) rfl
    obtain ⟨mode, isMode⟩ := whole.read (T := UInt32) (by decide : .mode ∈ vital) rfl
    simp only [PathCache_hash.initEntry, exec_bind, reads, Outcome.andThen_ok, Node.exec_getnode,
      directory, Outcome.ofExcept_ok, Node.exec_cast, if_true, Directory.exec_getchild, child,
      Node.exec_getattr, isUid, isGid, isMode]
    rfl

/-! ## Runs -/

/-- There are ids left, and no count of links is close to the end of its range. -/
structure Dbs.Roomy (dbs : Dbs) : Prop where
  idsLeft : dbs.nodes.IdsLeft
  bounded : dbs.Bounded (2 ^ 31 - 4)

/-- What keeps every node readable.  A request that names a reserved attribute as the
superuser may do anything to it; a new directory must not find an entry for a parent in
its register; a line must not name a user that is looked up when it makes a node. -/
def Site.Careful (site : Site) : SiteOp → Prop
  | .call request => site.world.dbs.Roomy ∧ ¬ (request.1.uid = 0 ∧ request.2.Reserved) ∧
      request.2.Clean site.world.dbs
  | .start => True
  | .line s a line => site.world.dbs.Roomy ∧ ∀ m, s.format.matchText {} (line ++ [10]) = some m →
      m.Free ∧ ¬ Offimport.Disowns PathCache_hash s a m site.importing ∧
        (m.type = str "d" → Offimport.Creates PathCache_hash s a m site.importing →
          site.world.dbs.get .directories site.world.dbs.nodes.nextId (str "..") = none)

/-- Every node of the site has all its attributes. -/
def Site.Complete (site : Site) : Prop :=
  site.world.dbs.Complete

/-- A careful step keeps all nodes readable. -/
theorem Site.complete_after {fs : FS} (sound : fs.pcache.Sound) (site : Site) (op : SiteOp)
    (complete : site.Complete) (careful : site.Careful op) : (site.after fs op).Complete := by
  cases op with
  | call request =>
      obtain ⟨roomy, locked, clean⟩ := careful
      exact World.complete_after sound complete roomy.idsLeft roomy.bounded (by omega) locked clean
  | start => exact complete
  | line s a line =>
      obtain ⟨roomy, careful⟩ := careful
      refine Site.dbs_imported complete fun m after matched imports => ?_
      obtain ⟨free, owned, clean⟩ := careful m matched
      have idsLeft : site.importing.dbs.nodes.IdsLeft := roomy.idsLeft
      have imported := Offimport.importFields_eq_ok PathCache_hash.sound idsLeft clean imports
      exact imported.complete PathCache_hash.sound complete roomy.idsLeft roomy.bounded (by omega)
        free owned

theorem Dbs.complete_empty (media : Db UInt32) : (⟨∅, ∅, media⟩ : Dbs).Complete where
  ids _ _ _ := nofun
  whole _ begins := begins.elim (absurd rfl) (absurd rfl)
  counted id := by
    by_contra referred
    obtain ⟨d, name, stored⟩ := refs_pos_iff.mp (Nat.pos_of_ne_zero fun none => referred
      (none ▸ Nat.zero_le _))
    cases stored

/-- The root has all its attributes. -/
theorem Dbs.complete_rooted (media : Db UInt32) (getuid getgid : UInt32)
    (atime mtime ctime : UInt64) : (rooted media getuid getgid atime mtime ctime).Complete := by
  have idsLeft : (⟨∅, ∅, media⟩ : Dbs).nodes.IdsLeft := by
    intro key present
    exact absurd rfl present
  have bounded : (⟨∅, ∅, media⟩ : Dbs).Bounded 0 := fun id => Nat.le_of_eq (links_of_absent rfl)
  have begun : Partly (· = 0) 1 ((⟨∅, ∅, media⟩ : Dbs).made 0 atime mtime ctime .directory) :=
    (complete_empty media).partly_made idsLeft bounded (by decide) atime mtime ctime fun _ => rfl
  have stores : ∀ {now : Dbs} (attr : Attr) (value : UInt32), attr ∈ [Attr.mode, .uid, .gid] →
      Partly (· = 0) 1 now → Partly (· = 0) 1 (now.setattr 0 attr value) := by
    intro now attr value listed partly
    have sized : attr.width = some 4 := by
      revert listed
      cases attr <;> decide
    refine partly.put (Warrant.fits_self (Attr.fits_hostToDb sized value)) ?_ (.inl rfl)
    exact Warrant.name_ne_of_listed listed (by decide)
  let base := (⟨∅, ∅, media⟩ : Dbs).made 0 atime mtime ctime .directory
  let owned :=
    ((base.setattr 0 .mode (sIfdir ||| 0o755)).setattr 0 .uid getuid).setattr 0 .gid getgid
  have partly : Partly (· = 0) 1 owned :=
    stores .gid getgid (by decide) (stores .uid getuid (by decide)
    (stores .mode (sIfdir ||| 0o755) (by decide) begun))
  have begins : base.Has neutral 0 := has_made
  have has := ((begins.add .mode rfl (sIfdir ||| 0o755)).add .uid rfl getuid).add .gid rfl getgid
  have counted : owned.attr UInt32 0 .nlink = .ok 1 := by
    rw [attr_setattr_of_ne _ (.inr (by decide)), attr_setattr_of_ne _ (.inr (by decide)),
      attr_setattr_of_ne _ (.inr (by decide)), attr_nlink_made]
    rfl
  have absent : owned.get .directories 0 (str "..") = none := by
    rw [get_directories_setattr, get_directories_setattr, get_directories_setattr]
    change (((⟨∅, ∅, media⟩ : Dbs).typed 0 atime mtime ctime sIfdir).entered 0 (str ".") 0 0).get
      .directories 0 (str "..") = none
    rw [get_directories_entered, if_neg fun both => absurd both.2 (by decide),
      get_directories_typed]
    rfl
  apply (partly.entered (by decide) absent counted).complete
  rintro id rfl _
  exact has.entered.mono (by decide)

/-- From a rebuilt database, calls and lines that keep every node readable reach only sites
in which every entry names a node with all its attributes, and every path that leads to a
node can be asked for them. -/
theorem attributes_complete {fs : FS} (sound : fs.pcache.Sound) {media : Db UInt32}
    {getuid getgid : UInt32} {clock : Nat → UInt64} {reply : List SysEvent → SysCall → SysResult}
    {order : ByteOrder}
    {site : Site}
    (reached : Reaches (Site.after fs) Site.Careful
      (.rebuilt media getuid getgid clock reply order) site) :
    site.world.dbs.Readable ∧ ∀ world : World, world.dbs = site.world.dbs → world.Serves fs := by
  have initial : (Site.rebuilt media getuid getgid clock reply order).Complete := by
    obtain ⟨atime, mtime, ctime, same⟩ :=
      World.exists_rebuilt_eq media getuid getgid clock reply order
    change (World.rebuilt media getuid getgid clock reply order).dbs.Complete
    rw [same]
    exact Dbs.complete_rooted _ _ _ _ _ _
  have complete : site.Complete :=
    reached.invariant initial (Site.complete_after sound)
  refine ⟨complete.readable, fun world same => Dbs.Complete.serves sound ?_⟩
  rw [same]
  exact complete

/-! ## A user that is looked up -/

/-- The site that `mounted` serves, just after it was rebuilt. -/
def mountedSite : Site :=
  .rebuilt (directoryMedium 0 (str "m") (str "/b")) 0 0 (fun _ => 100) willingReply .little

/-- Creating nodes from lines with a path, a type, and a user in two forms. -/
def listing : Offimport.Settings :=
  { format := (Offimport.fpar.parse (str "%p %y %U %u\n")).getD []
    pathPrefix := [slash], allowModify := false, allowCreate := true, medium := none
    getuid := 0, getgid := 0, umask := 0o022 }

/-- Accounts with one user. -/
def oneUser : Offimport.Accounts :=
  { getgrnam := fun _ => none
    getpwnam := fun name => if name = str "ann" then some 1000 else none }

/-- A line with a user by number, and one with a user by name. -/
def numbered : SiteOp := .line listing oneUser (str "d/f f 1000 ")
/-- A file whose user is given by a name alone. -/
def symbolic : SiteOp := .line listing oneUser (str "g f  ann")

/-- A request that does not name a reserved attribute as the superuser, or a line without
error that names none. -/
def Site.Accepted (site : Site) : SiteOp → Prop
  | .call request => ¬ (request.1.uid = 0 ∧ request.2.Reserved)
  | .start => True
  | .line s a line => ∃ m, s.format.matchText {} (line ++ [10]) = some m ∧ m.Free ∧
      (exec (Offimport.importFields PathCache_hash s a m) site.importing).1 = .ok ()

theorem numbered_fields : listing.format.matchText {} (str "d/f f 1000 " ++ [10]) =
    some { path := str "d/f", type := str "f", numuser := str "1000" } := by
  decide +kernel

theorem symbolic_fields : listing.format.matchText {} (str "g f  ann" ++ [10]) =
    some { path := str "g", type := str "f", user := str "ann" } := by
  decide +kernel

set_option maxRecDepth 100000 in
/-- The node of the line with a user by name has no owner, and nothing can be read of it. -/
theorem symbolic_unowned :
    Reaches (Site.after mounted) Site.Accepted mountedSite
        ([SiteOp.start, symbolic].foldl (Site.after mounted) mountedSite) ∧
      ¬ ([SiteOp.start, symbolic].foldl (Site.after mounted) mountedSite).world.dbs.Readable := by
  constructor
  · have meets : Meets (Site.after mounted) Site.Accepted mountedSite [.start, symbolic] :=
      .cons trivial (.cons ⟨_, symbolic_fields, by decide, by decide +kernel⟩ (.nil _))
    exact meets.reaches
  · intro readable
    obtain ⟨id, isId, whole⟩ := readable 0 (str "g") (hostToDb (1 : UInt64)) (by decide +kernel)
    obtain rfl : 1 = id := hostToDb_inj.mp isId
    obtain ⟨value, stored, -⟩ := whole .uid (by decide)
    have absent : ([SiteOp.start, symbolic].foldl (Site.after mounted) mountedSite).world.dbs.get
        .nodes 1 Attr.uid.name = none := by
      decide +kernel
    rw [absent] at stored
    cases stored

/-- The file of the first line again, with a user by name. -/
def repeated : SiteOp := .line listing oneUser (str "d/f f  ann")

/-- A directory is made and a file imported into it. -/
def cataloguing : List SiteOp :=
  [.call (rootContext, .mkdir (str "/d") 0o755), .start, numbered]

set_option maxRecDepth 100000 in
/-- The lines of the list are careful. -/
theorem cataloguing_meets :
    Meets (Site.after mounted) Site.Careful mountedSite cataloguing := by
  have fields : ∀ m, listing.format.matchText {} (str "d/f f 1000 " ++ [10]) = some m →
      m = { path := str "d/f", type := str "f", numuser := str "1000" } :=
    fun m matched => Option.some.inj (matched.symm.trans numbered_fields)
  have clean : mountedSite.world.dbs.get .directories mountedSite.world.dbs.nodes.nextId
      (str "..") = none := by
    decide +kernel
  refine .cons ⟨⟨?_, ?_⟩, fun both => both.2, clean⟩ (.cons trivial
    (.cons ⟨⟨?_, ?_⟩, fun m matched => ?_⟩ (.nil _)))
  · exact Db.idsLeft_of_keys (by decide +kernel)
  · exact Dbs.bounded_of_values (by decide +kernel)
  · exact Db.idsLeft_of_keys (by decide +kernel)
  · exact Dbs.bounded_of_values (by decide +kernel)
  · rw [fields m matched]
    refine ⟨by decide, fun disowns => absurd disowns.1.1 (by decide), fun isDirectory => ?_⟩
    exact absurd isDirectory (by decide)

theorem repeated_fields : listing.format.matchText {} (str "d/f f  ann" ++ [10]) =
    some { path := str "d/f", type := str "f", user := str "ann" } := by
  decide +kernel

set_option maxRecDepth 100000 in
theorem repeated_taken : (exec (Path.resolve PathCache_hash Offimport.superuser (str "/d/f") >>=
      fun p => p.create Offimport.superuser File.create)
      (cataloguing.foldl (Site.after mounted) mountedSite).importing).1 = .error .exists := by
  decide +kernel

set_option maxRecDepth 100000 in
theorem repeated_roomy : (cataloguing.foldl (Site.after mounted) mountedSite).world.dbs.Roomy :=
  ⟨Db.idsLeft_of_keys (by decide +kernel), Dbs.bounded_of_values (by decide +kernel)⟩

/-- A line whose path exists may name a user that is looked up, as it makes no node. -/
theorem repeated_careful :
    (cataloguing.foldl (Site.after mounted) mountedSite).Careful repeated := by
  refine ⟨repeated_roomy, fun m matched => ?_⟩
  obtain rfl := Option.some.inj (matched.symm.trans repeated_fields)
  refine ⟨by decide, fun disowns => ?_, fun isDirectory => absurd isDirectory (by decide)⟩
  apply Offimport.not_creates_of_refused rfl _ repeated_taken disowns.2.2
  have isFile : ∀ entry ∈ Offimport.namedTypes, entry.1 = str "f" →
      Offimport.typeToCreate entry.2 = sIfreg := by
    decide
  intro nodetype named
  rw [Offimport.creatorOf, if_pos (isFile _ named rfl)]

theorem attributes_complete_cataloguing :
    ((cataloguing.foldl (Site.after mounted) mountedSite).after mounted
        repeated).world.dbs.Readable ∧
      ((cataloguing.foldl (Site.after mounted) mountedSite).after mounted
        repeated).world.Serves mounted := by
  obtain ⟨readable, serves⟩ := attributes_complete PathCache_hash.sound
    (.step repeated cataloguing_meets.reaches repeated_careful)
  exact ⟨readable, serves _ rfl⟩

end OfflineFs
