import OfflineFs.Run.Quiet

/-!
# No two files on one chunk

A file is tied to a chunk by its attributes the first time it is opened or
truncated.  No other code stores these attributes, so two files share a chunk
only when the path of a first opening is the name of a chunk already in use.
-/

namespace OfflineFs

open OfflineFs.Effect OfflineFs.Effect.Program OfflineFs.Transition

/-- Anything but storing one of those attributes. -/
def LeavesPlacing ⦃γ : Type⦄ : FsEff γ → Prop
  | .put .nodes _ name _ => ∀ attr ∈ placing, name ≠ attr.name
  | _ => True

/-- No node has one of those attributes that it had not before. -/
def Dbs.Unplaced (before after : Dbs) : Prop :=
  ∀ id, ∀ attr ∈ placing, ∀ value,
    after.get .nodes id attr.name = some value → before.get .nodes id attr.name = some value

/-- Code that leaves these attributes ties no node to a chunk. -/
theorem unplaced_exec {α : Type} {prog : FsProg α} (calls : Calls LeavesPlacing prog)
    (world : World) : world.dbs.Unplaced (exec prog world).2.dbs := by
  refine calls.run fsHandler (fun before after => before.dbs.Unplaced after.dbs) ?_ ?_ ?_ world
  · exact fun _ _ _ _ _ stored => stored
  · exact fun early late id attr listed value stored =>
      early id attr listed value (late id attr listed value stored)
  · intro γ effect state allowed id attr listed value stored
    cases effect with
    | put table other name written =>
        rw [fsHandler, World.withDbs_dbs, Dbs.get_put] at stored
        split at stored
        · rename_i same
          obtain ⟨rfl, _, sameName⟩ := same
          exact absurd sameName (allowed attr listed)
        · exact stored
    | del table other name =>
        rw [fsHandler, World.withDbs_dbs, Dbs.get_del] at stored
        split at stored
        · contradiction
        · exact stored
    | _ => exact stored

/-! ## Code that leaves the placing attributes -/

theorem leavesPlacing_of_scope {scope : Scope} {α : Type} {prog : FsProg α}
    (stores : ∀ name value, scope.stores name value → ∀ attr ∈ placing, name ≠ attr.name)
    (calls : Calls scope.Allows prog) : Calls LeavesPlacing prog := by
  refine calls.mono fun effect allowed => ?_
  cases effect with
  | put table id name value =>
      cases table with
      | nodes => exact stores name value allowed
      | directories => trivial
  | _ => trivial

theorem apart_of_other {attr : Attr} (other : attr ∉ placing) {name : Bytes}
    (isName : name = attr.name) : ∀ placed ∈ placing, name ≠ placed.name := by
  intro placed listed sameName
  rw [isName, Attr.name_inj] at sameName
  exact other (sameName ▸ listed)

theorem apart_of_stamp {name value : Bytes} (stamp : Stamp name value) :
    ∀ placed ∈ placing, name ≠ placed.name := by
  obtain ⟨attr, listed, isName, -⟩ := stamp
  refine apart_of_other ?_ isName
  revert listed
  cases attr <;> decide

theorem apart_of_naming {name : Bytes} (stores : name = [] ∨ ∃ attr ∉ placing, name = attr.name) :
    ∀ placed ∈ placing, name ≠ placed.name := by
  rcases stores with rfl | ⟨attr, other, isName⟩
  · exact fun placed _ => (Attr.name_ne_nil placed).symm
  · exact apart_of_other other isName

/-! ## Runs -/

/-- A node with attributes that tie it to a chunk, whatever bytes they hold. -/
structure Dbs.Placed (dbs : Dbs) (id : UInt64) (mediumid phid : Bytes) : Prop where
  source : dbs.get .nodes id Attr.source.name ≠ none
  mediumid : dbs.get .nodes id Attr.mediumid.name = some mediumid
  phid : dbs.get .nodes id Attr.phid.name = some phid

/-- No two nodes are tied to one chunk. -/
def Dbs.StorageDistinct (dbs : Dbs) : Prop :=
  ∀ id other mediumid phid, dbs.Placed id mediumid phid → dbs.Placed other mediumid phid →
    id = other

/-- A file that opening would tie to a chunk anew. -/
def Dbs.Unassociated (dbs : Dbs) (order : ByteOrder) (fileid : UInt64) : Prop :=
  ∀ mediumid phid size, dbs.Associated order fileid mediumid phid →
    dbs.attr UInt64 fileid .size ≠ .ok size

/-- No node but one is tied to the chunk that a path names on the default medium. -/
def FS.FreshChunk (fs : FS) (order : ByteOrder) (dbs : Dbs) (id : UInt64) (path : Bytes) : Prop :=
  ∀ medium, dbs.getmediumByLabel fs.defmedium = .ok medium →
    ∀ other, other ≠ id → ¬ dbs.Placed other (hostToDb (order.inMemory medium.id)) path

/-- Requests that tie a file to a chunk only when no other node is tied to it,
and do not store the attributes by name. -/
def Request.PlacesFreshly (fs : FS) (ctx : Context) (world : World) : Request → Prop
  | openFile path flags =>
      ∀ id, fs.Admits ctx world path flags id →
        world.dbs.Unassociated world.order id → fs.FreshChunk world.order world.dbs id path
  | truncate path _ =>
      ∀ id, fs.Admits ctx world path oWronly id →
        world.dbs.Unassociated world.order id → fs.FreshChunk world.order world.dbs id path
  | setxattr _ name _ _ => ∀ attr ∈ placing, name ≠ attr.name
  | _ => True

/-- Only opening and truncating a file ties it to a chunk. -/
theorem Request.calls_prog {fs : FS} (sound : fs.pcache.Sound) (ctx : Context)
    {request : Request} (notOpen : ∀ path flags, request ≠ .openFile path flags)
    (notTruncate : ∀ path length, request ≠ .truncate path length)
    (names : ∀ path name value flags, request = .setxattr path name value flags →
      ∀ attr ∈ placing, name ≠ attr.name) :
    Calls LeavesPlacing (request.prog fs ctx) := by
  refine leavesPlacing_of_scope ?_ (request.calls_scope sound ctx)
  intro name value stores
  cases request with
  | mknod | mkdir | symlink | link | unlink | rmdir | rename => exact apart_of_naming stores
  | chmod | chown =>
      obtain ⟨attr, other, isName⟩ := stores
      exact apart_of_other other isName
  | setxattr path asked given flags =>
      rcases stores with stamp | ⟨rfl, -⟩
      · exact apart_of_stamp stamp
      · exact names _ _ _ _ rfl
  | readdir | utimens | removexattr | flush | fsync => exact apart_of_stamp stores
  | truncate path length => exact absurd rfl (notTruncate path length)
  | openFile path flags => exact absurd rfl (notOpen path flags)
  | _ => exact stores.elim

namespace Dbs

section Distinct

variable {before after : Dbs} {order : ByteOrder} {fs : FS} {path : Bytes} {id : UInt64}

theorem unplaced_setattr {T : Type} [HostInt T] (dbs : Dbs) (id : UInt64) (attr : Attr)
    (other : attr ∉ placing) (value : T) : dbs.Unplaced (dbs.setattr id attr value) := by
  intro node placed listed bytes stored
  rw [setattr, get_put, if_neg] at stored
  · exact stored
  · rintro ⟨_, _, sameName⟩
    rw [Attr.name_inj] at sameName
    exact other (sameName ▸ listed)

theorem Unplaced.trans {third : Dbs} (early : before.Unplaced after) (late : after.Unplaced third) :
    before.Unplaced third :=
  fun node attr listed value stored =>
    early node attr listed value (late node attr listed value stored)

theorem Unplaced.placed {mediumid phid : Bytes} (unplaced : before.Unplaced after)
    (placed : after.Placed id mediumid phid) : before.Placed id mediumid phid where
  source := by
    obtain ⟨value, stored⟩ := Option.ne_none_iff_exists'.mp placed.source
    rw [unplaced id .source (by simp) value stored]
    simp
  mediumid := unplaced id .mediumid (by simp) _ placed.mediumid
  phid := unplaced id .phid (by simp) _ placed.phid

theorem StorageDistinct.of_unplaced (distinct : before.StorageDistinct)
    (unplaced : before.Unplaced after) : after.StorageDistinct :=
  fun node other mediumid phid placed otherPlaced =>
    distinct node other mediumid phid (unplaced.placed placed) (unplaced.placed otherPlaced)

/-- Tying a file to a chunk leaves the other nodes. -/
theorem placed_associate_of_ne {mediumid : UInt32} {phid mediumBytes phidBytes : Bytes}
    {other : UInt64} (distinct : other ≠ id)
    (placed : (before.associate order id mediumid phid).Placed other mediumBytes phidBytes) :
    before.Placed other mediumBytes phidBytes := by
  have unchanged : ∀ name, (before.associate order id mediumid phid).get .nodes other name =
      before.get .nodes other name := by
    intro name
    refine (sameExcept_associate before order id mediumid phid).get .nodes other name ?_
    exact fun _ sameId => absurd sameId distinct
  exact {
    source := unchanged _ ▸ placed.source
    mediumid := unchanged _ ▸ placed.mediumid
    phid := unchanged _ ▸ placed.phid }

theorem placed_associate_self {mediumid : UInt32} {phid mediumBytes phidBytes : Bytes}
    (placed : (before.associate order id mediumid phid).Placed id mediumBytes phidBytes) :
    mediumBytes = hostToDb (order.inMemory mediumid) ∧ phidBytes = phid := by
  have isMedium := placed.mediumid
  have isPhid := placed.phid
  rw [associate, get_put, if_neg (by simp [Attr.name_inj]), setattr, get_put,
    if_pos ⟨rfl, rfl, rfl⟩] at isMedium
  rw [associate, get_put, if_pos ⟨rfl, rfl, rfl⟩] at isPhid
  exact ⟨(Option.some.inj isMedium).symm, (Option.some.inj isPhid).symm⟩

/-- A new association with a chunk that no other node is tied to. -/
theorem StorageDistinct.settled (distinct : before.StorageDistinct)
    (settled : fs.Settled order path id before after)
    (fresh : before.Unassociated order id → fs.FreshChunk order before id path) :
    after.StorageDistinct := by
  rcases settled with rfl | ⟨unassociated, medium, found, rfl⟩
  · exact distinct
  · have free := fresh unassociated medium found
    intro node other mediumid phid placed otherPlaced
    by_cases isNode : node = id
    · subst isNode
      by_contra differ
      obtain ⟨rfl, rfl⟩ := placed_associate_self placed
      exact free other (Ne.symm differ) (placed_associate_of_ne (Ne.symm differ) otherPlaced)
    · by_cases isOther : other = id
      · subst isOther
        obtain ⟨rfl, rfl⟩ := placed_associate_self otherPlaced
        exact absurd (placed_associate_of_ne isNode placed) (free node isNode)
      · exact distinct node other mediumid phid (placed_associate_of_ne isNode placed)
          (placed_associate_of_ne isOther otherPlaced)

theorem getmediumByLabel_congr {label : Bytes} (media : after.media = before.media) :
    after.getmediumByLabel label = before.getmediumByLabel label := by
  have getmedium : ∀ id, after.getmedium id = before.getmedium id := by
    intro id
    rw [Dbs.getmedium, Dbs.getmedium, media]
  have findLabel : ∀ ids, after.findLabel label ids = before.findLabel label ids := by
    intro ids
    induction ids with
    | nil => rfl
    | cons id rest ih => rw [Dbs.findLabel, Dbs.findLabel, media, ih, getmedium]
  rw [Dbs.getmediumByLabel, Dbs.getmediumByLabel, findLabel, mediaIds, mediaIds, media]

end Distinct

end Dbs

/-- The stamps of a truncation leave the storage distinct, and so does the
source it asks for. -/
theorem World.StampedThen.storageDistinct {fs : FS} {path : Bytes} {id : UInt64}
    {world late : World} (stamped : world.StampedThen fs path id late)
    (distinct : world.dbs.StorageDistinct)
    (fresh : world.dbs.Unassociated world.order id →
      fs.FreshChunk world.order world.dbs id path) :
    late.dbs.StorageDistinct := by
  obtain ⟨_, settled⟩ := stamped
  rw [World.stamped_dbs, World.stamped_dbs] at settled
  have modified : world.dbs.SameExcept id [.mtime, .ctime]
      (world.dbs.setattr id .mtime world.now) :=
    .setattr (by simp) _
  have same : world.dbs.SameExcept id [.mtime, .ctime]
      ((world.dbs.setattr id .mtime world.now).setattr id .ctime
        (world.stamped id .mtime).now) := modified.trans
    (.setattr (by simp) (world.stamped id .mtime).now)
  have unplaced := (Dbs.unplaced_setattr world.dbs id .mtime (by decide) world.now).trans
    (Dbs.unplaced_setattr _ id .ctime (by decide) (world.stamped id .mtime).now)
  apply (distinct.of_unplaced unplaced).settled settled
  intro unassociated medium found other differs placed
  rw [Dbs.getmediumByLabel_congr same.media] at found
  refine fresh ?_ medium found other differs (unplaced.placed placed)
  intro mediumid phid size associated sized
  exact unassociated mediumid phid size (associated.of_same same (by decide))
    ((same.attr (by decide)).trans sized)

/-- One request preserves the invariant. -/
theorem storageDistinct_after {fs : FS} (sound : fs.pcache.Sound) {world : World} {call : Call}
    (distinct : world.dbs.StorageDistinct) (fresh : call.2.PlacesFreshly fs call.1 world) :
    (world.after fs call).dbs.StorageDistinct := by
  obtain ⟨ctx, request⟩ := call
  by_cases isOpen : ∃ path flags, request = .openFile path flags
  · obtain ⟨path, flags, rfl⟩ := isOpen
    obtain ⟨id, leads⟩ := fs.pcache.exists_leadsTo ctx world path
    obtain ⟨result, unchanged | admits⟩ :=
      exec_openFile_admits sound ctx flags fun _ => leads.admits
    · simp only [World.after, Request.prog, exec_map_snd, unchanged]
      exact distinct
    · simp only [World.after, Request.prog, exec_map_snd]
      exact distinct.settled result.dbs (fresh id admits)
  by_cases isTruncate : ∃ path length, request = .truncate path length
  · obtain ⟨path, length, rfl⟩ := isTruncate
    obtain ⟨id, leads⟩ := fs.pcache.exists_leadsTo ctx world path
    obtain ⟨result, unchanged | admits⟩ :=
      exec_truncate_admits sound ctx length fun _ => leads.admits
    · simp only [World.after, Request.prog, unchanged]
      exact distinct
    have free : world.dbs.Unassociated world.order id →
        fs.FreshChunk world.order world.dbs id path := fresh id admits
    simp only [World.after, Request.prog]
    generalize exec (fs.truncate ctx path length) world = final at result
    cases result with
    | refused _ alike =>
        rw [alike.dbs]
        exact distinct
    | failed _ start stamped alike =>
        rw [← start.dbs, ← start.order] at free
        rw [← start.dbs] at distinct
        rw [alike.dbs]
        exact stamped.storageDistinct distinct free
    | @done base late after source start stamped opened alike =>
        rw [← start.dbs, ← start.order] at free
        rw [← start.dbs] at distinct
        rw [alike.dbs]
        refine (stamped.storageDistinct distinct free).of_unplaced ?_
        exact (Dbs.unplaced_setattr late.dbs source.fileid .mtime (by decide) late.now).trans
          (Dbs.unplaced_setattr _ source.fileid .size (by decide) length)
  · refine distinct.of_unplaced (unplaced_exec (Request.calls_prog sound ctx ?_ ?_ ?_) world)
    · exact fun path flags same => isOpen ⟨path, flags, same⟩
    · exact fun path length same => isTruncate ⟨path, length, same⟩
    · rintro path name value flags rfl
      exact fresh

section Rebuilt

variable (media : Db UInt32) (getuid getgid : UInt32) (clock : Nat → UInt64)
variable (reply : List SysEvent → SysCall → SysResult) (order : ByteOrder)

theorem not_placed_rebuilt (id : UInt64) (mediumid phid : Bytes) :
    ¬ (World.rebuilt media getuid getgid clock reply order).dbs.Placed id mediumid phid := by
  intro placed
  have calls := leavesPlacing_of_scope (fun _ _ => apart_of_naming)
    ((Scope.naming_builds True).rebuild trivial getuid getgid)
  have unplaced := unplaced_exec calls (World.erased media clock reply order)
  rw [World.rebuilt] at placed
  have stored := (unplaced.placed placed).mediumid
  simp [World.erased, Dbs.get, Dbs.table] at stored

theorem storageDistinct_rebuilt :
    (World.rebuilt media getuid getgid clock reply order).dbs.StorageDistinct :=
  fun id _ mediumid phid placed =>
    absurd placed (not_placed_rebuilt media getuid getgid clock reply order id mediumid phid)

end Rebuilt

/-- From a rebuilt database, a run in which every first opening of a file is at
a path that names no chunk in use keeps the storage of files apart. -/
theorem storage_distinct {fs : FS} (sound : fs.pcache.Sound) {media : Db UInt32}
    {getuid getgid : UInt32} {clock : Nat → UInt64}
    {reply : List SysEvent → SysCall → SysResult} {order : ByteOrder} {world : World}
    (reached : Reaches (World.after fs)
      (fun world call => call.2.PlacesFreshly fs call.1 world)
      (.rebuilt media getuid getgid clock reply order) world) :
    world.dbs.StorageDistinct := by
  induction reached with
  | start => exact storageDistinct_rebuilt media getuid getgid clock reply order
  | step call _ fresh ih => exact storageDistinct_after sound ih fresh

/-! ## A run on a small instance -/

/-- A file is created and opened. -/
def firstOpening : List Call :=
  [(rootContext, .mknod (str "/a") 0o100644 0), (rootContext, .openFile (str "/a") oRdwr)]

/-- It is renamed, and its old path opened in vain. -/
def lostOpening : List Call :=
  [(rootContext, .rename (str "/a") (str "/b")), (rootContext, .openFile (str "/a") oRdwr)]

/-- It is renamed, and another is created and opened in its place. -/
def secondOpening : List Call :=
  [(rootContext, .rename (str "/a") (str "/b")), (rootContext, .mknod (str "/a") 0o100644 0),
    (rootContext, .openFile (str "/a") oRdwr)]

/-- After the first file was opened. -/
def afterFirstOpening : World :=
  firstOpening.foldl (World.after mounted) mountedWorld

/-- After the opens that lead to no file. -/
def afterLostOpening : World :=
  lostOpening.foldl (World.after mounted) afterFirstOpening

/-- After the second file was opened at the path of the first. -/
def afterSecondOpening : World :=
  secondOpening.foldl (World.after mounted) afterFirstOpening

/-- The first opening is fresh. -/
theorem firstOpening_meets :
    Meets (World.after mounted) (fun world call => call.2.PlacesFreshly mounted call.1 world)
      mountedWorld firstOpening := by
  refine .cons trivial (.cons ?_ (.nil _))
  intro id _ _ medium _ other _ placed
  have creates : Calls LeavesPlacing
      (Request.prog mounted rootContext (.mknod (str "/a") 0o100644 0)) :=
    Request.calls_prog PathCache_hash.sound rootContext (fun _ _ other => by cases other)
      (fun _ _ other => by cases other) (fun _ _ _ _ other => by cases other)
  have unplaced := unplaced_exec creates mountedWorld
  rw [World.after] at placed
  have before := unplaced.placed placed
  rw [mountedWorld] at before
  exact not_placed_rebuilt _ _ _ _ _ _ _ _ _ before

set_option maxRecDepth 100000 in
theorem lostOpening_meets :
    Meets (World.after mounted) (fun world call => call.2.PlacesFreshly mounted call.1 world)
      afterFirstOpening lostOpening := by
  refine .cons trivial (.cons ?_ (.nil _))
  have missing : (exec (mounted.pcache.getnode ⟨0, 0, [0]⟩ (str "/a"))
      (World.after mounted afterFirstOpening
        (rootContext, .rename (str "/a") (str "/b")))).1 = .error .notFound := by
    decide +kernel
  rintro id ⟨sctx, caller, found, _⟩
  cases caller
  cases missing.symm.trans found

/-- The first file keeps its chunk, and an opening at its old path finds nothing. -/
theorem storage_distinct_lostOpening : afterLostOpening.dbs.StorageDistinct :=
  storage_distinct PathCache_hash.sound (firstOpening_meets.reaches.foldl lostOpening_meets)

set_option maxRecDepth 100000 in
theorem placed_first : afterSecondOpening.dbs.Placed 1 (hostToDb (0 : UInt32)) (str "/a") :=
  ⟨by decide +kernel, by decide +kernel, by decide +kernel⟩

set_option maxRecDepth 100000 in
theorem placed_second : afterSecondOpening.dbs.Placed 2 (hostToDb (0 : UInt32)) (str "/a") :=
  ⟨by decide +kernel, by decide +kernel, by decide +kernel⟩

theorem secondOpening_reached :
    Reaches (World.after mounted) (fun _ _ => True) mountedWorld afterSecondOpening := by
  have first : Reaches (World.after mounted) (fun _ _ => True) mountedWorld afterFirstOpening :=
    firstOpening_meets.reaches.mono fun _ _ _ => trivial
  exact first.foldl (.cons trivial (.cons trivial (.cons trivial (.nil _))))

set_option maxRecDepth 100000 in
/-- A file created where another was renamed away gets the chunk of the other. -/
theorem storage_shared :
    Reaches (World.after mounted) (fun _ _ => True) mountedWorld afterSecondOpening ∧
      afterSecondOpening.dbs.getnode 1 = .ok ⟨1, .file⟩ ∧
      afterSecondOpening.dbs.getnode 2 = .ok ⟨2, .file⟩ ∧
      ¬ afterSecondOpening.dbs.StorageDistinct := by
  refine ⟨secondOpening_reached, by decide +kernel, by decide +kernel, ?_⟩
  intro distinct
  exact absurd (distinct 1 2 _ _ placed_first placed_second) (by decide)

end OfflineFs
