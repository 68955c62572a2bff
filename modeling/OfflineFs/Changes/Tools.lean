import OfflineFs.Changes.Importing
import OfflineFs.Media.Sessions
import OfflineFs.Run.Durable

/-!
# Requests, imports and media commands

The filesystem and the two tools share one database.  In whatever order they use it, the media
are what the media commands alone have made of them, and the hierarchy is kept.
-/

namespace OfflineFs

open OfflineFs.Effect OfflineFs.Effect.Program OfflineFs.Transition

/-- A use of the filesystem or of `offimport`, or a run of `offmedia`. -/
inductive ToolOp
  | site (op : SiteOp)
  | command (options : Offmedia.Options)

/-- The databases are committed when the command does not throw. -/
def World.commanded (world : World) (options : Offmedia.Options) : World :=
  let ended := Offmedia.main world.order options world.dbs.media
  if ended.status = 0 then
    (world.withDbs { world.dbs with media := ended.media }).committedAll
  else
    world

namespace Site

/-- The site after a step of it or a media command. -/
def shared (fs : FS) (site : Site) : ToolOp → Site
  | .site op => site.after fs op
  | .command options => { site with world := site.world.commanded options }

/-- Nothing is asked of a media command. -/
def Cautious (fs : FS) (site : Site) : ToolOp → Prop
  | .site op => site.Prudent fs op
  | .command _ => True

end Site

/-- The media commands of a run. -/
def ToolOp.options? : ToolOp → Option Offmedia.Options
  | .site _ => none
  | .command options => some options

section Shared

variable {fs : FS} {valid : PathCacheState → Prop} {site : Site} {world : World}

/-- A media command changes the media alone. -/
theorem World.commanded_dbs (world : World) (options : Offmedia.Options) :
    (world.commanded options).dbs =
      { world.dbs with media := Offmedia.tool world.order world.dbs.media options } := by
  unfold World.commanded Offmedia.tool
  rcases result : options.command world.order world.dbs.media with ⟨out, done⟩
  cases done with
  | ok after =>
      have ended : Offmedia.main world.order options world.dbs.media = ⟨after, out, [], 0⟩ := by
        rw [Offmedia.main, result]
      rw [ended]
      rfl
  | error e =>
      have ended : (Offmedia.main world.order options world.dbs.media).status = 1 ∧
          (Offmedia.main world.order options world.dbs.media).media = world.dbs.media := by
        rw [Offmedia.main, result]
        exact ⟨rfl, rfl⟩
      simp [ended.1, ended.2]

theorem World.commanded_cache (world : World) (options : Offmedia.Options) :
    (world.commanded options).cache = world.cache := by
  simp only [World.commanded]
  split <;> rfl

/-- Other media make no difference to the names. -/
theorem Dbs.alike_media (dbs : Dbs) (media : Db UInt32) : dbs.Alike { dbs with media } where
  entries _ _ := rfl
  getnode _ := rfl
  links _ := rfl

theorem World.media_after (world : World) (call : Call) :
    (world.after fs call).dbs.media = world.dbs.media := by
  rcases call with ⟨ctx, request⟩
  exact exec_media _ world

/-- No request and no line changes the media. -/
theorem Site.media_after (site : Site) (op : SiteOp) :
    (site.after fs op).world.dbs.media = site.world.dbs.media := by
  cases op with
  | call request => exact World.media_after site.world request
  | start => rfl
  | line s a line =>
      change (site.imported s a line).dbs.media = _
      refine @Site.dbs_imported (fun dbs => dbs.media = site.world.dbs.media) site s a line rfl ?_
      intro m after _ imports
      have kept := exec_media (Offimport.importFields PathCache_hash s a m) site.importing
      rw [imports] at kept
      exact kept

/-- Nothing changes the order of bytes. -/
theorem Site.order_shared (site : Site) (op : ToolOp) :
    (site.shared fs op).world.order = site.world.order := by
  cases op with
  | site op =>
      cases op with
      | call request =>
          rcases request with ⟨ctx, request⟩
          exact exec_order _ site.world
      | start => rfl
      | line s a line =>
          change (site.imported s a line).order = _
          rw [Site.imported]
          split
          · rfl
          · have kept := exec_order (Offimport.round PathCache_hash s a line) site.importing
            rcases result : exec (Offimport.round PathCache_hash s a line) site.importing with
              ⟨outcome, last⟩
            rw [result] at kept
            cases outcome <;> exact kept
  | command options =>
      change (site.world.commanded options).order = _
      simp only [World.commanded]
      split <;> rfl

/-- One use leaves the media to the commands and keeps the hierarchy. -/
theorem Site.Grown.shared (steady : fs.pcache.Steady valid) (grown : site.Grown valid)
    {op : ToolOp} (cautious : site.Cautious fs op) :
    (site.shared fs op).Grown valid ∧ (site.shared fs op).world.dbs.media =
      op.options?.elim site.world.dbs.media
        (Offmedia.tool site.world.order site.world.dbs.media) := by
  cases op with
  | site op => exact ⟨grown.after steady cautious, site.media_after op⟩
  | command options =>
      have dbs := World.commanded_dbs site.world options
      have alike :=
        Dbs.alike_media site.world.dbs (Offmedia.tool site.world.order site.world.dbs.media options)
      rw [← dbs] at alike
      have cached : valid (site.world.commanded options).cache := by
        rw [World.commanded_cache]
        exact grown.orderly.cached
      have space : (site.world.commanded options).dbs.space = site.world.dbs.space := alike.leads
      refine ⟨⟨⟨grown.orderly.hierarchy.alike alike, cached⟩, ?_⟩, ?_⟩
      · change Relation.ReflTransGen _ _ (site.world.commanded options).dbs.space
        rw [space]
        exact grown.grown
      · exact congrArg Dbs.media dbs

theorem Site.order_rebuilt (media : Db UInt32) (getuid getgid : UInt32) (clock : Nat → UInt64)
    (reply : List SysEvent → SysCall → SysResult) (order : ByteOrder) :
    (Site.rebuilt media getuid getgid clock reply order).world.order = order := by
  rw [Site.rebuilt, World.rebuilt, exec_order]
  rfl

theorem Site.media_rebuilt (media : Db UInt32) (getuid getgid : UInt32) (clock : Nat → UInt64)
    (reply : List SysEvent → SysCall → SysResult) (order : ByteOrder) :
    (Site.rebuilt media getuid getgid clock reply order).world.dbs.media = media := by
  rw [Site.rebuilt, World.rebuilt, exec_media]
  rfl

/-- When requests, imports and media commands come in any order, the media are what the media
commands alone make of them, and the directories are a hierarchy that has grown from the root by
single changes. -/
theorem database_shared (steady : fs.pcache.Steady valid) {media : Db UInt32}
    {getuid getgid : UInt32} {clock : Nat → UInt64} {reply : List SysEvent → SysCall → SysResult}
    {order : ByteOrder}
    {ops : List ToolOp} (meets : Meets (Site.shared fs) (Site.Cautious fs)
      (.rebuilt media getuid getgid clock reply order) ops) :
    let site := ops.foldl (Site.shared fs) (.rebuilt media getuid getgid clock reply order)
    site.world.dbs.media = (ops.filterMap ToolOp.options?).foldl (Offmedia.tool order) media ∧
      site.world.dbs.Hierarchy ∧
      Relation.ReflTransGen (Namespace.Step fun n : NodeRef => n.kind = .directory) rootSpace
        site.world.dbs.space := by
  have run : ∀ {start : Site} {ops : List ToolOp}, start.Grown valid →
      Meets (Site.shared fs) (Site.Cautious fs) start ops →
      (ops.foldl (Site.shared fs) start).Grown valid ∧
        (ops.foldl (Site.shared fs) start).world.dbs.media =
          (ops.filterMap ToolOp.options?).foldl (Offmedia.tool start.world.order)
            start.world.dbs.media := by
    intro start ops grown meets
    induction meets with
    | nil state => exact ⟨grown, rfl⟩
    | @cons state op ops cautious rest ih =>
        obtain ⟨after, changed⟩ := grown.shared steady cautious
        obtain ⟨final, media⟩ := ih after
        refine ⟨final, media.trans ?_⟩
        rw [changed, Site.order_shared]
        cases op with
        | site op => rfl
        | command options => rfl
  obtain ⟨grown, changed⟩ := run (Site.grown_rebuilt steady) meets
  rw [Site.media_rebuilt, Site.order_rebuilt] at changed
  exact ⟨changed, grown.orderly.hierarchy, grown.grown⟩

end Shared

/-- The medium gets another label. -/
def relabelling : Offmedia.Options :=
  { set := true, id := some 0, attr := some (str "label"), value := some (str "n") }

/-- A directory is made and a list imported before. -/
def sharing : List ToolOp :=
  cataloguing.map .site ++ [.command relabelling]

theorem sharing_meets :
    Meets (Site.shared mounted) (Site.Cautious mounted) mountedSite sharing := by
  cases cataloguing_prudent with
  | cons first rest =>
      cases rest with
      | cons second rest =>
          cases rest with
          | cons third _ => exact .cons first (.cons second (.cons third (.cons trivial (.nil _))))

theorem database_shared_relabelling :
    (sharing.foldl (Site.shared mounted) mountedSite).world.dbs.media =
        Offmedia.tool .little (directoryMedium 0 (str "m") (str "/b")) relabelling ∧
      (sharing.foldl (Site.shared mounted) mountedSite).world.dbs.Hierarchy := by
  obtain ⟨media, hierarchy, -⟩ := database_shared PathCache_hash.steady sharing_meets
  exact ⟨media, hierarchy⟩

/-! ## Where files go -/

namespace Dbs

variable {dbs : Dbs} {mid : UInt32} {m : Medium} {label : Bytes}

/-- The filesystem and the media tool find the same media. -/
theorem getmedium_eq_ok_iff :
    dbs.getmedium mid = .ok m ↔ Offmedia.getmedium dbs.media mid = .ok m := by
  unfold Dbs.getmedium Offmedia.getmedium
  cases dbs.media[(⟨mid, str "type"⟩ : Key UInt32)]? with
  | none => simp
  | some mediumtype =>
      by_cases isDirectory : mediumtype = str "directory"
      · simp [isDirectory]
      · by_cases isInsert : mediumtype = str "insert"
        · subst isInsert
          simp [if_neg isDirectory]
        · simp [isDirectory, isInsert]

theorem findLabel_eq_ok_iff (ids : List UInt32) :
    dbs.findLabel label ids = .ok m ↔ Offmedia.findLabel dbs.media label ids = .ok m := by
  induction ids with
  | nil => simp [Dbs.findLabel, Offmedia.findLabel]
  | cons id ids ih =>
      rw [Dbs.findLabel, Offmedia.findLabel]
      split
      · exact getmedium_eq_ok_iff
      · exact ih

/-- Where all media are known, a label is found when a medium has it. -/
theorem getmediumByLabel_iff (allKnown : Offmedia.AllKnown dbs.media)
    (idsLeft : Offmedia.IdsLeft dbs.media) :
    (∃ kind, dbs.getmediumByLabel label = .ok ⟨mid, kind⟩) ↔
      Offmedia.First dbs.media label mid := by
  have same (kind : MediumKind) : dbs.getmediumByLabel label = .ok ⟨mid, kind⟩ ↔
      Offmedia.getmediumByLabel dbs.media label = .ok ⟨mid, kind⟩ :=
    findLabel_eq_ok_iff dbs.mediaIds
  simp only [same]
  rw [Offmedia.getmediumByLabel_eq_ok_iff idsLeft, and_iff_left_iff_imp]
  intro first
  exact allKnown ⟨mid, str "label"⟩ (first.1 ▸ Option.some_ne_none label)

end Dbs

/-- Commands leave types alone while there are ids.  Nothing is asked of anything else. -/
def Site.Sparing (site : Site) : ToolOp → Prop
  | .site _ => True
  | .command options => Offmedia.IdsLeft site.world.dbs.media ∧ options.SparesTypes

section Placement

variable {fs : FS} {site : Site}

theorem Site.allKnown_shared (allKnown : Offmedia.AllKnown site.world.dbs.media) {op : ToolOp}
    (sparing : site.Sparing op) : Offmedia.AllKnown (site.shared fs op).world.dbs.media := by
  cases op with
  | site op =>
      have same : (site.after fs op).world.dbs.media = site.world.dbs.media := site.media_after op
      change Offmedia.AllKnown (site.after fs op).world.dbs.media
      rw [same]
      exact allKnown
  | command options =>
      change Offmedia.AllKnown (site.world.commanded options).dbs.media
      rw [World.commanded_dbs]
      exact allKnown.step sparing.1 sparing.2

/-- A file without a source is given a place where the default label is found. -/
theorem dbs_getsource {world : World} {fileid : UInt64} {medium : Medium}
    (missing : world.dbs.get .nodes fileid Attr.source.name = none)
    (found : world.dbs.getmediumByLabel fs.defmedium = .ok medium) (path : Bytes) (flags : UInt32) :
    (exec (fs.getsource fileid path flags) world).2.dbs =
      world.dbs.associate world.order fileid medium.id path := by
  have throws : exec (Source.getsource fileid flags) world = (.error .attrNotFound, world) := by
    simp only [Source.getsource, exec_bind, Node.exec_getattrv, Dbs.getattrv, missing]
    rfl
  simp only [FS.getsource, exec_catching, throws, Outcome.orElse_error, exec_bind,
    Medium.exec_getmediumByLabel, found, Outcome.ofExcept_ok, Outcome.andThen_ok, Medium.addfile,
    exec_pure, Node.exec_setattrv, Node.exec_setattr, World.withDbs_dbs]
  exact (callsSince_exec (calls_getsource fileid flags) _).dbs

/-- However requests, imports and media commands that leave types alone have come: a file that is
given a place goes to the lowest medium with the default label, as any file without a source is
if there is such a medium, and data are always kept in the directory of the medium of the file. -/
theorem files_placed {media : Db UInt32} (start : Offmedia.AllKnown media)
    {getuid getgid : UInt32} {clock : Nat → UInt64} {reply : List SysEvent → SysCall → SysResult}
    {order : ByteOrder}
    (reached : Reaches (Site.shared fs) Site.Sparing
      (.rebuilt media getuid getgid clock reply order) site)
    (idsLeft : Offmedia.IdsLeft site.world.dbs.media) (fileid : UInt64) (path : Bytes)
    (flags : UInt32) :
    ((exec (fs.getsource fileid path flags) site.world).2.dbs = site.world.dbs ∨
      ∃ mid, Offmedia.First site.world.dbs.media fs.defmedium mid ∧
        (exec (fs.getsource fileid path flags) site.world).2.dbs =
          site.world.dbs.associate site.world.order fileid mid path) ∧
      (site.world.dbs.get .nodes fileid Attr.source.name = none →
        ∀ mid, Offmedia.First site.world.dbs.media fs.defmedium mid →
          (exec (fs.getsource fileid path flags) site.world).2.dbs =
            site.world.dbs.associate site.world.order fileid mid path) ∧
      ∀ source, (exec (fs.getsource fileid path flags) site.world).1 = .ok source →
        ∃ mid phid directory,
          (exec (fs.getsource fileid path flags) site.world).2.dbs.Associated site.world.order
            fileid mid phid ∧
          site.world.dbs.media[(⟨mid, str "directory"⟩ : Key UInt32)]? = some directory ∧
          source.chunk.path = directory ++ [slash] ++ phid := by
  have allKnown : Offmedia.AllKnown site.world.dbs.media := by
    clear idsLeft
    induction reached with
    | start =>
        rw [Site.media_rebuilt]
        exact start
    | step op _ sparing ih => exact Site.allKnown_shared ih sparing
  have placed : site.world.dbs.get .nodes fileid Attr.source.name = none →
      ∀ mid, Offmedia.First site.world.dbs.media fs.defmedium mid →
        (exec (fs.getsource fileid path flags) site.world).2.dbs =
          site.world.dbs.associate site.world.order fileid mid path := by
    intro missing mid first
    obtain ⟨kind, found⟩ := (Dbs.getmediumByLabel_iff allKnown idsLeft).mpr first
    exact dbs_getsource missing found path flags
  obtain ⟨outcome, late, result, -, settled, opened⟩ :=
    FS.exec_getsource fs fileid path flags site.world
  have sameMedia : late.dbs.media = site.world.dbs.media := settled.sameExcept.media
  rw [result] at placed ⊢
  refine ⟨?_, placed, ?_⟩
  · rcases settled with same | ⟨-, medium, found, isPlaced⟩
    · exact .inl same
    · exact .inr ⟨medium.id, (Dbs.getmediumByLabel_iff allKnown idsLeft).mp ⟨medium.kind, found⟩,
        isPlaced⟩
  · intro source isSource
    obtain ⟨mid, phid, associated, backing⟩ := (opened source isSource).chunk
    rw [Dbs.backing, sameMedia, Option.map_eq_some_iff] at backing
    obtain ⟨directory, stored, joined⟩ := backing
    exact ⟨mid, phid, directory, associated, stored, joined.symm⟩

end Placement

/-- A file is made on the filesystem. -/
def filedSite : Site :=
  mountedSite.shared mounted (.site (.call (rootContext, .mknod (str "/f") 0o100644 0)))

set_option maxRecDepth 100000 in
/-- The file goes to the chunk of its path on the default medium. -/
theorem files_placed_filed : (exec (mounted.getsource 1 (str "/f") oRdwr) filedSite.world).2.dbs =
    filedSite.world.dbs.associate filedSite.world.order 1 0 (str "/f") := by
  have start : Offmedia.AllKnown (directoryMedium 0 (str "m") (str "/b")) := by
    have listed : ∀ key ∈ (directoryMedium 0 (str "m") (str "/b")).keys,
        Offmedia.known (directoryMedium 0 (str "m") (str "/b")) key.id = true := by
      decide +kernel
    exact fun key present => listed key (Offmedia.present_iff.mp present)
  have idsLeft : Offmedia.IdsLeft filedSite.world.dbs.media :=
    Offmedia.idsLeft_of_keys (by decide +kernel)
  have missing : filedSite.world.dbs.get .nodes 1 Attr.source.name = none := by decide +kernel
  have labelled : filedSite.world.dbs.media[(⟨0, str "label"⟩ : Key UInt32)]? = some (str "m") := by
    decide +kernel
  have reached : Reaches (Site.shared mounted) Site.Sparing mountedSite filedSite :=
    .step _ .start trivial
  exact (files_placed start reached idsLeft 1 (str "/f") oRdwr).2.1 missing 0
    ⟨labelled, fun other _ => UInt32.zero_le⟩

end OfflineFs
