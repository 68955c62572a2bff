import OfflineFs.Changes.Census
import OfflineFs.Run.Durable

/-!
# Crashes

The three databases are committed one after another, the nodes last.  A request that changes
names and is cut off has changed the namespace or it has not.  Only the node of a new name can be
missing then, and only the links can be counted as they were before.
-/

namespace OfflineFs

open OfflineFs.Effect OfflineFs.Effect.Program OfflineFs.Transition

namespace Request

/-- The requests that make a node. -/
def Makes : Request → Bool
  | mknod _ _ _ | mkdir _ _ | symlink _ _ => true
  | _ => false

/-- The requests that only remove names. -/
def Removes : Request → Bool
  | unlink _ | rmdir _ => true
  | _ => false

end Request

namespace Dbs

variable {before middle after dbs : Dbs} {s d id : UInt64} {name old new : Bytes}
variable {n src dst : NodeRef} {request : Request}

/-- What is left after a crash.  Its namespace is the one before the request or the one after
it.  Each entry is for a node that is there; of a request that makes a node, it may be for the
id that is the next to be given out.  A request that only removes names leaves no count of
links below the number of entries. -/
structure Recovers (before after : Dbs) (request : Request) (dbs : Dbs) : Prop where
  space : dbs.space = before.space ∨ dbs.space = after.space
  entry : ∀ {d name value}, dbs.get .directories d name = some value →
    (∃ n, value = hostToDb n.id ∧ dbs.getnode n.id = .ok n) ∨
      request.Makes = true ∧ value = hostToDb dbs.nodes.nextId
  counted : request.Removes = true → ∀ id, dbs.refs id ≤ dbs.links id

/-! ## Whole states -/

theorem Hierarchy.recovers (hierarchy : dbs.Hierarchy)
    (isEnd : dbs.space = before.space ∨ dbs.space = after.space) :
    before.Recovers after request dbs where
  space := isEnd
  entry stored := by
    obtain ⟨n, -, same, isNode⟩ := hierarchy.child_of_entry stored
    exact .inl ⟨n, same, isNode⟩
  counted _ id := by rw [hierarchy.balanced]

/-! ## Entries of one state and nodes of another -/

theorem refs_le (entries : ∀ d name, after.get .directories d name = some (hostToDb id) →
    before.get .directories d name = some (hostToDb id)) : after.refs id ≤ before.refs id := by
  rw [refs_eq_ncard, refs_eq_ncard]
  exact Set.ncard_le_ncard (fun key stored => entries key.id key.name stored)
    (finite_entriesFor before id)

/-- Every entry of the one is for a node that both have, or neither. -/
def Agree (before after : Dbs) : Prop :=
  ∀ {d name id}, after.get .directories d name = some (hostToDb id) →
    after.getnode id = before.getnode id

/-- Where the nodes agree, names lead where they lead after the change. -/
theorem Agree.leads (agree : Agree before after) : (before.torn after).Leads = after.Leads := by
  have edges : (before.torn after).Edge = after.Edge := by
    funext n name m
    apply propext
    rw [edge_iff, edge_iff]
    constructor
    · rintro ⟨isDirectory, isName, stored, isNode⟩
      exact ⟨isDirectory, isName, stored, (agree stored).trans isNode⟩
    · rintro ⟨isDirectory, isName, stored, isNode⟩
      exact ⟨isDirectory, isName, stored, (agree stored).symm.trans isNode⟩
  funext names n
  rw [Leads, Leads, edges]

theorem Agree.recovers (agree : Agree before after) (tidy : after.Hierarchy)
    (hierarchy : before.Hierarchy)
    (fewer : request.Removes = true → ∀ id, after.refs id ≤ before.refs id) :
    before.Recovers after request (before.torn after) where
  space := .inr agree.leads
  entry stored := by
    obtain ⟨n, found, same, isNode⟩ := tidy.child_of_entry stored
    exact .inl ⟨n, same, (agree found).symm.trans isNode⟩
  counted removes id := by
    change after.refs id ≤ before.links id
    rw [hierarchy.balanced]
    exact fewer removes id

/-- Names that came for a node that is not there lead nowhere. -/
theorem leads_torn (kept : ∀ {d name value}, before.get .directories d name = some value →
      after.get .directories d name = some value)
    (missing : ∀ {d name value}, IsName name → after.get .directories d name = some value →
      before.get .directories d name = some value ∨ value = hostToDb before.nodes.nextId)
    (fresh : ∀ n, before.getnode before.nodes.nextId ≠ .ok n) :
    (before.torn after).Leads = before.Leads := by
  have edges : (before.torn after).Edge = before.Edge := by
    funext n name m
    apply propext
    rw [edge_iff, edge_iff]
    constructor
    · rintro ⟨isDirectory, isName, stored, isNode⟩
      rcases missing isName stored with earlier | isNew
      · exact ⟨isDirectory, isName, earlier, isNode⟩
      · rw [hostToDb_inj] at isNew
        rw [isNew] at isNode
        exact absurd isNode (fresh m)
    · rintro ⟨isDirectory, isName, stored, isNode⟩
      exact ⟨isDirectory, isName, kept stored, isNode⟩
  funext names n
  rw [Leads, Leads, edges]

section Changes

variable (hierarchy : before.Hierarchy)

include hierarchy

/-- The node of a new name is not there. -/
theorem Gained.recovers {kind : NodeKind}
    (gained : before.Gained d name ⟨before.nodes.nextId, kind⟩ after)
    (fresh : ∀ n, before.getnode before.nodes.nextId ≠ .ok n) (makes : request.Makes = true)
    (kept : request.Removes = false) : before.Recovers after request (before.torn after) := by
  have cases {dir leaf value} (stored : after.get .directories dir leaf = some value) :
      before.get .directories dir leaf = some value ∨ value = hostToDb before.nodes.nextId := by
    rw [gained.entries] at stored
    split at stored
    · exact .inr (Option.some.inj stored).symm
    · exact .inl stored
  constructor
  · exact .inl (leads_torn gained.entry_kept (fun _ => cases) fresh)
  · intro dir leaf value stored
    rcases cases stored with earlier | isNew
    · obtain ⟨n, -, same, isNode⟩ := hierarchy.child_of_entry earlier
      exact .inl ⟨n, same, isNode⟩
    · exact .inr ⟨makes, isNew⟩
  · intro removes
    rw [kept] at removes
    cases removes

/-- The new directory is not there, but its entries are. -/
theorem Founded.recovers (founded : before.Founded d name before.nodes.nextId after)
    (makes : request.Makes = true) (kept : request.Removes = false) :
    before.Recovers after request (before.torn after) := by
  have cases {dir leaf value} (stored : after.get .directories dir leaf = some value) :
      (leaf = str ".." ∧ value = hostToDb d) ∨ before.get .directories dir leaf = some value ∨
        value = hostToDb before.nodes.nextId := by
    rw [founded.entries] at stored
    split at stored
    · rename_i isUp
      exact .inl ⟨isUp.2, (Option.some.inj stored).symm⟩
    · split at stored
      · exact .inr (.inr (Option.some.inj stored).symm)
      · split at stored
        · exact .inr (.inr (Option.some.inj stored).symm)
        · exact .inr (.inl stored)
  constructor
  · refine .inl (leads_torn (founded.entry_kept hierarchy) ?_ founded.fresh)
    intro dir leaf value isName stored
    rcases cases stored with ⟨isUp, -⟩ | others
    · exact absurd isUp isName.2
    · exact others
  · intro dir leaf value stored
    rcases cases stored with ⟨-, isUp⟩ | earlier | isNew
    · exact .inl ⟨⟨d, .directory⟩, isUp, founded.directory⟩
    · obtain ⟨n, -, same, isNode⟩ := hierarchy.child_of_entry earlier
      exact .inl ⟨n, same, isNode⟩
    · exact .inr ⟨makes, isNew⟩
  · intro removes
    rw [kept] at removes
    cases removes

omit hierarchy in
theorem Dropped.refs_le (dropped : before.Dropped d name n after) (id : UInt64) :
    after.refs id ≤ before.refs id :=
  Dbs.refs_le fun _ _ stored => (dropped.entry_before stored).2.2

/-- A name that was replaced and one that moved there are for the nodes of before. -/
theorem Dropped.agree_shifted (dropped : before.Dropped d new dst middle)
    (shifted : middle.Shifted s old d new src after) : Agree before after := by
  intro dir leaf id stored
  have source := (getchild_eq_ok_iff.mp shifted.child).1
  rw [shifted.entries] at stored
  rw [shifted.getnode]
  split at stored
  · cases stored
  · split at stored
    · rw [Option.some.injEq, hostToDb_inj] at stored
      rw [← stored]
      exact dropped.getnode_of_entry hierarchy source
    · split at stored
      · rw [Option.some.injEq, hostToDb_inj] at stored
        rw [← stored, shifted.directory, dropped.directory hierarchy]
      · exact dropped.getnode_of_entry hierarchy stored

end Changes

end Dbs

/-! ## Requests -/

section Requests

variable {fs : FS} {valid : PathCacheState → Prop} {world : World} {sctx : SContext}
variable {request : Request} {after : Dbs}

/-- What a crash in the middle of a request leaves can be recovered. -/
theorem Request.Reshapes.recovers (reshapes : request.Reshapes fs sctx world after)
    (hierarchy : world.dbs.Hierarchy) (idsLeft : world.dbs.nodes.IdsLeft) :
    world.dbs.Recovers after request (world.dbs.torn after) := by
  have tidy := (reshapes.performs hierarchy idsLeft).1
  have fresh := hierarchy.not_node_nextId idsLeft
  cases reshapes with
  | mknod finds gained => exact gained.recovers hierarchy fresh rfl rfl
  | mkdir finds founded => exact founded.recovers hierarchy rfl rfl
  | symlink finds gained => exact gained.recovers hierarchy fresh rfl rfl
  | @link oldpath newpath d n finds findsNode isNode gained =>
      have agree : Dbs.Agree world.dbs after := by
        intro dir leaf id stored
        rw [gained.getnode]
        split
        · rename_i same
          rw [same, isNode]
        · rfl
      exact agree.recovers tidy hierarchy fun removes => by cases removes
  | unlink finds isFile dropped =>
      have agree : Dbs.Agree world.dbs after := dropped.getnode_of_entry hierarchy
      exact agree.recovers tidy hierarchy fun _ => dropped.refs_le
  | rmdir finds dropped =>
      have agree : Dbs.Agree world.dbs after := dropped.getnode_of_entry hierarchy
      exact agree.recovers tidy hierarchy fun _ => dropped.refs_le
  | same alike =>
      have agree : Dbs.Agree world.dbs after := fun _ => alike.getnode _
      exact agree.recovers tidy hierarchy fun removes => by cases removes
  | move finds findsNew ends shifted =>
      have agree : Dbs.Agree world.dbs after := fun _ => shifted.getnode _
      exact agree.recovers tidy hierarchy fun removes => by cases removes
  | replace finds findsNew ends dropped shifted =>
      have agree : Dbs.Agree world.dbs after := dropped.agree_shifted hierarchy shifted
      exact agree.recovers tidy hierarchy fun removes => by cases removes

/-- A request that changes names and is cut off leaves what can be relied on. -/
theorem World.Orderly.recovers (steady : fs.pcache.Steady valid) (orderly : world.Orderly valid)
    (saved : world.Saved) {call : Call} (prudent : world.Prudent fs call)
    (names : call.2.Names = true) {dbs : Dbs}
    (leaves : world.Leavings (world.after fs call) dbs) :
    world.dbs.Recovers (world.after fs call).dbs call.2 dbs := by
  have hierarchy := orderly.hierarchy
  have tidy := (orderly.after steady prudent).1.hierarchy
  rcases leaves.cases steady.sound saved names with rfl | rfl | rfl
  · exact hierarchy.recovers (.inl rfl)
  · exact tidy.recovers (.inr rfl)
  · obtain ⟨roomy, sensible, withstands⟩ := prudent
    have settles := Request.settles steady orderly.cached hierarchy roomy sensible
    rw [World.Withstands] at withstands
    rw [World.after] at tidy ⊢
    rcases result : exec (call.2.prog fs call.1) world with ⟨outcome, ended⟩
    rw [result] at settles tidy withstands
    have unchanged (alike : world.dbs.Alike ended.dbs) :
        world.dbs.Recovers ended.dbs call.2 (world.dbs.torn ended.dbs) := by
      have agree : Dbs.Agree world.dbs ended.dbs := fun _ => alike.getnode _
      exact agree.recovers tidy hierarchy fun _ id => (alike.refs id).le
    cases outcome with
    | ok code =>
        obtain ⟨-, ⟨caller, succeeds, reshapes⟩ | ⟨fails, alike⟩⟩ := settles
        · exact reshapes.recovers hierarchy roomy.idsLeft
        · exact unchanged alike
    | error e => exact unchanged settles.2
    | fault stop =>
        rcases settles with ⟨fragile, same⟩ | ⟨-, alike, -⟩
        · exact absurd (congrArg Outcome.fault same) (withstands fragile)
        · exact unchanged alike

end Requests

/-! ## Runs -/

/-- One more call that is relied on, and that returns. -/
def World.Completes (fs : FS) (world : World) (call : Call) : Prop :=
  world.Prudent fs call ∧ ∀ stop, (exec (call.2.prog fs call.1) world).1 ≠ .fault stop

section Runs

variable {media : Db UInt32} {getuid getgid : UInt32} {clock : Nat → UInt64}
variable {reply : List SysEvent → SysCall → SysResult} {order : ByteOrder}
variable {fs : FS} {valid : PathCacheState → Prop} {world : World}

theorem World.saved_rebuilt : (World.rebuilt media getuid getgid clock reply order).Saved := by
  obtain ⟨ended, atime, mtime, ctime, rebuilds, -⟩ :=
    World.exec_rebuild media getuid getgid clock reply order
  rw [World.rebuilt, rebuilds]
  rfl

/-- In every state that a run of calls reaches, one more call that changes names commits the
media, the directories and the nodes when its body has ended, and nothing before.  A crash
leaves the namespace as it was or as the call makes it.  At most the node of a new name is
missing, and removing a name leaves no node with fewer links than entries. -/
theorem crash_recovered (steady : fs.pcache.Steady valid)
    (reached : Reaches (World.after fs) (World.Completes fs)
      (.rebuilt media getuid getgid clock reply order) world) {call : Call}
    (prudent : world.Prudent fs call) (names : call.2.Names = true) :
    world.Commits (world.after fs call) (exec (call.2.prog fs call.1) world).1 ∧
      ∀ dbs, world.Leavings (world.after fs call) dbs →
        world.dbs.Recovers (world.after fs call).dbs call.2 dbs := by
  have orderly : world.Orderly valid :=
    World.orderly_reached steady (reached.mono fun _ _ completes => completes.1)
  have saved : world.Saved :=
    reached.invariant World.saved_rebuilt fun _ _ saved completes => saved.after completes.2
  exact ⟨World.commits_after steady.sound saved names,
    fun _ leaves => orderly.recovers steady saved prudent names leaves⟩

end Runs

set_option maxRecDepth 100000 in
/-- The calls of this run return. -/
theorem gathering_completes :
    Meets (World.after mounted) (World.Completes mounted) mountedWorld gathering := by
  have returns {prog : FsProg Int} {world : World} (ends : (exec prog world).1 = .ok 0)
      (stop : Fault) : (exec prog world).1 ≠ .fault stop := by
    rw [ends]
    exact fun faults => by cases faults
  cases gathering_meets with
  | cons first rest =>
      cases rest with
      | cons second rest =>
          refine .cons ⟨first, returns ?_⟩ (.cons ⟨second, returns ?_⟩ (.nil _))
          · decide +kernel
          · decide +kernel

set_option maxRecDepth 100000 in
theorem filing_torn : gathered.Leavings (gathered.after mounted filing)
    (gathered.dbs.torn (gathered.after mounted filing).dbs) := by
  have saved : gathered.Saved := gathering_completes.reaches.invariant World.saved_rebuilt
    fun _ _ saved completes => saved.after completes.2
  have ends : (exec (filing.2.prog mounted filing.1) gathered).1 = .ok 0 := by decide +kernel
  apply World.leaves_torn PathCache_hash.sound saved rfl
  rw [ends]
  exact fun stop faults => by cases faults

/-- The crash comes before the last commit of moving a file. -/
theorem crash_recovered_filing :
    gathered.Commits (gathered.after mounted filing)
        (exec (filing.2.prog mounted filing.1) gathered).1 ∧
      gathered.dbs.Recovers (gathered.after mounted filing).dbs filing.2
        (gathered.dbs.torn (gathered.after mounted filing).dbs) := by
  obtain ⟨commits, recovers⟩ :=
    crash_recovered PathCache_hash.steady gathering_completes.reaches filing_prudent rfl
  exact ⟨commits, recovers _ filing_torn⟩

end OfflineFs
