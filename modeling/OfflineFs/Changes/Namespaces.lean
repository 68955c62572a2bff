import OfflineFs.Changes.Performances

/-!
# Runs and namespaces

What holds of the directories in every state that requests lead to.  Whatever path cache is
used, the directories are a hierarchy, and each request changes the namespace as it asks
for, or leaves it.
-/

namespace OfflineFs

open OfflineFs.Effect OfflineFs.Effect.Program OfflineFs.Transition

/-- The directories are a hierarchy, and the path cache is valid. -/
structure World.Orderly (valid : PathCacheState → Prop) (world : World) : Prop where
  hierarchy : world.dbs.Hierarchy
  cached : valid world.cache

/-- The path cache withstands the call: no lookup of it uses what was freed. -/
def World.Withstands (fs : FS) (world : World) (call : Call) : Prop :=
  fs.pcache.Fragile → (exec (call.2.prog fs call.1) world).1 ≠ .fault .undefined

/-- There is room for one more call, it is one that is relied on, and the path cache withstands
it. -/
def World.Prudent (fs : FS) (world : World) (call : Call) : Prop :=
  world.dbs.Roomy ∧ call.2.Sensible fs call.1 world ∧ world.Withstands fs call

/-- How a call ends: the namespace has changed as the request asks for and the result is 0,
or it is as it was.  A request that changes names returns 0 in the first case only, and
returns at all unless there are more entries than rounds for climbing. -/
inductive Call.Refines (fs : FS) (world : World) (call : Call) :
    Outcome Err Int → Namespace Bytes NodeRef → Prop
  | done {sctx : SContext} {after : Namespace Bytes NodeRef} (caller : call.1.sctx = some sctx)
      (performs : call.2.Performs fs sctx world after) : Refines fs world call (.ok 0) after
  | left {outcome : Outcome Err Int} (fails : call.2.Names = true → outcome ≠ .ok 0)
      (returns : ∀ stop, outcome = .fault stop → call.2.Halts fs world) :
      Refines fs world call outcome world.dbs.space

/-! ## One call -/

section Calls

variable {fs : FS} {valid : PathCacheState → Prop} {world : World} {call : Call}

/-- A prudent call keeps the world orderly and is a change of the namespace. -/
theorem World.Orderly.after (steady : fs.pcache.Steady valid) (orderly : world.Orderly valid)
    (prudent : world.Prudent fs call) : (world.after fs call).Orderly valid ∧
      call.Refines fs world (exec (call.2.prog fs call.1) world).1
        (world.after fs call).dbs.space := by
  obtain ⟨roomy, sensible, withstands⟩ := prudent
  have settles := Request.settles steady orderly.cached orderly.hierarchy roomy sensible
  rw [World.Withstands] at withstands
  rw [World.after]
  rcases result : exec (call.2.prog fs call.1) world with ⟨outcome, after⟩
  rw [result] at settles withstands
  have unchanged (alike : world.dbs.Alike after.dbs)
      (fails : call.2.Names = true → outcome ≠ .ok 0)
      (returns : ∀ stop, outcome = .fault stop → call.2.Halts fs world) :
      after.dbs.Hierarchy ∧ call.Refines fs world outcome after.dbs.space := by
    refine ⟨orderly.hierarchy.alike alike, ?_⟩
    rw [Dbs.space, alike.leads]
    exact .left fails returns
  cases outcome with
  | ok code =>
      obtain ⟨cached, ⟨caller, succeeds, reshapes⟩ | ⟨fails, alike⟩⟩ := settles
      · obtain ⟨hierarchy, performs⟩ := reshapes.performs orderly.hierarchy roomy.idsLeft
        subst succeeds
        exact ⟨⟨hierarchy, cached⟩, .done caller performs⟩
      · obtain ⟨hierarchy, refines⟩ := unchanged alike
          (fun names same => fails names (Outcome.ok.inj same)) fun _ same => by cases same
        exact ⟨⟨hierarchy, cached⟩, refines⟩
  | error e =>
      obtain ⟨hierarchy, refines⟩ := unchanged settles.2 (fun _ same => by cases same)
        fun _ same => by cases same
      exact ⟨⟨hierarchy, settles.1⟩, refines⟩
  | fault stop =>
      rcases settles with ⟨fragile, same⟩ | ⟨cached, alike, halts⟩
      · exact absurd (congrArg Outcome.fault same) (withstands fragile)
      · obtain ⟨hierarchy, refines⟩ := unchanged alike (fun _ same => by cases same)
          fun _ _ => halts
        exact ⟨⟨hierarchy, cached⟩, refines⟩

/-- Whatever a call does is a change of a namespace. -/
theorem Call.Refines.step {outcome : Outcome Err Int} {after : Namespace Bytes NodeRef}
    (refines : call.Refines fs world outcome after) :
    Namespace.Step (fun n : NodeRef => n.kind = .directory) world.dbs.space after := by
  cases refines with
  | done caller performs => exact performs.step
  | left fails returns => exact .keep

end Calls

/-! ## The start -/

namespace Dbs

/-- There is nothing but the root directory, with its two entries. -/
structure Lone (dbs : Dbs) : Prop where
  root : dbs.getnode 0 = .ok ⟨0, .directory⟩
  alone : ∀ {id}, 0 ≠ id → ∀ name, dbs.get .nodes id name = none
  entries : ∀ d name, dbs.get .directories d name =
    if d = 0 ∧ (name = str "." ∨ name = str "..") then some (hostToDb (0 : UInt64)) else none
  balanced : dbs.Balanced

namespace Lone

variable {dbs : Dbs} (lone : dbs.Lone) {n : NodeRef} {d : UInt64} {name value : Bytes}

include lone

theorem eq_root (isNode : dbs.getnode n.id = .ok n) : n = ⟨0, .directory⟩ := by
  by_cases same : (0 : UInt64) = n.id
  · rw [← same, lone.root] at isNode
    exact (Except.ok.inj isNode).symm
  · obtain ⟨mode, isMode, -⟩ := getnode_eq_ok_iff.mp isNode
    have stored := getattr_eq_ok_iff.mp isMode
    rw [lone.alone same] at stored
    cases stored

theorem eq_zero (isDirectory : dbs.getnode d = .ok ⟨d, .directory⟩) : d = 0 := by
  have same : (⟨d, .directory⟩ : NodeRef) = ⟨0, .directory⟩ :=
    lone.eq_root (n := ⟨d, .directory⟩) isDirectory
  exact congrArg NodeRef.id same

theorem entry (stored : dbs.get .directories d name = some value) :
    d = 0 ∧ (name = str "." ∨ name = str "..") ∧ value = hostToDb (0 : UInt64) := by
  rw [lone.entries] at stored
  split at stored
  · rename_i both
    exact ⟨both.1, both.2, (Option.some.inj stored).symm⟩
  · cases stored

theorem not_child (isName : IsName name) : dbs.getchild d name ≠ .ok n := by
  intro child
  obtain ⟨-, own | up, -⟩ := lone.entry (getchild_eq_ok_iff.mp child).1
  · exact isName.1 own
  · exact isName.2 up

theorem own : dbs.get .directories 0 (str ".") = some (hostToDb (0 : UInt64)) := by
  rw [lone.entries, if_pos ⟨rfl, .inl rfl⟩]

/-- The root directory alone is a hierarchy. -/
theorem hierarchy : dbs.Hierarchy := by
  constructor
  · constructor
    · exact lone.root
    · intro d name value stored
      obtain ⟨rfl, -, rfl⟩ := lone.entry stored
      exact ⟨lone.root, ⟨0, .directory⟩, getchild_eq_ok_iff.mpr ⟨stored, lone.root⟩⟩
    · intro d isDirectory
      rw [lone.eq_zero isDirectory, lone.own]
    · exact fun isName child => absurd child (lone.not_child isName)
    · exact fun isName _ child => absurd child (lone.not_child isName)
    · exact fun isName child => absurd child (lone.not_child isName)
    · exact fun {id n} isNode => lone.balanced id
  · rw [lone.entries, if_pos ⟨rfl, .inr rfl⟩]
  · intro d isDirectory
    rw [lone.eq_zero isDirectory]
    exact ⟨[], .nil _⟩
  · intro d name value stored
    obtain ⟨-, rfl | rfl, -⟩ := lone.entry stored
    · decide
    · decide
  · exact lone.balanced
  · intro n isNode
    rw [lone.eq_root isNode]
    exact refs_pos_iff.mpr ⟨0, str ".", lone.own⟩

/-- Only the empty list leads anywhere. -/
theorem leads_iff {names : List Bytes} :
    dbs.Leads names n ↔ names = [] ∧ n = ⟨0, .directory⟩ := by
  constructor
  · intro leads
    cases leads with
    | nil => exact ⟨rfl, rfl⟩
    | cons edge rest => exact absurd edge.2.2 (lone.not_child edge.2.1)
  · rintro ⟨rfl, rfl⟩
    exact .nil _

end Lone

variable {media : Db UInt32} {getuid getgid : UInt32} {atime mtime ctime : UInt64}

theorem get_directories_rooted (d : UInt64) (name : Bytes) :
    (rooted media getuid getgid atime mtime ctime).get .directories d name =
      if d = 0 ∧ (name = str "." ∨ name = str "..") then some (hostToDb (0 : UInt64))
      else none := by
  have empty : (⟨∅, ∅, media⟩ : Dbs).get .directories d name = none := rfl
  simp only [rooted, get_directories_entered, get_directories_setattr, get_directories_typed, empty]
  by_cases isRoot : d = 0
  · by_cases own : name = str "."
    · simp [isRoot, own]
    · simp [isRoot, own]
  · simp [isRoot]

/-- Both entries of the root directory are counted. -/
theorem refs_rooted (id : UInt64) :
    (rooted media getuid getgid atime mtime ctime).refs id =
      if (0 : UInt64) = id then 2 else 0 := by
  have empty : ((⟨∅, ∅, media⟩ : Dbs).typed 0 atime mtime ctime sIfdir).refs id = 0 :=
    Map.countIf_empty
  unfold rooted
  simp only
  rw [refs_entered, refs_setattr, refs_setattr, refs_setattr, refs_entered, empty]
  · split <;> rfl
  · rw [get_directories_typed]
    rfl
  · rw [get_directories_setattr, get_directories_setattr, get_directories_setattr,
      get_directories_entered, if_neg (by decide), get_directories_typed]
    rfl

theorem balanced_rooted : (rooted media getuid getgid atime mtime ctime).Balanced := by
  intro id
  rw [refs_rooted]
  by_cases isRoot : (0 : UInt64) = id
  · rw [if_pos isRoot, ← isRoot, rooted, links_entered, if_pos rfl]
    rfl
  · rw [if_neg isRoot]
    exact links_of_absent (get_nodes_rooted_of_ne media getuid getgid atime mtime ctime isRoot _)

theorem lone_rooted : (rooted media getuid getgid atime mtime ctime).Lone where
  root := getnode_rooted media getuid getgid atime mtime ctime
  alone other name := get_nodes_rooted_of_ne media getuid getgid atime mtime ctime other name
  entries := get_directories_rooted
  balanced := balanced_rooted

end Dbs

/-! ## Runs -/

section Runs

variable {media : Db UInt32} {getuid getgid : UInt32} {clock : Nat → UInt64}
variable {reply : List SysEvent → SysCall → SysResult} {order : ByteOrder}
variable {fs : FS} {valid : PathCacheState → Prop} {world : World}

theorem World.lone_rebuilt : (World.rebuilt media getuid getgid clock reply order).dbs.Lone := by
  obtain ⟨atime, mtime, ctime, same⟩ :=
    World.exists_rebuilt_eq media getuid getgid clock reply order
  rw [same]
  exact Dbs.lone_rooted

theorem World.cache_rebuilt :
    (World.rebuilt media getuid getgid clock reply order).cache = .initial := by
  have calls : Calls Uncached (FsDb.rebuild getuid getgid) :=
    uncached_serving (Scope.serving_builds.rebuild trivial getuid getgid)
  rw [World.rebuilt, cache_exec calls, World.erased]

theorem World.orderly_rebuilt (steady : fs.pcache.Steady valid) :
    (World.rebuilt media getuid getgid clock reply order).Orderly valid where
  hierarchy := World.lone_rebuilt.hierarchy
  cached := by
    rw [World.cache_rebuilt]
    exact steady.initial

/-- Nothing but the root directory. -/
def rootSpace : Namespace Bytes NodeRef :=
  fun names n => names = [] ∧ n = ⟨0, .directory⟩

theorem World.space_rebuilt :
    (World.rebuilt media getuid getgid clock reply order).dbs.space = rootSpace := by
  funext names n
  exact propext World.lone_rebuilt.leads_iff

theorem World.orderly_reached (steady : fs.pcache.Steady valid)
    (reached : Reaches (World.after fs) (World.Prudent fs)
      (.rebuilt media getuid getgid clock reply order) world) : world.Orderly valid :=
  reached.invariant (World.orderly_rebuilt steady)
    fun _ _ orderly prudent => (orderly.after steady prudent).1

/-- In every state that a run reaches, whatever path cache it uses, the directories are a
tree under the root with their own entries right, every count of links is the number of
entries, and the nodes are those that a list of names leads to. -/
theorem hierarchy_reached (steady : fs.pcache.Steady valid)
    (reached : Reaches (World.after fs) (World.Prudent fs)
      (.rebuilt media getuid getgid clock reply order) world) :
    world.dbs.Hierarchy ∧
      ∀ n, world.dbs.getnode n.id = .ok n ↔ ∃ names, world.dbs.Leads names n := by
  have hierarchy := (World.orderly_reached steady reached).hierarchy
  refine ⟨hierarchy, fun n => ⟨hierarchy.exists_leads, ?_⟩⟩
  rintro ⟨names, leads⟩
  exact hierarchy.getnode_of_leads leads

/-- The names of a run are a namespace that starts with the root alone and takes one step
for every call; each call that returns 0 makes the change that it asks for, and any other
makes none. -/
theorem namespace_refined (steady : fs.pcache.Steady valid)
    (reached : Reaches (World.after fs) (World.Prudent fs)
      (.rebuilt media getuid getgid clock reply order) world) :
    Relation.ReflTransGen (Namespace.Step fun n : NodeRef => n.kind = .directory) rootSpace
        world.dbs.space ∧
      ∀ call, world.Prudent fs call → call.Refines fs world
        (exec (call.2.prog fs call.1) world).1 (world.after fs call).dbs.space := by
  constructor
  · induction reached with
    | start => rw [World.space_rebuilt]
    | step call reached prudent ih =>
        exact ih.tail ((World.orderly_reached steady reached).after steady prudent).2.step
  · exact fun call prudent => ((World.orderly_reached steady reached).after steady prudent).2

end Runs

/-! ### A file that is moved into a directory -/

/-- A directory and a file are made. -/
def gathering : List Call :=
  [(rootContext, .mkdir (str "/d") 0o755), (rootContext, .mknod (str "/f") 0o100644 0)]

/-- The file is moved into the directory. -/
def filing : Call :=
  (rootContext, .rename (str "/f") (str "/d/g"))

/-- The world with a directory and a file. -/
def gathered : World :=
  gathering.foldl (World.after mounted) mountedWorld

set_option maxRecDepth 100000 in
theorem gathering_meets :
    Meets (World.after mounted) (World.Prudent mounted) mountedWorld gathering := by
  refine .cons ⟨⟨?_, ?_⟩, ?_, ?_⟩ (.cons ⟨⟨?_, ?_⟩, ?_, ?_⟩ (.nil _))
  · exact Db.idsLeft_of_keys (by decide +kernel)
  · exact Dbs.bounded_of_values (by decide +kernel)
  · exact ⟨⟨rfl, by decide⟩, by decide⟩
  · exact fun _ => by decide +kernel
  · exact Db.idsLeft_of_keys (by decide +kernel)
  · exact Dbs.bounded_of_values (by decide +kernel)
  · exact ⟨⟨rfl, by decide⟩, by decide⟩
  · exact fun _ => by decide +kernel

set_option maxRecDepth 100000 in
/-- Moving the file into the directory is prudent. -/
theorem filing_prudent : gathered.Prudent mounted filing := by
  have hierarchy : gathered.dbs.Hierarchy :=
    (World.orderly_reached PathCache_hash.steady gathering_meets.reaches).hierarchy
  refine ⟨⟨?_, ?_⟩, ⟨⟨rfl, by decide⟩, by decide, by decide, ?_⟩, fun _ => by decide +kernel⟩
  · exact Db.idsLeft_of_keys (by decide +kernel)
  · exact Dbs.bounded_of_values (by decide +kernel)
  · intro sctx s d caller finds findsNew
    refine ⟨fun _ same => absurd same (by decide), fun _ _ => ?_⟩
    obtain rfl : ⟨0, 0, [0]⟩ = sctx := Option.some.inj caller
    have root : mounted.pcache.Finds ⟨0, 0, [0]⟩ gathered (parentOf (str "/f"))
        ⟨0, .directory⟩ := by
      unfold PathCache.Finds
      decide +kernel
    have inner : mounted.pcache.FindsNext ⟨0, 0, [0]⟩ gathered (parentOf (str "/f"))
        (parentOf (str "/d/g")) ⟨1, .directory⟩ := by
      unfold PathCache.FindsNext PathCache.Finds
      decide +kernel
    have child : gathered.dbs.getchild 0 (leafOf (str "/f")) = .ok ⟨2, .file⟩ := by
      decide +kernel
    obtain rfl : 0 = s := congrArg NodeRef.id (Outcome.ok.inj (root.symm.trans finds))
    obtain rfl : 1 = d := congrArg NodeRef.id (Outcome.ok.inj (inner.symm.trans findsNew))
    exact hierarchy.ends child (by decide) (by decide) fun isDirectory => by cases isDirectory

theorem hierarchy_reached_filed : (gathered.after mounted filing).dbs.Hierarchy :=
  (hierarchy_reached PathCache_hash.steady
    (gathering_meets.reaches.step filing filing_prudent)).1

theorem namespace_refined_filing :
    filing.Refines mounted gathered (exec (filing.2.prog mounted filing.1) gathered).1
      (gathered.after mounted filing).dbs.space :=
  (namespace_refined PathCache_hash.steady gathering_meets.reaches).2 filing filing_prudent

end OfflineFs
