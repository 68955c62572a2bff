import OfflineFs.Changes.Namespaces

/-!
# Counting names

What `st_nlink` and a listing of a directory say about the namespace.  A file has as many
links as lists of names lead to it, and a directory two more than it has subdirectories.
-/

namespace OfflineFs

open OfflineFs.Effect OfflineFs.Effect.Program OfflineFs.Transition

namespace Dbs

variable {dbs : Dbs} {n m : NodeRef} {id d c e : UInt64} {name other : Bytes}
variable {names front : List Bytes}

/-- The keys of the entries for a node. -/
def entriesFor (dbs : Dbs) (id : UInt64) : Set (Key UInt64) :=
  {key | dbs.get .directories key.id key.name = some (hostToDb id)}

/-- The names of the directories in a directory. -/
def subdirectories (dbs : Dbs) (names : List Bytes) : Set Bytes :=
  {name | ∃ c, dbs.Leads (names ++ [name]) ⟨c, .directory⟩}

theorem refs_eq_ncard : dbs.refs id = (dbs.entriesFor id).ncard := by
  rw [refs, Map.countIf_eq_ncard]
  congr 1
  ext ⟨d, name⟩
  constructor
  · rintro ⟨value, stored, isNode⟩
    obtain rfl : value = hostToDb id := of_decide_eq_true isNode
    exact stored
  · intro stored
    exact ⟨hostToDb id, stored, decide_eq_true rfl⟩

theorem finite_entriesFor (dbs : Dbs) (id : UInt64) : (dbs.entriesFor id).Finite := by
  apply (List.finite_toSet dbs.directories.keys).subset
  rintro ⟨d, name⟩ stored
  have present : dbs.directories[(⟨d, name⟩ : Key UInt64)]? = some (hostToDb id) := stored
  change _ ∈ dbs.directories.keys
  rw [Std.ExtTreeMap.mem_keys, Std.ExtTreeMap.mem_iff_isSome_getElem?, present]
  rfl

namespace Hierarchy

variable (hierarchy : dbs.Hierarchy)

include hierarchy

/-- Every directory has one list of names. -/
theorem exists_path : ∃ path : UInt64 → List Bytes,
    ∀ {d}, dbs.getnode d = .ok ⟨d, .directory⟩ → dbs.Leads (path d) ⟨d, .directory⟩ := by
  have each : ∀ d, ∃ names, dbs.getnode d = .ok ⟨d, .directory⟩ →
      dbs.Leads names ⟨d, .directory⟩ := by
    intro d
    by_cases isDirectory : dbs.getnode d = .ok ⟨d, .directory⟩
    · obtain ⟨names, leads⟩ := hierarchy.reached isDirectory
      exact ⟨names, fun _ => leads⟩
    · exact ⟨[], fun impossible => absurd impossible isDirectory⟩
  choose path leads using each
  exact ⟨path, fun {d} => leads d⟩

/-- A file has one entry for every list of names that leads to it. -/
theorem refs_file (isNode : dbs.getnode n.id = .ok n) (isFile : n.kind ≠ .directory) :
    dbs.refs n.id = {names | dbs.Leads names n}.ncard := by
  obtain ⟨path, leads⟩ := hierarchy.exists_path
  have lists : {names | dbs.Leads names n} =
      (fun key : Key UInt64 => path key.id ++ [key.name]) '' dbs.entriesFor n.id := by
    ext names
    constructor
    · intro found
      rcases List.eq_nil_or_concat names with rfl | ⟨front, name, rfl⟩
      · cases found
        exact absurd rfl isFile
      · rw [List.concat_eq_append] at found ⊢
        obtain ⟨⟨d, kind⟩, above, edge⟩ := leads_concat.mp found
        obtain ⟨isDirectory, -, stored, -⟩ := edge_iff.mp edge
        obtain rfl : kind = .directory := isDirectory
        refine ⟨⟨d, name⟩, stored, ?_⟩
        change path d ++ [name] = front ++ [name]
        rw [hierarchy.tree.unique rfl (leads (hierarchy.directory_of_entry stored)) above]
    · rintro ⟨⟨d, name⟩, stored, rfl⟩
      have isName := hierarchy.isName_of_file (getchild_eq_ok_iff.mpr ⟨stored, isNode⟩) isFile
      exact leads_concat.mpr ⟨_, leads (hierarchy.directory_of_entry stored),
        edge_iff.mpr ⟨rfl, isName, stored, isNode⟩⟩
  rw [lists, Set.InjOn.ncard_image, refs_eq_ncard]
  rintro ⟨d, name⟩ stored ⟨e, other⟩ storedOther same
  obtain ⟨sameFront, sameLast⟩ := List.append_inj' same rfl
  have leadsOther := leads (hierarchy.directory_of_entry storedOther)
  change path d = path e at sameFront
  rw [← sameFront] at leadsOther
  have sameNode := hierarchy.formed.functional
    (leads (hierarchy.directory_of_entry stored)) leadsOther
  have sameId : d = e := congrArg NodeRef.id sameNode
  have sameName : name = other := List.singleton_inj.mp sameLast
  rw [sameId, sameName]

/-- Where a directory is entered besides its own entry and those of its subdirectories: in
its parent, and the root in itself. -/
theorem exists_upper (isDirectory : dbs.getnode d = .ok ⟨d, .directory⟩) :
    ∃ key : Key UInt64, dbs.get .directories key.id key.name = some (hostToDb d) ∧
      key.name ≠ str "." ∧ (key.name = str ".." → key.id = 0) ∧
      ∀ e name, dbs.get .directories e name = some (hostToDb d) → name ≠ str "." →
        (name = str ".." → e = 0) → (⟨e, name⟩ : Key UInt64) = key := by
  by_cases isRoot : d = 0
  · subst isRoot
    refine ⟨⟨0, str ".."⟩, hierarchy.ceiling, by decide, fun _ => rfl, ?_⟩
    intro e name stored notOwn atRoot
    by_cases up : name = str ".."
    · rw [atRoot up, up]
    · have child : dbs.getchild e name = .ok ⟨0, .directory⟩ :=
        getchild_eq_ok_iff.mpr ⟨stored, isDirectory⟩
      exact absurd rfl (hierarchy.tree.top ⟨notOwn, up⟩ child)
  · obtain ⟨parent, leaf, isName, child⟩ := hierarchy.exists_name isDirectory isRoot
    refine ⟨⟨parent, leaf⟩, (getchild_eq_ok_iff.mp child).1, isName.1,
      fun up => absurd up isName.2, ?_⟩
    intro e name stored notOwn atRoot
    by_cases up : name = str ".."
    · rw [atRoot up, up, hierarchy.ceiling, Option.some.injEq, hostToDb_inj] at stored
      exact absurd stored.symm isRoot
    · have again : dbs.getchild e name = .ok ⟨d, .directory⟩ :=
        getchild_eq_ok_iff.mpr ⟨stored, isDirectory⟩
      obtain ⟨sameParent, sameName⟩ := hierarchy.tree.parent ⟨notOwn, up⟩ isName again child
      rw [sameParent, sameName]

/-- The entries of the directories in a directory for it. -/
theorem exists_lower (leads : dbs.Leads names ⟨d, .directory⟩) : ∃ lower : Bytes → UInt64,
    Set.InjOn lower (dbs.subdirectories names) ∧
      (∀ name ∈ dbs.subdirectories names, lower name ≠ 0 ∧
        dbs.get .directories (lower name) (str "..") = some (hostToDb d)) ∧
      ∀ e, e ≠ 0 → dbs.get .directories e (str "..") = some (hostToDb d) →
        ∃ name ∈ dbs.subdirectories names, lower name = e := by
  have each : ∀ name, ∃ c, name ∈ dbs.subdirectories names →
      dbs.Leads (names ++ [name]) ⟨c, .directory⟩ := by
    intro name
    by_cases isDirectory : name ∈ dbs.subdirectories names
    · obtain ⟨c, below⟩ := isDirectory
      exact ⟨c, fun _ => below⟩
    · exact ⟨0, fun impossible => absurd impossible isDirectory⟩
  choose lower below using each
  have children : ∀ name ∈ dbs.subdirectories names,
      IsName name ∧ dbs.getchild d name = .ok ⟨lower name, .directory⟩ := by
    intro name listed
    obtain ⟨middle, above, -, isName, child⟩ := leads_concat.mp (below name listed)
    rw [hierarchy.formed.functional above leads] at child
    exact ⟨isName, child⟩
  refine ⟨lower, ?_, ?_, ?_⟩
  · intro name listed other otherListed same
    obtain ⟨isName, child⟩ := children name listed
    obtain ⟨otherName, otherChild⟩ := children other otherListed
    rw [← same] at otherChild
    exact (hierarchy.tree.parent isName otherName child otherChild).2
  · intro name listed
    obtain ⟨isName, child⟩ := children name listed
    exact ⟨hierarchy.tree.top isName child, hierarchy.tree.dotdot isName child⟩
  · intro e notRoot stored
    rcases hierarchy.up_cases stored with ⟨isRoot, -⟩ | ⟨-, name, isName, child⟩
    · exact absurd isRoot notRoot
    · have listed : name ∈ dbs.subdirectories names :=
        ⟨e, leads_concat.mpr ⟨_, leads, rfl, isName, child⟩⟩
      refine ⟨name, listed, ?_⟩
      have same := (children name listed).2
      rw [child] at same
      exact (congrArg NodeRef.id (Except.ok.inj same)).symm

/-- A directory has two entries more than subdirectories. -/
theorem refs_directory (leads : dbs.Leads names ⟨d, .directory⟩) :
    dbs.refs d = 2 + (dbs.subdirectories names).ncard := by
  have isDirectory := hierarchy.getnode_of_leads leads
  obtain ⟨upper, isUpper, notOwn, atRoot, only⟩ := hierarchy.exists_upper isDirectory
  obtain ⟨lower, injective, isLower, allLower⟩ := hierarchy.exists_lower leads
  let below : Bytes → Key UInt64 := fun name => ⟨lower name, str ".."⟩
  have lists : dbs.entriesFor d =
      insert ⟨d, str "."⟩ (insert upper (below '' dbs.subdirectories names)) := by
    ext key
    constructor
    · rcases key with ⟨e, name⟩
      intro stored
      by_cases own : name = str "."
      · subst own
        have same := hierarchy.eq_of_self stored
        exact .inl (by rw [same])
      · by_cases inside : name = str ".." ∧ e ≠ 0
        · obtain ⟨rfl, notRoot⟩ := inside
          obtain ⟨name, listed, rfl⟩ := allLower e notRoot stored
          exact .inr (.inr ⟨name, listed, rfl⟩)
        · refine .inr (.inl (only e name stored own fun up => ?_))
          by_contra notRoot
          exact inside ⟨up, notRoot⟩
    · rintro (rfl | rfl | ⟨name, listed, same⟩)
      · exact hierarchy.tree.dot isDirectory
      · exact isUpper
      · rw [← same]
        exact (isLower name listed).2
  have finite : (insert upper (below '' dbs.subdirectories names)).Finite :=
    (dbs.finite_entriesFor d).subset (lists ▸ Set.subset_insert _ _)
  have upperApart : upper ∉ below '' dbs.subdirectories names := by
    rintro ⟨name, listed, rfl⟩
    exact (isLower name listed).1 (atRoot rfl)
  have ownApart : (⟨d, str "."⟩ : Key UInt64) ∉
      insert upper (below '' dbs.subdirectories names) := by
    rintro (rfl | ⟨name, listed, same⟩)
    · exact notOwn rfl
    · have parted : str ".." = str "." := congrArg Key.name same
      exact absurd parted (by decide)
  rw [refs_eq_ncard, lists, Set.ncard_insert_of_notMem ownApart finite,
    Set.ncard_insert_of_notMem upperApart (finite.subset (Set.subset_insert _ _)),
    Set.InjOn.ncard_image, Nat.add_assoc, Nat.add_comm]
  · intro name listed other otherListed same
    exact injective listed otherListed (congrArg Key.id same)

end Hierarchy

end Dbs

/-- The node that `st_ino` and `st_mode` are about. -/
def Stat.node (order : ByteOrder) (stat : Stat) : NodeRef :=
  ⟨order.inMemory stat.ino, kindOfMode stat.mode⟩

/-! ## Answers -/

section Answers

variable {fs : FS} {ctx : Context} {world : World} {valid : PathCacheState → Prop}
variable {path : Bytes}

/-- What a request answers with comes from its body. -/
theorem exists_answer (fs : FS) (valid : PathCacheState → Prop) {α : Type}
    {onError : Err → Except Int α}
    {body : SContext → FsProg (Except Int α)} {post : SContext → α → Prop} {value : α}
    (errors : ∀ e, onError e ≠ .ok value)
    (settles : ∀ sctx, ctx.sctx = some sctx → Settles fs.pcache valid (fun _ => True) True
      (fun answer _ => ∀ value, answer = .ok value → post sctx value) (exec (body sctx) world))
    (answered : (exec (request ctx onError body) world).1 = .ok (.ok value)) :
    ∃ sctx, ctx.sctx = some sctx ∧ post sctx value := by
  rw [exec_request] at answered
  cases caller : ctx.sctx with
  | none =>
      rw [caller] at answered
      exact absurd (Outcome.ok.inj answered) (errors _)
  | some sctx =>
      rw [caller] at answered
      have ended := settles sctx caller
      rcases result : exec (body sctx) world with ⟨outcome, after⟩
      simp only [result] at ended answered
      cases outcome with
      | ok answer => exact ⟨sctx, rfl, ended.2 value (Outcome.ok.inj answered)⟩
      | error e => exact absurd (Outcome.ok.inj answered) (errors e)
      | fault stop => cases answered

section Looking

variable (steady : fs.pcache.Steady valid) (cached : valid world.cache)

include steady cached

/-- What `getattr` answers is stored with the node that is found. -/
theorem exists_of_getattr {stat : Stat}
    (answered : (exec (fs.getattr ctx path) world).1 = .ok (.ok stat)) :
    ∃ sctx, ctx.sctx = some sctx ∧
      fs.pcache.Finds sctx world path (stat.node world.order) ∧
      world.dbs.getnode (stat.node world.order).id = .ok (stat.node world.order) ∧
      world.dbs.attr UInt32 (stat.node world.order).id .nlink = .ok stat.nlink := by
  apply exists_answer fs valid (fun e same => by cases same) _ answered
  intro sctx caller
  apply settles_getnode cached steady trivial
  intro n now cachedNow same finds isNode
  apply settles_attr cachedNow trivial
  intro dev _
  apply settles_attr cachedNow trivial
  intro nlink isNlink
  apply settles_attr cachedNow trivial
  intro mode isMode
  apply settles_attr cachedNow trivial
  intro uid _
  apply settles_attr cachedNow trivial
  intro gid _
  apply settles_attr cachedNow trivial
  intro size _
  apply settles_attr cachedNow trivial
  intro atime _
  apply settles_attr cachedNow trivial
  intro mtime _
  apply settles_attr cachedNow trivial
  intro ctime _
  apply settles_pure cachedNow
  rintro stat ⟨⟩
  rw [same] at isNlink isMode
  have kind := kind_of_attr isNode isMode
  have sameOrder : now.order = world.order := by
    have kept := exec_order (fs.pcache.getnode sctx path) world
    rw [finds] at kept
    exact kept
  have isStat : Stat.node world.order ⟨now.order.inMemory n.id, dev, nlink, mode, uid, gid, size,
      atime, mtime, ctime, (size.toInt64 / 512).toUInt64⟩ = n := by
    rw [Stat.node, sameOrder, ByteOrder.inMemory_inMemory, ← kind]
  exact ⟨isStat.symm ▸ congrArg Prod.fst finds, isStat.symm ▸ isNode, isStat.symm ▸ isNlink⟩

/-- What `readdir` lists are the entries of the directory that is found. -/
theorem exists_of_readdir {listed : List Bytes}
    (answered : (exec (fs.readdir ctx path) world).1 = .ok (.ok listed)) :
    ∃ sctx, ctx.sctx = some sctx ∧ ∃ d, fs.pcache.Finds sctx world path ⟨d, .directory⟩ ∧
      world.dbs.getnode d = .ok ⟨d, .directory⟩ ∧ listed.Nodup ∧
      ∀ name, name ∈ listed ↔ name ≠ [] ∧ world.dbs.get .directories d name ≠ none := by
  apply exists_answer fs valid (fun e same => by cases same) _ answered
  intro sctx caller
  apply settles_getnode cached steady trivial
  intro n now cachedNow same finds isNode
  apply settles_cast cachedNow trivial
  intro isDirectory
  have isDir : n = ⟨n.id, .directory⟩ := by rw [← isDirectory]
  apply settles_access cachedNow trivial
  apply settles_setTime cachedNow (by decide) (by decide)
  intro stamped cachedStamped alike
  apply settles_look cachedStamped (fun dbs => .ok (dbs.directories.attrs n.id))
    (Register.exec_getattrs .directories n.id) trivial
  intro l isList
  apply settles_pure cachedStamped
  rintro listed ⟨⟩
  rw [same] at alike
  rw [← Except.ok.inj isList]
  refine ⟨n.id, ?_, ?_, Db.nodup_attrs _ _, fun name => ?_⟩
  · rw [← isDir]
    exact congrArg Prod.fst finds
  · rw [isNode, ← isDir]
  · rw [Db.mem_attrs_iff, ← alike.entries]
    rfl

end Looking

end Answers

/-! ## Runs -/

section Runs

variable {media : Db UInt32} {getuid getgid : UInt32} {clock : Nat → UInt64}
variable {reply : List SysEvent → SysCall → SysResult} {order : ByteOrder}
variable {fs : FS} {valid : PathCacheState → Prop} {world : World} {ctx : Context} {path : Bytes}

/-- In every state that a run reaches, the count of links that `getattr` reports is the number
of paths of a file, and two more than the number of subdirectories of a directory. -/
theorem links_counted (steady : fs.pcache.Steady valid)
    (reached : Reaches (World.after fs) (World.Prudent fs)
      (.rebuilt media getuid getgid clock reply order) world) {stat : Stat}
    (answered : (exec (fs.getattr ctx path) world).1 = .ok (.ok stat)) :
    (∃ names, world.dbs.Leads names (stat.node world.order)) ∧
      (kindOfMode stat.mode ≠ .directory → stat.nlink.toNat =
        {names | world.dbs.Leads names (stat.node world.order)}.ncard) ∧
      ∀ names, world.dbs.Leads names ⟨(stat.node world.order).id, .directory⟩ →
        stat.nlink.toNat = 2 + (world.dbs.subdirectories names).ncard := by
  obtain ⟨hierarchy, cached⟩ := World.orderly_reached steady reached
  obtain ⟨sctx, -, -, isNode, counted⟩ := exists_of_getattr steady cached answered
  have links : stat.nlink.toNat = world.dbs.refs (stat.node world.order).id := by
    rw [← hierarchy.balanced, Dbs.links_eq counted]
  rw [links]
  exact ⟨hierarchy.exists_leads isNode, hierarchy.refs_file isNode,
    fun names leads => hierarchy.refs_directory leads⟩

set_option maxRecDepth 100000 in
/-- A directory with one directory in it has three links. -/
theorem links_counted_directory : (2 : UInt32).toNat =
    2 + (gathered.dbs.subdirectories [str "d"]).ncard := by
  have answered : (exec (mounted.getattr rootContext (str "/d")) gathered).1 =
      .ok (.ok ⟨72057594037927936, 0, 2, 0o40755, 0, 0, 0, 100, 100, 100, 0⟩) := by
    decide +kernel
  have child : gathered.dbs.getchild 0 (str "d") = .ok ⟨1, .directory⟩ := by
    decide +kernel
  have order : gathered.order = .little := by
    decide +kernel
  have isChild : ByteOrder.little.inMemory (72057594037927936 : UInt64) = 1 := by
    decide +kernel
  refine (links_counted PathCache_hash.steady gathering_meets.reaches answered).2.2 [str "d"] ?_
  change gathered.dbs.Leads [str "d"] ⟨gathered.order.inMemory _, _⟩
  rw [order, isChild]
  exact .cons ⟨rfl, by decide, child⟩ (.nil _)

/-- In every state that a run reaches, `readdir` lists `.`, `..` and the names that lead on
from the directory, each of them once. -/
theorem listing_exact (steady : fs.pcache.Steady valid)
    (reached : Reaches (World.after fs) (World.Prudent fs)
      (.rebuilt media getuid getgid clock reply order) world) {listed : List Bytes}
    (answered : (exec (fs.readdir ctx path) world).1 = .ok (.ok listed)) :
    listed.Nodup ∧ ∃ sctx d names, ctx.sctx = some sctx ∧
      fs.pcache.Finds sctx world path ⟨d, .directory⟩ ∧ world.dbs.Leads names ⟨d, .directory⟩ ∧
      ∀ name, name ∈ listed ↔
        name = str "." ∨ name = str ".." ∨ ∃ n, world.dbs.Leads (names ++ [name]) n := by
  obtain ⟨hierarchy, cached⟩ := World.orderly_reached steady reached
  obtain ⟨sctx, caller, d, finds, isDirectory, nodup, entries⟩ :=
    exists_of_readdir steady cached answered
  obtain ⟨names, leads⟩ := hierarchy.reached isDirectory
  refine ⟨nodup, sctx, d, names, caller, finds, leads, fun name => ?_⟩
  rw [entries]
  constructor
  · rintro ⟨-, present⟩
    obtain ⟨value, stored⟩ := Option.ne_none_iff_exists'.mp present
    obtain ⟨n, isEntry, -, isNode⟩ := hierarchy.child_of_entry stored
    rcases isName_or_own name with isName | own | up
    · exact .inr (.inr ⟨n, Dbs.leads_concat.mpr
        ⟨_, leads, Dbs.edge_iff.mpr ⟨rfl, isName, isEntry, isNode⟩⟩⟩)
    · exact .inl own
    · exact .inr (.inl up)
  · have entered {value : Bytes} (stored : world.dbs.get .directories d name = some value) :
        name ≠ [] ∧ world.dbs.get .directories d name ≠ none :=
      ⟨(hierarchy.spelled stored).1, stored ▸ Option.some_ne_none _⟩
    rintro (rfl | rfl | ⟨n, below⟩)
    · exact entered (hierarchy.tree.dot isDirectory)
    · obtain ⟨up, isUp, -⟩ := hierarchy.exists_up isDirectory
      exact entered isUp
    · obtain ⟨middle, above, edge⟩ := Dbs.leads_concat.mp below
      rw [hierarchy.formed.functional above leads] at edge
      exact entered (Dbs.edge_iff.mp edge).2.2.1

end Runs

set_option maxRecDepth 100000 in
theorem listing_exact_root : [str ".", str "..", str "d", str "f"].Nodup ∧
    ∃ sctx d names, rootContext.sctx = some sctx ∧
      mounted.pcache.Finds sctx gathered (str "/") ⟨d, .directory⟩ ∧
      gathered.dbs.Leads names ⟨d, .directory⟩ ∧
      ∀ name, name ∈ [str ".", str "..", str "d", str "f"] ↔
        name = str "." ∨ name = str ".." ∨ ∃ n, gathered.dbs.Leads (names ++ [name]) n := by
  have answered : (exec (mounted.readdir rootContext (str "/")) gathered).1 =
      .ok (.ok [str ".", str "..", str "d", str "f"]) := by
    decide +kernel
  exact listing_exact PathCache_hash.steady gathering_meets.reaches answered

end OfflineFs
