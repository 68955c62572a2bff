import OfflineFs.Caches.Consistency
import OfflineFs.Run.Operations
import OfflineFs.Run.Permissions

/-!
# What an unsearchable directory hides

The plain lookup stops at the first directory that denies the search.  The cached
lookup first finds the parent directory of the path without any check, so what it
reports depends on whether there is one.
-/

namespace OfflineFs

open OfflineFs.Effect OfflineFs.Effect.Program

namespace Dbs

variable {dbs : Dbs} {sctx : SContext} {n root : NodeRef} {info : CEntryInfo}
variable {leaf : Bytes} {up tokens : List Bytes}

/-! ## Entries and nodes -/

/-- The values of a node are its attributes. -/
theorem info_eq_ok_iff : dbs.info n = .ok info ↔ info.nodeid = n.id ∧
    dbs.attr UInt32 n.id .uid = .ok info.uid ∧ dbs.attr UInt32 n.id .gid = .ok info.gid ∧
    dbs.attr UInt32 n.id .mode = .ok info.mode := by
  unfold Dbs.info
  cases dbs.attr UInt32 n.id .uid with
  | error e => simp
  | ok uid =>
      cases dbs.attr UInt32 n.id .gid with
      | error e => simp
      | ok gid =>
          cases dbs.attr UInt32 n.id .mode with
          | error e => simp
          | ok mode =>
              simp only [Except.ok.injEq]
              constructor
              · rintro rfl
                exact ⟨rfl, rfl, rfl, rfl⟩
              · rcases info with ⟨nodeid, infoUid, infoGid, infoMode⟩
                rintro ⟨rfl, rfl, rfl, rfl⟩
                rfl

private theorem refused_iff (refused : Prop) [Decidable refused] :
    (if refused then (.error .access : Except Err Unit) else .ok ()) = .error .access ↔ refused
      := by
  split
  · simp [*]
  · simp [*]

/-- What an entry remembers decides the search permission of its node. -/
theorem access_xOk_iff (isInfo : dbs.info n = .ok info) :
    dbs.access n.id sctx xOk = .error .access ↔ info.denies sctx := by
  obtain ⟨-, uidRead, gidRead, modeRead⟩ := info_eq_ok_iff.mp isInfo
  unfold Dbs.access CEntryInfo.denies
  by_cases superuser : sctx.uid = 0
  · simp [superuser]
  · rw [if_neg superuser, modeRead, and_iff_right superuser]
    simp only [granted, uidRead, gidRead]
    by_cases owner : sctx.uid = info.uid
    · rw [if_pos owner, if_pos owner.symm]
      exact (refused_iff _).trans (userDenies_iff info.mode)
    · rw [if_neg owner, if_neg (Ne.symm owner)]
      by_cases member : info.gid ∈ sctx.groups
      · simp only [if_pos member]
        exact (refused_iff _).trans (groupDenies_iff info.mode)
      · simp only [if_neg member]
        exact (refused_iff _).trans (otherDenies_iff info.mode)

/-! ## Errors of a lookup -/

theorem attr_ne_access {T : Type} [HostInt T] {id : UInt64} {attr : Attr} {e : Err}
    (failed : dbs.attr T id attr = .error e) : e ≠ .access := by
  rcases getattr_error failed with rfl | rfl <;> exact nofun

/-- Instantiating a node never throws `EAccess`. -/
theorem getnode_ne_access {id : UInt64} {e : Err} (failed : dbs.getnode id = .error e) :
    e ≠ .access := by
  unfold Dbs.getnode at failed
  cases read : dbs.attr UInt32 id .mode with
  | ok mode => simp [read] at failed
  | error other =>
      have apart := attr_ne_access read
      rw [read] at failed
      cases other with
      | attrNotFound =>
          cases failed
          exact nofun
      | _ =>
          cases failed
          exact apart

/-- Reading the values of a node never throws `EAccess`. -/
theorem info_ne_access {e : Err} (failed : dbs.info n = .error e) : e ≠ .access := by
  unfold Dbs.info at failed
  cases uidRead : dbs.attr UInt32 n.id .uid with
  | error other =>
      rw [uidRead] at failed
      cases failed
      exact attr_ne_access uidRead
  | ok uid =>
      cases gidRead : dbs.attr UInt32 n.id .gid with
      | error other =>
          rw [uidRead, gidRead] at failed
          cases failed
          exact attr_ne_access gidRead
      | ok gid =>
          cases modeRead : dbs.attr UInt32 n.id .mode with
          | error other =>
              rw [uidRead, gidRead, modeRead] at failed
              cases failed
              exact attr_ne_access modeRead
          | ok mode => simp [uidRead, gidRead, modeRead] at failed

/-- Reading an entry never throws `EAccess`. -/
theorem getchild_ne_access {d : UInt64} {e : Err} (failed : dbs.getchild d leaf = .error e) :
    e ≠ .access := by
  unfold Dbs.getchild at failed
  cases read : dbs.getattr UInt64 .directories d leaf with
  | ok id =>
      simp only [read] at failed
      exact getnode_ne_access failed
  | error other =>
      simp only [read] at failed
      rcases getattr_error read with rfl | rfl
      · cases failed
        exact nofun
      · cases failed
        exact nofun

/-- Reading the values of a child never throws `EAccess`. -/
theorem childInfo_ne_access {parent : UInt64} {e : Err}
    (failed : dbs.childInfo parent leaf = .error e) : e ≠ .access := by
  unfold Dbs.childInfo at failed
  cases parentRead : dbs.getnode parent with
  | error other =>
      rw [parentRead] at failed
      cases failed
      exact getnode_ne_access parentRead
  | ok d =>
      simp only [parentRead] at failed
      split at failed
      · cases childRead : dbs.getchild d.id leaf with
        | error other =>
            rw [childRead] at failed
            cases failed
            exact getchild_ne_access childRead
        | ok child =>
            rw [childRead] at failed
            exact info_ne_access failed
      · cases failed
        exact nofun

/-- Walking without permission checks never reports that the caller may not. -/
theorem entryAt_ne_access {e : Err} (failed : dbs.entryAt tokens = .error e) : e ≠ .access := by
  induction tokens generalizing e with
  | nil =>
      unfold entryAt at failed
      cases rootRead : dbs.getnode 0 with
      | error other =>
          rw [rootRead] at failed
          cases failed
          exact getnode_ne_access rootRead
      | ok root =>
          rw [rootRead] at failed
          exact info_ne_access failed
  | cons leaf up ih =>
      unfold entryAt at failed
      cases upFound : dbs.entryAt up with
      | error other =>
          rw [upFound] at failed
          cases failed
          exact ih upFound
      | ok parent =>
          rw [upFound] at failed
          exact childInfo_ne_access failed

/-! ## The way to a directory -/

/-- An entry remembers the id of its node. -/
theorem info_nodeid (isInfo : dbs.info n = .ok info) : info.nodeid = n.id :=
  (info_eq_ok_iff.mp isInfo).1

theorem entryAt_suffix {higher : List Bytes} (suffix : higher <:+ tokens)
    (found : dbs.entryAt tokens = .ok info) :
    ∃ higherInfo, dbs.entryAt higher = .ok higherInfo := by
  induction tokens generalizing info with
  | nil =>
      rw [List.suffix_nil.mp suffix]
      exact ⟨info, found⟩
  | cons leaf up ih =>
      rcases List.suffix_cons_iff.mp suffix with rfl | above
      · exact ⟨info, found⟩
      · obtain ⟨upInfo, upFound⟩ := entryAt_up found
        exact ih above upFound

/-- Walking down one list of names after another. -/
theorem walk_append (start : NodeRef) (names more : List Bytes) :
    dbs.walk sctx start (names ++ more) =
      match dbs.walk sctx start names with
      | .ok n => dbs.walk sctx n more
      | .error e => .error e := by
  induction names generalizing start with
  | nil => rfl
  | cons name names ih =>
      simp only [List.cons_append, walk]
      cases dbs.access start.id sctx xOk with
      | error e => rfl
      | ok =>
          by_cases directory : start.kind = .directory
          · simp only [directory, if_true]
            cases dbs.getchild start.id name with
            | error e => rfl
            | ok child => exact ih child
          · simp only [directory, if_false]

/-- A walk that a permission stops does not get to any name after it. -/
theorem walk_denied {d : NodeRef} {dir rest : List Bytes}
    (reached : dbs.walk sctx root dir = .ok d)
    (denied : dbs.access d.id sctx xOk = .error .access) :
    dbs.walk sctx root (dir ++ leaf :: rest) = .error .access := by
  rw [walk_append, reached]
  simp only [walk, denied]

/-- Where both lookups find something, they find the same node. -/
theorem nodeid_of_walk {d : NodeRef} {dir : List Bytes} (isRoot : dbs.getnode 0 = .ok root)
    (reached : dbs.walk sctx root dir = .ok d) (found : dbs.entryAt dir.reverse = .ok info) :
    dbs.info d = .ok info := by
  induction dir using List.reverseRecOn generalizing d info with
  | nil =>
      cases reached
      simpa only [List.reverse_nil, entryAt, isRoot] using found
  | append_singleton dir name ih =>
      rw [List.reverse_append, List.reverse_singleton, List.singleton_append] at found
      obtain ⟨upInfo, upFound⟩ := entryAt_up found
      rw [walk_append] at reached
      cases upReached : dbs.walk sctx root dir with
      | error e => simp [upReached] at reached
      | ok up =>
          simp only [upReached, walk] at reached
          have upId := info_nodeid (ih upReached upFound)
          simp only [entryAt, upFound, childInfo, upId] at found
          cases upNode : dbs.getnode up.id with
          | error e => simp [upNode] at found
          | ok again =>
              obtain ⟨mode, -, rfl⟩ := getnode_eq_ok_iff.mp upNode
              simp only [upNode] at found
              split at found
              · split at reached
                · cases reached
                · split at reached
                  · cases childFound : dbs.getchild up.id name with
                    | error e => simp [childFound] at reached
                    | ok child =>
                        simp only [childFound, Except.ok.injEq] at reached found
                        rwa [reached] at found
                  · cases reached
              · cases found

/-! ## Hidden directories -/

/-- A directory that the caller may not search, at the end of a way that it may.
What is below the directory does not meet the way to it. -/
structure Hides (dbs : Dbs) (sctx : SContext) (below : UInt64 → Prop) (dir : List Bytes)
    (d : NodeRef) : Prop where
  reached : ∃ root, dbs.getnode 0 = .ok root ∧ dbs.walk sctx root dir = .ok d ∧
    ∀ way, way <+: dir → ∀ n, dbs.walk sctx root way = .ok n → ¬ below n.id
  directory : d.kind = .directory
  denied : dbs.access d.id sctx xOk = .error .access

/-- Databases that agree on everything but the nodes and entries strictly below a
directory: they may differ in its own entries too. -/
structure DifferBelow (d : UInt64) (below : UInt64 → Prop) (first second : Dbs) : Prop where
  node : ∀ id name, ¬ below id → second.get .nodes id name = first.get .nodes id name
  entry : ∀ id name, ¬ below id → id ≠ d →
    second.get .directories id name = first.get .directories id name

namespace DifferBelow

variable {first second : Dbs} {below : UInt64 → Prop} {d id : UInt64}

theorem attr (differ : DifferBelow d below first second) (T : Type) [HostInt T]
    (apart : ¬ below id) (attr : Attr) : second.attr T id attr = first.attr T id attr := by
  simp only [Dbs.attr, Dbs.getattr, differ.node id attr.name apart]

theorem getnode (differ : DifferBelow d below first second) (apart : ¬ below id) :
    second.getnode id = first.getnode id := by
  simp only [Dbs.getnode, differ.attr UInt32 apart]

theorem access (differ : DifferBelow d below first second) (apart : ¬ below id)
    (sctx : SContext) (mode : UInt32) :
    second.access id sctx mode = first.access id sctx mode := by
  simp only [Dbs.access, Dbs.granted, differ.attr UInt32 apart]

/-- A child that is not below the directory is found in both. -/
theorem getchild (differ : DifferBelow d below first second) (apart : ¬ below id)
    (isOther : id ≠ d) {child : NodeRef} (found : first.getchild id leaf = .ok child)
    (childApart : ¬ below child.id) : second.getchild id leaf = .ok child := by
  unfold Dbs.getchild Dbs.getattr at found ⊢
  rw [differ.entry id leaf apart isOther]
  cases stored : first.get .directories id leaf with
  | none => simp [stored] at found
  | some bytes =>
      cases read : dbToHost UInt64 bytes with
      | none => simp [stored, read] at found
      | some childId =>
          simp only [stored, read] at found ⊢
          obtain ⟨mode, -, rfl⟩ := getnode_eq_ok_iff.mp found
          rw [differ.getnode childApart]
          exact found

/-- The way to the directory is the same in both. -/
theorem walk {d start : NodeRef} {names : List Bytes}
    (differ : DifferBelow d.id below first second)
    (denied : first.access d.id sctx xOk = .error .access)
    (reached : first.walk sctx start names = .ok d)
    (avoids : ∀ way, way <+: names → ∀ n, first.walk sctx start way = .ok n → ¬ below n.id) :
    second.walk sctx start names = .ok d ∧
      ∀ way, way <+: names → ∀ n, second.walk sctx start way = .ok n → ¬ below n.id := by
  induction names generalizing start with
  | nil =>
      refine ⟨reached, ?_⟩
      intro way isPrefix
      rw [List.prefix_nil.mp isPrefix]
      exact avoids [] (List.prefix_refl [])
  | cons name names ih =>
      have startApart : ¬ below start.id := avoids [] List.nil_prefix start rfl
      unfold Dbs.walk at reached
      cases searched : first.access start.id sctx xOk with
      | error e => simp [searched] at reached
      | ok =>
          have isOther : start.id ≠ d.id := by
            intro same
            rw [same, denied] at searched
            cases searched
          by_cases directory : start.kind = .directory
          · cases isChild : first.getchild start.id name with
            | error e => simp [searched, directory, isChild] at reached
            | ok child =>
                simp only [searched, directory, if_true, isChild] at reached
                have onward : ∀ way, first.walk sctx start (name :: way) =
                    first.walk sctx child way := by
                  intro way
                  simp only [Dbs.walk, searched, directory, if_true, isChild]
                have childAvoids : ∀ way, way <+: names → ∀ n,
                    first.walk sctx child way = .ok n → ¬ below n.id := by
                  intro way isPrefix n walked
                  exact avoids (name :: way) (List.cons_prefix_cons.mpr ⟨rfl, isPrefix⟩) n
                    ((onward way).trans walked)
                have childApart : ¬ below child.id :=
                  childAvoids [] List.nil_prefix child rfl
                have sameStep : ∀ way, second.walk sctx start (name :: way) =
                    second.walk sctx child way := by
                  intro way
                  simp only [Dbs.walk, differ.access startApart, searched, directory, if_true,
                    differ.getchild startApart isOther isChild childApart]
                obtain ⟨sameWalk, sameAvoids⟩ := ih reached childAvoids
                refine ⟨(sameStep names).trans sameWalk, ?_⟩
                intro way isPrefix n walked
                rcases List.prefix_cons_iff.mp isPrefix with rfl | ⟨rest, rfl, restPrefix⟩
                · cases walked
                  exact startApart
                · exact sameAvoids rest restPrefix n ((sameStep rest).symm.trans walked)
          · simp [searched, directory] at reached

end DifferBelow

/-- What hides in one of two databases that differ below it hides in the other. -/
theorem Hides.other {first second : Dbs} {below : UInt64 → Prop} {dir : List Bytes} {d : NodeRef}
    (hides : first.Hides sctx below dir d) (differ : DifferBelow d.id below first second) :
    second.Hides sctx below dir d where
  reached := by
    obtain ⟨root, isRoot, reached, avoids⟩ := hides.reached
    have rootApart : ¬ below root.id := avoids [] List.nil_prefix root rfl
    have rootId : root.id = 0 := by
      obtain ⟨mode, -, rfl⟩ := getnode_eq_ok_iff.mp isRoot
      rfl
    rw [rootId] at rootApart
    obtain ⟨sameWalk, sameAvoids⟩ := differ.walk hides.denied reached avoids
    exact ⟨root, (differ.getnode rootApart).trans isRoot, sameWalk, sameAvoids⟩
  directory := hides.directory
  denied := by
    obtain ⟨root, -, reached, avoids⟩ := hides.reached
    rw [differ.access (avoids dir (List.prefix_refl dir) d reached)]
    exact hides.denied

/-- The parent directory of a path can be looked up without permission checks. -/
def ParentFound (dbs : Dbs) (path : Bytes) : Prop :=
  ∃ info, dbs.entryAt (tokenize path).reverse.tail = .ok info

end Dbs

/-! ## What the lookups report -/

section Reports

variable {world : World} {sctx : SContext} {below : UInt64 → Prop} {d : NodeRef}
variable {dir rest : List Bytes} {leaf path : Bytes}

/-- Both lookups of a path report that the caller may not search a directory. -/
def Reports (world : World) (sctx : SContext) (path : Bytes) : Prop :=
  (exec (PathCache_hash.getnode sctx path) world).1 = .error .access ∧
    (exec (PathCache_null.getnode sctx path) world).1 = .error .access

theorem Dbs.Hides.resolve (hides : world.dbs.Hides sctx below dir d)
    (continues : tokenize path = dir ++ leaf :: rest) :
    (exec (PathCache_null.getnode sctx path) world).1 = .error .access := by
  obtain ⟨root, isRoot, reached, -⟩ := hides.reached
  simp only [PathCache_null.exec_getnode, Dbs.resolve, isRoot, continues,
    Dbs.walk_denied reached hides.denied, Outcome.ofExcept_error]

/-- If the parent directory of the path is found, the hidden directory was met. -/
theorem Dbs.Hides.deniesOn {dbs : Dbs} (hides : dbs.Hides sctx below dir d)
    (continues : tokenize path = dir ++ leaf :: rest) (found : dbs.ParentFound path) :
    dbs.DeniesOn sctx (tokenize path).reverse.tail := by
  obtain ⟨root, isRoot, reached, -⟩ := hides.reached
  obtain ⟨info, isInfo⟩ := found
  have suffix : dir.reverse <:+ (tokenize path).reverse.tail := by
    rw [continues, List.tail_reverse, List.dropLast_append_of_ne_nil (List.cons_ne_nil leaf rest),
      List.reverse_append]
    exact List.suffix_append _ _
  obtain ⟨dirInfo, dirFound⟩ := Dbs.entryAt_suffix suffix isInfo
  have ofNode := Dbs.nodeid_of_walk isRoot reached dirFound
  exact ⟨dir.reverse, suffix, dirInfo, dirFound, (Dbs.access_xOk_iff ofNode).mp hides.denied⟩

/-- With an empty cache, no lookup of a path whose parent directory exists throws in its climb. -/
theorem Dbs.ended_of_parentFound (fresh : world.cache = .initial)
    (found : world.dbs.ParentFound path) (sctx : SContext) :
    Ended (exec (PathCache_hash.locate sctx (tokenize path).reverse) world).1 := by
  have linked : world.cache.Linked PathCacheState.NoBlank := by
    rw [fresh]
    exact PathCacheState.linked_initial
  have proper := (proper_tokenize path).reverse
  rw [PathCache_hash.ended_locate_iff proper sctx world linked, fresh,
    PathCacheState.remembers_initial]
  obtain ⟨info, isInfo⟩ := found
  cases tokens : (tokenize path).reverse with
  | nil => exact id
  | cons leaf up =>
      rw [tokens] at proper isInfo
      apply Dbs.not_climbOverruns (Proper.cons_iff.mp proper).2
      intro higher suffix
      rw [Dbs.known_nothing]
      exact Dbs.entryAt_suffix suffix isInfo

/-- With a fresh cache, the missing permission is reported exactly when the parent of the path
is found. -/
theorem Dbs.Hides.reports_iff (hides : world.dbs.Hides sctx below dir d)
    (fresh : world.cache = .initial) (continues : tokenize path = dir ++ leaf :: rest) :
    Reports world sctx path ↔ world.dbs.ParentFound path := by
  have linked : world.cache.Linked PathCacheState.NoBlank := by
    rw [fresh]
    exact PathCacheState.linked_initial
  have faithful : world.cache.Faithful world.dbs := by
    rw [fresh]
    exact PathCacheState.faithful_initial world.dbs
  have nonempty : (tokenize path).reverse ≠ [] := by
    rw [continues]
    simp
  rw [Reports, and_iff_left (hides.resolve continues)]
  constructor
  · intro reported
    have ended := PathCache_hash.ended_locate sctx path (reported ▸ ended_error .access)
    obtain ⟨after, -, result⟩ := PathCache_hash.exec_getnode linked sctx path ended
    obtain ⟨served, -, located⟩ :=
      PathCache_hash.exec_locate (proper_tokenize path).reverse linked sctx ended
    rcases result with ⟨cen, data, ran, -, found⟩ | ⟨e, ran, threw⟩
    · rw [found] at reported
      cases read : world.dbs.getnode data.nodeid with
      | ok n => simp [read] at reported
      | error e =>
          rw [read] at reported
          cases reported
          exact absurd rfl (Dbs.getnode_ne_access read)
    · rw [threw] at reported
      cases reported
      rcases located with ⟨cen, last, returned, -⟩ | ⟨e, threw, reason⟩
      · rw [returned] at ran
        cases ran
      · rw [threw] at ran
        cases ran
        rcases reason faithful with ⟨-, missing | ⟨-, found, -⟩⟩ | ⟨-, missing⟩
        · exact absurd rfl (Dbs.entryAt_ne_access missing)
        · exact found
        · exact absurd rfl (Dbs.entryAt_ne_access missing)
  · intro found
    have ended := Dbs.ended_of_parentFound fresh found sctx
    obtain ⟨after, -, result⟩ := PathCache_hash.exec_getnode linked sctx path ended
    obtain ⟨served, -, located⟩ :=
      PathCache_hash.exec_locate (proper_tokenize path).reverse linked sctx ended
    have denied := hides.deniesOn continues found
    rcases located with ⟨cen, last, -, -, -, -, grants⟩ | ⟨e, threw, reason⟩
    · exact absurd denied (grants faithful nonempty)
    · have isAccess : e = .access := by
        rcases reason faithful with ⟨-, missing | ⟨isAccess, -, -⟩⟩ | ⟨grants, -⟩
        · obtain ⟨info, isInfo⟩ := found
          rw [isInfo] at missing
          cases missing
        · exact isAccess
        · exact absurd denied (grants nonempty)
      rcases result with ⟨cen, data, ran, -⟩ | ⟨e, ran, same⟩
      · rw [threw] at ran
        cases ran
      · rw [threw] at ran
        cases ran
        rw [same, isAccess]

/-- Nothing below a directory that the caller may not search shows in a lookup of
a path through it, exactly when the parent directory of the path is there. -/
theorem hidden_iff {first second : World} (firstFresh : first.cache = .initial)
    (secondFresh : second.cache = .initial) (hides : first.dbs.Hides sctx below dir d)
    (differ : Dbs.DifferBelow d.id below first.dbs second.dbs)
    (continues : tokenize path = dir ++ leaf :: rest) :
    Reports first sctx path ∧ Reports second sctx path ↔
      first.dbs.ParentFound path ∧ second.dbs.ParentFound path :=
  and_congr (hides.reports_iff firstFresh continues)
    ((hides.other differ).reports_iff secondFresh continues)

end Reports

/-! ## A directory of the superuser -/

/-- A user who may not search it. -/
def stranger : SContext :=
  ⟨1000, 1000, [1000]⟩

/-- A directory that only its owner may search, holding a file. -/
def closedFull : World :=
  (runAll [mounted.mkdir rootContext (str "/d") 0o700,
    mounted.mknod rootContext (str "/d/x") 0o100644 0] mountedWorld).restarted

/-- The same directory without the file. -/
def closedEmpty : World :=
  (runAll [mounted.mkdir rootContext (str "/d") 0o700] mountedWorld).restarted

set_option maxRecDepth 100000 in
/-- The closed directory hides what it has. -/
theorem closedFull_hides :
    closedFull.dbs.Hides stranger (· = 2) [str "d"] ⟨1, .directory⟩ where
  reached := by
    refine ⟨⟨0, .directory⟩, by decide +kernel, by decide +kernel, ?_⟩
    intro way isPrefix n walked
    rcases List.prefix_cons_iff.mp isPrefix with rfl | ⟨rest, rfl, restPrefix⟩
    · cases walked
      decide
    · rw [List.prefix_nil.mp restPrefix] at walked
      have isDirectory : closedFull.dbs.walk stranger ⟨0, .directory⟩ [str "d"] =
          .ok ⟨1, .directory⟩ := by decide +kernel
      rw [isDirectory] at walked
      cases walked
      decide
  directory := rfl
  denied := by decide +kernel

set_option maxRecDepth 100000 in
theorem closedFull_differ : Dbs.DifferBelow 1 (· = 2) closedFull.dbs closedEmpty.dbs where
  node id name apart := by
    apply Map.getElem?_eq_of_toList fun key => key.id ≠ 2
    · decide +kernel
    · simpa using apart
  entry id name apart isOther := by
    apply Map.getElem?_eq_of_toList fun key => key.id ≠ 2 ∧ key.id ≠ 1
    · decide +kernel
    · simpa using ⟨apart, isOther⟩

set_option maxRecDepth 100000 in
theorem hidden_iff_file :
    Reports closedFull stranger (str "/d/x") ∧ Reports closedEmpty stranger (str "/d/x") := by
  have continues : tokenize (str "/d/x") = [str "d"] ++ str "x" :: [] := by decide +kernel
  exact (hidden_iff rfl rfl closedFull_hides closedFull_differ continues).mpr
    ⟨⟨⟨1, 0, 0, 0o40700⟩, by decide +kernel⟩, ⟨⟨1, 0, 0, 0o40700⟩, by decide +kernel⟩⟩

set_option maxRecDepth 100000 in
/-- A path that continues below the file tells a stranger whether the file is there. -/
theorem hidden_file_shows :
    closedFull.cache = .initial ∧ closedEmpty.cache = .initial ∧
      closedFull.dbs.Hides stranger (· = 2) [str "d"] ⟨1, .directory⟩ ∧
      Dbs.DifferBelow 1 (· = 2) closedFull.dbs closedEmpty.dbs ∧
      tokenize (str "/d/x/y") = [str "d"] ++ str "x" :: [str "y"] ∧
      (exec (PathCache_hash.getnode stranger (str "/d/x/y")) closedFull).1 = .error .access ∧
      (exec (PathCache_hash.getnode stranger (str "/d/x/y")) closedEmpty).1 =
        .error .notFound :=
  ⟨rfl, rfl, closedFull_hides, closedFull_differ, by decide +kernel, by decide +kernel,
    by decide +kernel⟩

end OfflineFs
