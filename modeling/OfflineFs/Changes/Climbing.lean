import OfflineFs.Changes.Outcomes

/-!
# What renaming does to the hierarchy

An existing destination is checked before anything changes: a directory is not moved onto
one above which it stands.  Then the destination goes, and the source gets its new name
before it loses the old one.
-/

namespace OfflineFs

open OfflineFs.Effect OfflineFs.Effect.Program OfflineFs.Transition

namespace Dbs

variable {before after : Dbs} {s d : UInt64} {old new : Bytes} {n m src dst : NodeRef}
variable {names front : List Bytes}

/-- On the way to a directory there are directories. -/
theorem Hierarchy.directory_of_prefix (hierarchy : before.Hierarchy) (leads : before.Leads names n)
    (isDirectory : n.kind = .directory) (isPrefix : front <+: names)
    (found : before.Leads front m) : m.kind = .directory := by
  induction names using List.reverseRecOn generalizing n with
  | nil =>
      rw [List.prefix_nil.mp isPrefix] at found
      rw [hierarchy.formed.functional found leads, isDirectory]
  | append_singleton names name ih =>
      rcases List.prefix_concat_iff.mp isPrefix with same | shorter
      · rw [same] at found
        rw [hierarchy.formed.functional found leads, isDirectory]
      · obtain ⟨above, leadsAbove, edge⟩ := leads_concat.mp leads
        exact ih leadsAbove edge.1 shorter

/-- A directory is less deep than there are entries: each one above it has one for itself. -/
theorem Hierarchy.length_lt_size (hierarchy : before.Hierarchy)
    (leads : before.Leads names ⟨d, .directory⟩) : names.length < before.directories.size := by
  have owns : ∃ keys : List (Key UInt64), keys.Nodup ∧ keys.length = names.length + 1 ∧
      ∀ key ∈ keys, ∃ front e, front <+: names ∧ before.Leads front ⟨e, .directory⟩ ∧
        key = ⟨e, str "."⟩ := by
    induction names using List.reverseRecOn generalizing d with
    | nil =>
        refine ⟨[⟨d, str "."⟩], List.nodup_singleton _, rfl, fun key listed => ?_⟩
        exact ⟨[], d, List.nil_prefix, leads, List.mem_singleton.mp listed⟩
    | append_singleton names name ih =>
        obtain ⟨⟨e, kind⟩, above, edge⟩ := leads_concat.mp leads
        obtain rfl : kind = .directory := edge.1
        obtain ⟨keys, nodup, many, each⟩ := ih above
        refine ⟨⟨d, str "."⟩ :: keys, List.nodup_cons.mpr ⟨fun listed => ?_, nodup⟩, ?_, ?_⟩
        · obtain ⟨front, other, isPrefix, found, same⟩ := each _ listed
          obtain rfl : d = other := congrArg Key.id same
          rw [hierarchy.tree.unique rfl found leads] at isPrefix
          exact Namespace.not_prefix_of_concat names name isPrefix
        · rw [List.length_cons, many, List.length_append, List.length_singleton]
        · intro key listed
          rcases List.mem_cons.mp listed with rfl | earlier
          · exact ⟨names ++ [name], d, List.prefix_refl _, leads, rfl⟩
          · obtain ⟨front, other, isPrefix, found, same⟩ := each key earlier
            exact ⟨front, other, Namespace.prefix_concat_of_front isPrefix, found, same⟩
  obtain ⟨keys, nodup, many, each⟩ := owns
  have stored : keys ⊆ before.directories.keys := by
    intro key listed
    obtain ⟨front, e, -, found, rfl⟩ := each key listed
    have own : before.directories[(⟨e, str "."⟩ : Key UInt64)]? = some (hostToDb e) :=
      hierarchy.tree.dot (hierarchy.getnode_of_leads found)
    rw [Std.ExtTreeMap.mem_keys, Std.ExtTreeMap.mem_iff_isSome_getElem?, own]
    rfl
  have few := (nodup.subperm stored).length_le
  rw [many, Std.ExtTreeMap.length_keys] at few
  exact few

/-- No directory is in itself. -/
theorem Hierarchy.ne_of_child (hierarchy : before.Hierarchy)
    (child : before.getchild d new = .ok dst)
    (newName : IsName new) : dst.id ≠ d := by
  intro same
  have isNode := getchild_ok_getnode child
  have directory := hierarchy.directory_of_entry (getchild_eq_ok_iff.mp child).1
  have isDir : dst = ⟨d, .directory⟩ := by
    rw [same, directory] at isNode
    exact (Except.ok.inj isNode).symm
  rw [isDir] at child
  exact hierarchy.parent_ne child newName rfl

/-- A destination that is not found is a free name. -/
theorem Hierarchy.free_of_destination (hierarchy : before.Hierarchy)
    (missing : Warrant.destination before d new = .ok none) :
    before.get .directories d new = none := by
  by_contra present
  obtain ⟨value, stored⟩ := Option.ne_none_iff_exists'.mp present
  obtain ⟨n, isEntry, -, isNode⟩ := hierarchy.child_of_entry stored
  have found := Warrant.destination_of_getchild (getchild_eq_ok_iff.mpr ⟨isEntry, isNode⟩)
  rw [missing] at found
  cases found

/-- No directory on the way to a directory, but the root, is a given one. -/
def Apart (before : Dbs) (d id : UInt64) : Prop :=
  ∀ {names front m}, before.Leads names ⟨d, .directory⟩ → front ≠ [] → front <+: names →
    before.Leads front m → m.id ≠ id

/-- A node is not moved beneath itself. -/
theorem Hierarchy.ends (hierarchy : before.Hierarchy) (child : before.getchild s old = .ok src)
    (oldName : IsName old) (apart : ¬ (s = d ∧ old = new))
    (above : src.kind = .directory → before.Apart d src.id) : before.Ends s old d new where
  apart := apart
  outside {os ns} leadsOld leadsNew isPrefix := by
    have leads : before.Leads (os ++ [old]) src :=
      leads_concat.mpr ⟨_, leadsOld, rfl, oldName, child⟩
    rcases List.prefix_concat_iff.mp isPrefix with same | beneath
    · obtain ⟨rfl, isLast⟩ := List.append_inj' same rfl
      have sameNode := hierarchy.formed.functional leadsOld leadsNew
      exact apart ⟨congrArg NodeRef.id sameNode, List.singleton_inj.mp isLast⟩
    · have isDirectory := hierarchy.directory_of_prefix leadsNew rfl beneath leads
      exact above isDirectory leadsNew (List.concat_ne_nil old os) beneath leads rfl

/-- The checks of an existing destination: the request is refused, or the destination is a
file like the source, or a directory that has been emptied. -/
inductive Clears (before : Dbs) (d : UInt64) (src dst : NodeRef) (after : Dbs) : Option Int → Prop
  | refused {code : Int} (fails : code ≠ 0) (same : after = before) :
      Clears before d src dst after (some code)
  | file (srcFile : src.kind ≠ .directory) (dstFile : dst.kind ≠ .directory)
      (same : after = before) : Clears before d src dst after none
  | directory (srcDirectory : src.kind = .directory) (dstDirectory : dst.kind = .directory)
      (few : (before.directories.attrs dst.id).length ≤ 2) (emptied : before.Emptied dst.id after)
      (above : before.Apart d src.id) : Clears before d src dst after none

/-- What has become of a destination: the request is refused, or there was none, or it has
lost its name. -/
inductive Vacates (before : Dbs) (d : UInt64) (new : Bytes) (src : NodeRef)
    (found : Option NodeRef) (after : Dbs) : Option Int → Prop
  | refused {code : Int} (fails : code ≠ 0) (alike : before.Alike after) :
      Vacates before d new src found after (some code)
  | free (absent : found = none) (same : after = before) :
      Vacates before d new src found after none
  | dropped {dst : NodeRef} (present : found = some dst)
      (kinds : src.kind = .directory ↔ dst.kind = .directory)
      (above : src.kind = .directory → before.Apart d src.id)
      (dropped : before.Dropped d new dst after) (fewer : ∀ id, after.refs id ≤ before.refs id) :
      Vacates before d new src found after none

end Dbs

section Renaming

variable {fs : FS} {valid : PathCacheState → Prop} {base : Dbs → Prop} {world : World}
variable {halts : Prop}
variable {s d srcid : UInt64} {old new : Bytes} {src dst : NodeRef} {names : List Bytes}

/-- Climbing to the root meets every directory on the way, in as many rounds as there are. -/
theorem settles_climb {fuel : Nat} (cached : valid world.cache) (hierarchy : world.dbs.Hierarchy)
    (harmless : base world.dbs) (leads : world.dbs.Leads names ⟨d, .directory⟩)
    (deep : fuel ≤ names.length → halts) :
    Settles fs.pcache valid base halts (fun meets now => now = world.dbs ∧ (meets = false →
        ∀ {front m}, front ≠ [] → front <+: names → world.dbs.Leads front m → m.id ≠ srcid))
      (exec (FS.climbMeets srcid fuel ⟨d, .directory⟩) world) := by
  induction fuel generalizing names d with
  | zero => exact .inr ⟨cached, harmless, deep (Nat.zero_le _)⟩
  | succ fuel ih =>
      unfold FS.climbMeets
      split
      · rename_i isRoot
        apply settles_pure cached
        refine ⟨rfl, fun _ front m nonempty isPrefix => ?_⟩
        change d = 0 at isRoot
        rw [isRoot] at leads
        rw [hierarchy.tree.unique rfl leads (.nil _)] at isPrefix
        exact absurd (List.prefix_nil.mp isPrefix) nonempty
      · rename_i below
        split
        · apply settles_pure cached
          exact ⟨rfl, fun impossible => absurd impossible (by decide)⟩
        · rename_i other
          rcases List.eq_nil_or_concat names with rfl | ⟨most, name, rfl⟩
          · cases leads
            exact absurd rfl below
          have deeper : fuel ≤ most.length → halts := by
            intro few
            apply deep
            rw [List.length_concat]
            exact Nat.succ_le_succ few
          rw [List.concat_eq_append] at leads ⊢
          obtain ⟨⟨e, kind⟩, leadsUp, isDirectory, isName, child⟩ := Dbs.leads_concat.mp leads
          obtain rfl : kind = .directory := isDirectory
          apply settles_getchild cached harmless
          intro up isUp
          obtain rfl : up = ⟨e, .directory⟩ :=
            Except.ok.inj (isUp.symm.trans (hierarchy.up_child child isName))
          apply settles_cast cached harmless
          intro _
          apply (ih leadsUp deeper).weaken id
          rintro meets now ⟨same, apart⟩
          refine ⟨same, fun missed front m nonempty isPrefix found => ?_⟩
          rcases List.prefix_concat_iff.mp isPrefix with whole | shorter
          · rw [whole] at found
            rw [hierarchy.formed.functional found leads]
            exact other
          · exact apart missed nonempty shorter found

variable (cached : valid world.cache) (hierarchy : world.dbs.Hierarchy)
variable (bounded : world.dbs.Bounded (2 ^ 31 - 4))

include cached hierarchy bounded

/-- The checks on the destination: a code, or a destination that can be removed. -/
theorem settles_clearDestination (deep : fs.fuel ≤ world.dbs.directories.size → halts)
    (harmless : base world.dbs)
    (directory : world.dbs.getnode d = .ok ⟨d, .directory⟩)
    (srcNode : world.dbs.getnode src.id = .ok src)
    (child : world.dbs.getchild d new = .ok dst) (newName : IsName new) :
    Settles fs.pcache valid base halts (fun result now => world.dbs.Clears d src dst now result)
      (exec (fs.clearDestination ⟨d, .directory⟩ src dst) world) := by
  have dstNode := Dbs.getchild_ok_getnode child
  unfold FS.clearDestination
  apply settles_attr cached harmless
  intro srcMode isSrcMode
  apply settles_attr cached harmless
  intro dstMode isDstMode
  have srcKind := kind_of_attr srcNode isSrcMode
  have dstKind := kind_of_attr dstNode isDstMode
  split
  · rename_i srcDirectory
    split
    · exact settles_pure cached (.refused (by decide) rfl)
    · rename_i dstDirectory
      have isDirectory : dst.kind = .directory :=
        dstKind.trans (kindOfMode_eq_directory_iff.mpr (not_not.mp dstDirectory))
      apply settles_node cached harmless
      intro n isNode
      obtain rfl : n = ⟨d, .directory⟩ := Except.ok.inj (isNode.symm.trans directory)
      apply settles_cast cached harmless
      intro _
      obtain ⟨names, leads⟩ := hierarchy.reached directory
      have deeper : fs.fuel ≤ names.length → halts := fun few =>
        deep (few.trans (hierarchy.length_lt_size leads).le)
      apply settles_bind (settles_climb cached hierarchy harmless leads deeper)
      rintro meets now cachedNow ⟨same, missed⟩
      split
      · exact settles_pure cachedNow (.refused (by decide) same)
      · rename_i apart
        have above : world.dbs.Apart d src.id := by
          intro other front m leadsOther nonempty isPrefix found
          rw [hierarchy.tree.unique rfl leadsOther leads] at isPrefix
          exact missed (Bool.eq_false_iff.mpr apart) nonempty isPrefix found
        have still : base now.dbs := same ▸ harmless
        apply settles_node cachedNow still
        intro n isNode
        rw [same] at isNode
        obtain rfl : n = dst := Except.ok.inj (isNode.symm.trans dstNode)
        apply settles_cast cachedNow still
        intro _
        apply settles_look cachedNow (fun dbs => .ok (dbs.directories.attrs n.id).length)
          (Register.exec_countattrs .directories n.id) still
        intro count counted
        have isCount : (world.dbs.directories.attrs n.id).length = count :=
          same ▸ Except.ok.inj counted
        split
        · exact settles_pure cachedNow (.refused (by decide) same)
        · rename_i few
          rw [← isCount] at few
          have isDir : n = ⟨n.id, .directory⟩ := by rw [← isDirectory]
          rw [isDir] at child ⊢
          rw [← same] at child
          apply settles_emptying cachedNow (same ▸ hierarchy) (same ▸ bounded) child newName
            (same ▸ Nat.le_of_not_lt few)
          intro emptied cachedEmptied isEmptied
          rw [same] at isEmptied
          exact settles_pure cachedEmptied (.directory
            (srcKind.trans (kindOfMode_eq_directory_iff.mpr srcDirectory)) rfl
            (Nat.le_of_not_lt few) isEmptied above)
  · rename_i srcOther
    split
    · exact settles_pure cached (.refused (by decide) rfl)
    · rename_i dstOther
      exact settles_pure cached (.file
        (fun same => srcOther (kindOfMode_eq_directory_iff.mp (srcKind.symm.trans same)))
        (fun same => dstOther (kindOfMode_eq_directory_iff.mp (dstKind.symm.trans same))) rfl)

/-- The destination is out of the way, or a code is returned. -/
theorem settles_removeDestination (steady : fs.pcache.Steady valid)
    (deep : fs.fuel ≤ world.dbs.directories.size → halts) {sctx : SContext}
    {newpath : Bytes} {found : Option NodeRef} (harmless : base world.dbs)
    (directory : world.dbs.getnode d = .ok ⟨d, .directory⟩)
    (srcNode : world.dbs.getnode src.id = .ok src)
    (child : ∀ dst, found = some dst → world.dbs.getchild d new = .ok dst) (newName : IsName new) :
    Settles fs.pcache valid base halts
      (fun result now => world.dbs.Vacates d new src found now result)
      (exec (fs.removeDestination sctx newpath ⟨⟨d, .directory⟩, new⟩ src found) world) := by
  cases found with
  | none => exact settles_pure cached (.free rfl rfl)
  | some dst =>
      have dstChild := child dst rfl
      apply settles_sticky cached harmless
      apply settles_bind
        (settles_clearDestination cached hierarchy bounded deep harmless directory srcNode
        dstChild newName)
      intro result now cachedNow clears
      cases clears with
      | refused fails same => exact settles_pure cachedNow (.refused fails (same ▸ .refl _))
      | file srcFile dstFile same =>
          apply settles_invalidate cachedNow steady
          intro dropping cachedDropping sameDropping
          apply settles_setTime cachedDropping (by decide) (by decide)
          intro stamped cachedStamped alike
          rw [sameDropping, same] at alike
          apply settles_delchild cachedStamped (n := dst)
          · rw [alike.getchild, dstChild]
          · exact alike.balanced hierarchy.balanced
          · have few := bounded dst.id
            rw [alike.refs, ← hierarchy.balanced]
            omega
          · exact fun isDirectory => absurd isDirectory dstFile
          intro parted cachedParted isParted
          have fromStart := isParted.alike_left alike
          refine settles_pure cachedParted (.dropped rfl
            ⟨fun impossible => absurd impossible srcFile,
              fun impossible => absurd impossible dstFile⟩
            (fun impossible => absurd impossible srcFile)
            (fromStart.dropped dstChild newName dstFile hierarchy.balanced) fun id => ?_)
          rw [fromStart.refs]
          exact Nat.sub_le _ _
      | directory srcDirectory dstDirectory few emptied above =>
          apply settles_invalidate cachedNow steady
          intro dropping cachedDropping sameDropping
          apply settles_setTime cachedDropping (by decide) (by decide)
          intro stamped cachedStamped alike
          rw [sameDropping] at alike
          have isDir : dst = ⟨dst.id, .directory⟩ := by rw [← dstDirectory]
          rw [isDir] at dstChild
          apply settles_vacating cachedStamped hierarchy dstChild newName few
            (emptied.alike_right alike)
          intro after cachedAfter dropped fewer
          rw [← isDir] at dropped
          exact settles_pure cachedAfter (.dropped rfl
            ⟨fun _ => dstDirectory, fun _ => srcDirectory⟩ (fun _ => above) dropped fewer)

/-- The entry of a directory for its parent follows it. -/
theorem settles_moveDotDot {α : Type} {post : α → Dbs → Prop} {next : Unit → FsProg α}
    (child : world.dbs.getchild s old = .ok src) (oldName : IsName old)
    (directory : world.dbs.getnode d = .ok ⟨d, .directory⟩)
    (continues : ∀ now, valid now.cache → world.dbs.Rehung src d now.dbs →
      (∀ id, now.dbs.refs id ≤ world.dbs.refs id + 1) →
      Settles fs.pcache valid base halts post (exec (next ()) now)) :
    Settles fs.pcache valid base halts post
      (exec (FS.moveDotDot src ⟨d, .directory⟩ >>= next) world) := by
  have srcNode := Dbs.getchild_ok_getnode child
  obtain ⟨mode, isMode, -⟩ := Dbs.getnode_eq_ok_iff.mp srcNode
  have srcKind := kind_of_attr srcNode isMode
  apply settles_assoc
  apply settles_known (fun dbs => dbs.attr UInt32 src.id .mode)
    (Node.exec_getattr UInt32 src.id .mode) isMode
  by_cases isDirectory : sIsdir mode = true
  · have isDir : src = ⟨src.id, .directory⟩ := by
      rw [← kindOfMode_eq_directory_iff.mpr isDirectory, ← srcKind]
    have dirChild : world.dbs.getchild s old = .ok ⟨src.id, .directory⟩ := isDir ▸ child
    have counts : ∀ id, world.dbs.refs id ≤ 2 ^ 31 - 4 := by
      intro id
      rw [← hierarchy.balanced]
      exact bounded id
    have two := hierarchy.two_le_refs_parent dirChild oldName
    rw [if_pos isDirectory]
    apply settles_assoc
    apply settles_delchild cached (n := ⟨s, .directory⟩) (hierarchy.up_child dirChild oldName)
      hierarchy.balanced ((counts s).trans (by decide))
    · intro _ single
      change world.dbs.refs s = 1 at single
      rw [single] at two
      omega
    intro one cachedOne parted
    change world.dbs.Parted src.id (str "..") s one.dbs at parted
    have own : one.dbs.get .directories d (str ".") = some (hostToDb d) := by
      rw [parted.entries, if_neg fun site => absurd site.2 (by decide),
        hierarchy.tree.dot directory]
    have balanced := parted.balanced hierarchy.balanced
    apply settles_addchild cachedOne (n := ⟨d, .directory⟩)
    · rw [balanced]
      exact Dbs.refs_pos_of_entry own
    · rw [balanced, parted.refs]
      have few := counts d
      change world.dbs.refs d - _ < 2 ^ 31
      omega
    · intro taken
      rw [parted.entries, if_pos ⟨rfl, rfl⟩] at taken
      exact absurd rfl taken
    intro two cachedTwo joined
    refine continues two cachedTwo (hierarchy.rehung child oldName
      (srcKind.trans (kindOfMode_eq_directory_iff.mpr isDirectory)) parted joined) fun id => ?_
    have added : (if id = d then 1 else 0) ≤ 1 := by split <;> omega
    rw [joined.refs, parted.refs]
    exact Nat.add_le_add (Nat.sub_le _ _) added
  · rw [if_neg isDirectory]
    apply continues world cached (hierarchy.rehung_file fun same =>
      isDirectory (kindOfMode_eq_directory_iff.mp (srcKind.symm.trans same)))
    exact fun id => Nat.le_succ _

/-- The source gets its new name and loses the old one. -/
theorem settles_relocating (steady : fs.pcache.Steady valid) {oldpath : Bytes}
    {post : Int → Dbs → Prop} (child : world.dbs.getchild s old = .ok src) (oldName : IsName old)
    (directory : world.dbs.getnode d = .ok ⟨d, .directory⟩) (newName : IsName new)
    (spelled : new ≠ [] ∧ slash ∉ new) (free : world.dbs.get .directories d new = none)
    (holds : ∀ now, world.dbs.Shifted s old d new src now → post 0 now) :
    Settles fs.pcache valid base halts post (exec (do
      FS.moveDotDot src ⟨d, .directory⟩
      fs.pcache.invalidate oldpath
      Node.setTime src.id .ctime
      Directory.addchild ⟨d, .directory⟩ new src
      Directory.delchild ⟨s, .directory⟩ old
      touchParent ⟨s, .directory⟩
      touchParent ⟨d, .directory⟩
      Pure.pure 0) world) := by
  have srcNode := Dbs.getchild_ok_getnode child
  have counts : world.dbs.refs src.id ≤ 2 ^ 31 - 4 := by
    rw [← hierarchy.balanced]
    exact bounded src.id
  apply settles_moveDotDot cached hierarchy bounded child oldName directory
  intro turned cachedTurned rehung more
  apply settles_invalidate cachedTurned steady
  intro dropping cachedDropping sameDropping
  apply settles_setTime cachedDropping (by decide) (by decide)
  intro stamped cachedStamped alike
  rw [sameDropping] at alike
  have rehungStamped := rehung.alike_right alike
  have freeStamped := rehungStamped.free newName free
  have few : stamped.dbs.refs src.id < 2 ^ 31 - 2 := by
    have most := more src.id
    rw [alike.refs]
    omega
  apply settles_addchild cachedStamped
  · rw [rehungStamped.balanced]
    refine Dbs.refs_pos_iff.mpr ⟨s, old, ?_⟩
    rw [rehungStamped.entries, if_neg fun both => oldName.2 both.2.2,
      (Dbs.getchild_eq_ok_iff.mp child).1]
  · rw [rehungStamped.balanced]
    omega
  · exact fun taken => absurd freeStamped taken
  intro entered cachedEntered joined
  obtain ⟨still, two⟩ := rehungStamped.child_joined newName child oldName free joined
  apply settles_delchild cachedEntered (n := src) still (joined.balanced rehungStamped.balanced)
  · rw [joined.refs, if_pos rfl]
    omega
  · intro _ single
    omega
  intro left cachedLeft parted
  have shifted : world.dbs.Shifted s old d new src left.dbs :=
    rehungStamped.shifted newName child oldName directory spelled free joined parted
  apply settles_touchParent cachedLeft
  intro first cachedFirst alikeFirst
  apply settles_touchParent cachedFirst
  intro second cachedSecond alikeSecond
  exact settles_pure cachedSecond (holds _ (shifted.alike_right (alikeFirst.trans alikeSecond)))

end Renaming

section Requests

variable {fs : FS} {ctx : Context} {world : World} {valid : PathCacheState → Prop}
variable {halts : Prop}
variable (steady : fs.pcache.Steady valid) (cached : valid world.cache)
variable (hierarchy : world.dbs.Hierarchy) (roomy : world.dbs.Roomy)

include steady cached hierarchy roomy

/-- `rename` moves what a name leads to, or changes no name. -/
theorem settles_rename {oldpath newpath : Bytes}
    (deep : fs.fuel ≤ world.dbs.directories.size → halts) (spelled : Spelled newpath)
    (oldName : IsName (leafOf oldpath)) (newName : IsName (leafOf newpath))
    (sound : ∀ sctx s d, ctx.sctx = some sctx →
      fs.pcache.Finds sctx world (parentOf oldpath) ⟨s, .directory⟩ →
      fs.pcache.FindsNext sctx world (parentOf oldpath) (parentOf newpath) ⟨d, .directory⟩ →
      (s = d → leafOf oldpath = leafOf newpath → oldpath = newpath) ∧
      (world.dbs.get .directories s (leafOf oldpath) ≠ none →
        world.dbs.get .directories d (leafOf newpath) = none →
          world.dbs.Ends s (leafOf oldpath) d (leafOf newpath))) :
    Settles fs.pcache valid world.dbs.Alike halts
      ((Request.rename oldpath newpath).Outcome fs ctx world)
      (exec (fs.rename ctx oldpath newpath) world) := by
  apply settles_naming errcode_ne_zero cached
  intro sctx caller
  apply settles_resolve cached steady (.refl _)
  intro s found cachedFound same finds source
  apply settles_resolve cachedFound steady (same ▸ .refl _)
  intro d seen cachedSeen sameSeen findsNew directory
  rw [same] at sameSeen directory
  have isFound : fs.pcache.Finds sctx world (parentOf oldpath) ⟨s, .directory⟩ :=
    congrArg Prod.fst finds
  have isFoundNew : fs.pcache.FindsNext sctx world (parentOf oldpath) (parentOf newpath)
      ⟨d, .directory⟩ := by
    rw [PathCache.FindsNext, parentOf, finds]
    exact congrArg Prod.fst findsNew
  obtain ⟨single, unchecked⟩ := sound sctx s d caller isFound isFoundNew
  have unchanged : world.dbs.Alike seen.dbs := sameSeen ▸ .refl _
  have tidy : seen.dbs.Hierarchy := sameSeen ▸ hierarchy
  have bounded : seen.dbs.Bounded (2 ^ 31 - 4) := sameSeen ▸ roomy.bounded
  rw [← sameSeen] at directory
  apply settles_getchild cachedSeen unchanged
  intro src child
  apply settles_look cachedSeen (fun dbs => Warrant.destination dbs d (leafOf newpath))
    (Warrant.exec_findchild ⟨d, .directory⟩ (leafOf newpath)) unchanged
  intro dst isDestination
  have dstChild : ∀ r, dst = some r → seen.dbs.getchild d (leafOf newpath) = .ok r := by
    rintro r rfl
    exact Warrant.destination_eq_some isDestination
  split
  · rename_i both
    rw [both.2]
    exact settles_pure cachedSeen (.inl ⟨rfl, .same unchanged⟩)
  · rename_i differs
    have apart : ¬ (s = d ∧ leafOf oldpath = leafOf newpath) := by
      rintro ⟨rfl, sameLeaf⟩
      have again : Warrant.destination seen.dbs s (leafOf newpath) = .ok (some src) := by
        rw [← sameLeaf]
        exact Warrant.destination_of_getchild child
      obtain rfl : some src = dst := Except.ok.inj (again.symm.trans isDestination)
      exact differs ⟨rfl, single rfl sameLeaf⟩
    apply settles_access cachedSeen unchanged
    apply settles_access cachedSeen unchanged
    apply settles_sticky cachedSeen unchanged
    apply settles_bind (settles_removeDestination cachedSeen tidy bounded steady (sameSeen ▸ deep)
      unchanged directory
      (Dbs.getchild_ok_getnode child) dstChild newName)
    intro result cleared cachedCleared vacates
    cases vacates with
    | refused fails alike => exact settles_pure cachedCleared (.inr ⟨fails, unchanged.trans alike⟩)
    | free absent sameCleared =>
        rw [absent] at isDestination
        have free := tidy.free_of_destination isDestination
        apply settles_relocating cachedCleared (sameCleared ▸ tidy) (sameCleared ▸ bounded) steady
          (sameCleared ▸ child) oldName (sameCleared ▸ directory) newName spelled.leaf
          (sameCleared ▸ free)
        intro now shifted
        rw [sameCleared, sameSeen] at shifted
        have present : world.dbs.get .directories s (leafOf oldpath) ≠ none := by
          rw [← sameSeen, (Dbs.getchild_eq_ok_iff.mp child).1]
          exact Option.some_ne_none _
        exact .inl ⟨rfl, .move isFound isFoundNew (unchecked present (sameSeen ▸ free)) shifted⟩
    | dropped present kinds above dropped fewer =>
        rename_i r
        have occupied := dstChild r present
        have away := tidy.ne_of_child occupied newName
        have still : cleared.dbs.getchild s (leafOf oldpath) = .ok src := by
          apply dropped.child_kept tidy child apart
          rintro ⟨isDirectory, rfl⟩
          have bare := dropped.bare isDirectory (leafOf oldpath) oldName
          rw [(Dbs.getchild_eq_ok_iff.mp child).1] at bare
          cases bare
        have directoryStill : cleared.dbs.getnode d = .ok ⟨d, .directory⟩ := by
          rw [dropped.getnode, if_neg fun both => away both.1.symm, directory]
        have boundedStill : cleared.dbs.Bounded (2 ^ 31 - 4) := by
          intro id
          rw [dropped.balanced]
          apply (fewer id).trans
          rw [← tidy.balanced]
          exact bounded id
        apply settles_relocating cachedCleared (dropped.keeps tidy) boundedStill steady still
          oldName
          directoryStill newName spelled.leaf
        · rw [dropped.entries, if_pos (.inl ⟨rfl, rfl⟩)]
        intro now shifted
        have ends := tidy.ends child oldName apart above
        rw [sameSeen] at ends dropped
        exact .inl ⟨rfl, .replace isFound isFoundNew ends dropped shifted⟩

end Requests

end OfflineFs
