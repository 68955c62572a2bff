import OfflineFs.Changes.Additions

/-!
# What users may do to owners, groups and modes

Between a request of a user and the attributes that decide who may do what stand the
checks of `chmod` and `chown` and the reserved prefix.  A node keeps what they
protect through every change that a warrant permits, unless it goes.
-/

namespace OfflineFs

open OfflineFs.Effect OfflineFs.Transition

/-- What a caller other than the superuser can have done to the owner, the group and
the mode of a node. -/
structure Dbs.Respects (before : Dbs) (sctx : SContext) (id : UInt64) (after : Dbs) :
    Prop where
  uid : after.get .nodes id Attr.uid.name = before.get .nodes id Attr.uid.name
  type : ∀ old new, before.attr UInt32 id .mode = .ok old → after.attr UInt32 id .mode = .ok new →
    new &&& sIfmt = old &&& sIfmt
  gid : after.get .nodes id Attr.gid.name ≠ before.get .nodes id Attr.gid.name →
    before.attr UInt32 id .uid = .ok sctx.uid ∧
      ∃ gid, after.attr UInt32 id .gid = .ok gid ∧ gid ∈ sctx.groups
  mode : after.get .nodes id Attr.mode.name ≠ before.get .nodes id Attr.mode.name →
    before.attr UInt32 id .uid = .ok sctx.uid
  setgid : ∀ old new, before.attr UInt32 id .mode = .ok old →
    after.attr UInt32 id .mode = .ok new → old &&& sIsgid = 0 → new &&& sIsgid ≠ 0 →
      ∃ gid, after.attr UInt32 id .gid = .ok gid ∧ gid ∈ sctx.groups
  setuid : after.get .nodes id Attr.gid.name ≠ before.get .nodes id Attr.gid.name →
    ∀ mode, after.attr UInt32 id .mode = .ok mode → sIsreg mode = true → mode &&& sIsuid = 0

/-- Every node that is there before and after. -/
def Dbs.RespectedBy (before : Dbs) (sctx : SContext) (after : Dbs) : Prop :=
  ∀ id n n', before.getnode id = .ok n → after.getnode id = .ok n' →
    before.Respects sctx id after

namespace Dbs

variable {before now after : Dbs} {sctx : SContext} {id : UInt64}

/-- Nothing has changed. -/
theorem Respects.refl (before : Dbs) (sctx : SContext) (id : UInt64) :
    before.Respects sctx id before where
  uid := rfl
  type old new isOld isNew := by
    rw [isOld] at isNew
    cases isNew
    rfl
  gid changed := absurd rfl changed
  mode changed := absurd rfl changed
  setgid old new isOld isNew unset set := by
    rw [isOld] at isNew
    cases isNew
    exact absurd unset set
  setuid changed := absurd rfl changed

/-- Only the owner, the group and the mode matter. -/
theorem Respects.congr (respects : before.Respects sctx id now)
    (same : ∀ attr ∈ guarded, after.get .nodes id attr.name = now.get .nodes id attr.name) :
    before.Respects sctx id after := by
  have uid := same .uid (by decide)
  have gid := same .gid (by decide)
  have mode := same .mode (by decide)
  exact {
    uid := uid.trans respects.uid
    type := by
      rw [attr_congr mode]
      exact respects.type
    gid := by
      rw [gid, attr_congr gid]
      exact respects.gid
    mode := by
      rw [mode]
      exact respects.mode
    setgid := by
      rw [attr_congr mode, attr_congr gid]
      exact respects.setgid
    setuid := by
      rw [gid, attr_congr mode]
      exact respects.setuid }

end Dbs

/-! ## Bits of the mode -/

theorem or_and_distrib (first second mask : UInt32) :
    (first ||| second) &&& mask = first &&& mask ||| second &&& mask := by
  apply UInt32.toNat_inj.mp
  simp only [UInt32.toNat_and, UInt32.toNat_or]
  exact Nat.and_or_distrib_right _ _ _

theorem keptType_chmod (mode old : UInt32) :
    ((mode &&& ~~~sIfmt) ||| (old &&& sIfmt)) &&& sIfmt = old &&& sIfmt := by
  rw [or_and_distrib, Warrant.cleared_and, UInt32.and_assoc, UInt32.and_self, UInt32.zero_or]

/-- Clearing bits outside the mask leaves what is inside. -/
theorem cleared_and_of_disjoint {mask bit : UInt32} (disjoint : ~~~bit &&& mask = mask)
    (old : UInt32) : old &&& ~~~bit &&& mask = old &&& mask := by
  rw [UInt32.and_assoc, disjoint]

theorem setgid_of_chmod {mode old : UInt32}
    (set : ((mode &&& ~~~sIfmt) ||| (old &&& sIfmt)) &&& sIsgid ≠ 0) : mode &&& sIsgid ≠ 0 := by
  intro unset
  apply set
  rw [or_and_distrib, UInt32.and_assoc old, cleared_and_of_disjoint (by decide), unset]
  have apart : sIfmt &&& sIsgid = 0 := by decide
  rw [apart, UInt32.and_zero, UInt32.or_zero]

theorem and_sIfreg_of_sIsreg {mode : UInt32} (regular : sIsreg mode = true) :
    mode &&& sIfreg ≠ 0 := by
  have isFormat : mode &&& sIfmt = sIfreg := of_decide_eq_true regular
  have within : sIfmt &&& sIfreg = sIfreg := by decide
  rw [← within, ← UInt32.and_assoc, isFormat]
  decide

/-! ## One change -/

namespace Warrant

variable {w : Warrant} {now : Dbs} {id : UInt64} {change : Change} {count : Nat}

/-- What a permitted change does to a node that was there before: it leaves what is
guarded, takes the node away, or has looked first. -/
theorem guarded_cases (permits : w.Permits now change) (request : ¬ w.importing)
    (user : w.sctx.uid ≠ 0) (old : id ≠ w.fresh) :
    (∀ attr ∈ guarded, (change.apply now).get .nodes id attr.name =
        now.get .nodes id attr.name) ∨
      (∀ name, (change.apply now).get .nodes id name = none) ∨
      ∃ (attr : Attr) (value : Bytes), change = .put id attr.name value ∧
        w.Guards now id attr value := by
  have unguarded : ∀ {other : UInt64} {name value : Bytes},
      (∀ attr ∈ guarded, name ≠ attr.name) → ∀ attr ∈ guarded,
        (now.put .nodes other name value).get .nodes id attr.name = now.get .nodes id attr.name :=
    fun differs attr listed => Dbs.get_put_of_ne (.inr (differs attr listed))
  have stampOrPlace : ∀ attr ∈ stamps ++ placing, ∀ read ∈ guarded,
      attr.name ≠ read.name := by
    intro attr listed read isGuarded same
    rw [Attr.name_inj] at same
    subst same
    revert listed isGuarded
    cases attr <;> decide
  cases permits with
  | stamp listed other value =>
      exact .inl (unguarded (stampOrPlace _ (List.mem_append_left _ listed)))
  | place listed other value =>
      exact .inl (unguarded (stampOrPlace _ (List.mem_append_right _ listed)))
  | @mark name free other value =>
      refine .inl (unguarded fun attr _ same => ?_)
      rw [same] at free
      exact user (free attr.reservedPrefix_isPrefix).1
  | @unmark name free other =>
      refine .inl fun attr _ => ?_
      rw [Change.apply, Dbs.get_del, if_neg]
      rintro ⟨-, -, same⟩
      rw [same] at free
      exact user (free attr.reservedPrefix_isPrefix).1
  | imported importing listed fits present => exact absurd importing request
  | create first births atime mtime ctime =>
      exact .inl fun attr _ => Dbs.get_created_of_ne _ (Ne.symm old) _ _ _ _ _
  | own listed fits alive =>
      exact .inl fun attr _ => Dbs.get_put_of_ne (.inl (Ne.symm old))
  | @guarded attr value other guards =>
      by_cases same : other = id
      · subst same
        exact .inr (.inr ⟨attr, value, rfl, guards⟩)
      · exact .inl fun attr _ => Dbs.get_put_of_ne (.inl same)
  | enter absent counted entering =>
      refine .inl fun attr listed => Dbs.get_nodes_entered _ _ _ _ ?_
      rintro rfl
      exact absurd listed (by decide)
  | @leave d name n nlink child counted leaving =>
      refine (Dbs.get_nodes_left d name n nlink id).imp ?_ .inl
      intro same attr listed
      apply same
      rintro rfl
      exact absurd listed (by decide)
  | strip child uncounted leaving =>
      exact .inl fun attr _ => Dbs.get_nodes_del _ _ _
  | unused counted last =>
      exact (Dbs.get_nodes_removed _ _ id).imp (fun same attr _ => same attr.name) .inl
  | abandon isFresh enclosed =>
      exact (Dbs.get_nodes_removed _ _ id).imp (fun same attr _ => same attr.name) .inl

/-- Storing a mode that was checked. -/
theorem respects_setMode {old new : UInt32} (respects : w.start.Respects w.sctx id now)
    (owner : w.start.attr UInt32 id .uid = .ok w.sctx.uid)
    (isOld : now.attr UInt32 id .mode = .ok old) (kept : new &&& sIfmt = old &&& sIfmt)
    (setgid : new &&& sIsgid ≠ 0 → old &&& sIsgid ≠ 0 ∨
      ∃ gid, now.attr UInt32 id .gid = .ok gid ∧ gid ∈ w.sctx.groups)
    (setuid : now.get .nodes id Attr.gid.name ≠ w.start.get .nodes id Attr.gid.name →
      new &&& sIsuid = 0) :
    w.start.Respects w.sctx id (now.setattr id .mode new) := by
  have isNew : (now.setattr id .mode new).attr UInt32 id .mode = .ok new :=
    Dbs.attr_setattr_self _ _ _ _
  have sameUid : (now.setattr id .mode new).get .nodes id Attr.uid.name =
      now.get .nodes id Attr.uid.name := Dbs.get_put_of_ne (.inr (by decide))
  have sameGid : (now.setattr id .mode new).get .nodes id Attr.gid.name =
      now.get .nodes id Attr.gid.name := Dbs.get_put_of_ne (.inr (by decide))
  exact {
    uid := sameUid.trans respects.uid
    type := by
      intro first last isFirst isLast
      rw [isNew] at isLast
      cases isLast
      exact kept.trans (respects.type first old isFirst isOld)
    gid := by
      rw [sameGid, Dbs.attr_congr sameGid]
      exact respects.gid
    mode := fun _ => owner
    setgid := by
      intro first last isFirst isLast unset set
      rw [isNew] at isLast
      cases isLast
      rw [Dbs.attr_congr sameGid]
      rcases setgid set with before | member
      · exact respects.setgid first old isFirst isOld unset before
      · exact member
    setuid := by
      intro changed mode isMode _
      rw [isNew] at isMode
      cases isMode
      rw [sameGid] at changed
      exact setuid changed }

/-- Storing a group that was checked. -/
theorem respects_setGroup {gid mode : UInt32} (respects : w.start.Respects w.sctx id now)
    (owner : w.start.attr UInt32 id .uid = .ok w.sctx.uid) (member : gid ∈ w.sctx.groups)
    (isMode : now.attr UInt32 id .mode = .ok mode)
    (cleared : mode &&& sIfreg ≠ 0 → mode &&& sIsuid = 0) :
    w.start.Respects w.sctx id (now.setattr id .gid gid) := by
  have isGroup : (now.setattr id .gid gid).attr UInt32 id .gid = .ok gid :=
    Dbs.attr_setattr_self _ _ _ _
  have sameUid : (now.setattr id .gid gid).get .nodes id Attr.uid.name =
      now.get .nodes id Attr.uid.name := Dbs.get_put_of_ne (.inr (by decide))
  have sameMode : (now.setattr id .gid gid).get .nodes id Attr.mode.name =
      now.get .nodes id Attr.mode.name := Dbs.get_put_of_ne (.inr (by decide))
  exact {
    uid := sameUid.trans respects.uid
    type := by
      rw [Dbs.attr_congr sameMode]
      exact respects.type
    gid := fun _ => ⟨owner, gid, isGroup, member⟩
    mode := by
      rw [sameMode]
      exact respects.mode
    setgid := fun _ _ _ _ _ _ => ⟨gid, isGroup, member⟩
    setuid := by
      intro _ last isLast regular
      rw [Dbs.attr_congr sameMode, isMode] at isLast
      cases isLast
      exact cleared (and_sIfreg_of_sIsreg regular) }

/-- Storing what the code has checked. -/
theorem Guards.respects {attr : Attr} {value : Bytes} (guards : w.Guards now id attr value)
    (user : w.sctx.uid ≠ 0) (respects : w.start.Respects w.sctx id now) :
    w.start.Respects w.sctx id (now.put .nodes id attr.name value) := by
  have owner : w.Owns now id → w.start.attr UInt32 id .uid = .ok w.sctx.uid := by
    intro owns
    rw [← owns user]
    exact Dbs.attr_congr respects.uid.symm
  cases guards with
  | chmod owns untouched isOld member =>
      refine respects_setMode respects (owner owns) isOld (keptType_chmod _ _) ?_ ?_
      · exact fun set => .inr (member user (setgid_of_chmod set))
      · exact fun changed => absurd (untouched .gid (by decide)) changed
  | @clear old owns isOld cleared isCleared =>
      have without : old &&& ~~~sIsuid &&& sIfmt = old &&& sIfmt :=
        cleared_and_of_disjoint (by decide) old
      rcases isCleared with rfl | rfl
      · refine respects_setMode respects (owner owns) isOld without ?_ ?_
        · intro set
          rw [cleared_and_of_disjoint (by decide)] at set
          exact .inl set
        · exact fun _ => cleared_and old sIsuid
      · refine respects_setMode respects (owner owns) isOld ?_ ?_ ?_
        · rw [cleared_and_of_disjoint (by decide), without]
        · exact fun set => absurd (cleared_and _ sIsgid) set
        · intro _
          rw [cleared_and_of_disjoint (by decide), cleared_and]
  | group owns member cleared =>
      obtain ⟨mode, isMode, noSetuid⟩ := cleared user
      exact respects_setGroup respects (owner owns) (member user) isMode noSetuid
  | owner root => exact absurd root user

/-- What is checked is there. -/
theorem Guards.present {attr : Attr} {value : Bytes} (guards : w.Guards now id attr value)
    (user : w.sctx.uid ≠ 0) : now.get .nodes id Attr.mode.name ≠ none := by
  have present : ∀ {mode : UInt32}, now.attr UInt32 id .mode = .ok mode →
      now.get .nodes id Attr.mode.name ≠ none := by
    intro mode isMode
    rw [Dbs.getattr_eq_ok_iff.mp isMode]
    exact Option.some_ne_none _
  cases guards with
  | chmod owns untouched isOld member => exact present isOld
  | clear owns isOld cleared isCleared => exact present isOld
  | group owns member cleared =>
      obtain ⟨mode, isMode, -⟩ := cleared user
      exact present isMode
  | owner root => exact absurd root user

/-- A node that was there respects the user, or is gone. -/
theorem Written.respects (written : w.Written count now) (request : ¬ w.importing)
    (user : w.sctx.uid ≠ 0) (old : id ≠ w.fresh) :
    now.get .nodes id Attr.mode.name = none ∨ w.start.Respects w.sctx id now := by
  induction written with
  | start => exact .inr (.refl _ _ _)
  | change _ permits ih =>
      rcases guarded_cases permits request user old with same | gone | ⟨attr, value, rfl, guards⟩
      · rcases ih with absent | respects
        · left
          rw [same .mode (by decide)]
          exact absent
        · exact .inr (respects.congr same)
      · exact .inl (gone _)
      · rcases ih with absent | respects
        · exact absurd absent (guards.present user)
        · exact .inr (guards.respects user respects)

end Warrant

/-- One request of a user respects every node that stays. -/
theorem World.respectedBy_after {fs : FS} (sound : fs.pcache.Sound) (world : World) (call : Call)
    (idsLeft : world.dbs.nodes.IdsLeft) (user : call.1.uid ≠ 0) :
    world.dbs.RespectedBy call.1.caller (world.after fs call).dbs := by
  intro id n n' before after
  obtain ⟨_, _, _, written⟩ := world.within_after sound call
  have old : id ≠ (world.warrant fs call).fresh := by
    rintro rfl
    obtain ⟨mode, isMode, -⟩ := Dbs.getnode_eq_ok_iff.mp before
    have stored := Dbs.getattr_eq_ok_iff.mp isMode
    rw [Dbs.get] at stored
    have absent := Db.getElem?_nextId idsLeft Attr.mode.name
    change (world.dbs.nodes)[(⟨world.dbs.nodes.nextId, Attr.mode.name⟩ : Key UInt64)]? = _ at stored
    rw [absent] at stored
    cases stored
  have notRoot : (world.warrant fs call).sctx.uid ≠ 0 := by
    change call.1.caller.uid ≠ 0
    rw [Context.caller_uid]
    exact user
  rcases written.respects not_false notRoot old with absent | respects
  · obtain ⟨mode, isMode, -⟩ := Dbs.getnode_eq_ok_iff.mp after
    have stored := Dbs.getattr_eq_ok_iff.mp isMode
    rw [absent] at stored
    cases stored
  · exact respects

/-- In a run in which the node ids are never used up, every request of a user respects
the owner, the group and the mode of every node that stays. -/
theorem ownership_respected {fs : FS} (sound : fs.pcache.Sound) {start : World}
    {calls : List Call}
    (meets : Meets (World.after fs) (fun world _ => world.dbs.nodes.IdsLeft) start calls) :
    Meets (World.after fs) (fun world call => call.1.uid ≠ 0 →
      world.dbs.RespectedBy call.1.caller (world.after fs call).dbs) start calls :=
  meets.mono fun world call idsLeft => world.respectedBy_after sound call idsLeft

/-! ## A run of a user, and a full database -/

/-- A user gets a file and changes its mode. -/
def ownFile : List Call :=
  [(rootContext, .mknod (str "/f") 0o100644 0), (rootContext, .chown (str "/f") 1000 1000),
    (userContext, .chmod (str "/f") 0o2755)]

set_option maxRecDepth 100000 in
theorem ownFile_meets :
    Meets (World.after mounted) (fun world _ => world.dbs.nodes.IdsLeft) mountedWorld ownFile :=
  .cons (Db.idsLeft_of_keys (by decide +kernel)) (.cons (Db.idsLeft_of_keys (by decide +kernel))
    (.cons (Db.idsLeft_of_keys (by decide +kernel)) (.nil _)))

theorem ownership_respected_ownFile :
    Meets (World.after mounted) (fun world call => call.1.uid ≠ 0 →
      world.dbs.RespectedBy call.1.caller (world.after mounted call).dbs) mountedWorld ownFile :=
  ownership_respected PathCache_hash.sound ownFile_meets

/-- The last id is taken, in a filesystem that everyone may write to. -/
def fullWorld : World :=
  let opened := (exec (mounted.chmod rootContext (str "/") 0o777) mountedWorld).2
  opened.withDbs (opened.dbs.created (UInt64.ofNat (2 ^ 64 - 1)) 100 100 100)

/-- A user makes one more node. -/
def oneMore : Call :=
  (userContext, .mknod (str "/x") 0o100644 0)

set_option maxRecDepth 100000 in
/-- The new node gets the id of the root directory, which becomes the user's. -/
theorem oneMore_takesRoot :
    oneMore.1.uid ≠ 0 ∧
      ¬ fullWorld.dbs.RespectedBy oneMore.1.caller (fullWorld.after mounted oneMore).dbs := by
  refine ⟨by decide, fun respected => ?_⟩
  have respects := respected 0 ⟨0, .directory⟩ ⟨0, .file⟩ (by decide +kernel) (by decide +kernel)
  exact absurd respects.uid (by decide +kernel)

end OfflineFs
