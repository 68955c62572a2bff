import OfflineFs.Changes.Relinking

/-!
# Requests that set attributes

The owner, the group and the mode are changed by their own requests, which look at
them first, and by name.
-/

namespace OfflineFs

open OfflineFs.Effect OfflineFs.Effect.Program

namespace Warrant

variable {w : Warrant} {added : Nat} {α : Type} {post : α → Dbs → Prop}

/-! ## Quiet code -/

/-- Code that is quiet keeps to every warrant. -/
theorem Within.quiet {prog : FsProg α} {world : World} (calls : Calls (Quiet placing) prog)
    (within : w.Within added world.dbs) : w.Within added (exec prog world).2.dbs := by
  refine calls.run fsHandler (fun before after => w.Within added before.dbs →
    w.Within added after.dbs) ?_ ?_ ?_ world within
  · exact fun _ => id
  · exact fun early late met => late (early met)
  · intro γ effect state quiet met
    cases effect with
    | put table id name value =>
        obtain ⟨rfl, ⟨attr, listed, rfl, stored, rfl⟩ | ⟨attr, listed, rfl⟩⟩ := quiet
        · exact met.change (.stamp listed id stored) rfl
        · exact met.change (.place listed id value) rfl
    | del => exact quiet.elim
    | _ => exact met

/-! ## Owners and bits -/

theorem Owns.of_attr {now : Dbs} {id : UInt64} {uid : UInt32}
    (isOwner : now.attr UInt32 id .uid = .ok uid) (same : w.sctx.uid = uid) : w.Owns now id := by
  intro _
  rw [same]
  exact isOwner

theorem Owns.setattr {T : Type} [HostInt T] {now : Dbs} {id : UInt64} (owns : w.Owns now id)
    {attr : Attr} (other : attr ≠ .uid) (value : T) : w.Owns (now.setattr id attr value) id := by
  intro user
  rw [Dbs.attr_setattr_of_ne _ (.inr other)]
  exact owns user

theorem Untouched.attr {T : Type} [HostInt T] {now : Dbs} {id : UInt64} {attr : Attr}
    (untouched : w.Untouched now id) (listed : attr ∈ guarded) :
    now.attr T id attr = w.start.attr T id attr := by
  rw [Dbs.attr, Dbs.attr, Dbs.getattr, Dbs.getattr, untouched attr listed]

/-- Stamping a node leaves what decides who may do what. -/
theorem untouched_stamped (id time : UInt64) {stamp : Attr} (other : stamp ∉ guarded) :
    w.Untouched (w.start.setattr id stamp time) id := by
  intro attr listed
  rw [Dbs.get_setattr, if_neg]
  rintro ⟨-, -, same⟩
  rw [Attr.name_inj] at same
  exact other (same ▸ listed)

theorem cleared_and (mode bit : UInt32) : mode &&& ~~~bit &&& bit = 0 := by
  rw [UInt32.and_assoc]
  simp

/-- A reserved attribute may be named by the superuser. -/
theorem keeps_xattrDenied {n : NodeRef} {name : Bytes} :
    w.Keeps (w.At 0 w.Unchanged) (FS.xattrDenied w.sctx n name) fun denied => w.At 0 fun _ =>
      ¬ denied = true → reservedPrefix.isPrefixOf name = true → w.sctx.uid = 0 := by
  apply keeps_ite
  · intro user
    refine keeps_ite (fun _ => keeps_pure fun now met => ⟨met.1, ?_⟩) fun free => ?_
    · exact fun allowed => absurd rfl allowed
    · apply keeps_attr
      intro uid isOwner
      exact keeps_pure fun now met => ⟨met.1, fun _ reserved => absurd reserved free⟩
  · exact fun root => keeps_pure fun now met => ⟨met.1, fun _ _ => not_not.mp root⟩

theorem calls_checkXattrFlags (n : NodeRef) (name : Bytes) (flags : Int) :
    Calls CacheOnly (FS.checkXattrFlags n name flags) := by
  have reads : Calls CacheOnly (Node.getattrv n.id name) :=
    calls_getattrv (fun _ _ _ => trivial) .nodes n.id name
  refine calls_ite trivial (calls_ite ?_ (calls_ite ?_ trivial))
  · apply calls_catching (calls_bind reads fun _ => calls_pure _)
    intro e
    cases e <;> trivial
  · exact calls_bind reads fun _ => trivial

/-- Taking an attribute from a node. -/
theorem keeps_delattr {id : UInt64} {name : Bytes} {condition : Dbs → Prop}
    (permits : ∀ now, condition now → w.Permits now (.del id name)) :
    w.Keeps (w.At added condition) (Register.delattr .nodes id name) fun _ => w.Within 3 := by
  intro world met
  change Outcome.Satisfies _ _ _ (exec (Register.delattr .nodes id name) world)
  rw [Register.exec_delattr]
  cases world.dbs.get .nodes id name with
  | none => exact met.1.limit
  | some value => exact (met.1.change (permits _ met.2) rfl).limit

/-! ## Changing the group -/

/-- The bits are cleared on a node that the caller owns. -/
theorem keeps_clearSetid {n : NodeRef} :
    w.Keeps (w.At 0 fun now => w.Owns now n.id) (FS.clearSetid n) fun _ =>
      w.At 0 fun now => w.Owns now n.id ∧ ∃ mode, now.attr UInt32 n.id .mode = .ok mode ∧
        (mode &&& sIfreg ≠ 0 → mode &&& sIsuid = 0) := by
  apply keeps_bind (keeps_read (fun dbs => dbs.attr UInt32 n.id .mode)
    (Node.exec_getattr UInt32 n.id .mode))
  intro m
  apply keeps_ite
  · intro _
    have cleared : ∀ (chosen : UInt32), chosen = m &&& ~~~sIsuid ∨
        chosen = m &&& ~~~sIsuid &&& ~~~sIsgid → w.Keeps
        (w.At 0 fun now => w.Owns now n.id ∧ now.attr UInt32 n.id .mode = .ok m)
        (Node.setattr n.id .mode chosen) fun _ => w.At 0 fun now => w.Owns now n.id ∧
          ∃ mode, now.attr UInt32 n.id .mode = .ok mode ∧
            (mode &&& sIfreg ≠ 0 → mode &&& sIsuid = 0) := by
      intro chosen isCleared
      apply keeps_setattr
      · exact fun now met => .guarded (.clear met.1 met.2 chosen isCleared)
      · refine fun now met => ⟨met.1.setattr (by decide) chosen, chosen, ?_, fun _ => ?_⟩
        · exact Dbs.attr_setattr_self _ _ _ _
        · rcases isCleared with rfl | rfl
          · exact cleared_and m sIsuid
          · rw [UInt32.and_assoc, UInt32.and_comm (~~~sIsgid), ← UInt32.and_assoc,
              cleared_and, UInt32.zero_and]
    apply cleared
    split
    · exact .inr rfl
    · exact .inl rfl
  · intro notRegular
    exact keeps_pure fun now met => ⟨met.1, met.2.1, m, met.2.2, fun regular =>
      absurd regular notRegular⟩

/-- Only the superuser gives a node another owner. -/
theorem keeps_chownOwner {n : NodeRef} {owner : UInt32} :
    w.Keeps (w.At 0 w.Unchanged) (FS.chownOwner w.sctx n owner) fun _ =>
      w.At 0 fun _ => True := by
  have stays : ∀ answer : Bool, w.Keeps (w.At 0 w.Unchanged) (Pure.pure answer) fun _ =>
      w.At 0 fun _ => True :=
    fun _ => keeps_pure fun now met => ⟨met.1, trivial⟩
  refine keeps_ite (fun _ => ?_) fun _ => stays true
  apply keeps_attr
  intro uid isOwner
  refine keeps_ite (fun _ => ?_) fun _ => stays true
  refine keeps_ite (fun _ => stays false) fun root => ?_
  apply keeps_bind (keeps_setattr (q := fun _ => True) ?_ fun _ _ => trivial)
  · exact fun _ => keeps_pure fun now => id
  · exact fun now met => .guarded (.owner (not_not.mp root))

/-- The group is changed by the superuser, or by the owner to a group of theirs. -/
theorem keeps_chownGroup {n : NodeRef} {group : UInt32} :
    w.Keeps (w.At 0 fun _ => True) (FS.chownGroup w.sctx n group) fun _ =>
      w.At 0 fun _ => True := by
  have stays : ∀ {condition : Dbs → Prop} (answer : Bool),
      w.Keeps (w.At 0 condition) (Pure.pure answer) fun _ => w.At 0 fun _ => True :=
    fun _ => keeps_pure fun now met => ⟨met.1, trivial⟩
  refine keeps_ite (fun _ => ?_) fun _ => stays true
  apply keeps_bind (keeps_read (fun dbs => dbs.attr UInt32 n.id .gid)
    (Node.exec_getattr UInt32 n.id .gid))
  intro gid
  refine keeps_ite (fun _ => ?_) fun _ => stays true
  apply keeps_ite
  · intro user
    apply keeps_bind (keeps_read (fun dbs => dbs.attr UInt32 n.id .uid)
      (Node.exec_getattr UInt32 n.id .uid))
    intro uid
    refine keeps_ite (fun _ => stays false) fun allowed => ?_
    rw [not_or, not_not, not_not] at allowed
    refine Keeps.weaken (?_ : w.Keeps (w.At 0 fun now => w.Owns now n.id) _ _)
      (fun now met => ⟨met.1, .of_attr met.2.2 allowed.1⟩) fun _ _ => id
    apply keeps_bind keeps_clearSetid
    intro _
    apply keeps_bind (keeps_setattr (q := fun _ => True) ?_ fun _ _ => trivial)
    · exact fun _ => stays true
    · exact fun now met => .guarded (.group met.1 (fun _ => allowed.2) fun _ => met.2)
  · intro root
    apply keeps_bind (keeps_setattr (q := fun _ => True) ?_ fun _ _ => trivial)
    · exact fun _ => stays true
    · exact fun now met => .guarded (.group (fun user => absurd user root)
        (fun user => absurd user root) fun user => absurd user root)

/-! ## The requests -/

section Requests

variable {fs : FS} {ctx : Context} {world : World}
variable (sound : fs.pcache.Sound) (found : world.dbs = w.start) (caller : ctx.sctx = some w.sctx)

include sound found caller

/-- `chmod` stays within its warrant. -/
theorem within_chmod {path : Bytes} {mode : UInt32} :
    w.Within 3 (exec (fs.chmod ctx path mode) world).2.dbs := by
  apply within_request found caller
  apply keeps_getnode sound
  intro n node
  refine keeps_bind (q := fun allowed now => w.At 0 w.Unchanged now ∧
    ∀ chosen, allowed = some chosen → w.Owns w.start n.id ∧
      (w.sctx.uid ≠ 0 → chosen &&& sIsgid ≠ 0 →
        ∃ gid, w.start.attr UInt32 n.id .gid = .ok gid ∧ gid ∈ w.sctx.groups)) ?_ ?_
  · apply keeps_ite
    · intro user
      apply keeps_attr
      intro fgid isGroup
      apply keeps_attr
      intro fuid isOwner
      refine keeps_ite (fun _ => keeps_pure fun now met => ⟨met, nofun⟩) fun owner => ?_
      have owns : w.Owns w.start n.id := .of_attr isOwner (not_not.mp owner)
      apply keeps_ite
      · intro member
        refine keeps_pure fun now met => ⟨met, ?_⟩
        exact fun _ _ => ⟨owns, fun _ _ => ⟨fgid, isGroup, member⟩⟩
      · intro _
        refine keeps_pure fun now met => ⟨met, ?_⟩
        rintro _ ⟨⟩
        exact ⟨owns, fun _ set => absurd (cleared_and mode sIsgid) set⟩
    · intro root
      refine keeps_pure fun now met => ⟨met, fun _ _ => ⟨?_, ?_⟩⟩
      · exact fun user => absurd user root
      · exact fun user => absurd user root
  · intro allowed
    apply keeps_of_fact (fun now met => met.2)
    intro checked
    refine Keeps.weaken (?_ : w.Keeps (w.At 0 w.Unchanged) _ _) (fun now met => met.1) fun _ _ => id
    cases allowed with
    | none => exact keeps_pure fun now met => met.1.limit
    | some chosen =>
        obtain ⟨owns, member⟩ := checked chosen rfl
        apply keeps_bind (keeps_setTime (q := fun now => w.Untouched now n.id) (by decide) ?_)
        · intro _
          apply keeps_bind (keeps_read (fun dbs => dbs.attr UInt32 n.id .mode)
            (Node.exec_getattr UInt32 n.id .mode))
          intro old
          apply keeps_bind (keeps_setattr (q := fun _ => True) ?_ fun _ _ => trivial)
          · intro _
            exact keeps_bind (keeps_cacheOnly (sound.calls_invalidate path)) fun _ =>
              keeps_pure fun now met => met.1.limit
          · rintro now ⟨untouched, isOld⟩
            refine .guarded (.chmod ?_ untouched isOld ?_)
            · intro user
              rw [untouched.attr (by decide)]
              exact owns user
            · rw [untouched.attr (by decide)]
              exact member
        · intro now time met
          rw [met]
          exact untouched_stamped n.id time (by decide)

/-- `chown` stays within its warrant. -/
theorem within_chown {path : Bytes} {owner group : UInt32} :
    w.Within 3 (exec (fs.chown ctx path owner group) world).2.dbs := by
  apply within_request found caller
  apply keeps_getnode sound
  intro n node
  have refused : w.Keeps (w.At 0 fun _ => True) (Pure.pure (-ePerm) : FsProg Int) fun _ =>
      w.Within 3 :=
    keeps_pure fun now met => met.1.limit
  apply keeps_bind keeps_chownOwner
  intro permitted
  refine keeps_ite (fun _ => ?_) fun _ => refused
  apply keeps_bind keeps_chownGroup
  intro permitted
  refine keeps_ite (fun _ => ?_) fun _ => refused
  apply keeps_bind (keeps_setTime (q := fun _ => True) (by decide) fun _ _ _ => trivial)
  intro _
  exact keeps_bind (keeps_cacheOnly (sound.calls_invalidate path)) fun _ =>
    keeps_pure fun now met => met.1.limit

/-- `setxattr` stays within its warrant. -/
theorem within_setxattr {path name value : Bytes} {flags : Int}
    (isReq : w.req = .setxattr path name value flags) :
    w.Within 3 (exec (fs.setxattr ctx path name value flags) world).2.dbs := by
  apply within_request found caller
  apply keeps_getnode sound
  intro n node
  apply keeps_bind keeps_xattrDenied
  intro denied
  refine keeps_of_fact (fun now met => met.2) fun root => ?_
  refine keeps_ite (fun _ => keeps_pure fun now met => met.1.limit) fun allowed => ?_
  have free : reservedPrefix.isPrefixOf name = true → w.Unlocked := by
    intro reserved
    refine ⟨root allowed reserved, ?_⟩
    rw [isReq]
    exact reserved
  apply keeps_bind (keeps_setTime (q := fun _ => True) (by decide) fun _ _ _ => trivial)
  intro _
  apply keeps_bind (keeps_cacheOnly (calls_checkXattrFlags n name flags))
  intro refused
  cases refused with
  | some code => exact keeps_pure fun now met => met.1.limit
  | none =>
      apply keeps_bind (keeps_setattrv (q := fun _ => True) (fun now _ => .mark free n.id value)
        fun _ _ => trivial)
      intro _
      apply keeps_bind (keeps_ite (fun _ => keeps_cacheOnly (sound.calls_invalidate path))
        fun _ => keeps_pure fun now => id)
      exact fun _ => keeps_pure fun now met => met.1.limit

/-- `removexattr` stays within its warrant. -/
theorem within_removexattr {path name : Bytes} (isReq : w.req = .removexattr path name) :
    w.Within 3 (exec (fs.removexattr ctx path name) world).2.dbs := by
  apply within_request found caller
  apply keeps_getnode sound
  intro n node
  apply keeps_bind keeps_xattrDenied
  intro denied
  refine keeps_of_fact (fun now met => met.2) fun root => ?_
  refine keeps_ite (fun _ => keeps_pure fun now met => met.1.limit) fun allowed => ?_
  have free : reservedPrefix.isPrefixOf name = true → w.Unlocked := by
    intro reserved
    refine ⟨root allowed reserved, ?_⟩
    rw [isReq]
    exact reserved
  apply keeps_bind (keeps_setTime (q := fun _ => True) (by decide) fun _ _ _ => trivial)
  intro _
  apply keeps_bind (keeps_delattr fun now _ => .unmark free n.id)
  exact fun _ => keeps_pure fun now => id

end Requests

end Warrant

/-- The warrant for a request. -/
def World.warrant (fs : FS) (world : World) (call : Call) : Warrant where
  start := world.dbs
  sctx := call.1.caller
  req := call.2
  target d := ∀ path, call.2.newParent = some path →
    (exec (fs.pcache.getnode call.1.caller path) world).1 = .ok ⟨d, .directory⟩
  importing := False

/-- What a request leaves is what its warrant permits. -/
theorem World.within_after {fs : FS} (sound : fs.pcache.Sound) (world : World) (call : Call) :
    (world.warrant fs call).Within 3 (world.after fs call).dbs := by
  obtain ⟨ctx, request⟩ := call
  have quiet : request.Quietly placing →
      (world.warrant fs (ctx, request)).Within 3 (world.after fs (ctx, request)).dbs :=
    fun quietly => Warrant.Within.quiet (Request.calls_quiet sound ctx quietly)
      Warrant.within_start.limit
  cases caller : ctx.sctx with
  | some sctx =>
      have known : ctx.sctx = some (world.warrant fs (ctx, request)).sctx := by
        simp [World.warrant, Context.caller, caller]
      have leads : ∀ d path, request.newParent = some path →
          (exec (fs.pcache.getnode ctx.caller path) world).1 = .ok ⟨d, .directory⟩ →
          (world.warrant fs (ctx, request)).target d := by
        intro d path isParent found other isOther
        rw [isParent] at isOther
        cases isOther
        exact found
      cases request with
      | mknod path mode dev => exact Warrant.within_mknod sound rfl known rfl fun d => leads d _ rfl
      | mkdir path mode => exact Warrant.within_mkdir sound rfl known rfl fun d => leads d _ rfl
      | symlink oldpath newpath =>
          exact Warrant.within_symlink sound rfl known rfl fun d => leads d _ rfl
      | link oldpath newpath => exact Warrant.within_link sound rfl known rfl fun d => leads d _ rfl
      | unlink path => exact Warrant.within_unlink sound rfl known rfl
      | rmdir path => exact Warrant.within_rmdir sound rfl known rfl
      | rename oldpath newpath => exact Warrant.within_rename sound rfl known rfl nofun
      | chmod path mode => exact Warrant.within_chmod sound rfl known
      | chown path owner group => exact Warrant.within_chown sound rfl known
      | setxattr path name value flags => exact Warrant.within_setxattr sound rfl known rfl
      | removexattr path name => exact Warrant.within_removexattr sound rfl known rfl
      | truncate | openFile => exact quiet (List.Subset.refl placing)
      | _ => exact quiet trivial
  | none =>
      have refused : ∀ {α : Type} (onError : Err → α) (body : SContext → FsProg α),
          (world.warrant fs (ctx, request)).Within 3
            (exec (OfflineFs.request ctx onError body) world).2.dbs := by
        intro α onError body
        rw [exec_request, caller]
        exact Warrant.within_start.limit
      cases request with
      | mknod | mkdir | symlink | link | unlink | rmdir | rename | chmod | chown | setxattr
      | removexattr => exact refused _ _
      | truncate | openFile => exact quiet (List.Subset.refl placing)
      | _ => exact quiet trivial

end OfflineFs
