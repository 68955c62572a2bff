import Mathlib.Data.List.Perm.Subperm
import OfflineFs.Changes.Creating

/-!
# Requests that move links

Adding a name, taking one away, and renaming.  The entries are only lost until the
new one of a renaming is added, so the child found at the start is the one that is
unlinked.
-/

namespace OfflineFs

open OfflineFs.Effect OfflineFs.Effect.Program

/-- A mode is instantiated as a directory exactly when its type is one. -/
theorem kindOfMode_eq_directory_iff {mode : UInt32} :
    kindOfMode mode = .directory ↔ sIsdir mode = true := by
  unfold kindOfMode
  by_cases regular : sIsreg mode = true
  · have notDirectory : sIsdir mode ≠ true := by
      unfold sIsreg sIsdir at *
      rw [decide_eq_true_eq] at *
      rw [regular]
      decide
    simp [regular, notDirectory]
  · by_cases directory : sIsdir mode = true
    · simp [regular, directory]
    · rw [if_neg regular, if_neg directory]
      constructor
      · intro same
        split at same
        · cases same
        · cases same
      · exact fun isDirectory => absurd isDirectory directory

namespace Dbs

variable {dbs : Dbs} {id d : UInt64} {name : Bytes} {n : NodeRef}

theorem getnode_kind {mode : UInt32} (node : dbs.getnode id = .ok n)
    (isMode : dbs.attr UInt32 id .mode = .ok mode) : n.kind = kindOfMode mode := by
  obtain ⟨other, isOther, rfl⟩ := getnode_eq_ok_iff.mp node
  rw [isMode] at isOther
  cases isOther
  rfl

/-- A register with two names and one more has three. -/
theorem three_names {first second third : Bytes} (nonempty : first ≠ [] ∧ second ≠ [] ∧ third ≠ [])
    (distinct : first ≠ second ∧ first ≠ third ∧ second ≠ third)
    (firstPresent : dbs.get .directories d first ≠ none)
    (secondPresent : dbs.get .directories d second ≠ none)
    (thirdPresent : dbs.get .directories d third ≠ none) :
    2 < (dbs.directories.attrs d).length := by
  have listed : ∀ name, name ≠ [] → dbs.get .directories d name ≠ none →
      name ∈ dbs.directories.attrs d :=
    fun name isName present => Db.mem_attrs_iff.mpr ⟨isName, present⟩
  have nodup : [first, second, third].Nodup := by simp [distinct]
  have contained : [first, second, third] ⊆ dbs.directories.attrs d := by
    intro name member
    rcases List.mem_cons.mp member with rfl | member
    · exact listed _ nonempty.1 firstPresent
    · rcases List.mem_cons.mp member with rfl | member
      · exact listed _ nonempty.2.1 secondPresent
      · rw [List.mem_singleton.mp member]
        exact listed _ nonempty.2.2 thirdPresent
  exact (List.Nodup.subperm nodup contained).length_le

end Dbs

namespace Warrant

variable {w : Warrant} {added : Nat} {α : Type} {post : α → Dbs → Prop}

/-- An empty directory with both entries of its own is bare. -/
theorem bare_of_empty {d : UInt64} (empty : w.Empty d)
    (self : w.start.get .directories d (str ".") ≠ none)
    (parent : w.start.get .directories d (str "..") ≠ none) : w.Bare d := by
  intro name present
  by_contra named
  simp only [not_or] at named
  have three := Dbs.three_names ⟨by decide, by decide, named.1⟩
    ⟨by decide, Ne.symm named.2.1, Ne.symm named.2.2⟩ self parent present
  exact absurd three (Nat.not_lt.mpr empty)

/-- Entries and types were lost at most, but for the entries that are listed. -/
structure Lost (w : Warrant) (but : List (UInt64 × Bytes)) (now : Dbs) : Prop where
  entry : ∀ d name value, (d, name) ∉ but → now.get .directories d name = some value →
    w.start.get .directories d name = some value
  mode : ∀ id value, now.get .nodes id Attr.mode.name = some value →
    w.start.get .nodes id Attr.mode.name = some value

namespace Lost

variable {but : List (UInt64 × Bytes)} {now : Dbs}

theorem start : w.Lost [] w.start :=
  ⟨fun _ _ _ _ => id, fun _ _ => id⟩

theorem setattr {T : Type} [HostInt T] (lost : w.Lost but now) (id : UInt64) {attr : Attr}
    (other : attr ≠ .mode) (value : T) : w.Lost but (now.setattr id attr value) where
  entry d name stored unlisted found := by
    rw [Dbs.get_directories_setattr] at found
    exact lost.entry d name stored unlisted found
  mode node stored found := by
    rw [Dbs.get_setattr, if_neg] at found
    · exact lost.mode node stored found
    · rintro ⟨-, -, same⟩
      exact other (Attr.name_inj.mp same)

theorem mono {more : List (UInt64 × Bytes)} (lost : w.Lost but now) (listed : but ⊆ more) :
    w.Lost more now :=
  ⟨fun d name value unlisted => lost.entry d name value fun member => unlisted (listed member),
    lost.mode⟩

theorem del (lost : w.Lost but now) (d : UInt64) (name : Bytes) :
    w.Lost but (now.del .directories d name) where
  entry other read stored unlisted found := by
    rw [Dbs.get_del] at found
    split at found
    · cases found
    · exact lost.entry other read stored unlisted found
  mode node stored found := by
    rw [Dbs.get_del, if_neg] at found
    · exact lost.mode node stored found
    · rintro ⟨impossible, -⟩
      cases impossible

theorem removed (lost : w.Lost but now) (n : NodeRef) : w.Lost but (now.removed n) where
  entry other read stored unlisted found := by
    rw [Dbs.get_removed] at found
    split at found
    · cases found
    · exact lost.entry other read stored unlisted found
  mode node stored found := by
    rw [Dbs.get_removed] at found
    split at found
    · cases found
    · exact lost.mode node stored found

theorem left (lost : w.Lost but now) (d : UInt64) (name : Bytes) (n : NodeRef) (nlink : UInt32) :
    w.Lost but (now.left d name n nlink) := by
  unfold Dbs.left Dbs.unlinked
  split
  · exact (lost.del d name).removed n
  · exact (lost.del d name).setattr n.id (by decide) _

/-- An entry more that is accounted for. -/
theorem entered (lost : w.Lost but now) (d : UInt64) (name : Bytes) (n : UInt64)
    (nlink : UInt32) : w.Lost ((d, name) :: but) (now.entered d name n nlink) where
  entry other read stored unlisted found := by
    rw [List.mem_cons, not_or] at unlisted
    rw [Dbs.entered, Dbs.get_put, if_neg] at found
    · exact (lost.setattr n (by decide) (1 + nlink)).entry other read stored unlisted.2 found
    · rintro ⟨-, rfl, rfl⟩
      exact unlisted.1 rfl
  mode node stored found := by
    rw [Dbs.entered, Dbs.get_put, if_neg] at found
    · exact (lost.setattr n (by decide) (1 + nlink)).mode node stored found
    · rintro ⟨impossible, -⟩
      cases impossible

/-- A node that is still there is the one of the start. -/
theorem getnode {n : NodeRef} (lost : w.Lost but now) (node : now.getnode n.id = .ok n) :
    w.start.getnode n.id = .ok n := by
  obtain ⟨mode, isMode, isNode⟩ := Dbs.getnode_eq_ok_iff.mp node
  refine Dbs.getnode_eq_ok_iff.mpr ⟨mode, ?_, isNode⟩
  exact Dbs.getattr_eq_ok_iff.mpr (lost.mode _ _ (Dbs.getattr_eq_ok_iff.mp isMode))

/-- A child that is still there is the one of the start. -/
theorem getchild {d : UInt64} {name : Bytes} {n : NodeRef} (lost : w.Lost but now)
    (unlisted : (d, name) ∉ but) (child : now.getchild d name = .ok n) :
    w.start.getchild d name = .ok n := by
  obtain ⟨stored, node⟩ := Dbs.getchild_eq_ok_iff.mp child
  exact Dbs.getchild_eq_ok_iff.mpr ⟨lost.entry _ _ _ unlisted stored, lost.getnode node⟩

end Lost

/-- Counting the entries of a directory. -/
theorem keeps_count {d : NodeRef} {next : Nat → FsProg α}
    (continues : w.Keeps (w.At 0 w.Unchanged) (next (w.start.directories.attrs d.id).length) post) :
    w.Keeps (w.At 0 w.Unchanged) (Directory.countchildren d >>= next) post := by
  refine keeps_look (fun dbs => .ok (dbs.directories.attrs d.id).length)
    (Register.exec_countattrs .directories d.id) ?_
  rintro _ ⟨⟩
  exact continues

/-- An empty directory loses its entries for itself and for its parent. -/
theorem keeps_delDots {d : NodeRef} {next : FsProg α} (empty : w.Empty d.id)
    (continues : w.Bare d.id → w.Keeps (w.At 0 (w.Lost [])) next post) :
    w.Keeps (w.At 0 w.Unchanged)
      (do Directory.delchild d (str "."); Directory.delchild d (str ".."); next) post := by
  have present : ∀ now name n, w.Lost [] now → now.getchild d.id name = .ok n →
      w.start.get .directories d.id name ≠ none := by
    intro now name n lost child
    rw [lost.entry _ _ _ List.not_mem_nil (Dbs.getchild_eq_ok_iff.mp child).1]
    exact Option.some_ne_none _
  apply keeps_bind (keeps_delchild (q := fun now => w.Lost [] now ∧
    w.start.get .directories d.id (str ".") ≠ none) (fun _ _ _ _ => .self empty) ?_)
  · intro _
    apply keeps_bind (keeps_delchild (q := fun now => w.Lost [] now ∧ w.Bare d.id)
      (fun _ _ _ _ => .parent empty) ?_)
    · intro _
      exact keeps_of_fact (fun now met => met.2.2) fun bare =>
        (continues bare).weaken (fun now met => ⟨met.1, met.2.1⟩) fun _ _ => id
    · rintro now n nlink ⟨lost, self⟩ child counted
      exact ⟨lost.left _ _ _ _, bare_of_empty empty self (present now _ n lost child)⟩
  · intro now n nlink met child counted
    rw [met] at child ⊢
    exact ⟨Lost.start.left _ _ _ _, present _ _ n Lost.start child⟩

section Requests

variable {fs : FS} {ctx : Context} {world : World}
variable (sound : fs.pcache.Sound) (found : world.dbs = w.start) (caller : ctx.sctx = some w.sctx)

include sound found caller

/-- `link` stays within its warrant. -/
theorem within_link {oldpath newpath : Bytes} (isReq : w.req = .link oldpath newpath)
    (leads : ∀ d, (exec (fs.pcache.getnode w.sctx (splitPath newpath).1) world).1 =
      .ok ⟨d, .directory⟩ → w.target d) :
    w.Within 3 (exec (fs.link ctx oldpath newpath) world).2.dbs := by
  apply within_resolving sound found caller leads
  intro p directory leafEq target
  apply keeps_access
  intro granted
  apply keeps_getnode sound
  intro n node
  have enters : w.Enters p.parent.id p.leaf n.id := by
    refine ⟨directory, target, ?_, ?_, .inr ⟨n.kind, node⟩⟩
    · rw [isReq]
      exact granted
    · rw [isReq, leafEq]
      exact List.mem_singleton.mpr rfl
  apply keeps_bind (keeps_setTime (q := fun _ => True) (by decide) fun _ _ _ => trivial)
  intro _
  apply keeps_bind (keeps_addchild (q := fun _ => True) (by decide) (.named enters)
    fun _ _ _ _ _ => trivial)
  intro _
  exact keeps_bind (keeps_touchParent p.parent fun _ _ _ _ => id) fun _ =>
    keeps_pure fun now met => met.1.limit

/-- `unlink` stays within its warrant. -/
theorem within_unlink {path : Bytes} (isReq : w.req = .unlink path) :
    w.Within 3 (exec (fs.unlink ctx path) world).2.dbs := by
  apply within_request found caller
  apply keeps_resolve sound
  intro p directory leafEq
  apply keeps_access
  intro granted
  apply keeps_getchild
  intro n child
  apply keeps_sticky
  intro free
  apply keeps_attr
  intro mode isMode
  have leaves : w.Leaves p.parent.id p.leaf := by
    refine ⟨directory, granted, ?_, n, child, free⟩
    rw [isReq, leafEq]
    exact List.mem_singleton.mpr rfl
  refine keeps_ite (fun _ => keeps_pure fun now met => met.1.limit) fun notDirectory => ?_
  apply keeps_bind (keeps_cacheOnly (sound.calls_invalidate path))
  intro _
  apply keeps_bind (keeps_setTime (q := w.Lost []) (by decide) ?_)
  · intro _
    refine keeps_bind (keeps_delchild (q := fun _ => True) ?_ fun _ _ _ _ _ _ => trivial) ?_
    · intro now other lost isChild
      refine .named leaves fun isDirectory => ?_
      have same := lost.getchild List.not_mem_nil isChild
      rw [child] at same
      cases same
      rw [Dbs.getnode_kind (Dbs.getchild_eq_ok_iff.mp child).2 isMode,
        kindOfMode_eq_directory_iff] at isDirectory
      exact absurd isDirectory notDirectory
    · intro _
      exact keeps_bind (keeps_touchParent p.parent fun _ _ _ _ => id) fun _ =>
        keeps_pure fun now met => met.1.limit
  · intro now time met
    rw [met]
    exact Lost.start.setattr n.id (by decide) time

/-- `rmdir` stays within its warrant. -/
theorem within_rmdir {path : Bytes} (isReq : w.req = .rmdir path) :
    w.Within 3 (exec (fs.rmdir ctx path) world).2.dbs := by
  apply within_request found caller
  apply keeps_resolve sound
  intro p directory leafEq
  apply keeps_access
  intro granted
  apply keeps_getchild
  intro child isChild
  apply keeps_cast
  intro isDirectory
  apply keeps_sticky
  intro free
  apply keeps_count
  refine keeps_ite (fun _ => keeps_pure fun now met => met.1.limit) fun few => ?_
  have leaves : w.Leaves p.parent.id p.leaf := by
    refine ⟨directory, granted, ?_, child, isChild, free⟩
    rw [isReq, leafEq]
    exact List.mem_singleton.mpr rfl
  apply keeps_delDots (Nat.not_lt.mp few)
  intro bare
  apply keeps_bind (keeps_delchild (q := fun _ => True) ?_ fun _ _ _ _ _ _ => trivial)
  · intro _
    apply keeps_bind (keeps_cacheOnly (sound.calls_invalidate path))
    intro _
    exact keeps_bind (keeps_touchParent p.parent fun _ _ _ _ => id) fun _ =>
      keeps_pure fun now met => met.1.limit
  · intro now other lost isOther
    refine .named leaves fun _ => .inl ?_
    have same := lost.getchild List.not_mem_nil isOther
    rw [isChild] at same
    cases same
    exact bare

end Requests

/-! ## Renaming -/

/-- The child that `rename` finds at its destination, as a function of the contents. -/
def destination (dbs : Dbs) (d : UInt64) (name : Bytes) : Except Err (Option NodeRef) :=
  match dbs.getchild d name with
  | .ok child => .ok (some child)
  | .error .notFound => .ok none
  | .error e => .error e

theorem exec_findchild (d : NodeRef) (name : Bytes) (world : World) :
    exec (FS.findchild d name) world = (.ofExcept (destination world.dbs d.id name), world) := by
  simp only [FS.findchild, destination, exec_catching, exec_bind, Directory.exec_getchild]
  cases world.dbs.getchild d.id name with
  | ok child => rfl
  | error e => cases e <;> rfl

theorem destination_eq_some {dbs : Dbs} {d : UInt64} {name : Bytes} {child : NodeRef}
    (isFound : destination dbs d name = .ok (some child)) : dbs.getchild d name = .ok child := by
  unfold destination at isFound
  split at isFound
  · rename_i other isChild
    cases isFound
    exact isChild
  · cases isFound
  · cases isFound

theorem destination_of_getchild {dbs : Dbs} {d : UInt64} {name : Bytes} {child : NodeRef}
    (isChild : dbs.getchild d name = .ok child) : destination dbs d name = .ok (some child) := by
  rw [destination, isChild]

/-- Where the treatment of a destination leads: to a code at once, or on with a
destination that was no directory or is bare. -/
def Cleared (w : Warrant) (dst : Option NodeRef) : Option Int → Dbs → Prop
  | some _, now => w.Within 3 now
  | none, now => w.At 0 (w.Lost []) now ∧
      ∀ n, dst = some n → n.kind = .directory → w.Bare n.id

/-- A destination directory loses its own entries only. -/
theorem keeps_clearDestination {fs : FS} {parent src dst : NodeRef}
    (isDst : w.start.getnode dst.id = .ok dst) :
    w.Keeps (w.At 0 w.Unchanged) (fs.clearDestination parent src dst) (w.Cleared (some dst)) := by
  apply keeps_attr
  intro srcMode isSrcMode
  apply keeps_attr
  intro dstMode isDstMode
  have refused : ∀ code : Int, w.Keeps (w.At 0 w.Unchanged) (Pure.pure (some code))
      (w.Cleared (some dst)) :=
    fun _ => keeps_pure fun now met => met.1.limit
  have kindEq := Dbs.getnode_kind isDst isDstMode
  apply keeps_ite
  · intro _
    apply keeps_ite
    · exact fun _ => refused _
    · intro _
      apply keeps_node
      intro base _
      apply keeps_cast
      intro _
      apply keeps_bind
        (keeps_cacheOnly (calls_climbMeets (fun _ _ _ => trivial) src.id fs.fuel base))
      intro meets
      refine keeps_ite (fun _ => refused _) fun _ => ?_
      apply keeps_node
      intro d isNode
      apply keeps_cast
      intro _
      apply keeps_count
      refine keeps_ite (fun _ => refused _) fun few => ?_
      apply keeps_delDots (Nat.not_lt.mp few)
      intro bare
      refine keeps_pure fun now lost => ⟨lost, ?_⟩
      rintro _ ⟨⟩ _
      obtain ⟨_, _, rfl⟩ := Dbs.getnode_eq_ok_iff.mp isNode
      exact bare
  · intro _
    refine keeps_ite (fun _ => refused _) fun notDirectory => keeps_pure fun now met => ⟨?_, ?_⟩
    · refine ⟨met.1, ?_⟩
      rw [met.eq_start]
      exact Lost.start
    · rintro _ ⟨⟩ isDirectory
      rw [kindEq, kindOfMode_eq_directory_iff] at isDirectory
      exact absurd isDirectory notDirectory

/-- A moved directory changes its entry for its parent and nothing else. -/
theorem keeps_moveDotDot {src parent : NodeRef} {name : Bytes}
    (enters : w.Enters parent.id name src.id) :
    w.Keeps (w.At 0 (w.Lost [])) (FS.moveDotDot src parent) fun _ =>
      w.At 1 (w.Lost [(src.id, str "..")]) := by
  apply keeps_bind (keeps_read (fun dbs => dbs.attr UInt32 src.id .mode)
    (Node.exec_getattr UInt32 src.id .mode))
  intro mode
  refine Keeps.weaken (?_ : w.Keeps (w.At 0 (w.Lost [])) _ _) (fun now met => ⟨met.1, met.2.1⟩)
    fun _ _ => id
  apply keeps_ite
  · intro _
    apply keeps_bind (keeps_delchild (q := w.Lost []) (fun _ _ _ _ => .moved enters)
      fun now n nlink lost _ _ => lost.left _ _ _ _)
    intro _
    exact keeps_addchild (by decide) (.parent enters) fun now nlink lost _ _ => lost.entered _ _ _ _
  · intro _
    exact keeps_pure fun now met => met.mono (by decide) (by decide) fun lost =>
      lost.mono (List.nil_subset _)

section Rename

variable {fs : FS} {ctx : Context} {world : World} (sound : fs.pcache.Sound)

include sound

/-- The destination loses its name only when the caller may remove it. -/
theorem keeps_removeDestination {newpath : Bytes} {dstpath : Path} {src : NodeRef}
    {dst : Option NodeRef}
    (isDst : ∀ n, dst = some n → w.start.getchild dstpath.parent.id dstpath.leaf = .ok n)
    (leaves : ∀ n, dst = some n →
      w.start.checkStickyBit w.sctx dstpath.parent.id n.id = .ok () →
      w.Leaves dstpath.parent.id dstpath.leaf) :
    w.Keeps (w.At 0 w.Unchanged) (fs.removeDestination w.sctx newpath dstpath src dst)
      (w.Cleared dst) := by
  cases dst with
  | none =>
      refine keeps_pure fun now met => ⟨⟨met.1, ?_⟩, nofun⟩
      rw [met.eq_start]
      exact Lost.start
  | some dst =>
      have isChild := isDst dst rfl
      apply keeps_sticky
      intro free
      apply keeps_bind (keeps_clearDestination (Dbs.getchild_eq_ok_iff.mp isChild).2)
      intro result
      cases result with
      | some code => exact keeps_pure fun now => id
      | none =>
          refine keeps_of_fact (f := dst.kind = .directory → w.Bare dst.id)
            (fun now met => met.2 dst rfl) fun bare => ?_
          refine Keeps.weaken (?_ : w.Keeps (w.At 0 (w.Lost [])) _ _) (fun now met => met.1)
            fun _ _ => id
          apply keeps_bind (keeps_cacheOnly (sound.calls_invalidate newpath))
          intro _
          apply keeps_bind (keeps_setTime (q := w.Lost []) (by decide)
            fun now time lost => lost.setattr dst.id (by decide) time)
          intro _
          apply keeps_bind (keeps_delchild (q := w.Lost []) ?_
            fun now n nlink lost _ _ => lost.left _ _ _ _)
          · refine fun _ => keeps_pure fun now met => ⟨met, ?_⟩
            rintro _ ⟨⟩
            exact bare
          · intro now n lost isOther
            refine .named (leaves dst rfl free) fun isDirectory => .inl ?_
            have same := lost.getchild List.not_mem_nil isOther
            rw [isChild] at same
            cases same
            exact bare isDirectory

/-- `rename` stays within its warrant. -/
theorem within_rename {oldpath newpath : Bytes} (found : world.dbs = w.start)
    (caller : ctx.sctx = some w.sctx) (isReq : w.req = .rename oldpath newpath)
    (anywhere : ∀ d, w.target d) :
    w.Within 3 (exec (fs.rename ctx oldpath newpath) world).2.dbs := by
  apply within_request found caller
  apply keeps_resolve sound
  intro srcpath srcDirectory srcLeafEq
  apply keeps_resolve sound
  intro dstpath dstDirectory dstLeafEq
  apply keeps_getchild
  intro src isSrc
  apply keeps_look (fun dbs => destination dbs dstpath.parent.id dstpath.leaf)
    (exec_findchild dstpath.parent dstpath.leaf)
  intro dst isDst
  refine keeps_ite (fun _ => keeps_pure fun now met => met.1.limit) fun distinct => ?_
  apply keeps_access
  intro srcGranted
  apply keeps_access
  intro dstGranted
  apply keeps_sticky
  intro free
  have srcLeaves : w.Leaves srcpath.parent.id srcpath.leaf := by
    refine ⟨srcDirectory, srcGranted, ?_, src, isSrc, free⟩
    rw [isReq, srcLeafEq]
    exact List.mem_cons_self
  have enters : w.Enters dstpath.parent.id dstpath.leaf src.id := by
    refine ⟨dstDirectory, anywhere _, ?_, ?_, .inr ⟨src.kind, (Dbs.getchild_eq_ok_iff.mp isSrc).2⟩⟩
    · rw [isReq]
      exact dstGranted
    · rw [isReq, dstLeafEq]
      exact List.mem_singleton.mpr rfl
  have isDstChild : ∀ n, dst = some n →
      w.start.getchild dstpath.parent.id dstpath.leaf = .ok n := by
    rintro n rfl
    exact destination_eq_some isDst
  apply keeps_bind (keeps_removeDestination sound isDstChild ?_)
  · intro result
    cases result with
    | some code => exact keeps_pure fun now => id
    | none =>
        refine keeps_of_fact (f := ∀ n, dst = some n → n.kind = .directory → w.Bare n.id)
          (fun now met => met.2) fun bare => ?_
        refine Keeps.weaken (?_ : w.Keeps (w.At 0 (w.Lost [])) _ _) (fun now met => met.1)
          fun _ _ => id
        apply keeps_bind (keeps_moveDotDot enters)
        intro _
        apply keeps_bind (keeps_cacheOnly (sound.calls_invalidate oldpath))
        intro _
        apply keeps_bind (keeps_setTime (q := w.Lost [(src.id, str "..")]) (by decide)
          fun now time lost => lost.setattr src.id (by decide) time)
        intro _
        apply keeps_bind (keeps_addchild (q := fun now =>
          w.Lost [(dstpath.parent.id, dstpath.leaf), (src.id, str "..")] now ∧
            now.get .directories dstpath.parent.id dstpath.leaf = some (hostToDb src.id))
          (by decide) (.named enters) ?_)
        · intro _
          apply keeps_bind (keeps_delchild (q := fun _ => True) ?_ fun _ _ _ _ _ _ => trivial)
          · intro _
            apply keeps_bind (keeps_touchParent srcpath.parent fun _ _ _ _ => id)
            intro _
            exact keeps_bind (keeps_touchParent dstpath.parent fun _ _ _ _ => id) fun _ =>
              keeps_pure fun now met => met.1.limit
          · rintro now n ⟨lost, entered⟩ isChild
            by_cases same : srcpath.parent.id = dstpath.parent.id ∧ srcpath.leaf = dstpath.leaf
            · rw [same.1, same.2] at isChild isSrc srcLeaves ⊢
              have isDst' := destination_of_getchild isSrc
              rw [isDst] at isDst'
              cases isDst'
              obtain ⟨stored, node⟩ := Dbs.getchild_eq_ok_iff.mp isChild
              rw [entered, Option.some.injEq, hostToDb_inj] at stored
              refine .named srcLeaves fun isDirectory => .inl ?_
              have isNode := lost.getnode node
              rw [← stored, (Dbs.getchild_eq_ok_iff.mp isSrc).2] at isNode
              cases isNode
              exact bare src rfl isDirectory
            · by_cases own : srcpath.parent.id = src.id ∧ srcpath.leaf = str ".."
              · rw [own.1, own.2]
                exact .moved enters
              · have unlisted : (srcpath.parent.id, srcpath.leaf) ∉
                    [(dstpath.parent.id, dstpath.leaf), (src.id, str "..")] := by
                  simp only [List.mem_cons, List.not_mem_nil, or_false, Prod.mk.injEq, not_or]
                  exact ⟨same, own⟩
                have isStart := lost.getchild unlisted isChild
                rw [isSrc] at isStart
                cases isStart
                refine .named srcLeaves fun _ => .inr ⟨_, _, ?_, enters, entered⟩
                by_contra neither
                rw [not_or, not_not, not_not] at neither
                exact same ⟨neither.1.symm, neither.2.symm⟩
        · intro now nlink lost counted absent
          refine ⟨lost.entered _ _ _ _, ?_⟩
          rw [Dbs.entered, Dbs.get_put, if_pos ⟨rfl, rfl, rfl⟩]
  · intro n isFound granted
    refine ⟨dstDirectory, dstGranted, ?_, n, isDstChild n isFound, granted⟩
    rw [isReq, dstLeafEq]
    exact List.mem_cons_of_mem _ List.mem_cons_self

end Rename

end Warrant

end OfflineFs
