import OfflineFs.Changes.Attributes

/-!
# Who may add an entry

Every new entry was permitted, so its directory granted the permissions that the
request asks for.  `link` asks for less than the others.
-/

namespace OfflineFs

open OfflineFs.Effect OfflineFs.Transition

namespace Warrant

variable {w : Warrant} {count : Nat} {now : Dbs} {d : UInt64} {name value : Bytes}

/-- What is entered was there at the start, or the warrant permits it. -/
theorem Written.entry (written : w.Written count now)
    (stored : now.get .directories d name = some value) :
    w.start.get .directories d name = some value ∨
      ∃ n, w.Entering d name n ∧ value = hostToDb n := by
  induction written with
  | start => exact .inl stored
  | change _ permits ih =>
      rcases Change.entry_of_apply stored with before | ⟨n, nlink, rfl, isNode⟩
      · exact ih before
      · cases permits with
        | enter _ _ entering => exact .inr ⟨n, entering, isNode⟩

/-- A new name other than those for a directory and its parent. -/
theorem Within.enters (within : w.Within 3 now) (notSelf : name ≠ str ".")
    (notParent : name ≠ str "..") (absent : w.start.get .directories d name = none)
    (stored : now.get .directories d name = some value) : ∃ n, w.Enters d name n := by
  obtain ⟨_, _, _, written⟩ := within
  rcases written.entry stored with before | ⟨n, entering, -⟩
  · rw [absent] at before
    cases before
  · cases entering with
    | self => exact absurd rfl notSelf
    | parent => exact absurd rfl notParent
    | named enters => exact ⟨n, enters⟩

end Warrant

/-- A node that has some attribute. -/
def Dbs.Exists (dbs : Dbs) (id : UInt64) : Prop :=
  ∃ name, dbs.get .nodes id name ≠ none

/-- Every new entry of a directory that was there is one of a caller with write and
search permission on it. -/
def Dbs.AddedBy (before : Dbs) (sctx : SContext) (after : Dbs) : Prop :=
  ∀ d name, name ≠ str "." → name ≠ str ".." → before.Exists d →
    before.get .directories d name = none → after.get .directories d name ≠ none →
    before.access d sctx wOk = .ok () ∧ before.access d sctx xOk = .ok ()

/-- The caller of `link` may search the directory of the new name when it may write
to it. -/
def Request.SearchesToLink (fs : FS) (ctx : Context) (world : World) : Request → Prop
  | link _ newpath => ∀ d,
      (exec (fs.pcache.getnode ctx.caller (splitPath newpath).1) world).1 =
        .ok ⟨d, .directory⟩ →
      world.dbs.access d ctx.caller wOk = .ok () → world.dbs.access d ctx.caller xOk = .ok ()
  | _ => True

/-- One request adds entries where its caller may. -/
theorem World.addedBy_after {fs : FS} (sound : fs.pcache.Sound) (world : World) (call : Call)
    (searches : call.2.SearchesToLink fs call.1 world) :
    world.dbs.AddedBy call.1.caller (world.after fs call).dbs := by
  intro d name notSelf notParent _ absent present
  obtain ⟨value, stored⟩ := Option.ne_none_iff_exists'.mp present
  obtain ⟨n, enters⟩ := (world.within_after sound call).enters notSelf notParent absent stored
  have access := enters.access
  obtain ⟨ctx, request⟩ := call
  cases request with
  | link oldpath newpath => exact ⟨access, searches d (enters.target _ rfl) access⟩
  | _ => exact Dbs.access_wxOk_iff.mp access

/-- From a rebuilt database, a run in which no caller links into a directory that it
may write to and not search adds entries where the callers may write and search. -/
theorem creation_authorised {fs : FS} (sound : fs.pcache.Sound) {media : Db UInt32}
    {getuid getgid : UInt32} {clock : Nat → UInt64}
    {reply : List SysEvent → SysCall → SysResult} {order : ByteOrder} {calls : List Call}
    (meets : Meets (World.after fs) (fun world call => call.2.SearchesToLink fs call.1 world)
      (.rebuilt media getuid getgid clock reply order) calls) :
    Meets (World.after fs) (fun world call => call.1.uid ≠ 0 →
        world.dbs.AddedBy call.1.caller (world.after fs call).dbs)
      (.rebuilt media getuid getgid clock reply order) calls :=
  meets.mono fun world call searches _ => world.addedBy_after sound call searches

/-! ## A user in a directory open to all -/

/-- A caller without privileges. -/
def userContext : Context :=
  { uid := 1000, gid := 1000, groups := some [] }

/-- In a directory of mode 0777 a user makes a file, and then a link to a file of
the superuser. -/
def visiting : List Call :=
  [(rootContext, .mkdir (str "/e") 0o777), (rootContext, .mknod (str "/f") 0o100644 0),
    (userContext, .mknod (str "/e/g") 0o100644 0), (userContext, .link (str "/f") (str "/e/h"))]

/-- The world with the directory. -/
def visitedWorld : World :=
  visiting.foldl (World.after mounted) mountedWorld

set_option maxRecDepth 100000 in
theorem visiting_meets :
    Meets (World.after mounted) (fun world call => call.2.SearchesToLink mounted call.1 world)
      mountedWorld visiting := by
  refine .cons trivial (.cons trivial (.cons trivial (.cons ?_ (.nil _))))
  intro d parent _
  have isParent : (exec (mounted.pcache.getnode userContext.caller (splitPath (str "/e/h")).1)
      ((visiting.take 3).foldl (World.after mounted) mountedWorld)).1 = .ok ⟨1, .directory⟩ := by
    decide +kernel
  cases isParent.symm.trans parent
  decide +kernel

set_option maxRecDepth 100000 in
/-- Both entries come into the directory, and the user may write to it and search it. -/
theorem creation_authorised_visiting :
    visitedWorld.dbs.get .directories 1 (str "g") = some (hostToDb (3 : UInt64)) ∧
      visitedWorld.dbs.get .directories 1 (str "h") = some (hostToDb (2 : UInt64)) ∧
      Meets (World.after mounted) (fun world call => call.1.uid ≠ 0 →
        world.dbs.AddedBy call.1.caller (world.after mounted call).dbs) mountedWorld visiting :=
  ⟨by decide +kernel, by decide +kernel, creation_authorised PathCache_hash.sound visiting_meets⟩

/-! ## A link into a directory that may not be searched -/

/-- A directory that others may write to and not search, and a file. -/
def dropBox : List Call :=
  [(rootContext, .mkdir (str "/d") 0o702), (rootContext, .mknod (str "/f") 0o100644 0)]

/-- The world with the directory and the file. -/
def dropBoxWorld : World :=
  dropBox.foldl (World.after mounted) mountedWorld

/-- A link to the file in the directory. -/
def dropIn : Call :=
  (userContext, .link (str "/f") (str "/d/f"))

theorem dropBox_meets :
    Meets (World.after mounted) (fun world call => call.2.SearchesToLink mounted call.1 world)
      mountedWorld dropBox :=
  .cons trivial (.cons trivial (.nil _))

set_option maxRecDepth 100000 in
/-- A user enters the file into the directory all the same. -/
theorem dropIn_unauthorised :
    Reaches (World.after mounted) (fun _ _ => True) mountedWorld dropBoxWorld ∧
      dropIn.1.uid ≠ 0 ∧
      ¬ dropBoxWorld.dbs.AddedBy dropIn.1.caller (dropBoxWorld.after mounted dropIn).dbs := by
  have reached : Reaches (World.after mounted) (fun _ _ => True) mountedWorld dropBoxWorld :=
    (dropBox_meets.mono fun _ _ _ => trivial).reaches
  refine ⟨reached, by decide, ?_⟩
  intro added
  have present : dropBoxWorld.dbs.Exists 1 := ⟨Attr.mode.name, by decide +kernel⟩
  have granted := added 1 (str "f") (by decide) (by decide) present (by decide +kernel)
    (by decide +kernel)
  exact absurd granted.2 (by decide +kernel)

end OfflineFs
