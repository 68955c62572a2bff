import OfflineFs.Changes.Lineage
import OfflineFs.Changes.Relinking
import OfflineFs.Run.Start

/-!
# Renaming between two names of one node

The check for equal paths compares them as texts.  Past it, the entry of the old path
is always taken away.
-/

namespace OfflineFs

open OfflineFs.Effect OfflineFs.Effect.Program

namespace Effect.Program

variable {E : Type → Type} {ε α : Type} {returned : α → Prop}

theorem ends_all (prog : Program E ε α) : Ends (fun _ => True) (fun _ => True) prog := by
  induction prog with
  | pure => trivial
  | throw => trivial
  | halt => trivial
  | call effect next ih => exact ih

/-- What is run first does not matter to what can be returned. -/
theorem ends_after {β : Type} {first : Program E ε β} {next : β → Program E ε α}
    (ends : ∀ value, Ends returned (fun _ => True) (next value)) :
    Ends returned (fun _ => True) (first >>= next) :=
  ends_bind (ends_all first) fun value _ => ends value

theorem ends_either {condition : Prop} [Decidable condition] {yes no : Program E ε α}
    (holds : Ends returned (fun _ => True) yes) (fails : Ends returned (fun _ => True) no) :
    Ends returned (fun _ => True) (if condition then yes else no) := by
  split
  · exact holds
  · exact fails

end Effect.Program

namespace Directory

variable {d : NodeRef} {name : Bytes} {world after : World}

/-- The entry is gone when `delchild` returns. -/
theorem erased_of_delchild (deletes : exec (delchild d name) world = (.ok (), after)) :
    after.dbs.get .directories d.id name = none := by
  cases child : world.dbs.getchild d.id name with
  | error e =>
      rw [exec_delchild_error child] at deletes
      cases deletes
  | ok n =>
      cases counted : world.dbs.attr UInt32 n.id .nlink with
      | error e =>
          rw [exec_delchild_uncounted child counted] at deletes
          cases deletes
      | ok nlink =>
          obtain ⟨final, result, finalEq⟩ := exec_delchild child counted
          rw [result] at deletes
          cases deletes
          rw [finalEq]
          by_contra present
          obtain ⟨value, stored⟩ := Option.ne_none_iff_exists'.mp present
          have still := Dbs.get_directories_unlinked_eq_some stored
          rw [Dbs.get_del, if_pos ⟨rfl, rfl, rfl⟩] at still
          cases still

end Directory

namespace FS

variable {fs : FS} {ctx : Context} {world : World} {oldpath newpath : Bytes}

/-- The part of `rename` after the check for equal paths. -/
def relink (fs : FS) (sctx : SContext) (oldpath newpath : Bytes) (srcpath dstpath : Path)
    (src : NodeRef) (dst : Option NodeRef) : FsProg Int := do
  Node.access srcpath.parent sctx (xOk ||| wOk)
  Node.access dstpath.parent sctx (xOk ||| wOk)
  checkStickyBit sctx srcpath.parent src
  match ← removeDestination fs sctx newpath dstpath src dst with
  | some code => Pure.pure code
  | none => do
      moveDotDot src dstpath.parent
      fs.pcache.invalidate oldpath
      Node.setTime src.id .ctime
      Directory.addchild dstpath.parent dstpath.leaf src
      Directory.delchild srcpath.parent srcpath.leaf
      touchParent srcpath.parent
      touchParent dstpath.parent
      Pure.pure 0

theorem rename_eq (fs : FS) (ctx : Context) (oldpath newpath : Bytes) :
    fs.rename ctx oldpath newpath = request ctx errcode (fun sctx => do
      let srcpath ← Path.resolve fs.pcache sctx oldpath
      let dstpath ← Path.resolve fs.pcache sctx newpath
      let src ← Directory.getchild srcpath.parent srcpath.leaf
      let dst ← findchild dstpath.parent dstpath.leaf
      if dst.isSome ∧ oldpath = newpath then
        Pure.pure 0
      else
        fs.relink sctx oldpath newpath srcpath dstpath src dst) :=
  rfl

/-- A code that ends `rename` at once is an error. -/
theorem ends_removeDestination (sctx : SContext) (dstpath : Path) (src : NodeRef)
    (dst : Option NodeRef) :
    Ends (fun code => code ≠ some 0) (fun _ => True)
      (fs.removeDestination sctx newpath dstpath src dst) := by
  have clears : ∀ dst, Ends (fun code => code ≠ some 0) (fun _ => True)
      (fs.clearDestination dstpath.parent src dst) := by
    intro dst
    apply ends_after
    intro srcMode
    apply ends_after
    intro dstMode
    apply ends_either
    · apply ends_either (ends_pure (by decide))
      apply ends_after
      intro node
      apply ends_after
      intro n
      apply ends_after
      intro meets
      apply ends_either (ends_pure (by decide))
      apply ends_after
      intro node
      apply ends_after
      intro d
      apply ends_after
      intro count
      apply ends_either (ends_pure (by decide))
      apply ends_after
      intro _
      apply ends_after
      exact fun _ => ends_pure (by decide)
    · exact ends_either (ends_pure (by decide)) (ends_pure (by decide))
  cases dst with
  | none => exact ends_pure (by decide)
  | some dst =>
      apply ends_after
      intro _
      apply ends_bind (clears dst)
      intro code isError
      cases code with
      | some code => exact ends_pure isError
      | none =>
          apply ends_after
          intro _
          apply ends_after
          intro _
          apply ends_after
          exact fun _ => ends_pure (by decide)

/-- When the rest of `rename` succeeds the entry of the old path is gone. -/
theorem erased_of_relink {sctx : SContext} {srcpath dstpath : Path} {src : NodeRef}
    {dst : Option NodeRef} {after : World}
    (relinks : exec (fs.relink sctx oldpath newpath srcpath dstpath src dst) world =
      (.ok 0, after)) :
    after.dbs.get .directories srcpath.parent.id srcpath.leaf = none := by
  unfold relink at relinks
  rw [exec_bind, Outcome.andThen_eq_ok_iff] at relinks
  obtain ⟨-, _, -, relinks⟩ := relinks
  rw [exec_bind, Outcome.andThen_eq_ok_iff] at relinks
  obtain ⟨-, _, -, relinks⟩ := relinks
  rw [exec_bind, Outcome.andThen_eq_ok_iff] at relinks
  obtain ⟨-, checked, -, relinks⟩ := relinks
  rw [exec_bind, Outcome.andThen_eq_ok_iff] at relinks
  obtain ⟨code, _, removes, relinks⟩ := relinks
  have isError := ((ends_removeDestination sctx dstpath src dst).run fsHandler checked).1 code
    (congrArg Prod.fst removes)
  cases code with
  | some code =>
      cases relinks
      exact absurd rfl isError
  | none =>
      simp only [exec_bind, Outcome.andThen_eq_ok_iff] at relinks
      obtain ⟨-, _, -, -, _, -, -, _, -, -, _, -, ⟨⟩, erased, deletes, ⟨⟩, srcTouched, touchesSrc,
        ⟨⟩, dstTouched, touchesDst, ends⟩ := relinks
      cases ends
      have touches : ∀ {before later : World} {parent : NodeRef} (d : UInt64) (name : Bytes),
          exec (touchParent parent) before = (.ok (), later) →
          later.dbs.get .directories d name = before.dbs.get .directories d name := by
        intro before later parent d name touched
        cases touched
        change ((before.dbs.setattr _ .ctime _).setattr _ .mtime _).get .directories d name = _
        rw [Dbs.get_directories_setattr, Dbs.get_directories_setattr]
      rw [touches _ _ touchesDst, touches _ _ touchesSrc]
      exact Directory.erased_of_delchild deletes

/-- The entries and the link counts are the same. -/
structure SameLinks (before after : Dbs) : Prop where
  entries : ∀ d name, after.get .directories d name = before.get .directories d name
  counts : ∀ id, after.attr UInt32 id .nlink = before.attr UInt32 id .nlink

/-- Where `rename` finds its paths there is one node. -/
def NamesOneNode (fs : FS) (ctx : Context) (world : World) (oldpath newpath : Bytes) : Prop :=
  ∃ sctx srcpath dstpath first second n, ctx.sctx = some sctx ∧
    exec (Path.resolve fs.pcache sctx oldpath) world = (.ok srcpath, first) ∧
    exec (Path.resolve fs.pcache sctx newpath) first = (.ok dstpath, second) ∧
    world.dbs.getchild srcpath.parent.id srcpath.leaf = .ok n ∧
    world.dbs.getchild dstpath.parent.id dstpath.leaf = .ok n

/-- Resolving a path changes at most the path cache. -/
theorem dbs_of_resolve {pc : PathCache} (sound : pc.Sound) {sctx : SContext} {path : Bytes}
    {p : Path} {before after : World}
    (finds : exec (Path.resolve pc sctx path) before = (.ok p, after)) :
    after.dbs = before.dbs := by
  rcases Path.exec_resolve_cases sound sctx path before with
    ⟨cache, other, result, -⟩ | ⟨e, cache, result⟩ | ⟨stop, cache, result⟩
  · rw [result] at finds
    cases finds
    rfl
  · rw [result] at finds
    cases finds
  · rw [result] at finds
    cases finds

/-- Renaming between two names of one node returns zero and changes no entry and no link
count exactly when the names are the same text. -/
theorem rename_alias_iff (sound : fs.pcache.Sound)
    (oneNode : fs.NamesOneNode ctx world oldpath newpath) :
    ((exec (fs.rename ctx oldpath newpath) world).1 = .ok 0 ∧
        SameLinks world.dbs (exec (fs.rename ctx oldpath newpath) world).2.dbs) ↔
      oldpath = newpath := by
  obtain ⟨sctx, srcpath, dstpath, first, second, n, caller, findsSrc, findsDst, srcChild,
    dstChild⟩ := oneNode
  have secondDbs : second.dbs = world.dbs :=
    (dbs_of_resolve sound findsDst).trans (dbs_of_resolve sound findsSrc)
  have runs : exec (fs.rename ctx oldpath newpath) world = handling errcode
      (exec (if oldpath = newpath then Pure.pure 0
        else fs.relink sctx oldpath newpath srcpath dstpath n (some n)) second) := by
    rw [rename_eq, exec_request, caller]
    simp only [exec_bind, findsSrc, findsDst, Outcome.andThen_ok, Directory.exec_getchild,
      secondDbs, srcChild, Outcome.ofExcept_ok, Warrant.exec_findchild,
      Warrant.destination_of_getchild dstChild, Option.isSome_some, true_and]
  rw [runs]
  by_cases same : oldpath = newpath
  · rw [if_pos same]
    refine iff_of_true ⟨rfl, ?_, ?_⟩ same
    · exact fun d name => by rw [← secondDbs]; rfl
    · exact fun id => by rw [← secondDbs]; rfl
  · rw [if_neg same]
    refine iff_of_false ?_ same
    rintro ⟨returned, unchanged⟩
    rcases result : exec (fs.relink sctx oldpath newpath srcpath dstpath n (some n)) second with
      ⟨outcome, after⟩
    rw [result] at returned unchanged
    cases outcome with
    | ok code =>
        cases returned
        have gone := erased_of_relink result
        have kept := unchanged.entries srcpath.parent.id srcpath.leaf
        have stored := (Dbs.getchild_eq_ok_iff.mp srcChild).1
        rw [stored] at kept
        exact absurd (kept.symm.trans gone) nofun
    | error e => exact errcode_ne_zero e (Outcome.ok.inj returned)
    | fault stop => cases returned

/-! ## A file with two names -/

/-- The world with a file of two names. -/
def twoNames : World :=
  runAll [mounted.mknod rootContext (str "/f") 0o100644 0,
    mounted.link rootContext (str "/f") (str "/g")] mountedWorld

/-- The superuser, in the group 0. -/
def caller : SContext :=
  ⟨0, 0, [0]⟩

set_option maxRecDepth 100000 in
theorem twoNames_found :
    (exec (Path.resolve mounted.pcache caller (str "/f")) twoNames).1 =
        .ok ⟨⟨0, .directory⟩, str "f"⟩ ∧
      (exec (Path.resolve mounted.pcache caller (str "/g"))
        (exec (Path.resolve mounted.pcache caller (str "/f")) twoNames).2).1 =
          .ok ⟨⟨0, .directory⟩, str "g"⟩ ∧
      twoNames.dbs.getchild 0 (str "f") = .ok ⟨1, .file⟩ ∧
      twoNames.dbs.getchild 0 (str "g") = .ok ⟨1, .file⟩ := by
  decide +kernel

theorem twoNames_oneNode : mounted.NamesOneNode rootContext twoNames (str "/f") (str "/g") := by
  obtain ⟨findsSrc, findsDst, srcChild, dstChild⟩ := twoNames_found
  exact ⟨caller, ⟨⟨0, .directory⟩, str "f"⟩, ⟨⟨0, .directory⟩, str "g"⟩, _, _, ⟨1, .file⟩, rfl,
    Prod.ext findsSrc rfl, Prod.ext findsDst rfl, srcChild, dstChild⟩

theorem rename_alias_twoNames :
    ((exec (mounted.rename rootContext (str "/f") (str "/g")) twoNames).1 = .ok 0 ∧
        SameLinks twoNames.dbs
          (exec (mounted.rename rootContext (str "/f") (str "/g")) twoNames).2.dbs) ↔
      str "/f" = str "/g" :=
  rename_alias_iff PathCache_hash.sound twoNames_oneNode

set_option maxRecDepth 100000 in
/-- The first name is taken away, and the rename succeeds. -/
theorem rename_loses_name :
    mounted.NamesOneNode rootContext twoNames (str "/f") (str "/g") ∧
      (exec (mounted.rename rootContext (str "/f") (str "/g")) twoNames).1 = .ok 0 ∧
      ¬ SameLinks twoNames.dbs
        (exec (mounted.rename rootContext (str "/f") (str "/g")) twoNames).2.dbs := by
  refine ⟨twoNames_oneNode, by decide +kernel, fun same => ?_⟩
  have gone : (exec (mounted.rename rootContext (str "/f") (str "/g")) twoNames).2.dbs.get
      .directories 0 (str "f") ≠ twoNames.dbs.get .directories 0 (str "f") := by
    decide +kernel
  exact gone (same.entries 0 (str "f"))

end FS

end OfflineFs
