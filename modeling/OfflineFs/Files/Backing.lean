import OfflineFs.Files.Places
import OfflineFs.Run.Start

/-!
# Backing files

Opening the backing file of a new file makes the directories missing above it, and deleting
the file removes the ones left bare.
-/

namespace OfflineFs

open OfflineFs.Effect OfflineFs.Map OfflineFs.Map.FileTree

section Steps

variable {base : Bytes} {reply : List SysEvent → SysCall → SysResult} (host : TreeHost base reply)
  {world : World} {path dir : Bytes} {place : List Bytes}

/-- The tree that a host has in a world. -/
def TreeHost.now (world : World) : FileTree Bytes :=
  host.tree world.events

/-- A call is answered by the host. -/
theorem TreeHost.answered (served : world.reply = reply) (call : SysCall) :
    Answers base (host.now world) (world.answer call) (host.now (world.called call)) call := by
  subst served
  exact host.answers world.events call

theorem exec_sys (call : SysCall) (world : World) :
    exec (sys call) world = (.ok (world.answer call), world.called call) :=
  rfl

/-- One round of the loop that makes the missing directories. -/
theorem TreeHost.exec_createParents_cons (served : world.reply = reply) {rest : List Bytes}
    {after : World}
    (known : Above base dir ∨ ∃ place, locate base dir = some place)
    (made : exec (ChunkFile.createParents (dir :: rest)) world = (.ok (), after)) :
    ∃ middle : World, middle.reply = reply ∧
      exec (ChunkFile.createParents rest) middle = (.ok (), after) ∧
      (host.now middle).files = (host.now world).files ∧
      ∀ place, place ∈ (host.now middle).dirs ↔ place ∈ (host.now world).dirs ∨
        locate base dir = some place ∧ place ∉ (host.now world).files := by
  obtain ⟨kept, above, found⟩ := host.answered served (.stat dir)
  simp only [ChunkFile.createParents, exec_bind, exec_sys, Outcome.andThen_ok] at made
  cases failed : (world.answer (.stat dir)).errno with
  | none =>
      rw [failed] at made
      refine ⟨world.called (.stat dir), served, made, congrArg FileTree.files kept, fun place => ?_⟩
      rw [kept, iff_self_or]
      rintro ⟨located, free⟩
      have there := found place located
      cases result : (host.now world).stat place with
      | ok nlink => exact (of_stat result).resolve_right free
      | error refusal => simp [result, failed] at there
  | some errno =>
      rw [failed] at made
      obtain ⟨place, located⟩ := known.resolve_left fun isAbove => by
        simp [above isAbove] at failed
      simp only at made
      split at made
      case isTrue missing =>
        have still : (world.called (.stat dir)).reply = reply := served
        generalize world.called (.stat dir) = next at made kept still
        have did := host.answered still (.mkdir dir 0o770) place located
        simp only [exec_bind, exec_sys, Outcome.andThen_ok] at made
        rw [kept] at did
        cases result : (host.now world).mkdir place with
        | error refusal =>
            rw [result] at did
            simp [did.1] at made
        | ok tree =>
            rw [result] at did
            obtain ⟨fine, now⟩ := did
            obtain ⟨free, files, dirs⟩ := of_mkdir result
            rw [fine] at made
            refine ⟨next.called (.mkdir dir 0o770), still, made, by rw [now, files],
              fun other => ?_⟩
            rw [now, dirs, located, Finset.mem_insert, Option.some.injEq]
            constructor
            · rintro (rfl | old)
              · exact .inr ⟨rfl, free⟩
              · exact .inl old
            · rintro (old | ⟨rfl, -⟩)
              · exact .inr old
              · exact .inl rfl
      case isFalse => simp at made

/-- The loop makes every directory that is missing, unless a file is in its place. -/
theorem TreeHost.exec_createParents (served : world.reply = reply) {dirs : List Bytes}
    {after : World}
    (known : ∀ dir ∈ dirs, Above base dir ∨ ∃ place, locate base dir = some place)
    (made : exec (ChunkFile.createParents dirs) world = (.ok (), after)) :
    after.reply = reply ∧ (host.now after).files = (host.now world).files ∧
      ∀ place, place ∈ (host.now after).dirs ↔ place ∈ (host.now world).dirs ∨
        place ∈ dirs.filterMap (locate base) ∧ place ∉ (host.now world).files := by
  induction dirs generalizing world with
  | nil =>
      obtain rfl : world = after := (Prod.mk.inj made).2
      exact ⟨served, rfl, by simp⟩
  | cons dir rest ih =>
      obtain ⟨middle, still, loop, files, dirs⟩ :=
        host.exec_createParents_cons served (known dir List.mem_cons_self) made
      obtain ⟨last, keptFiles, allDirs⟩ :=
        ih still (fun other member => known other (List.mem_cons_of_mem _ member)) loop
      refine ⟨last, keptFiles.trans files, fun place => ?_⟩
      rw [allDirs, dirs, files]
      simp only [List.mem_filterMap, List.mem_cons, exists_eq_or_imp]
      tauto

/-- Opening a path where there is no file has made the file if it succeeded, and has done
nothing if it failed. -/
theorem TreeHost.answered_creat (served : world.reply = reply) (flags perm : UInt32)
    (located : locate base path = some place) (free : place ∉ (host.now world).files) :
    ((world.answer (.creat path flags perm)).errno = none →
        place.tail ∈ (host.now world).dirs ∧
          (host.now (world.called (.creat path flags perm))).files =
            insert place (host.now world).files ∧
          (host.now (world.called (.creat path flags perm))).dirs = (host.now world).dirs) ∧
      ((world.answer (.creat path flags perm)).errno ≠ none →
        host.now (world.called (.creat path flags perm)) = host.now world) := by
  have did := host.answered served (.creat path flags perm) place located
  rw [if_neg free] at did
  cases result : (host.now world).creat place with
  | ok tree =>
      rw [result] at did
      obtain ⟨fine, now⟩ := did
      rw [now]
      exact ⟨fun _ => of_creat result, fun failed => absurd fine failed⟩
  | error refusal =>
      rw [result] at did
      obtain ⟨failed, now⟩ := did
      exact ⟨fun fine => by simp [fine] at failed, fun _ => now⟩

/-- Opening a new file adds it and the directories missing above it. -/
theorem TreeHost.exec_create (served : world.reply = reply)
    (located : locate base path = some place)
    (known : ∀ dir ∈ ChunkFile.parents path, Above base dir ∨ ∃ place, locate base dir = some place)
    (below : ∀ dir ∈ (ChunkFile.parents path).filterMap (locate base), dir <:+ place.tail)
    (free : place ∉ (host.now world).files) {mode : UInt32} {fd : Fd} {after : World}
    (made : exec (ChunkFile.create path mode) world = (.ok fd, after)) :
    after.reply = reply ∧ Added (host.now world) place (host.now after) := by
  simp only [ChunkFile.create, exec_bind, exec_sys, Outcome.andThen_ok] at made
  obtain ⟨opened, refused⟩ := host.answered_creat served (mode ||| oCreat) 0o660 located free
  cases failed : (world.answer (.creat path (mode ||| oCreat) 0o660)).errno with
  | none =>
      rw [failed] at made
      obtain ⟨inside, files, dirs⟩ := opened failed
      obtain rfl := (Prod.mk.inj made).2
      refine ⟨served, free, files, ?_⟩
      rw [dirs, eq_comm, Finset.union_eq_left]
      intro dir member
      exact dir_of_suffix _ inside (by simpa using member)
  | some errno =>
      have kept := refused (by simp [failed])
      have still : (world.called (.creat path (mode ||| oCreat) 0o660)).reply = reply := served
      rw [failed] at made
      generalize world.called (.creat path (mode ||| oCreat) 0o660) = next at made kept still
      simp only at made
      split at made
      case isFalse => simp at made
      case isTrue =>
        rw [exec_bind, Outcome.andThen_eq_ok_iff] at made
        obtain ⟨⟨⟩, middle, loop, made⟩ := made
        obtain ⟨again, sameFiles, dirs⟩ := host.exec_createParents still known loop
        rw [kept] at sameFiles dirs
        obtain ⟨opened, -⟩ :=
          host.answered_creat again (mode ||| oCreat) 0o600 located (sameFiles ▸ free)
        simp only [exec_bind, exec_sys, Outcome.andThen_ok] at made
        cases failed : (middle.answer (.creat path (mode ||| oCreat) 0o600)).errno with
        | some errno => simp [failed] at made
        | none =>
            obtain ⟨inside, files, sameDirs⟩ := opened failed
            rw [failed] at made
            obtain rfl := (Prod.mk.inj made).2
            refine ⟨again, free, by rw [files, sameFiles], ?_⟩
            ext dir
            rw [sameDirs, Finset.mem_union, List.mem_toFinset, List.mem_tails]
            constructor
            · intro member
              exact ((dirs dir).mp member).imp_right fun made => below dir made.1
            · rintro (old | above)
              · exact (dirs dir).mpr (.inl old)
              · exact dir_of_suffix _ inside above

/-! ## Removing -/

/-- The loop prunes the directories it is given, and ends with an error at the latest where
one of them is not bare. -/
theorem TreeHost.exec_removeParents (served : world.reply = reply) {dirs : List Bytes}
    (places : dirs.map (fun dir => locate base (base ++ [slash] ++ dir)) =
      (upward place).map some)
    (isDir : place ∈ (host.now world).dirs) :
    ((exec (Medium.removeParents base dirs) world).1 = .ok () ∨
        (exec (Medium.removeParents base dirs) world).1 = .error .runtime) ∧
      host.now (exec (Medium.removeParents base dirs) world).2 =
        (host.now world).prune place := by
  induction dirs generalizing world place with
  | nil =>
      rcases place with _ | ⟨name, up⟩
      · exact ⟨.inl rfl, rfl⟩
      · simp [upward] at places
  | cons dir rest ih =>
      rcases place with _ | ⟨name, up⟩
      · simp [upward] at places
      · obtain ⟨located, places⟩ := List.cons.inj places
        obtain ⟨kept, -, found⟩ := host.answered served (.stat (base ++ [slash] ++ dir))
        have there := found _ located
        rw [stat, if_pos isDir] at there
        obtain ⟨fine, nlink⟩ := there
        have still : (world.called (.stat (base ++ [slash] ++ dir))).reply = reply := served
        simp only [Medium.removeParents, exec_bind, exec_sys, Outcome.andThen_ok, fine, nlink]
        generalize world.called (.stat (base ++ [slash] ++ dir)) = next at kept still ⊢
        rw [← kept] at isDir ⊢
        by_cases bare : (host.now next).Bare (name :: up)
        · have did := host.answered still (.rmdir (base ++ [slash] ++ dir)) _ located
          rw [rmdir, if_pos isDir, dif_pos (List.cons_ne_nil name up), dif_pos bare] at did
          obtain ⟨fine, now⟩ := did
          have above : up ∈ (host.now (next.called (.rmdir (base ++ [slash] ++ dir)))).dirs := by
            rw [now, removeDir_dirs]
            exact Finset.mem_erase.mpr ⟨fun same => List.cons_ne_self name up same.symm,
              dir_of_suffix _ isDir (List.suffix_cons name up)⟩
          rw [if_neg (by simp [subdirs_bare bare]), prune, dif_pos ⟨isDir, bare⟩, ← now]
          simp only [exec_bind, exec_sys, Outcome.andThen_ok, fine]
          exact ih (show (next.called _).reply = reply from still) places above
        · rw [prune, dif_neg fun both => bare both.2]
          split
          · exact ⟨.inl rfl, rfl⟩
          · have did := host.answered still (.rmdir (base ++ [slash] ++ dir)) _ located
            rw [rmdir, if_pos isDir, dif_pos (List.cons_ne_nil name up), dif_neg bare] at did
            obtain ⟨failed, now⟩ := did
            simp only [exec_bind, exec_sys, Outcome.andThen_ok, failed]
            exact ⟨.inr rfl, now⟩

/-- The directories that deleting asks to remove are below the base. -/
def RemovesBelow (base phid : Bytes) (call : SysCall) : Prop :=
  ∀ path, call = .rmdir path →
    ∃ place, locate base path = some place ∧ place ≠ [] ∧ place <:+ (placeOf phid).tail

theorem IsPhid.removesBelow {phid : Bytes} (whole : IsPhid phid) {dir : Bytes}
    (member : dir ∈ Medium.parentDirs phid.length phid) :
    RemovesBelow base phid (.rmdir (base ++ [slash] ++ dir)) := by
  rintro path same
  obtain rfl := SysCall.rmdir.inj same
  have here : locate base (base ++ [slash] ++ dir) ∈ (Medium.parentDirs phid.length phid).map
      fun dir => locate base (base ++ [slash] ++ dir) := List.mem_map_of_mem member
  rw [map_parentDirs le_rfl whole] at here
  obtain ⟨place, above, located⟩ := List.mem_map.mp here
  exact ⟨place, located.symm, mem_upward.mp above⟩

/-- Deleting a file removes it and prunes the directories above it. -/
theorem TreeHost.exec_delfileDirectory (served : world.reply = reply) {medium : Medium}
    {phid : Bytes}
    (whole : IsPhid phid)
    (unlinks : world.dbs.media[(⟨medium.id, str "unlink_files"⟩ : Key UInt32)]? =
      some (str "true"))
    (directory : world.dbs.media[(⟨medium.id, str "directory"⟩ : Key UInt32)]? = some base)
    (file : placeOf phid ∈ (host.now world).files) :
    ((exec (medium.delfileDirectory phid) world).1 = .ok () ∨
        (exec (medium.delfileDirectory phid) world).1 = .error .runtime) ∧
      host.now (exec (medium.delfileDirectory phid) world).2 =
        (host.now world).without (placeOf phid) ∧
      World.CallsSince (RemovesBelow base phid) world
        (exec (medium.delfileDirectory phid) world).2 := by
  have located : locate base (base ++ [slash] ++ phid) = some (placeOf phid) :=
    locate_below (fun name => whole.isName) whole.nonempty whole.open_
  have did := host.answered served (.unlink (base ++ [slash] ++ phid)) _ located
  rw [unlink, if_pos file] at did
  have above : (placeOf phid).tail ∈
      (host.now (world.called (.unlink (base ++ [slash] ++ phid)))).dirs := by
    rw [did.2, removeFile_dirs]
    rcases place : placeOf phid with _ | ⟨name, up⟩
    · exact (host.now world).root
    · exact (host.now world).closed name up (Finset.mem_union_right _ (place ▸ file))
  have pruned := host.exec_removeParents (show (world.called _).reply = reply from served)
    (map_parentDirs le_rfl whole) above
  rw [did.2] at pruned
  simp only [Medium.delfileDirectory, Medium.getattrv, exec_bind, exec_perform, fsHandler, unlinks,
    directory, Outcome.andThen_ok, exec_pure, if_true, exec_sys]
  refine ⟨pruned.1, pruned.2, ?_⟩
  have unlinked : RemovesBelow base phid (.unlink (base ++ [slash] ++ phid)) := by
    rintro path ⟨⟩
  apply (World.CallsSince.called unlinked).trans
  apply callsSince_exec
  apply calls_removeParents
  intro dir member
  constructor
  · rintro path ⟨⟩
  · exact whole.removesBelow member

end Steps

/-- A base directory with the file `u/f`. -/
def smallTree : FileTree Bytes where
  dirs := {[], [str "u"]}
  files := {[str "f", str "u"]}
  root := by decide
  apart := by decide
  closed name up held := by
    simp only [Finset.mem_union, Finset.mem_insert, Finset.mem_singleton] at held ⊢
    aesop

/-- A host with that directory at `/b`. -/
def smallHost : World :=
  .erased (directoryMedium 0 (str "m") (str "/b")) (fun _ => 100)
    (TreeHost.reply (str "/b") smallTree) .little

/-- Opening a new backing file makes it and exactly the directories missing above it.  Deleting
it removes it and, from the innermost on, the directories below the base that held nothing but
the way to it, which leaves none bare, and asks for no other directory to be removed.  So where
no directory was bare the one undoes the other, whether deleting returns or throws. -/
theorem backing_symmetric {base phid : Bytes} (world : World)
    (host : TreeHost base world.reply) (medium : Medium) (whole : IsPhid phid)
    (unlinks : world.dbs.media[(⟨medium.id, str "unlink_files"⟩ : Key UInt32)]? =
      some (str "true"))
    (directory : world.dbs.media[(⟨medium.id, str "directory"⟩ : Key UInt32)]? = some base) :
    (∀ mode fd, placeOf phid ∉ (host.now world).files →
        (exec (ChunkFile.create (base ++ [slash] ++ phid) mode) world).1 = .ok fd →
        (host.now (exec (ChunkFile.create (base ++ [slash] ++ phid) mode) world).2).files =
            insert (placeOf phid) (host.now world).files ∧
          (host.now (exec (ChunkFile.create (base ++ [slash] ++ phid) mode) world).2).dirs =
            (host.now world).dirs ∪ (placeOf phid).tail.tails.toFinset) ∧
      (placeOf phid ∈ (host.now world).files →
        ((exec (medium.delfileDirectory phid) world).1 = .ok () ∨
            (exec (medium.delfileDirectory phid) world).1 = .error .runtime) ∧
          (host.now (exec (medium.delfileDirectory phid) world).2).files =
            (host.now world).files.erase (placeOf phid) ∧
          (host.now (exec (medium.delfileDirectory phid) world).2).dirs =
            {dir ∈ (host.now world).dirs | ¬ (host.now world).Solely (placeOf phid) dir} ∧
          (∀ dir ∈ (host.now (exec (medium.delfileDirectory phid) world).2).dirs,
            dir ≠ [] → dir <:+ placeOf phid →
              ¬ (host.now (exec (medium.delfileDirectory phid) world).2).Bare dir) ∧
          World.CallsSince (RemovesBelow base phid) world
            (exec (medium.delfileDirectory phid) world).2) ∧
      ∀ mode fd, placeOf phid ∉ (host.now world).files →
        (exec (ChunkFile.create (base ++ [slash] ++ phid) mode) world).1 = .ok fd →
        (∀ dir ∈ (host.now world).dirs, dir ≠ [] → ¬ (host.now world).Bare dir) →
        host.now (exec (medium.delfileDirectory phid)
          (exec (ChunkFile.create (base ++ [slash] ++ phid) mode) world).2).2 = host.now world := by
  obtain ⟨known, below⟩ := whole.parents base
  have located : locate base (base ++ [slash] ++ phid) = some (placeOf phid) :=
    locate_below (fun name => whole.isName) whole.nonempty whole.open_
  have creates (mode : UInt32) (fd : Fd) (free : placeOf phid ∉ (host.now world).files)
      (made : (exec (ChunkFile.create (base ++ [slash] ++ phid) mode) world).1 = .ok fd) :
      Added (host.now world) (placeOf phid)
        (host.now (exec (ChunkFile.create (base ++ [slash] ++ phid) mode) world).2) :=
    (host.exec_create rfl located known below free (Prod.ext made rfl)).2
  refine ⟨?_, ?_, ?_⟩
  · intro mode fd free made
    exact ⟨(creates mode fd free made).files, (creates mode fd free made).dirs⟩
  · intro file
    obtain ⟨ends, removed, calls⟩ :=
      host.exec_delfileDirectory rfl whole unlinks directory file
    rw [removed]
    exact ⟨ends, without_files _ _, without_dirs file, fun dir => without_not_bare file, calls⟩
  · intro mode fd free made none
    have added := creates mode fd free made
    have same : (exec (ChunkFile.create (base ++ [slash] ++ phid) mode) world).2.dbs = world.dbs :=
      (callsSince_exec (calls_chunk_create _ mode) world).dbs
    obtain ⟨-, removed, -⟩ := host.exec_delfileDirectory (exec_reply _ world) whole
      (same ▸ unlinks) (same ▸ directory) (added.files ▸ Finset.mem_insert_self _ _)
    rw [removed, added.without none]

set_option maxRecDepth 100000 in
/-- A file in directories that are made for it, with slashes in front and doubled. -/
theorem backing_symmetric_nested :
    (TreeHost.serving (str "/b") smallTree).now
        (exec (Medium.delfileDirectory ⟨0, .directory⟩ (str "//u/v//g"))
          (exec (ChunkFile.create (str "/b" ++ [slash] ++ str "//u/v//g") oRdwr) smallHost).2).2 =
      smallTree :=
  (backing_symmetric smallHost (TreeHost.serving (str "/b") smallTree) ⟨0, .directory⟩
    ⟨by decide, by decide, by decide +kernel⟩ (by decide +kernel) (by decide +kernel)).2.2 oRdwr
    ⟨0, str "/b///u/v//g"⟩ (by decide +kernel) (by decide +kernel) (by decide +kernel)

end OfflineFs
