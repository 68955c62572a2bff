import OfflineFs.Files.Operations
import OfflineFs.Run.Start

/-!
# Stored times and the last events

A handle remembers the times of its own last read and write, and a flush stores
them when they exceed the stored ones.  This comes to the same as storing every
time at once, unless a time was set explicitly: back behind what a handle
remembers, or ahead of the clock.
-/

namespace OfflineFs

open OfflineFs.Effect OfflineFs.WriteBack OfflineFs.Transition

/-- Requests after which the stored times can still follow: a file is read and
written at a time no earlier than the last event, and a handle is flushed only
when it remembers no later time than the last event. -/
def FileOp.KeepsTimes (state : Observed) : FileOp → Prop
  | read fh _ _ => state.world.opened fh ≠ none → state.atime ≤ state.world.now
  | write fh _ _ => state.world.opened fh ≠ none → state.mtime ≤ state.world.now
  | flush fh | fsync fh false =>
      ∀ source, state.world.opened fh = some source →
        source.mtime ≤ state.mtime ∧ source.atime ≤ state.atime
  | _ => True

/-- A stored time that follows the actual one, up to what the handles still have
to flush. -/
def World.Merging (world : World) (fileid : UInt64) (attr : Attr) (field : Source → UInt64)
    (actual : UInt64) (dirty : Nat → Bool) : Prop :=
  ∃ stored, world.dbs.attr UInt64 fileid attr = .ok stored ∧
    Merges stored.toNat actual.toNat (world.remembered fileid field) dirty

namespace World.Merging

variable {world after : World} {fileid : UInt64} {attr : Attr} {field : Source → UInt64}
variable {actual : UInt64} {dirty : Nat → Bool} {fh : Nat} {source next : Source}

theorem of_same (merging : world.Merging fileid attr field actual dirty)
    (same : after.dbs.attr UInt64 fileid attr = world.dbs.attr UInt64 fileid attr)
    (remembered : after.remembered fileid field = world.remembered fileid field) :
    after.Merging fileid attr field actual dirty := by
  obtain ⟨stored, present, merges⟩ := merging
  exact ⟨stored, same.trans present, remembered ▸ merges⟩

theorem of_eq (stored : world.dbs.attr UInt64 fileid attr = .ok actual) :
    world.Merging fileid attr field actual dirty :=
  ⟨actual, stored, merges_of_eq rfl⟩

theorem openFile (merging : world.Merging fileid attr field actual dirty)
    (same : after.dbs.attr UInt64 fileid attr = world.dbs.attr UInt64 fileid attr)
    (inTable : fh < maxOpenFiles) (free : world.openFiles fh = none)
    (updated : after.openFiles = Function.update world.openFiles fh (some source))
    (ofFile : source.fileid = fileid) :
    after.Merging fileid attr field actual dirty := by
  obtain ⟨stored, present, merges⟩ := merging
  have notOpened : world.opened fh = none := (World.opened_of_lt inTable).trans free
  refine ⟨stored, same.trans present, ?_⟩
  rw [World.remembered_update_some _ inTable updated ofFile]
  exact merges.opened (World.remembered_of_not_opened notOpened) _

/-- A handle of the file remembers as much as before in this field. -/
theorem kept (merging : world.Merging fileid attr field actual dirty)
    (dbs : after.dbs = world.dbs) (opened : world.opened fh = some source)
    (ofFile : source.fileid = fileid)
    (updated : after.openFiles = Function.update world.openFiles fh (some next))
    (nextOfFile : next.fileid = fileid) (same : field next = field source) :
    after.Merging fileid attr field actual dirty := by
  refine merging.of_same (by rw [dbs]) ?_
  rw [World.remembered_update_some _ (World.opened_lt opened) updated nextOfFile, same,
    ← World.remembered_of_opened opened ofFile, Function.update_eq_self]

/-- A handle of the file remembers the time of an event. -/
theorem used {now : UInt64} (merging : world.Merging fileid attr field actual dirty)
    (dbs : after.dbs = world.dbs) (opened : world.opened fh = some source)
    (ofFile : source.fileid = fileid)
    (updated : after.openFiles = Function.update world.openFiles fh (some next))
    (nextOfFile : next.fileid = fileid) (remembers : field next = now) (late : actual ≤ now) :
    after.Merging fileid attr field now (Function.update dirty fh true) := by
  obtain ⟨stored, present, merges⟩ := merging
  refine ⟨stored, by rw [dbs, present], ?_⟩
  rw [World.remembered_update_some _ (World.opened_lt opened) updated nextOfFile, remembers]
  exact merges.use (World.remembered_of_opened opened ofFile)
    (.inr ⟨UInt64.le_iff_toNat_le.mp late, le_rfl⟩)

theorem released (merging : world.Merging fileid attr field actual dirty)
    (dbs : after.dbs = world.dbs) (inTable : fh < maxOpenFiles)
    (updated : after.openFiles = Function.update world.openFiles fh none)
    (flushed : dirty fh = false) :
    after.Merging fileid attr field actual (Function.update dirty fh false) := by
  obtain ⟨stored, present, merges⟩ := merging
  refine ⟨stored, by rw [dbs, present], ?_⟩
  rw [World.remembered_update_none inTable updated]
  exact merges.closed (.inl flushed)

theorem forget (merging : world.Merging fileid attr field actual dirty)
    (notOpened : world.opened fh = none) :
    world.Merging fileid attr field actual (Function.update dirty fh false) := by
  obtain ⟨stored, present, merges⟩ := merging
  exact ⟨stored, present, merges.forget (World.remembered_of_not_opened notOpened)⟩

end World.Merging

/-- What a run on a file preserves as long as no handle was lost. -/
structure TimeInvariant (fileid : UInt64) (state : Observed) : Prop where
  sized : ∃ size, state.world.dbs.attr UInt64 fileid .size = .ok size
  modified : state.world.Merging fileid .mtime Source.mtime state.mtime state.written
  accessed : state.world.Merging fileid .atime Source.atime state.atime state.wasRead

namespace TimeInvariant

variable {fs : FS} {fileid : UInt64} {state : Observed}

/-- A step that leaves the three attributes and what the handles remember. -/
theorem of_same {attrs : List Attr} {after : World} (inv : TimeInvariant fileid state)
    (same : state.world.dbs.SameExcept fileid attrs after.dbs)
    (other : ∀ attr ∈ attrs, attr ∉ [Attr.size, .mtime, .atime])
    (openFiles : after.openFiles = state.world.openFiles) :
    TimeInvariant fileid { state with world := after } := by
  have unlisted : ∀ attr ∈ [Attr.size, .mtime, .atime], attr ∉ attrs :=
    fun attr member listed => other attr listed member
  obtain ⟨size, sized⟩ := inv.sized
  exact {
    sized := ⟨size, (same.attr (unlisted _ (by simp))).trans sized⟩
    modified := inv.modified.of_same (same.attr (unlisted _ (by simp)))
      (World.remembered_congr openFiles)
    accessed := inv.accessed.of_same (same.attr (unlisted _ (by simp)))
      (World.remembered_congr openFiles) }

theorem alike {after : World} (inv : TimeInvariant fileid state)
    (same : state.world.Alike after) : TimeInvariant fileid { state with world := after } := by
  have unchanged : state.world.dbs.SameExcept fileid [] after.dbs := same.dbs ▸ .refl _
  exact inv.of_same unchanged (by simp) same.openFiles

/-- Opening a file, which adds at most one entry to the table. -/
theorem openFile {flags : UInt32} {asked : Bytes} {after : World}
    (inv : TimeInvariant fileid state)
    (result : OpenResult fs asked fileid flags state.world after) :
    TimeInvariant fileid { state with world := after } := by
  have same := result.dbs.sameExcept
  obtain ⟨size, sized⟩ := inv.sized
  rcases result.openFiles with sameFiles | ⟨fh, source, inTable, free, updated, openedOn⟩
  · exact inv.of_same same (by decide) sameFiles
  · exact {
      sized := ⟨size, (same.attr (by decide)).trans sized⟩
      modified := inv.modified.openFile (same.attr (by decide)) inTable free updated
        openedOn.fileid
      accessed := inv.accessed.openFile (same.attr (by decide)) inTable free updated
        openedOn.fileid }

section Handles

variable {fh : Nat} {source : Source}

/-- Reading the file. -/
theorem read (inv : TimeInvariant fileid state)
    (opened : state.world.opened fh = some source) (ofFile : source.fileid = fileid)
    (late : state.atime ≤ state.world.now) (nbyte offset : UInt64) :
    TimeInvariant fileid { state with
      world := (exec (FS.read fh nbyte offset) state.world).2
      wasRead := Function.update state.wasRead fh true
      atime := state.world.now } := by
  obtain ⟨result, ran⟩ := FS.exec_read opened nbyte offset
  have updated : (exec (FS.read fh nbyte offset) state.world).2.openFiles =
      Function.update state.world.openFiles fh
        (some { source with atime := state.world.now }) := by
    rw [ran]
    rfl
  have dbs : (exec (FS.read fh nbyte offset) state.world).2.dbs = state.world.dbs := by
    rw [ran]
    rfl
  exact {
    sized := dbs ▸ inv.sized
    modified := inv.modified.kept dbs opened ofFile updated ofFile rfl
    accessed := inv.accessed.used dbs opened ofFile updated ofFile rfl late }

/-- Writing to the file. -/
theorem write (inv : TimeInvariant fileid state)
    (opened : state.world.opened fh = some source) (ofFile : source.fileid = fileid)
    (late : state.mtime ≤ state.world.now) (buf : Bytes) (offset : UInt64) :
    TimeInvariant fileid { state with
      world := (exec (FS.write fh buf offset) state.world).2
      written := Function.update state.written fh true
      mtime := state.world.now } := by
  obtain ⟨result, ran⟩ := FS.exec_write opened buf offset
  have updated : (exec (FS.write fh buf offset) state.world).2.openFiles =
      Function.update state.world.openFiles fh (some { source with
        mtime := state.world.now, size := source.grown (UInt64.ofNat buf.length) offset }) := by
    rw [ran]
    rfl
  have dbs : (exec (FS.write fh buf offset) state.world).2.dbs = state.world.dbs := by
    rw [ran]
    rfl
  exact {
    sized := dbs ▸ inv.sized
    modified := inv.modified.used dbs opened ofFile updated ofFile rfl late
    accessed := inv.accessed.kept dbs opened ofFile updated ofFile rfl }

/-- Flushing a handle. -/
theorem flush (inv : TimeInvariant fileid state)
    (opened : state.world.opened fh = some source) (ofFile : source.fileid = fileid)
    (noLater : source.mtime ≤ state.mtime ∧ source.atime ≤ state.atime) :
    (exec source.flush state.world).1 = .ok 0 ∧
    TimeInvariant fileid { state with
      world := (exec source.flush state.world).2
      written := Function.update state.written fh false
      wasRead := Function.update state.wasRead fh false } := by
  obtain ⟨size, sized⟩ := inv.sized
  obtain ⟨modified, modifiedAt, mergesModified⟩ := inv.modified
  obtain ⟨accessed, accessedAt, mergesAccessed⟩ := inv.accessed
  subst ofFile
  have ran := Source.exec_flush_times sized accessedAt modifiedAt
  have flushModified := mergesModified.flush (World.remembered_of_opened opened rfl)
    (UInt64.le_iff_toNat_le.mp noLater.1)
  have flushAccessed := mergesAccessed.flush (World.remembered_of_opened opened rfl)
    (UInt64.le_iff_toNat_le.mp noLater.2)
  rw [← toNat_larger] at flushModified flushAccessed
  have storedSize : (state.world.dbs.raised source.fileid .size size source.size).attr UInt64
      source.fileid .size = .ok (larger size source.size) :=
    Dbs.attr_raised_self _ sized
  have accessedNow := Dbs.attr_raised_self source.atime
    ((Dbs.attr_raised_of_ne (.inr (by decide : Attr.size ≠ .atime))).trans accessedAt
      : (state.world.dbs.raised source.fileid .size size source.size).attr UInt64 source.fileid
        .atime = .ok accessed)
  have modifiedStill : ((state.world.dbs.raised source.fileid .size size source.size).raised
      source.fileid .atime accessed source.atime).attr UInt64 source.fileid .mtime =
        .ok modified :=
    (Dbs.attr_raised_of_ne (.inr (by decide))).trans
      ((Dbs.attr_raised_of_ne (.inr (by decide))).trans modifiedAt)
  have modifiedNow := Dbs.attr_raised_self source.mtime modifiedStill
  rw [ran]
  exact ⟨rfl, {
    sized := ⟨_, (Dbs.attr_raised_of_ne (.inr (by decide))).trans
      ((Dbs.attr_raised_of_ne (.inr (by decide))).trans storedSize)⟩
    modified := ⟨_, modifiedNow, flushModified⟩
    accessed := ⟨_, (Dbs.attr_raised_of_ne (.inr (by decide))).trans accessedNow, flushAccessed⟩ }⟩

/-- Releasing a handle that was flushed. -/
theorem release (inv : TimeInvariant fileid state)
    (opened : state.world.opened fh = some source) (flushed : state.written fh = false)
    (readFlushed : state.wasRead fh = false) :
    TimeInvariant fileid { state with
      world := (exec (FS.release fh) state.world).2
      written := Function.update state.written fh false
      wasRead := Function.update state.wasRead fh false } := by
  rw [FS.exec_release opened]
  have inTable := World.opened_lt opened
  exact {
    sized := inv.sized
    modified := inv.modified.released rfl inTable rfl flushed
    accessed := inv.accessed.released rfl inTable rfl readFlushed }

theorem forget (inv : TimeInvariant fileid state) (notOpened : state.world.opened fh = none) :
    TimeInvariant fileid { state with
      written := Function.update state.written fh false
      wasRead := Function.update state.wasRead fh false } where
  sized := inv.sized
  modified := inv.modified.forget notOpened
  accessed := inv.accessed.forget notOpened

end Handles

/-- Changing the times of the file. -/
theorem utimens {atime mtime : UInt64} {after : World} (inv : TimeInvariant fileid state)
    (sets : (state.world.withDbs ((state.world.dbs.setattr fileid .atime atime).setattr fileid
      .mtime mtime)).Alike after) :
    TimeInvariant fileid { state with world := after, mtime, atime } := by
  obtain ⟨size, sized⟩ := inv.sized
  have dbs : after.dbs = (state.world.dbs.setattr fileid .atime atime).setattr fileid .mtime
    mtime := sets.dbs
  exact {
    sized := by
      refine ⟨size, ?_⟩
      rw [dbs, Dbs.attr_setattr_of_ne _ (.inr (by decide)),
        Dbs.attr_setattr_of_ne _ (.inr (by decide)), sized]
    modified := .of_eq (by rw [dbs, Dbs.attr_setattr_self])
    accessed := .of_eq (by
      rw [dbs, Dbs.attr_setattr_of_ne _ (.inr (by decide)), Dbs.attr_setattr_self]) }

/-- The stamps of a truncation, before its source is asked for. -/
theorem stampedThen {asked : Bytes} {late : World} (inv : TimeInvariant fileid state)
    (stamped : state.world.StampedThen fs asked fileid late) :
    TimeInvariant fileid { state with world := late, mtime := state.world.now } := by
  obtain ⟨calls, settled⟩ := stamped
  obtain ⟨size, sized⟩ := inv.sized
  have same := settled.sameExcept
  exact {
    sized := by
      refine ⟨size, (same.attr (by decide)).trans ?_⟩
      rw [World.stamped_dbs, Dbs.attr_setattr_of_ne _ (.inr (by decide)), World.stamped_dbs,
        Dbs.attr_setattr_of_ne _ (.inr (by decide)), sized]
    modified := .of_eq ((same.attr (by decide)).trans (by
      rw [World.stamped_dbs, Dbs.attr_setattr_of_ne _ (.inr (by decide)), World.stamped_dbs,
        Dbs.attr_setattr_self]))
    accessed := inv.accessed.of_same ((same.attr (by decide)).trans (by
      rw [World.stamped_dbs, Dbs.attr_setattr_of_ne _ (.inr (by decide)), World.stamped_dbs,
        Dbs.attr_setattr_of_ne _ (.inr (by decide))])) (World.remembered_congr calls.openFiles) }

/-- Truncating the file. -/
theorem truncated {source : Source} {order : ByteOrder} {length : UInt64}
    (inv : TimeInvariant fileid state) (openedOn : source.OpenedOn order state.world.dbs fileid) :
    TimeInvariant fileid { state with
      world := state.world.truncated source length, mtime := state.world.now } := by
  obtain ⟨ofFile, _, _, _, _⟩ := openedOn
  have dbs : (state.world.truncated source length).dbs =
      (state.world.dbs.setattr fileid .mtime state.world.now).setattr fileid .size length := by
    rw [← ofFile]
    rfl
  exact {
    sized := ⟨length, by rw [dbs, Dbs.attr_setattr_self]⟩
    modified := .of_eq (by
      rw [dbs, Dbs.attr_setattr_of_ne _ (.inr (by decide)), Dbs.attr_setattr_self])
    accessed := inv.accessed.of_same (by
      rw [dbs, Dbs.attr_setattr_of_ne _ (.inr (by decide)),
        Dbs.attr_setattr_of_ne _ (.inr (by decide))]) rfl }

/-- A truncation counts from the last time it stored. -/
theorem truncate {asked : Bytes} {length : UInt64} {ctx : Context}
    {result : Outcome Err Int × World} (inv : TimeInvariant fileid state)
    (ran : TruncateResult fs asked fileid length state.world result) :
    TimeInvariant fileid { state with
      world := result.2, mtime := state.nextMtime result (.truncate ctx asked length) } := by
  cases ran with
  | refused code alike =>
      rw [Observed.nextMtime, if_neg code, if_pos alike.ticks]
      exact inv.alike alike
  | @failed outcome base late after code start stamped alike =>
      have ticks : after.ticks = state.world.ticks + 2 := by
        rw [alike.ticks, stamped.calls.ticks, ← start.ticks]
        rfl
      have now : state.world.now = base.now := by
        rw [World.now, World.now, start.clock, start.ticks]
      rw [Observed.nextMtime, if_neg code, if_neg (by simp [ticks]), now]
      exact ((inv.alike start).stampedThen stamped).alike alike
  | @done base late after source start stamped opened alike =>
      have now : state.world.clock (state.world.ticks + 2) = late.now := by
        rw [World.now, stamped.calls.clock, stamped.calls.ticks, ← start.clock, ← start.ticks]
        rfl
      rw [Observed.nextMtime, if_pos rfl, now]
      exact (((inv.alike start).stampedThen stamped).truncated opened).alike alike

end TimeInvariant

/-- The stored times are those of the last events once every handle of the file
has been flushed and none was lost. -/
def Observed.TimesFollow (fileid : UInt64) (state : Observed) : Prop :=
  state.lost = false →
  (∀ fh source, state.world.opened fh = some source → source.fileid = fileid →
    state.written fh = false ∧ state.wasRead fh = false) →
  state.world.dbs.attr UInt64 fileid .mtime = .ok state.mtime ∧
    state.world.dbs.attr UInt64 fileid .atime = .ok state.atime

/-- When all handles are flushed, what is stored is what is true. -/
theorem World.Merging.stored_eq {world : World} {fileid : UInt64} {attr : Attr}
    {field : Source → UInt64} {actual : UInt64} {dirty : Nat → Bool}
    (merging : world.Merging fileid attr field actual dirty)
    (flushed : ∀ fh source, world.opened fh = some source → source.fileid = fileid →
      dirty fh = false) :
    world.dbs.attr UInt64 fileid attr = .ok actual := by
  obtain ⟨stored, present, merges⟩ := merging
  have equal : stored.toNat = actual.toNat := by
    apply merges.stored_eq
    intro fh remembers
    obtain ⟨value, remembered⟩ := Option.ne_none_iff_exists'.mp remembers
    obtain ⟨source, opened, ofFile, _⟩ := World.remembered_eq_some remembered
    exact flushed fh source opened ofFile
  rw [present, UInt64.toNat_inj.mp equal]

theorem TimeInvariant.timesFollow {fileid : UInt64} {state : Observed}
    (inv : state.lost = false → TimeInvariant fileid state) : state.TimesFollow fileid :=
  fun kept flushed =>
    ⟨(inv kept).modified.stored_eq fun fh source opened ofFile =>
      (flushed fh source opened ofFile).1,
    (inv kept).accessed.stored_eq fun fh source opened ofFile =>
      (flushed fh source opened ofFile).2⟩

/-- One request preserves the invariant. -/
theorem TimeInvariant.step {fs : FS} {fileid : UInt64} (sound : fs.pcache.Sound)
    {state : Observed} {op : FileOp} (inv : TimeInvariant fileid state)
    (on : op.On fs fileid state.world) (keeps : op.KeepsTimes state)
    (kept : (state.step fs op).lost = false) : TimeInvariant fileid (state.step fs op) := by
  cases op with
  | openFile ctx asked flags =>
      have opens := inv.openFile (exec_openFile sound ctx flags on)
      simp only [Observed.step, FileOp.prog, exec_map_snd]
      exact opens
  | read fh nbyte offset =>
      simp only [Observed.step, FileOp.prog, exec_map_snd, Observed.nextRead, Observed.nextAtime]
      cases opened : state.world.opened fh with
      | none =>
          rw [(FS.exec_not_opened opened nbyte offset [] false).1]
          exact { inv.forget opened with modified := inv.modified }
      | some source =>
          exact inv.read opened (on source opened) (keeps (by simp [opened])) nbyte offset
  | write fh buf offset =>
      simp only [Observed.step, FileOp.prog, Observed.nextWritten, Observed.nextMtime]
      cases opened : state.world.opened fh with
      | none =>
          rw [(FS.exec_not_opened opened 0 offset buf false).2.1]
          exact { inv.forget opened with accessed := inv.accessed }
      | some source =>
          exact inv.write opened (on source opened) (keeps (by simp [opened])) buf offset
  | flush fh =>
      simp only [Observed.step, FileOp.prog, Observed.nextWritten, Observed.nextRead]
      cases opened : state.world.opened fh with
      | none =>
          rw [(FS.exec_not_opened opened 0 0 [] false).2.2.1]
          exact inv.forget opened
      | some source =>
          rw [FS.exec_flush opened]
          exact (inv.flush opened (on source opened) (keeps source opened)).2
  | fsync fh datasync =>
      cases opened : state.world.opened fh with
      | none =>
          simp only [Observed.step, FileOp.prog]
          rw [(FS.exec_not_opened opened 0 0 [] datasync).2.2.2.2]
          cases datasync with
          | true => exact inv
          | false => exact inv.forget opened
      | some source =>
          cases datasync with
          | true =>
              obtain ⟨result, ran⟩ := FS.exec_fsync_data opened
              simp only [Observed.step, FileOp.prog, ran]
              exact ⟨inv.sized, inv.modified, inv.accessed⟩
          | false =>
              obtain ⟨result, ran⟩ := FS.exec_fsync_all opened
              have flushed := (inv.flush opened (on source opened) (keeps source opened)).2
              simp only [Observed.step, FileOp.prog, ran]
              rcases flushes : exec source.flush state.world with ⟨outcome, after⟩
              rw [flushes] at flushed
              cases outcome <;> exact ⟨flushed.sized, flushed.modified, flushed.accessed⟩
  | release fh =>
      simp only [Observed.step, Observed.nextLost, Bool.or_eq_false_iff] at kept
      simp only [Observed.step, FileOp.prog, Observed.nextWritten, Observed.nextRead]
      cases opened : state.world.opened fh with
      | none =>
          rw [(FS.exec_not_opened opened 0 0 [] false).2.2.2.1]
          exact { inv.forget opened with }
      | some source => exact { inv.release opened kept.1.2 kept.2 with }
  | truncate ctx asked length => exact inv.truncate (exec_truncate sound ctx length on)
  | utimens ctx asked atime mtime =>
      obtain ⟨outcome, after, ran, result⟩ := exec_utimens sound ctx atime mtime on
      simp only [Observed.step, FileOp.prog, ran, Observed.nextMtime, Observed.nextAtime]
      rcases result with ⟨code, alike⟩ | ⟨code, sets⟩
      · rw [if_neg code, if_neg code]
        exact inv.alike alike
      · rw [if_pos code, if_pos code]
        exact inv.utimens sets

theorem Observed.lost_of_step {fs : FS} {state : Observed} {op : FileOp}
    (kept : (state.step fs op).lost = false) : state.lost = false := by
  cases op with
  | release fh =>
      simp only [Observed.step, Observed.nextLost, Bool.or_eq_false_iff] at kept
      exact kept.1.1
  | _ => exact kept

/-- A file with its times, and no handle. -/
structure TimedFile (fileid : UInt64) (world : World) (mtime atime : UInt64) : Prop where
  closed : ∀ fh source, world.opened fh = some source → source.fileid ≠ fileid
  sized : ∃ size, world.dbs.attr UInt64 fileid .size = .ok size
  modified : world.dbs.attr UInt64 fileid .mtime = .ok mtime
  accessed : world.dbs.attr UInt64 fileid .atime = .ok atime

/-- The times that flushes merge are those of a write-through implementation in
every run that sets no time back behind a handle or ahead of the clock. -/
theorem times_follow {fs : FS} {fileid : UInt64} {world : World} {mtime atime : UInt64}
    {state : Observed} (sound : fs.pcache.Sound) (file : TimedFile fileid world mtime atime)
    (reached : Reaches (Observed.step fs)
      (fun state op => op.On fs fileid state.world ∧ op.KeepsTimes state)
      (.start world mtime atime) state) :
    state.TimesFollow fileid := by
  have kept : state.lost = false → TimeInvariant fileid state := by
    induction reached with
    | start => exact fun _ => ⟨file.sized, .of_eq file.modified, .of_eq file.accessed⟩
    | step op _ met ih =>
        intro kept
        exact (ih (Observed.lost_of_step kept)).step sound met.1 met.2 kept
  exact TimeInvariant.timesFollow kept

/-! ## A run on a small file -/

/-- The times of the small file are set to 50; it is written at time 100, and the
handle is flushed. -/
def timedFlush : List FileOp :=
  [.openFile rootContext (str "/f") oRdwr, .utimens rootContext (str "/f") 50 50,
    .write 0 (str "0123456789") 0, .flush 0]

/-- After the flush. -/
def afterTimedFlush : Observed :=
  timedFlush.foldl (Observed.step mounted) (.start smallFile 100 100)

/-- The small file is written at time 100. -/
def timedWrites : List FileOp :=
  [.openFile rootContext (str "/f") oRdwr, .write 0 (str "0123456789") 0]

/-- Its times are set to 50, and the handle is flushed. -/
def timedChange : List FileOp :=
  [.utimens rootContext (str "/f") 50 50, .flush 0]

/-- After the write. -/
def afterTimedWrites : Observed :=
  timedWrites.foldl (Observed.step mounted) (.start smallFile 100 100)

/-- After the explicit change of the times. -/
def afterTimedChange : Observed :=
  timedChange.foldl (Observed.step mounted) afterTimedWrites

set_option maxRecDepth 100000 in
theorem timedFile_smallFile : TimedFile 1 smallFile 100 100 where
  closed fh source opened := by simp [smallFile_opened] at opened
  sized := ⟨0, by decide +kernel⟩
  modified := by decide +kernel
  accessed := by decide +kernel

set_option maxRecDepth 100000 in
theorem timedWrites_meets :
    Meets (Observed.step mounted)
      (fun state op => op.On mounted 1 state.world ∧ op.KeepsTimes state)
      (.start smallFile 100 100) timedWrites := by
  refine .cons ⟨smallFile_leads, trivial⟩ (.cons ⟨?_, ?_⟩ (.nil _))
  · exact fun source => World.field_of_opened (by decide +kernel)
  · exact fun _ => (by decide +kernel : (_ : UInt64) ≤ _)

set_option maxRecDepth 100000 in
/-- The operations of this run keep the times. -/
theorem timedFlush_meets :
    Meets (Observed.step mounted)
      (fun state op => op.On mounted 1 state.world ∧ op.KeepsTimes state)
      (.start smallFile 100 100) timedFlush := by
  refine .cons ⟨smallFile_leads, trivial⟩ (.cons ⟨?_, trivial⟩ (.cons ⟨?_, ?_⟩
    (.cons ⟨?_, ?_⟩ (.nil _))))
  · exact PathCache.leadsTo_of_found (n := ⟨1, .file⟩) rfl (by decide +kernel)
  · exact fun source => World.field_of_opened (by decide +kernel)
  · exact fun _ => (by decide +kernel : (_ : UInt64) ≤ _)
  · exact fun source => World.field_of_opened (by decide +kernel)
  · intro source opened
    have modified : source.mtime = 100 := World.field_of_opened (by decide +kernel) opened
    have accessed : source.atime = 0 := World.field_of_opened (by decide +kernel) opened
    rw [modified, accessed]
    exact ⟨by decide +kernel, by decide +kernel⟩

theorem afterTimedFlush_flushed (fh : Nat) :
    afterTimedFlush.written fh = false ∧ afterTimedFlush.wasRead fh = false := by
  by_cases zero : fh = 0
  · subst zero
    exact ⟨rfl, rfl⟩
  · simp only [afterTimedFlush, timedFlush, List.foldl, Observed.step_written,
      Observed.nextWritten, Observed.step_wasRead, Observed.nextRead,
      Function.update_of_ne zero, Observed.start, and_self]

/-- The flush stores the time of the write, and leaves the access time that was set. -/
theorem times_follow_timedFlush :
    afterTimedFlush.world.dbs.attr UInt64 1 .mtime = .ok afterTimedFlush.mtime ∧
      afterTimedFlush.world.dbs.attr UInt64 1 .atime = .ok afterTimedFlush.atime :=
  times_follow PathCache_hash.sound timedFile_smallFile timedFlush_meets.reaches rfl
    fun fh _ _ _ => afterTimedFlush_flushed fh

set_option maxRecDepth 100000 in
theorem timedChange_meets :
    Meets (Observed.step mounted) (fun state op => op.On mounted 1 state.world)
      afterTimedWrites timedChange := by
  refine .cons ?_ (.cons ?_ (.nil _))
  · exact PathCache.leadsTo_of_found (n := ⟨1, .file⟩) rfl (by decide +kernel)
  · exact fun source => World.field_of_opened (by decide +kernel)

theorem afterTimedChange_reached :
    Reaches (Observed.step mounted) (fun state op => op.On mounted 1 state.world)
      (.start smallFile 100 100) afterTimedChange :=
  (timedWrites_meets.reaches.mono fun _ _ met => met.1).foldl timedChange_meets

theorem afterTimedChange_flushed (fh : Nat) :
    afterTimedChange.written fh = false ∧ afterTimedChange.wasRead fh = false := by
  by_cases zero : fh = 0
  · subst zero
    exact ⟨rfl, rfl⟩
  · simp only [afterTimedChange, afterTimedWrites, timedChange, timedWrites, List.foldl,
      Observed.step_written, Observed.nextWritten, Observed.step_wasRead, Observed.nextRead,
      Function.update_of_ne zero, Observed.start, and_self]

set_option maxRecDepth 100000 in
theorem afterTimedChange_mtime : afterTimedChange.world.dbs.attr UInt64 1 .mtime = .ok 100 := by
  decide +kernel

set_option maxRecDepth 100000 in
theorem afterTimedChange_last : afterTimedChange.mtime = 50 := by
  decide +kernel

/-- A modification time set back behind the last write comes undone when the
handle that wrote is flushed. -/
theorem utimens_undone :
    TimedFile 1 smallFile 100 100 ∧
      (∀ early late, early ≤ late → smallFile.clock early ≤ smallFile.clock late) ∧
      Reaches (Observed.step mounted) (fun state op => op.On mounted 1 state.world)
        (.start smallFile 100 100) afterTimedChange ∧
      ¬ afterTimedChange.TimesFollow 1 := by
  refine ⟨timedFile_smallFile, fun _ _ _ => by simp [smallFile_clock],
    afterTimedChange_reached, ?_⟩
  intro follows
  have modified := (follows rfl fun fh _ _ _ => afterTimedChange_flushed fh).1
  have isHundred := Except.ok.inj (modified.symm.trans afterTimedChange_mtime)
  rw [afterTimedChange_last] at isHundred
  exact absurd isHundred (by decide)

end OfflineFs
