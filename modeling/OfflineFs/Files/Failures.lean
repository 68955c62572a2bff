import OfflineFs.Files.Sizes

/-!
# Backends that fail

A write stores its end as the size of the handle before the backend is asked,
and every failure comes back as `-1`.  A truncation stores the new size before
the backend is asked, and returns 0 whatever the answer is.  So a failure is
reported, and leaves the sizes right, only when it is no more than a refusal
with the error number 1 of a write inside the file.
-/

namespace OfflineFs

open OfflineFs.Effect OfflineFs.WriteBack OfflineFs.Transition

/-- No handle of a file remembers more than a length. -/
def World.Within (world : World) (fileid : UInt64) (limit : Nat) : Prop :=
  ∀ fh source, world.opened fh = some source → source.fileid = fileid →
    source.size.toNat ≤ limit

/-- Requests beside which no handle loses what it remembers: the file is not cut
below the size that an open handle remembers, not cut by opening it, and a handle
is released only when that loses nothing. -/
def FileOp.Undisturbed (path : Bytes) (base : Nat) (fileid : UInt64) (state : Observed) :
    FileOp → Prop
  | openFile _ _ flags =>
      flags &&& oTrunc = 0 ∨ backendLength path base state.world.events = 0
  | truncate _ _ length => state.world.Within fileid length.toNat
  | release fh =>
      state.written fh = false ∨ ∀ source size, state.world.opened fh = some source →
        state.world.dbs.attr UInt64 fileid .size = .ok size → source.size ≤ size
  | _ => True

/-- Requests of a run on one file. -/
def FileOp.Alone (fs : FS) (path : Bytes) (base : Nat) (fileid : UInt64) (state : Observed)
    (op : FileOp) : Prop :=
  op.On fs fileid state.world ∧ op.Undisturbed path base fileid state

/-- Requests whose backend failures do no harm: the length is what was asked for,
and a write fails with the error number 1 only. -/
def FileOp.Spared (fs : FS) (path : Bytes) (base : Nat) (state : Observed) (op : FileOp) : Prop :=
  op.Obeyed fs path base state ∧
    ∀ fh buf offset source e, op = .write fh buf offset → state.world.opened fh = some source →
      (state.world.answer (.pwrite source.chunk buf offset)).errno = some e → e = ePerm

/-- System calls that write to a file or cut it. -/
def SysCall.Changes : SysCall → Prop
  | .pwrite _ _ _ | .ftruncate _ _ => True
  | _ => False

/-- A request returns the negated error number of every write or truncation that
the backend failed. -/
def FileOp.Reports (fs : FS) (world : World) (op : FileOp) : Prop :=
  ∀ event e, world.Made (exec (op.prog fs) world).2 event → event.call.Changes →
    event.result.errno = some e → (exec (op.prog fs) world).1 = .ok (-e)

section Made

variable {before after : World} {event : SysEvent}

theorem World.Made.mem {made : List SysEvent} (isMade : before.Made after event)
    (madeEq : after.events = made ++ before.events) : event ∈ made := by
  obtain ⟨other, otherEq, member⟩ := isMade
  rw [madeEq] at otherEq
  rwa [List.append_cancel_right otherEq]

/-- There is one system call that was made. -/
theorem World.Made.eq_of_single {last : SysEvent} (isMade : before.Made after event)
    (single : after.events = last :: before.events) : event = last := by
  have member : event ∈ [last] := isMade.mem single
  exact List.mem_singleton.mp member

theorem World.not_made_of_eq (same : after.events = before.events) : ¬ before.Made after event := by
  intro isMade
  have member : event ∈ [] := isMade.mem same
  contradiction

theorem Opens.not_changes {flags : UInt32} {call : SysCall} (opens : Opens flags call) :
    ¬ call.Changes := by
  cases call with
  | pwrite | ftruncate => exact opens.elim
  | _ => exact id

end Made

/-! ## What the handles remember -/

namespace World.Within

variable {world after : World} {fileid : UInt64} {limit length : Nat} {fh : Nat}

theorem mono (within : world.Within fileid limit) (same : after.openFiles = world.openFiles)
    (le : limit ≤ length) : after.Within fileid length := by
  intro fh source opened ofFile
  rw [World.opened_congr same] at opened
  exact (within fh source opened ofFile).trans le

/-- What a handle remembers stays within the limit. -/
theorem update {slot : Option Source} (within : world.Within fileid limit)
    (inTable : fh < maxOpenFiles)
    (updated : after.openFiles = Function.update world.openFiles fh slot)
    (fits : ∀ next, slot = some next → next.size.toNat ≤ length) (le : limit ≤ length) :
    after.Within fileid length := by
  intro handle source opened ofFile
  rw [World.opened_update inTable updated] at opened
  by_cases same : handle = fh
  · subst handle
    rw [Function.update_self] at opened
    exact fits source opened
  · rw [Function.update_of_ne same] at opened
    exact (within handle source opened ofFile).trans le

end World.Within

/-- A handle that remembers no more than the backend file has can be flushed. -/
theorem FileOp.Undisturbed.keepsSize {fs : FS} {path : Bytes} {base : Nat} {fileid : UInt64}
    {state : Observed} {op : FileOp} (undisturbed : op.Undisturbed path base fileid state)
    (on : op.On fs fileid state.world)
    (within : state.world.Within fileid (backendLength path base state.world.events)) :
    op.KeepsSize path base fileid state := by
  cases op with
  | openFile | release => exact undisturbed
  | flush fh =>
      intro source opened
      exact within fh source opened (on source opened)
  | fsync fh datasync =>
      cases datasync with
      | true => trivial
      | false =>
          intro source opened
          exact within fh source opened (on source opened)
  | _ => trivial

namespace SizeInvariant

variable {fs : FS} {path : Bytes} {base : Nat} {fileid : UInt64} {mediumid : UInt32}
variable {phid : Bytes} {world after : World} {written : Nat → Bool}

/-- Opening a file without truncating it keeps what is remembered within its length. -/
theorem within_openFile {flags : UInt32} {asked : Bytes}
    (inv : SizeInvariant path base fileid mediumid phid world written)
    (within : world.Within fileid (backendLength path base world.events))
    (keeps : flags &&& oTrunc = 0 ∨ backendLength path base world.events = 0)
    (result : OpenResult fs asked fileid flags world after) :
    after.Within fileid (backendLength path base after.events) := by
  obtain ⟨size, sized, merges⟩ := inv.merges
  obtain ⟨made, madeEq, opens⟩ := result.events
  rw [madeEq, backendLength_opens opens keeps]
  rcases result.openFiles with sameFiles | ⟨fh, source, inTable, _, updated, openedOn⟩
  · exact within.mono sameFiles le_rfl
  · apply within.update inTable updated _ le_rfl
    rintro _ ⟨⟩
    have sameDbs := result.dbs.eq_of_associated inv.associated sized
    have known : source.size = size := by
      have stored := openedOn.size
      rw [sameDbs, sized] at stored
      exact (Except.ok.inj stored).symm
    rw [known]
    exact merges.stored_le

/-- Truncating a file keeps what is remembered within its length. -/
theorem within_truncate {asked : Bytes} {length : UInt64} {result : Outcome Err Int × World}
    (inv : SizeInvariant path base fileid mediumid phid world written)
    (within : world.Within fileid (backendLength path base world.events))
    (covers : world.Within fileid length.toNat)
    (ran : TruncateResult fs asked fileid length world result)
    (succeeds : ∀ events fd, world.Made result.2 ⟨.ftruncate fd length,
      world.reply events (.ftruncate fd length)⟩ →
        (world.reply events (.ftruncate fd length)).errno = none) :
    result.2.Within fileid (backendLength path base result.2.events) := by
  cases ran with
  | refused _ alike =>
      have sameEvents : _ = world.events := alike.events
      rw [sameEvents]
      exact within.mono alike.openFiles le_rfl
  | failed _ start stamped alike =>
      have lateEvents : _ = _ := alike.events
      have startEvents : _ = world.events := start.events
      rw [lateEvents, backendLength_stampedThen stamped, startEvents]
      exact within.mono
        (alike.openFiles.trans (stamped.calls.openFiles.trans start.openFiles)) le_rfl
  | @done _ late _ source start stamped opened alike =>
      have lateEvents : _ = _ := alike.events
      have sameReply : late.reply = world.reply := stamped.calls.reply.trans start.reply
      have answered : (late.answer (.ftruncate source.chunk length)).errno = none := by
        rw [World.answer, sameReply]
        obtain ⟨closed, made, _, madeEq⟩ := stamped.truncated_events start alike
        exact succeeds _ _ ⟨_, madeEq, by simp⟩
      have sameOrder : late.order = world.order := stamped.calls.order.trans start.order
      rw [← sameOrder] at opened
      have openedThen := ((inv.alike start).stampedThen stamped).atPath opened
      rw [lateEvents, backendLength_truncated openedThen answered]
      exact covers.mono
        (alike.openFiles.trans (stamped.calls.openFiles.trans start.openFiles)) le_rfl

theorem within_flush {source : Source}
    (inv : SizeInvariant path base fileid mediumid phid world written)
    (within : world.Within fileid (backendLength path base world.events))
    (ofFile : source.fileid = fileid) :
    (exec source.flush world).2.Within fileid
      (backendLength path base (exec source.flush world).2.events) := by
  obtain ⟨size, sized, -⟩ := inv.merges
  subst ofFile
  obtain ⟨outcome, after, ran, alike, -⟩ := Source.exec_flush_size sized
  have sameEvents : after.events = world.events := alike.events
  rw [ran, sameEvents]
  exact within.mono alike.openFiles le_rfl

/-- Handles go on remembering no more than the backend file has. -/
theorem within_step {state : Observed} {op : FileOp} (sound : fs.pcache.Sound)
    (inv : SizeInvariant path base fileid mediumid phid state.world state.written)
    (within : state.world.Within fileid (backendLength path base state.world.events))
    (on : op.On fs fileid state.world) (obeyed : op.Obeyed fs path base state)
    (undisturbed : op.Undisturbed path base fileid state) :
    (state.step fs op).world.Within fileid
      (backendLength path base (state.step fs op).world.events) := by
  cases op with
  | openFile ctx asked flags =>
      simp only [Observed.step, FileOp.prog, exec_map_snd]
      exact inv.within_openFile within undisturbed (exec_openFile sound ctx flags on)
  | read fh nbyte offset =>
      simp only [Observed.step, FileOp.prog, exec_map_snd]
      cases opened : state.world.opened fh with
      | none =>
          rw [(FS.exec_not_opened opened nbyte offset [] false).1]
          exact within
      | some source =>
          obtain ⟨result, ran⟩ := FS.exec_read opened nbyte offset
          rw [ran, World.withSlot_events, backendLength_called id]
          apply within.update (World.opened_lt opened) rfl _ le_rfl
          rintro _ ⟨⟩
          exact within fh source opened (on source opened)
  | write fh buf offset =>
      simp only [Observed.step, FileOp.prog]
      cases opened : state.world.opened fh with
      | none =>
          rw [(FS.exec_not_opened opened 0 offset buf false).2.1]
          exact within
      | some source =>
          obtain ⟨result, ran⟩ := FS.exec_write opened buf offset
          obtain ⟨inRange, extended⟩ := obeyed source opened
          have sameLength : backendLength path base
              (state.world.tick.called (.pwrite source.chunk buf offset)).events =
                max (backendLength path base state.world.events) (offset.toNat + buf.length) :=
            extended
          rw [ran, World.withSlot_events, sameLength]
          apply within.update (World.opened_lt opened) rfl _ (le_max_left _ _)
          rintro _ ⟨⟩
          rw [toNat_grown_length source inRange]
          exact max_le_max_right _ (within fh source opened (on source opened))
  | flush fh =>
      simp only [Observed.step, FileOp.prog]
      cases opened : state.world.opened fh with
      | none =>
          rw [(FS.exec_not_opened opened 0 0 [] false).2.2.1]
          exact within
      | some source =>
          rw [FS.exec_flush opened]
          exact inv.within_flush within (on source opened)
  | fsync fh datasync =>
      simp only [Observed.step, FileOp.prog]
      cases opened : state.world.opened fh with
      | none =>
          rw [(FS.exec_not_opened opened 0 0 [] datasync).2.2.2.2]
          exact within
      | some source =>
          cases datasync with
          | true =>
              obtain ⟨result, ran⟩ := FS.exec_fsync_data opened
              rw [ran, backendLength_called id]
              exact within.mono rfl le_rfl
          | false =>
              obtain ⟨result, ran⟩ := FS.exec_fsync_all opened
              have flushed := inv.within_flush within (on source opened)
              rw [ran]
              rcases flushes : exec source.flush state.world with ⟨outcome, after⟩
              rw [flushes] at flushed
              cases outcome with
              | ok =>
                  rw [Outcome.andThen_ok, backendLength_called id]
                  exact flushed.mono rfl le_rfl
              | error => exact flushed
              | fault => exact flushed
  | release fh =>
      simp only [Observed.step, FileOp.prog]
      cases opened : state.world.opened fh with
      | none =>
          rw [(FS.exec_not_opened opened 0 0 [] false).2.2.2.1]
          exact within
      | some source =>
          rw [FS.exec_release opened, World.withSlot_events, backendLength_called id]
          apply within.update (World.opened_lt opened) rfl _ le_rfl
          rintro _ ⟨⟩
  | truncate ctx asked length =>
      exact inv.within_truncate within undisturbed (exec_truncate sound ctx length on) obeyed
  | utimens ctx asked atime mtime =>
      obtain ⟨outcome, after, ran, result⟩ := exec_utimens sound ctx atime mtime on
      simp only [Observed.step, FileOp.prog, ran]
      rcases result with ⟨_, alike⟩ | ⟨_, alike⟩
      · have sameEvents : after.events = state.world.events := alike.events
        rw [sameEvents]
        exact within.mono alike.openFiles le_rfl
      · have sameEvents : after.events = state.world.events := alike.events
        rw [sameEvents]
        exact within.mono alike.openFiles le_rfl

end SizeInvariant

/-! ## Reports -/

theorem FS.exec_write_failed {fh : Nat} {source : Source} {world : World} {buf : Bytes}
    {offset : UInt64} {e : Int} (opened : world.opened fh = some source)
    (fails : (world.answer (.pwrite source.chunk buf offset)).errno = some e) :
    (exec (FS.write fh buf offset) world).1 = .ok (-1) := by
  replace fails : (world.tick.answer (.pwrite source.chunk buf offset)).errno = some e := fails
  simp only [write, exec_bind, exec_handle, opened, Outcome.andThen_ok, Source.write,
    exec_perform, fsHandler, ChunkFile.write, sys, fails, exec_pure]

/-- A request that the backend carries out as far as the length goes reports what
the backend failed, when that is the error number 1. -/
theorem FileOp.reports {fs : FS} {path : Bytes} {base : Nat} {fileid : UInt64}
    {state : Observed} {op : FileOp} (sound : fs.pcache.Sound) (on : op.On fs fileid state.world)
    (sized : ∃ size, state.world.dbs.attr UInt64 fileid .size = .ok size)
    (spared : op.Spared fs path base state) : op.Reports fs state.world := by
  intro event e isMade changes fails
  obtain ⟨obeyed, permitted⟩ := spared
  have flushEvents : ∀ fh source, state.world.opened fh = some source → source.fileid = fileid →
      (exec source.flush state.world).2.events = state.world.events := by
    rintro fh source opened rfl
    obtain ⟨size, sized⟩ := sized
    obtain ⟨outcome, after, flushes, alike, -⟩ := Source.exec_flush_size sized
    rw [flushes]
    exact alike.events
  cases op with
  | openFile ctx asked flags =>
      rw [FileOp.prog, exec_map_snd] at isMade
      obtain ⟨made, madeEq, opens⟩ := (exec_openFile sound ctx flags on).events
      exact absurd changes (opens event (isMade.mem madeEq)).not_changes
  | read fh nbyte offset =>
      rw [FileOp.prog, exec_map_snd] at isMade
      cases opened : state.world.opened fh with
      | none =>
          rw [(FS.exec_not_opened opened nbyte offset [] false).1] at isMade
          exact absurd isMade (World.not_made_of_eq rfl)
      | some source =>
          obtain ⟨result, ran⟩ := FS.exec_read opened nbyte offset
          rw [ran] at isMade
          obtain rfl := isMade.eq_of_single rfl
          exact changes.elim
  | write fh buf offset =>
      cases opened : state.world.opened fh with
      | none =>
          rw [FileOp.prog, (FS.exec_not_opened opened 0 offset buf false).2.1] at isMade
          exact absurd isMade (World.not_made_of_eq rfl)
      | some source =>
          obtain ⟨result, ran⟩ := FS.exec_write opened buf offset
          rw [FileOp.prog, ran] at isMade
          obtain rfl := isMade.eq_of_single rfl
          rw [permitted fh buf offset source e rfl opened fails]
          exact FS.exec_write_failed opened fails
  | flush fh =>
      rw [FileOp.prog] at isMade
      cases opened : state.world.opened fh with
      | none =>
          rw [(FS.exec_not_opened opened 0 0 [] false).2.2.1] at isMade
          exact absurd isMade (World.not_made_of_eq rfl)
      | some source =>
          rw [FS.exec_flush opened] at isMade
          exact absurd isMade
            (World.not_made_of_eq (flushEvents fh source opened (on source opened)))
  | fsync fh datasync =>
      rw [FileOp.prog] at isMade
      cases opened : state.world.opened fh with
      | none =>
          rw [(FS.exec_not_opened opened 0 0 [] datasync).2.2.2.2] at isMade
          exact absurd isMade (World.not_made_of_eq rfl)
      | some source =>
          cases datasync with
          | true =>
              obtain ⟨result, ran⟩ := FS.exec_fsync_data opened
              rw [ran] at isMade
              obtain rfl := isMade.eq_of_single rfl
              exact changes.elim
          | false =>
              obtain ⟨result, ran⟩ := FS.exec_fsync_all opened
              have sameEvents := flushEvents fh source opened (on source opened)
              rw [ran] at isMade
              rcases flushes : exec source.flush state.world with ⟨outcome, after⟩
              rw [flushes] at isMade sameEvents
              cases outcome with
              | ok =>
                  obtain rfl := isMade.eq_of_single (congrArg (List.cons _) sameEvents)
                  exact changes.elim
              | error => exact absurd isMade (World.not_made_of_eq sameEvents)
              | fault => exact absurd isMade (World.not_made_of_eq sameEvents)
  | release fh =>
      rw [FileOp.prog] at isMade
      cases opened : state.world.opened fh with
      | none =>
          rw [(FS.exec_not_opened opened 0 0 [] false).2.2.2.1] at isMade
          exact absurd isMade (World.not_made_of_eq rfl)
      | some source =>
          rw [FS.exec_release opened] at isMade
          obtain rfl := isMade.eq_of_single rfl
          exact changes.elim
  | truncate ctx asked length =>
      have ran := exec_truncate sound ctx length on
      rw [FileOp.prog] at isMade ⊢
      simp only [FileOp.Obeyed] at obeyed
      generalize exec (fs.truncate ctx asked length) state.world = result at *
      cases ran with
      | refused _ alike => exact absurd isMade (World.not_made_of_eq alike.events)
      | @failed _ base late after _ start stamped alike =>
          obtain ⟨made, madeEq, opens⟩ := stamped.calls.events
          have sameEvents : base.events = state.world.events := start.events
          have afterEq : after.events = made ++ state.world.events :=
            sameEvents ▸ alike.events.trans madeEq
          exact absurd changes (opens event (isMade.mem afterEq)).not_changes
      | @done _ late _ source start stamped opened alike =>
          obtain ⟨closed, made, opens, madeEq⟩ := stamped.truncated_events start alike
          have answered := obeyed late.events source.chunk ⟨_, madeEq, by simp⟩
          have member := isMade.mem madeEq
          rw [List.mem_append, List.mem_cons, List.mem_singleton] at member
          rcases member with (rfl | rfl) | member
          · exact changes.elim
          · rw [answered] at fails
            contradiction
          · exact absurd changes (opens event member).not_changes
  | utimens ctx asked atime mtime =>
      obtain ⟨outcome, after, ran, result⟩ := exec_utimens sound ctx atime mtime on
      rw [FileOp.prog, ran] at isMade
      rcases result with ⟨_, alike⟩ | ⟨_, alike⟩
      · exact absurd isMade (World.not_made_of_eq alike.events)
      · exact absurd isMade (World.not_made_of_eq alike.events)

/-! ## Runs -/

/-- A file with a backend file of the stored size, and no handle. -/
structure BackedFile (path : Bytes) (base : Nat) (fileid : UInt64) (world : World) : Prop where
  backed : ∃ mediumid phid, world.dbs.Associated world.order fileid mediumid phid ∧
    world.dbs.backing mediumid phid = some path
  closed : ∀ fh source, world.opened fh = some source → source.fileid ≠ fileid
  sized : ∃ size, world.dbs.attr UInt64 fileid .size = .ok size ∧
    size.toNat = backendLength path base world.events

/-- In a run beside which no handle loses what it remembers, and in which every
backend failure is harmless, the stored size stays right and every failure is
reported. -/
theorem failures_reported {fs : FS} {path : Bytes} {base : Nat} {fileid : UInt64} {world : World}
    {mtime atime : UInt64} {state : Observed} (sound : fs.pcache.Sound)
    (file : BackedFile path base fileid world)
    (reached : Reaches (Observed.step fs)
      (fun state op => op.Alone fs path base fileid state ∧ op.Spared fs path base state)
      (.start world mtime atime) state) :
    state.SizeFollows path base fileid ∧
      ∀ op : FileOp, op.On fs fileid state.world → op.Spared fs path base state →
        op.Reports fs state.world := by
  obtain ⟨mediumid, phid, associated, backed⟩ := file.backed
  obtain ⟨size, sized, right⟩ := file.sized
  have initial : SizeInvariant path base fileid mediumid phid
      (Observed.start world mtime atime).world (Observed.start world mtime atime).written := {
    associated, backed
    chunks := fun fh source opened ofFile => absurd ofFile (file.closed fh source opened)
    merges := ⟨size, sized, merges_of_eq right⟩ }
  have kept : SizeInvariant path base fileid mediumid phid state.world state.written ∧
      state.world.Within fileid (backendLength path base state.world.events) := by
    induction reached with
    | start =>
        constructor
        · exact initial
        · intro fh source opened ofFile
          exact absurd ofFile (file.closed fh source opened)
    | step op _ met ih =>
        obtain ⟨inv, within⟩ := ih
        obtain ⟨⟨on, undisturbed⟩, spared⟩ := met
        constructor
        · exact inv.step sound on spared.1 (undisturbed.keepsSize on within)
        · exact inv.within_step sound within on spared.1 undisturbed
  obtain ⟨inv, -⟩ := kept
  obtain ⟨stored, storedSize, -⟩ := inv.merges
  constructor
  · exact inv.sizeFollows
  · intro op on spared
    exact FileOp.reports sound on ⟨stored, storedSize⟩ spared

/-! ## A backend that refuses short writes -/

/-- A backend that refuses to write one byte or two, with different error numbers,
and fails every truncation. -/
def refusingReply (events : List SysEvent) : SysCall → SysResult
  | .pwrite _ [_] _ => { errno := some ePerm }
  | .pwrite _ [_, _] _ | .ftruncate _ _ => { errno := some eIo }
  | call => willingReply events call

/-- The world with another backend. -/
@[simps]
def World.withReply (world : World) (reply : List SysEvent → SysCall → SysResult) : World :=
  { world with reply }

/-- The small file on that backend. -/
def refusedFile : World :=
  smallFile.withReply refusingReply

/-- Ten bytes are written, then the first one again, and the handle is flushed. -/
def refusedWrites : List FileOp :=
  [.openFile rootContext (str "/f") oRdwr, .write 0 (str "0123456789") 0, .write 0 (str "x") 0,
    .flush 0]

/-- Two bytes are written to the empty file, and the handle is flushed. -/
def failedWrites : List FileOp :=
  [.openFile rootContext (str "/f") oRdwr, .write 0 (str "xy") 0, .flush 0]

/-- What the backend answers to cutting the file to five bytes. -/
def failedCut : SysEvent :=
  ⟨.ftruncate ⟨0, str "/b//f"⟩ 5, { errno := some eIo }⟩

/-- After the open that was refused. -/
def afterRefusal : Observed :=
  refusedWrites.foldl (Observed.step mounted) (.start refusedFile 0 0)

/-- Before the write that fails. -/
def beforeFailure : Observed :=
  (failedWrites.take 1).foldl (Observed.step mounted) (.start refusedFile 0 0)

/-- After the write that failed. -/
def afterFailure : Observed :=
  failedWrites.foldl (Observed.step mounted) (.start refusedFile 0 0)

theorem BackedFile.withReply {path : Bytes} {base : Nat} {fileid : UInt64} {world : World}
    (file : BackedFile path base fileid world) (reply : List SysEvent → SysCall → SysResult) :
    BackedFile path base fileid (world.withReply reply) where
  backed := file.backed
  closed := file.closed
  sized := file.sized

theorem SizedFile.backedFile {path : Bytes} {base : Nat} {fileid : UInt64} {world : World}
    (file : SizedFile path base fileid world) : BackedFile path base fileid world where
  backed := file.backed
  closed := file.closed
  sized := file.sized

theorem backedFile_refusedFile : BackedFile (str "/b//f") 0 1 refusedFile :=
  sizedFile_smallFile.backedFile.withReply refusingReply

set_option maxRecDepth 100000 in
theorem refusedFile_leads : mounted.pcache.LeadsTo rootContext refusedFile (str "/f") 1 :=
  PathCache.leadsTo_of_found (n := ⟨1, .file⟩) rfl (by decide +kernel)

set_option maxRecDepth 100000 in
/-- No operation of this run stores a size that the backend has not got. -/
theorem refusedWrites_meets :
    Meets (Observed.step mounted)
      (fun state op => op.Alone mounted (str "/b//f") 0 1 state ∧
        op.Spared mounted (str "/b//f") 0 state)
      (.start refusedFile 0 0) refusedWrites := by
  refine .cons ⟨⟨refusedFile_leads, .inl (by decide)⟩, trivial, nofun⟩
    (.cons ⟨⟨?_, trivial⟩, ?_, ?_⟩ (.cons ⟨⟨?_, trivial⟩, ?_, ?_⟩
      (.cons ⟨⟨?_, trivial⟩, trivial, nofun⟩ (.nil _))))
  · exact fun source => World.field_of_opened (by decide +kernel)
  · intro source opened
    have known : source.chunk = ⟨0, str "/b//f"⟩ := World.field_of_opened (by decide +kernel) opened
    rw [known]
    decide +kernel
  · rintro _ _ _ source e ⟨⟩ opened fails
    contradiction
  · exact fun source => World.field_of_opened (by decide +kernel)
  · intro source opened
    have known : source.chunk = ⟨0, str "/b//f"⟩ := World.field_of_opened (by decide +kernel) opened
    rw [known]
    decide +kernel
  · rintro _ _ _ source e ⟨⟩ opened fails
    exact (Option.some.inj fails).symm
  · exact fun source => World.field_of_opened (by decide +kernel)

theorem failures_reported_refusedWrites : afterRefusal.SizeFollows (str "/b//f") 0 1 :=
  (failures_reported PathCache_hash.sound backedFile_refusedFile refusedWrites_meets.reaches).1

set_option maxRecDepth 100000 in
theorem failedWrites_meets :
    Meets (Observed.step mounted) (FileOp.Alone mounted (str "/b//f") 0 1)
      (.start refusedFile 0 0) failedWrites := by
  refine .cons ⟨refusedFile_leads, .inl (by decide)⟩
    (.cons ⟨?_, trivial⟩ (.cons ⟨?_, trivial⟩ (.nil _)))
  · exact fun source => World.field_of_opened (by decide +kernel)
  · exact fun source => World.field_of_opened (by decide +kernel)

theorem afterFailure_flushed (fh : Nat) : afterFailure.written fh = false := by
  by_cases zero : fh = 0
  · subst zero
    rfl
  · simp only [afterFailure, failedWrites, List.foldl, Observed.step_written,
      Observed.nextWritten, Function.update_of_ne zero, Observed.start]

set_option maxRecDepth 100000 in
/-- A write that the backend failed returns `-1` and leaves the stored size beyond
the end of the backend file, and a truncation that the backend failed returns 0. -/
theorem failure_unreported :
    BackedFile (str "/b//f") 0 1 refusedFile ∧
      (Reaches (Observed.step mounted) (FileOp.Alone mounted (str "/b//f") 0 1)
          (.start refusedFile 0 0) beforeFailure ∧
        FileOp.Alone mounted (str "/b//f") 0 1 beforeFailure (.write 0 (str "xy") 0) ∧
        ¬ (FileOp.write 0 (str "xy") 0).Reports mounted beforeFailure.world) ∧
      (Reaches (Observed.step mounted) (FileOp.Alone mounted (str "/b//f") 0 1)
          (.start refusedFile 0 0) afterFailure ∧
        ¬ afterFailure.SizeFollows (str "/b//f") 0 1) ∧
      ¬ (FileOp.truncate rootContext (str "/f") 5).Reports mounted refusedFile := by
  refine ⟨backedFile_refusedFile, ⟨?_, ⟨?_, trivial⟩, ?_⟩, ⟨failedWrites_meets.reaches, ?_⟩, ?_⟩
  · rcases failedWrites_meets with _ | ⟨first, _⟩
    exact .step _ .start first
  · exact fun source => World.field_of_opened (by decide +kernel)
  · intro reports
    have returns := reports ⟨.pwrite ⟨0, str "/b//f"⟩ (str "xy") 0, { errno := some eIo }⟩ eIo
      ⟨[_], by decide +kernel, List.mem_singleton_self _⟩ trivial rfl
    exact absurd returns (by decide +kernel)
  · intro follows
    obtain ⟨size, sized, agrees⟩ := follows fun fh _ _ _ => afterFailure_flushed fh
    have isTwo : afterFailure.world.dbs.attr UInt64 1 .size = .ok 2 := by decide +kernel
    have isZero : backendLength (str "/b//f") 0 afterFailure.world.events = 0 := by
      decide +kernel
    rw [sized] at isTwo
    rw [isZero, Except.ok.inj isTwo] at agrees
    exact absurd agrees (by decide)
  · intro reports
    have returns := reports failedCut eIo
      ⟨[⟨.close ⟨0, str "/b//f"⟩, {}⟩, failedCut, ⟨.creat (str "/b//f") 65 0o660, {}⟩],
        by decide +kernel, by simp⟩ trivial rfl
    exact absurd returns (by decide +kernel)

end OfflineFs
