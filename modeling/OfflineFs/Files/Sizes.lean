import OfflineFs.Files.Operations
import OfflineFs.Run.Start

/-!
# Stored sizes and backend sizes

The size of the backend file follows from the system calls made on it.  A run on
one file keeps the stored size in step with it, up to what the handles still
have to flush, unless a handle flushes a size that the backend file no longer
has.
-/

namespace OfflineFs

open OfflineFs.Effect OfflineFs.WriteBack OfflineFs.Transition

/-- The flag of `open` that truncates. -/
def oTrunc : UInt32 := 0o1000

/-- System calls that can change the length of a file. -/
def SysCall.Resizes : SysCall → Prop
  | .pwrite _ _ _ | .ftruncate _ _ | .creat _ _ _ => True
  | _ => False

/-- The length of the backend file at a path after a system call. -/
def lengthAfter (path : Bytes) (event : SysEvent) (length : Nat) : Nat :=
  match event.result.errno, event.call with
  | some _, _ => length
  | none, .pwrite fd _ offset =>
      if fd.path = path ∧ event.result.value ≠ 0 then
        max length (offset.toNat + event.result.value)
      else
        length
  | none, .ftruncate fd newLength => if fd.path = path then newLength.toNat else length
  | none, .creat created flags _ =>
      if created = path ∧ flags &&& oTrunc ≠ 0 then 0 else length
  | none, _ => length

/-- The length of the backend file after some system calls, latest first. -/
def backendLength (path : Bytes) (base : Nat) (events : List SysEvent) : Nat :=
  events.foldr (lengthAfter path) base

/-- A backend whose writes are never short and whose truncations succeed, within
the range of file offsets. -/
structure InFull (reply : List SysEvent → SysCall → SysResult) : Prop where
  pwrite : ∀ events fd data offset, offset.toNat + data.length < 2 ^ 63 →
    (reply events (.pwrite fd data offset)).errno = none ∧
      (reply events (.pwrite fd data offset)).value = data.length
  ftruncate : ∀ events fd length, length.toNat < 2 ^ 63 →
    (reply events (.ftruncate fd length)).errno = none

/-- Requests that write something and stay within the range of file offsets. -/
def FileOp.InRange : FileOp → Prop
  | write _ buf offset => buf ≠ [] ∧ offset.toNat + buf.length < 2 ^ 63
  | truncate _ _ length => length.toNat < 2 ^ 63
  | _ => True

/-- Requests after which the stored size can still follow the backend file: a
handle is flushed only when it remembers no more than the backend file has, it is
released only when that loses nothing, and opening does not truncate. -/
def FileOp.KeepsSize (path : Bytes) (base : Nat) (fileid : UInt64) (state : Observed) :
    FileOp → Prop
  | openFile _ _ flags =>
      flags &&& oTrunc = 0 ∨ backendLength path base state.world.events = 0
  | flush fh | fsync fh false =>
      ∀ source, state.world.opened fh = some source →
        source.size.toNat ≤ backendLength path base state.world.events
  | release fh =>
      state.written fh = false ∨ ∀ source size, state.world.opened fh = some source →
        state.world.dbs.attr UInt64 fileid .size = .ok size → source.size ≤ size
  | _ => True

section Lengths

variable {path : Bytes} {base : Nat} {events : List SysEvent}

@[simp]
theorem backendLength_cons (event : SysEvent) :
    backendLength path base (event :: events) =
      lengthAfter path event (backendLength path base events) :=
  rfl

theorem lengthAfter_of_not_resizes {call : SysCall} (neutral : ¬ call.Resizes)
    (result : SysResult) (length : Nat) : lengthAfter path ⟨call, result⟩ length = length := by
  cases call with
  | pwrite | ftruncate | creat => exact absurd trivial neutral
  | _ => cases errno : result.errno <;> simp [lengthAfter, errno]

theorem backendLength_called {world : World} {call : SysCall} (neutral : ¬ call.Resizes) :
    backendLength path base (world.called call).events = backendLength path base world.events :=
  lengthAfter_of_not_resizes neutral _ _

theorem backendLength_append (made : List SysEvent) :
    backendLength path base (made ++ events) =
      backendLength path (backendLength path base events) made := by
  rw [backendLength, List.foldr_append]
  rfl

theorem oCreat_and_oTrunc (flags : UInt32) :
    (flags ||| oCreat) &&& oTrunc = flags &&& oTrunc := by
  apply UInt32.toBitVec_inj.mp
  rw [UInt32.toBitVec_and, UInt32.toBitVec_or, BitVec.and_or_distrib_right,
    ← UInt32.toBitVec_and, ← UInt32.toBitVec_and]
  have disjoint : (oCreat &&& oTrunc).toBitVec = 0 := by decide
  rw [disjoint]
  exact BitVec.or_zero

/-- Opening without truncating leaves the length, and so does truncating nothing. -/
theorem backendLength_opens {flags : UInt32} {made : List SysEvent}
    (opens : ∀ event ∈ made, Opens flags event.call)
    (keeps : flags &&& oTrunc = 0 ∨ backendLength path base events = 0) :
    backendLength path base (made ++ events) = backendLength path base events := by
  rw [backendLength_append]
  induction made with
  | nil => rfl
  | cons event made ih =>
      have allowed := opens event (by simp)
      rw [backendLength_cons, ih fun other member => opens other (List.mem_cons_of_mem _ member)]
      rcases event with ⟨call, result⟩
      unfold lengthAfter
      cases call with
      | creat created mode perm =>
          obtain rfl : mode = flags ||| oCreat := allowed
          cases result.errno with
          | some => rfl
          | none =>
              simp only [oCreat_and_oTrunc]
              split
              · rename_i truncates
                exact (keeps.resolve_left truncates.2).symm
              · rfl
      | pwrite | ftruncate => exact allowed.elim
      | _ => cases result.errno <;> rfl

end Lengths

/-- A system call made between two worlds. -/
def World.Made (before after : World) (event : SysEvent) : Prop :=
  ∃ made, after.events = made ++ before.events ∧ event ∈ made

theorem World.truncated_events (world : World) (source : Source) (length : UInt64) :
    ∃ closed, (world.truncated source length).events =
      [⟨.close source.chunk, closed⟩, ⟨.ftruncate source.chunk length,
        world.answer (.ftruncate source.chunk length)⟩] ++ world.events :=
  ⟨_, rfl⟩

/-- Truncation opens the file, asks the backend once and closes it again. -/
theorem World.StampedThen.truncated_events {fs : FS} {path : Bytes} {fileid length : UInt64}
    {world base late after : World} {source : Source} (start : world.Alike base)
    (stamped : base.StampedThen fs path fileid late)
    (alike : (late.truncated source length).Alike after) :
    ∃ closed made, (∀ event ∈ made, Opens oWronly event.call) ∧
      after.events = [⟨.close source.chunk, closed⟩, ⟨.ftruncate source.chunk length,
        world.reply late.events (.ftruncate source.chunk length)⟩] ++ made ++ world.events := by
  obtain ⟨made, madeEq, opens⟩ := stamped.calls.events
  obtain ⟨closed, truncated⟩ := late.truncated_events source length
  have sameReply : late.reply = world.reply := stamped.calls.reply.trans start.reply
  have sameEvents : base.events = world.events := start.events
  have afterEq : after.events = (late.truncated source length).events := alike.events
  have lateEq : late.events = made ++ world.events := sameEvents ▸ madeEq
  rw [World.answer, sameReply] at truncated
  refine ⟨closed, made, opens, ?_⟩
  rw [afterEq, truncated, List.append_assoc]
  exact congrArg (_ ++ ·) lateEq

/-- Requests that the backend carries out as far as the length of the file goes:
a write makes the file as long as it asks, and a truncation does not fail. -/
def FileOp.Obeyed (fs : FS) (path : Bytes) (base : Nat) (state : Observed) : FileOp → Prop
  | write fh buf offset => ∀ source, state.world.opened fh = some source →
      offset.toNat + buf.length < 2 ^ 63 ∧
        lengthAfter path ⟨.pwrite source.chunk buf offset,
          state.world.answer (.pwrite source.chunk buf offset)⟩
            (backendLength path base state.world.events) =
          max (backendLength path base state.world.events) (offset.toNat + buf.length)
  | truncate ctx asked length => ∀ events fd,
      state.world.Made (exec (fs.truncate ctx asked length) state.world).2
        ⟨.ftruncate fd length, state.world.reply events (.ftruncate fd length)⟩ →
      (state.world.reply events (.ftruncate fd length)).errno = none
  | _ => True

/-- What a run on an associated file preserves. -/
structure SizeInvariant (path : Bytes) (base : Nat) (fileid : UInt64) (mediumid : UInt32)
    (phid : Bytes) (world : World) (written : Nat → Bool) : Prop where
  associated : world.dbs.Associated world.order fileid mediumid phid
  backed : world.dbs.backing mediumid phid = some path
  chunks : ∀ fh source, world.opened fh = some source → source.fileid = fileid →
    source.chunk.path = path
  merges : ∃ size, world.dbs.attr UInt64 fileid .size = .ok size ∧
    Merges size.toNat (backendLength path base world.events)
      (world.remembered fileid Source.size) written

namespace SizeInvariant

variable {fs : FS} {path : Bytes} {base : Nat} {fileid : UInt64} {mediumid : UInt32}
variable {phid : Bytes} {world after : World} {written : Nat → Bool}

/-- A step that leaves the association and the handles, and keeps the merge. -/
theorem of_same {attrs : List Attr} {nowWritten : Nat → Bool}
    (inv : SizeInvariant path base fileid mediumid phid world written)
    (same : world.dbs.SameExcept fileid attrs after.dbs)
    (other : ∀ attr ∈ attrs, attr ∉ [Attr.source, .mediumid, .phid])
    (order : after.order = world.order) (openFiles : after.openFiles = world.openFiles)
    (merges : ∃ size, after.dbs.attr UInt64 fileid .size = .ok size ∧
      Merges size.toNat (backendLength path base after.events)
        (world.remembered fileid Source.size) nowWritten) :
    SizeInvariant path base fileid mediumid phid after nowWritten where
  associated := by
    rw [order]
    exact inv.associated.of_same same other
  backed := (Dbs.backing_congr same.media).trans inv.backed
  chunks fh source opened := by
    rw [World.opened_congr openFiles] at opened
    exact inv.chunks fh source opened
  merges := by rwa [World.remembered_congr openFiles]

theorem alike (inv : SizeInvariant path base fileid mediumid phid world written)
    (same : world.Alike after) : SizeInvariant path base fileid mediumid phid after written := by
  have unchanged : world.dbs.SameExcept fileid [] after.dbs := same.dbs ▸ .refl _
  refine inv.of_same unchanged (by simp) same.order same.openFiles ?_
  rw [same.dbs, same.events]
  exact inv.merges

/-- A system call that leaves the length. -/
theorem called (inv : SizeInvariant path base fileid mediumid phid world written)
    {call : SysCall} (neutral : ¬ call.Resizes) :
    SizeInvariant path base fileid mediumid phid (world.called call) written := by
  have unchanged : world.dbs.SameExcept fileid [] (world.called call).dbs := .refl _
  refine inv.of_same unchanged (by simp) rfl rfl ?_
  rw [backendLength_called neutral]
  exact inv.merges

/-- A source opened on the file has its chunk at the backend path. -/
theorem atPath {source : Source}
    (inv : SizeInvariant path base fileid mediumid phid world written)
    (openedOn : source.OpenedOn world.order world.dbs fileid) : source.chunk.path = path := by
  obtain ⟨otherMedium, otherPhid, otherAssociated, chunkPath⟩ := openedOn.chunk
  obtain ⟨rfl, rfl⟩ := inv.associated.unique otherAssociated
  exact Option.some.inj (chunkPath.symm.trans inv.backed)

/-- Opening the file. -/
theorem openFile {flags : UInt32} {asked : Bytes}
    (inv : SizeInvariant path base fileid mediumid phid world written)
    (keeps : flags &&& oTrunc = 0 ∨ backendLength path base world.events = 0)
    (result : OpenResult fs asked fileid flags world after) :
    SizeInvariant path base fileid mediumid phid after written := by
  obtain ⟨size, sized, merges⟩ := inv.merges
  have sameDbs := result.dbs.eq_of_associated inv.associated sized
  obtain ⟨made, madeEq, opens⟩ := result.events
  have sameLength : backendLength path base after.events =
      backendLength path base world.events := by
    rw [madeEq, backendLength_opens opens keeps]
  rcases result.openFiles with sameFiles | ⟨fh, source, inTable, free, updated, openedOn⟩
  · have unchanged : world.dbs.SameExcept fileid [] after.dbs := sameDbs ▸ .refl _
    refine inv.of_same unchanged (by simp) result.order sameFiles ?_
    exact ⟨size, sameDbs ▸ sized, sameLength ▸ merges⟩
  · rw [sameDbs] at openedOn
    have atPath := inv.atPath openedOn
    have notOpened : world.opened fh = none := (World.opened_of_lt inTable).trans free
    exact {
      associated := by
        rw [sameDbs, result.order]
        exact inv.associated
      backed := sameDbs ▸ inv.backed
      chunks := by
        intro handle other opened ofFile
        rw [World.opened_update inTable updated] at opened
        by_cases new : handle = fh
        · subst handle
          rw [Function.update_self] at opened
          cases opened
          exact atPath
        · rw [Function.update_of_ne new] at opened
          exact inv.chunks handle other opened ofFile
      merges := by
        refine ⟨size, sameDbs ▸ sized, ?_⟩
        rw [sameLength, World.remembered_update_some _ inTable updated openedOn.fileid]
        exact merges.opened (World.remembered_of_not_opened notOpened) _ }

section Handles

variable {fh : Nat} {source : Source}

/-- A handle of the file now has another source with the same chunk. -/
theorem chunks_update (inv : SizeInvariant path base fileid mediumid phid world written)
    (slot : Option Source) (inTable : fh < maxOpenFiles)
    (updated : after.openFiles = Function.update world.openFiles fh slot)
    (atPath : ∀ next, slot = some next → next.chunk.path = path) (handle : Nat) (next : Source)
    (opened : after.opened handle = some next) (ofFile : next.fileid = fileid) :
    next.chunk.path = path := by
  rw [World.opened_update inTable updated] at opened
  by_cases same : handle = fh
  · subst handle
    rw [Function.update_self] at opened
    exact atPath next opened
  · rw [Function.update_of_ne same] at opened
    exact inv.chunks handle next opened ofFile

/-- Reading the file. -/
theorem read (inv : SizeInvariant path base fileid mediumid phid world written)
    (opened : world.opened fh = some source) (ofFile : source.fileid = fileid)
    (nbyte offset : UInt64) :
    SizeInvariant path base fileid mediumid phid
      (exec (FS.read fh nbyte offset) world).2 written := by
  obtain ⟨result, ran⟩ := FS.exec_read opened nbyte offset
  obtain ⟨size, sized, merges⟩ := inv.merges
  have inTable := World.opened_lt opened
  have remembers : Function.update (world.remembered fileid Source.size) fh
      (some source.size.toNat) = world.remembered fileid Source.size := by
    rw [← World.remembered_of_opened opened ofFile, Function.update_eq_self]
  have updated : (exec (FS.read fh nbyte offset) world).2.openFiles =
      Function.update world.openFiles fh (some { source with atime := world.now }) := by
    rw [ran]
    rfl
  have next := World.remembered_update_some Source.size inTable updated ofFile
  have chunks := inv.chunks_update _ inTable updated (by
    rintro _ ⟨⟩
    exact inv.chunks fh source opened ofFile)
  rw [ran] at next chunks ⊢
  exact {
    associated := inv.associated
    backed := inv.backed
    chunks
    merges := by
      refine ⟨size, sized, ?_⟩
      rw [next, remembers]
      rw [World.withSlot_events, backendLength_called id, World.tick_events]
      exact merges }

/-- The size that is remembered after a write. -/
theorem toNat_grown (source : Source) (nbyte offset : UInt64)
    (fits : offset.toNat + nbyte.toNat < 2 ^ 63) :
    (source.grown nbyte offset).toNat = max source.size.toNat (offset.toNat + nbyte.toNat) := by
  have sum : (nbyte + offset).toNat = offset.toNat + nbyte.toNat := by
    rw [UInt64.toNat_add, Nat.mod_eq_of_lt (by omega), Nat.add_comm]
  unfold Source.grown
  split
  · rename_i exceeds
    have exceeds := UInt64.lt_iff_toNat_lt.mp exceeds
    omega
  · rename_i notExceeds
    have fits := UInt64.le_iff_toNat_le.mp (UInt64.not_lt.mp notExceeds)
    omega

theorem toNat_grown_length (source : Source) {buf : Bytes} {offset : UInt64}
    (inRange : offset.toNat + buf.length < 2 ^ 63) :
    (source.grown (UInt64.ofNat buf.length) offset).toNat =
      max source.size.toNat (offset.toNat + buf.length) := by
  have lengthFits : (UInt64.ofNat buf.length).toNat = buf.length := by
    rw [UInt64.toNat_ofNat']
    exact Nat.mod_eq_of_lt (by omega)
  have grown := toNat_grown source (UInt64.ofNat buf.length) offset (by omega)
  rwa [lengthFits] at grown

/-- Writing to the file. -/
theorem write (inv : SizeInvariant path base fileid mediumid phid world written)
    (opened : world.opened fh = some source) (ofFile : source.fileid = fileid)
    {buf : Bytes} {offset : UInt64} (inRange : offset.toNat + buf.length < 2 ^ 63)
    (extended : lengthAfter path ⟨.pwrite source.chunk buf offset,
      world.answer (.pwrite source.chunk buf offset)⟩ (backendLength path base world.events) =
        max (backendLength path base world.events) (offset.toNat + buf.length)) :
    SizeInvariant path base fileid mediumid phid (exec (FS.write fh buf offset) world).2
      (Function.update written fh true) := by
  obtain ⟨result, ran⟩ := FS.exec_write opened buf offset
  obtain ⟨size, sized, merges⟩ := inv.merges
  have inTable := World.opened_lt opened
  have atPath := inv.chunks fh source opened ofFile
  have grown := toNat_grown_length source inRange
  replace extended : lengthAfter path ⟨.pwrite source.chunk buf offset,
      world.tick.answer (.pwrite source.chunk buf offset)⟩ (backendLength path base world.events) =
        max (backendLength path base world.events) (offset.toNat + buf.length) := extended
  have updated : (exec (FS.write fh buf offset) world).2.openFiles =
      Function.update world.openFiles fh (some { source with
        mtime := world.now, size := source.grown (UInt64.ofNat buf.length) offset }) := by
    rw [ran]
    rfl
  have next := World.remembered_update_some Source.size inTable updated ofFile
  have chunks := inv.chunks_update _ inTable updated (by
    rintro _ ⟨⟩
    exact atPath)
  rw [ran] at next chunks ⊢
  exact {
    associated := inv.associated
    backed := inv.backed
    chunks
    merges := by
      refine ⟨size, sized, ?_⟩
      rw [next]
      simp only [World.withSlot_events, World.called_events, backendLength_cons, World.tick_events,
        extended, grown]
      apply merges.use (World.remembered_of_opened opened ofFile)
      omega }

/-- Flushing a handle. -/
theorem flush (inv : SizeInvariant path base fileid mediumid phid world written)
    (opened : world.opened fh = some source) (ofFile : source.fileid = fileid)
    (keeps : source.size.toNat ≤ backendLength path base world.events) :
    SizeInvariant path base fileid mediumid phid (exec source.flush world).2
      (Function.update written fh false) := by
  obtain ⟨size, sized, merges⟩ := inv.merges
  subst ofFile
  obtain ⟨outcome, next, ran, alike, stored, same⟩ := Source.exec_flush_size sized
  have merged := merges.flush (World.remembered_of_opened opened rfl) keeps
  rw [ran]
  refine inv.of_same same (by simp) alike.order alike.openFiles ⟨_, stored, ?_⟩
  have sameEvents : next.events = world.events := alike.events
  rw [sameEvents, toNat_larger]
  exact merged

/-- Releasing a handle. -/
theorem release (inv : SizeInvariant path base fileid mediumid phid world written)
    (opened : world.opened fh = some source) (ofFile : source.fileid = fileid)
    (keeps : written fh = false ∨ ∀ size, world.dbs.attr UInt64 fileid .size = .ok size →
      source.size ≤ size) :
    SizeInvariant path base fileid mediumid phid (exec (FS.release fh) world).2
      (Function.update written fh false) := by
  obtain ⟨size, sized, merges⟩ := inv.merges
  have inTable := World.opened_lt opened
  rw [FS.exec_release opened]
  exact {
    associated := inv.associated
    backed := inv.backed
    chunks := inv.chunks_update none inTable rfl nofun
    merges := by
      refine ⟨size, sized, ?_⟩
      rw [World.remembered_update_none inTable rfl]
      rw [World.withSlot_events, backendLength_called id]
      apply merges.closed
      refine keeps.imp_right fun covered value remembers => ?_
      rw [World.remembered_of_opened opened ofFile] at remembers
      cases remembers
      exact UInt64.le_iff_toNat_le.mp (covered size sized) }

end Handles

/-- An attribute that has nothing to do with the size or the association. -/
theorem setattr {T : Type} [HostInt T] {attr : Attr} {value : T}
    (inv : SizeInvariant path base fileid mediumid phid world written)
    (other : attr ∉ [Attr.source, .mediumid, .phid, .size])
    (dbs : after.dbs = world.dbs.setattr fileid attr value)
    (order : after.order = world.order) (openFiles : after.openFiles = world.openFiles)
    (events : after.events = world.events) :
    SizeInvariant path base fileid mediumid phid after written := by
  obtain ⟨size, sized, merges⟩ := inv.merges
  simp only [List.mem_cons, List.not_mem_nil, or_false, not_or] at other
  have changed : world.dbs.SameExcept fileid [attr] after.dbs := dbs ▸ .setattr (by simp) value
  refine inv.of_same changed (by simpa using ⟨other.1, other.2.1, other.2.2.1⟩) order
    openFiles ⟨size, ?_, events ▸ merges⟩
  exact (changed.attr (by simpa using Ne.symm other.2.2.2)).trans sized

/-- Changing the times of the file. -/
theorem timed {atime mtime : UInt64}
    (inv : SizeInvariant path base fileid mediumid phid world written)
    (sets : (world.withDbs
      ((world.dbs.setattr fileid .atime atime).setattr fileid .mtime mtime)).Alike after) :
    SizeInvariant path base fileid mediumid phid after written := by
  obtain ⟨size, sized, merges⟩ := inv.merges
  have accessed : world.dbs.SameExcept fileid [.atime, .mtime]
      (world.dbs.setattr fileid .atime atime) := .setattr (by simp) _
  have changed : world.dbs.SameExcept fileid [.atime, .mtime] after.dbs :=
    sets.dbs ▸ accessed.trans (.setattr (by simp) _)
  have sameEvents : after.events = world.events := sets.events
  exact inv.of_same changed (by simp) sets.order sets.openFiles
    ⟨size, (changed.attr (by simp)).trans sized, sameEvents ▸ merges⟩

theorem backendLength_stampedThen {asked : Bytes} {late : World}
    (stamped : world.StampedThen fs asked fileid late) :
    backendLength path base late.events = backendLength path base world.events := by
  obtain ⟨made, madeEq, opens⟩ := stamped.calls.events
  rw [madeEq]
  exact backendLength_opens opens (.inl (by decide))

/-- Truncating the file without reaching its chunk. -/
theorem stampedThen {asked : Bytes} {late : World}
    (inv : SizeInvariant path base fileid mediumid phid world written)
    (stamped : world.StampedThen fs asked fileid late) :
    SizeInvariant path base fileid mediumid phid late written := by
  have modified : SizeInvariant path base fileid mediumid phid
      (world.stamped fileid .mtime) written :=
    inv.setattr (by decide) (World.stamped_dbs _ _ _) rfl rfl rfl
  have changed : SizeInvariant path base fileid mediumid phid
      ((world.stamped fileid .mtime).stamped fileid .ctime) written :=
    modified.setattr (by decide) (World.stamped_dbs _ _ _) rfl rfl rfl
  have sameLength : backendLength path base late.events = backendLength path base world.events :=
    backendLength_stampedThen stamped
  have sameEvents : ((world.stamped fileid .mtime).stamped fileid .ctime).events = world.events :=
    rfl
  have sameOrder : ((world.stamped fileid .mtime).stamped fileid .ctime).order = world.order :=
    rfl
  obtain ⟨calls, settled⟩ := stamped
  rw [← sameOrder] at settled
  generalize (world.stamped fileid .mtime).stamped fileid .ctime = middle at *
  obtain ⟨size, sized, merges⟩ := changed.merges
  have sameDbs := settled.eq_of_associated changed.associated sized
  have unchanged : middle.dbs.SameExcept fileid [] late.dbs := sameDbs ▸ .refl _
  refine changed.of_same unchanged (by simp) calls.order calls.openFiles ⟨size, sameDbs ▸ sized, ?_⟩
  rw [sameLength, ← sameEvents]
  exact merges

theorem backendLength_truncated {source : Source} {length : UInt64}
    (atPath : source.chunk.path = path)
    (succeeds : (world.answer (.ftruncate source.chunk length)).errno = none) :
    backendLength path base (world.truncated source length).events = length.toNat := by
  have cut : ∀ result : SysResult, result.errno = none → ∀ current,
      lengthAfter path ⟨.ftruncate source.chunk length, result⟩ current = length.toNat := by
    intro result errno current
    simp [lengthAfter, errno, atPath]
  rw [World.truncated, backendLength_called id]
  exact cut _ succeeds _

/-- Truncation sets the stored size and the backend length alike, when the
backend does not fail. -/
theorem truncated {source : Source} {length : UInt64}
    (inv : SizeInvariant path base fileid mediumid phid world written)
    (openedOn : source.OpenedOn world.order world.dbs fileid)
    (succeeds : (world.answer (.ftruncate source.chunk length)).errno = none) :
    SizeInvariant path base fileid mediumid phid (world.truncated source length) written := by
  have atPath := inv.atPath openedOn
  have changed : world.dbs.SameExcept fileid [.mtime, .size]
      (world.truncated source length).dbs := by
    have modified : world.dbs.SameExcept fileid [.mtime, .size]
        (world.dbs.setattr source.fileid .mtime world.now) :=
      openedOn.fileid ▸ .setattr (by simp) _
    exact modified.trans (openedOn.fileid ▸ .setattr (by simp) _)
  refine inv.of_same changed (by simp) rfl rfl ⟨length, ?_, merges_of_eq ?_⟩
  · rw [← openedOn.fileid]
    exact Dbs.attr_setattr_self _ _ _ _
  · exact (backendLength_truncated atPath succeeds).symm

/-- Truncating the file. -/
theorem truncate {asked : Bytes} {length : UInt64} {result : Outcome Err Int × World}
    (inv : SizeInvariant path base fileid mediumid phid world written)
    (ran : TruncateResult fs asked fileid length world result)
    (succeeds : ∀ events fd, world.Made result.2 ⟨.ftruncate fd length,
      world.reply events (.ftruncate fd length)⟩ →
        (world.reply events (.ftruncate fd length)).errno = none) :
    SizeInvariant path base fileid mediumid phid result.2 written := by
  cases ran with
  | refused _ alike => exact inv.alike alike
  | failed _ start stamped alike => exact ((inv.alike start).stampedThen stamped).alike alike
  | @done _ late _ source start stamped opened alike =>
      have sameReply : late.reply = world.reply := stamped.calls.reply.trans start.reply
      have sameOrder : late.order = world.order := stamped.calls.order.trans start.order
      rw [← sameOrder] at opened
      have answered : (late.answer (.ftruncate source.chunk length)).errno = none := by
        rw [World.answer, sameReply]
        obtain ⟨closed, made, _, madeEq⟩ := stamped.truncated_events start alike
        exact succeeds _ _ ⟨_, madeEq, by simp⟩
      exact (((inv.alike start).stampedThen stamped).truncated opened answered).alike alike

end SizeInvariant

/-- A handle that is not open has nothing to flush. -/
theorem SizeInvariant.forget {path : Bytes} {base : Nat} {fileid : UInt64} {mediumid : UInt32}
    {phid : Bytes} {world : World} {written : Nat → Bool} {fh : Nat}
    (inv : SizeInvariant path base fileid mediumid phid world written)
    (notOpened : world.opened fh = none) :
    SizeInvariant path base fileid mediumid phid world (Function.update written fh false) := by
  obtain ⟨size, sized, merges⟩ := inv.merges
  exact { inv with
    merges := ⟨size, sized, merges.forget (World.remembered_of_not_opened notOpened)⟩ }

/-- The requests of a run: on the file, and in range. -/
def FileOp.ForSize (fs : FS) (fileid : UInt64) (state : Observed) (op : FileOp) : Prop :=
  op.On fs fileid state.world ∧ op.InRange

/-- Once every open handle of a file has been flushed since its last write, the
stored size is the length of the backend file. -/
def Observed.SizeFollows (path : Bytes) (base : Nat) (fileid : UInt64) (state : Observed) :
    Prop :=
  (∀ fh source, state.world.opened fh = some source → source.fileid = fileid →
    state.written fh = false) →
  ∃ size, state.world.dbs.attr UInt64 fileid .size = .ok size ∧
    size.toNat = backendLength path base state.world.events

/-- One request preserves the invariant. -/
theorem SizeInvariant.step {fs : FS} {path : Bytes} {base : Nat} {fileid : UInt64}
    {mediumid : UInt32} {phid : Bytes} (sound : fs.pcache.Sound) {state : Observed} {op : FileOp}
    (inv : SizeInvariant path base fileid mediumid phid state.world state.written)
    (on : op.On fs fileid state.world) (obeyed : op.Obeyed fs path base state)
    (keeps : op.KeepsSize path base fileid state) :
    SizeInvariant path base fileid mediumid phid (state.step fs op).world
      (state.step fs op).written := by
  cases op with
  | openFile ctx asked flags =>
      have result := inv.openFile keeps (exec_openFile sound ctx flags on)
      simp only [Observed.step, FileOp.prog, exec_map_snd, Observed.nextWritten]
      exact result
  | read fh nbyte offset =>
      simp only [Observed.step, FileOp.prog, exec_map_snd, Observed.nextWritten]
      cases opened : state.world.opened fh with
      | none =>
          rw [(FS.exec_not_opened opened nbyte offset [] false).1]
          exact inv
      | some source => exact inv.read opened (on source opened) nbyte offset
  | write fh buf offset =>
      simp only [Observed.step, FileOp.prog, Observed.nextWritten]
      cases opened : state.world.opened fh with
      | none =>
          rw [(FS.exec_not_opened opened 0 offset buf false).2.1]
          exact inv.forget opened
      | some source =>
          obtain ⟨inRange, extended⟩ := obeyed source opened
          exact inv.write opened (on source opened) inRange extended
  | flush fh =>
      simp only [Observed.step, FileOp.prog, Observed.nextWritten]
      cases opened : state.world.opened fh with
      | none =>
          rw [(FS.exec_not_opened opened 0 0 [] false).2.2.1]
          exact inv.forget opened
      | some source =>
          rw [FS.exec_flush opened]
          exact inv.flush opened (on source opened) (keeps source opened)
  | fsync fh datasync =>
      cases opened : state.world.opened fh with
      | none =>
          simp only [Observed.step, FileOp.prog]
          rw [(FS.exec_not_opened opened 0 0 [] datasync).2.2.2.2]
          cases datasync with
          | true => exact inv
          | false => exact inv.forget opened
      | some source =>
          cases datasync with
          | true =>
              obtain ⟨result, ran⟩ := FS.exec_fsync_data opened
              simp only [Observed.step, FileOp.prog, ran, Observed.nextWritten]
              exact inv.called id
          | false =>
              obtain ⟨result, ran⟩ := FS.exec_fsync_all opened
              have flushed := inv.flush opened (on source opened) (keeps source opened)
              simp only [Observed.step, FileOp.prog, ran, Observed.nextWritten]
              rcases flushes : exec source.flush state.world with ⟨outcome, after⟩
              rw [flushes] at flushed
              cases outcome with
              | ok => exact flushed.called id
              | error => exact flushed
              | fault => exact flushed
  | release fh =>
      simp only [Observed.step, FileOp.prog, Observed.nextWritten]
      cases opened : state.world.opened fh with
      | none =>
          rw [(FS.exec_not_opened opened 0 0 [] false).2.2.2.1]
          exact inv.forget opened
      | some source =>
          apply inv.release opened (on source opened)
          exact keeps.imp_right fun covered size => covered source size opened
  | truncate ctx asked length => exact inv.truncate (exec_truncate sound ctx length on) obeyed
  | utimens ctx asked atime mtime =>
      obtain ⟨outcome, after, ran, result⟩ := exec_utimens sound ctx atime mtime on
      simp only [Observed.step, FileOp.prog, Observed.nextWritten, ran]
      rcases result with ⟨_, alike⟩ | ⟨_, alike⟩
      · exact inv.alike alike
      · exact inv.timed alike

theorem SizeInvariant.sizeFollows {path : Bytes} {base : Nat} {fileid : UInt64}
    {mediumid : UInt32} {phid : Bytes} {state : Observed}
    (inv : SizeInvariant path base fileid mediumid phid state.world state.written) :
    state.SizeFollows path base fileid := by
  intro flushed
  obtain ⟨size, sized, merges⟩ := inv.merges
  refine ⟨size, sized, merges.stored_eq ?_⟩
  intro fh remembers
  obtain ⟨value, remembered⟩ := Option.ne_none_iff_exists'.mp remembers
  obtain ⟨source, opened, ofFile, _⟩ := World.remembered_eq_some remembered
  exact flushed fh source opened ofFile

/-- A file with a backend file of the stored size, and no handle, on a backend
that does all it is asked. -/
structure SizedFile (path : Bytes) (base : Nat) (fileid : UInt64) (world : World) : Prop where
  full : InFull world.reply
  backed : ∃ mediumid phid, world.dbs.Associated world.order fileid mediumid phid ∧
    world.dbs.backing mediumid phid = some path
  closed : ∀ fh source, world.opened fh = some source → source.fileid ≠ fileid
  sized : ∃ size, world.dbs.attr UInt64 fileid .size = .ok size ∧
    size.toNat = backendLength path base world.events

/-- A backend that does all it is asked carries out every request in range. -/
theorem FileOp.ForSize.obeyed {fs : FS} {path : Bytes} {base : Nat} {fileid : UInt64}
    {state : Observed} {op : FileOp} (full : InFull state.world.reply)
    (asked : op.ForSize fs fileid state)
    (atPath : ∀ fh source, state.world.opened fh = some source → source.fileid = fileid →
      source.chunk.path = path) : op.Obeyed fs path base state := by
  obtain ⟨on, inRange⟩ := asked
  cases op with
  | write fh buf offset =>
      intro source opened
      have answered := full.pwrite state.world.events source.chunk buf offset inRange.2
      have someBytes : buf.length ≠ 0 := by simpa using inRange.1
      refine ⟨inRange.2, ?_⟩
      simp only [lengthAfter, World.answer, answered.1, answered.2,
        atPath fh source opened (on source opened), someBytes, ne_eq, not_false_eq_true, and_self,
        if_true]
  | truncate ctx path length =>
      intro events fd _
      exact full.ftruncate events fd length inRange
  | _ => trivial

/-- On a file of the right size, a run in which no handle flushes a size that
the backend file lost keeps the stored size right. -/
theorem size_follows {fs : FS} {path : Bytes} {base : Nat} {fileid : UInt64} {world : World}
    {mtime atime : UInt64} {state : Observed} (sound : fs.pcache.Sound)
    (file : SizedFile path base fileid world)
    (reached : Reaches (Observed.step fs)
      (fun state op => op.ForSize fs fileid state ∧ op.KeepsSize path base fileid state)
      (.start world mtime atime) state) :
    state.SizeFollows path base fileid := by
  obtain ⟨mediumid, phid, associated, backed⟩ := file.backed
  obtain ⟨size, sized, right⟩ := file.sized
  have initial : SizeInvariant path base fileid mediumid phid
      (Observed.start world mtime atime).world (Observed.start world mtime atime).written := {
    associated, backed
    chunks := fun fh source opened ofFile => absurd ofFile (file.closed fh source opened)
    merges := ⟨size, sized, merges_of_eq right⟩ }
  have kept : SizeInvariant path base fileid mediumid phid state.world state.written ∧
      InFull state.world.reply := by
    induction reached with
    | start => exact ⟨initial, file.full⟩
    | @step state op _ met ih =>
        obtain ⟨inv, full⟩ := ih
        constructor
        · exact inv.step sound met.1.1 (met.1.obeyed full inv.chunks) met.2
        · have sameReply : (state.step fs op).world.reply = state.world.reply := exec_reply _ _
          rwa [sameReply]
  exact kept.1.sizeFollows

/-! ## A run on a small file -/

/-- Ten bytes are written and flushed. -/
def smallWrites : List FileOp :=
  [.openFile rootContext (str "/f") oRdwr, .write 0 (str "0123456789") 0, .flush 0]

/-- After those the file is cut to five bytes, and the handle is flushed again. -/
def smallTruncation : List FileOp :=
  [.truncate rootContext (str "/f") 5, .flush 0]

/-- After the writes and their flush. -/
def afterWrites : Observed :=
  smallWrites.foldl (Observed.step mounted) (.start smallFile 0 0)

/-- After the truncation. -/
def afterTruncation : Observed :=
  smallTruncation.foldl (Observed.step mounted) afterWrites

set_option maxRecDepth 100000 in
theorem smallWrites_meets :
    Meets (Observed.step mounted)
      (fun state op => op.ForSize mounted 1 state ∧ op.KeepsSize (str "/b//f") 0 1 state)
      (.start smallFile 0 0) smallWrites := by
  refine .cons ⟨⟨smallFile_leads, trivial⟩, .inl (by decide)⟩
    (.cons ⟨⟨?_, .intro (by decide) (by decide)⟩, trivial⟩ (.cons ⟨⟨?_, trivial⟩, ?_⟩ (.nil _)))
  · exact fun source => World.field_of_opened (by decide +kernel)
  · exact fun source => World.field_of_opened (by decide +kernel)
  · intro source opened
    have known : source.size = 10 := World.field_of_opened (by decide +kernel) opened
    rw [known]
    decide +kernel

theorem inFull_willingReply : InFull willingReply where
  pwrite _ _ _ _ _ := ⟨rfl, rfl⟩
  ftruncate _ _ _ _ := rfl

set_option maxRecDepth 100000 in
theorem sizedFile_smallFile : SizedFile (str "/b//f") 0 1 smallFile where
  full := inFull_willingReply
  backed := ⟨0, str "/f",
    ⟨by decide +kernel, by decide +kernel, by decide +kernel⟩, by decide +kernel⟩
  closed fh source opened := by simp [smallFile_opened] at opened
  sized := ⟨0, by decide +kernel, by decide +kernel⟩

theorem size_follows_smallWrites : afterWrites.SizeFollows (str "/b//f") 0 1 :=
  size_follows PathCache_hash.sound sizedFile_smallFile smallWrites_meets.reaches

set_option maxRecDepth 100000 in
theorem smallTruncation_meets :
    Meets (Observed.step mounted) (FileOp.ForSize mounted 1) afterWrites smallTruncation := by
  refine .cons ⟨?_, ?_⟩ (.cons ⟨?_, trivial⟩ (.nil _))
  · exact PathCache.leadsTo_of_found (n := ⟨1, .file⟩) rfl (by decide +kernel)
  · exact (by decide : (5 : UInt64).toNat < 2 ^ 63)
  · exact fun source => World.field_of_opened (by decide +kernel)

theorem afterTruncation_flushed (fh : Nat) : afterTruncation.written fh = false := by
  by_cases zero : fh = 0
  · subst zero
    rfl
  · simp only [afterTruncation, afterWrites, smallTruncation, smallWrites, List.foldl,
      Observed.step_written, Observed.nextWritten, Function.update_of_ne zero, Observed.start]

set_option maxRecDepth 100000 in
theorem afterTruncation_size : afterTruncation.world.dbs.attr UInt64 1 .size = .ok 10 := by
  decide +kernel

set_option maxRecDepth 100000 in
theorem afterTruncation_length :
    backendLength (str "/b//f") 0 afterTruncation.world.events = 5 := by
  decide +kernel

theorem afterTruncation_reached :
    Reaches (Observed.step mounted) (FileOp.ForSize mounted 1) (.start smallFile 0 0)
      afterTruncation :=
  (smallWrites_meets.reaches.mono fun _ _ met => met.1).foldl smallTruncation_meets

/-- Flushing a handle again after the file was truncated through its path puts
the old size back. -/
theorem size_exceeds_truncated :
    SizedFile (str "/b//f") 0 1 smallFile ∧
      Reaches (Observed.step mounted) (FileOp.ForSize mounted 1) (.start smallFile 0 0)
        afterTruncation ∧
      ¬ afterTruncation.SizeFollows (str "/b//f") 0 1 := by
  refine ⟨sizedFile_smallFile, afterTruncation_reached, ?_⟩
  intro follows
  obtain ⟨size, sized, agrees⟩ := follows fun fh _ _ _ => afterTruncation_flushed fh
  have isTen : size = 10 := Except.ok.inj (sized.symm.trans afterTruncation_size)
  have isFive : size.toNat = 5 := agrees.trans afterTruncation_length
  rw [isTen] at isFive
  exact absurd isFive (by decide)

end OfflineFs
