import OfflineFs.Run.Requests

/-!
# Running the operations on open files

What reading, writing, flushing, releasing and truncating do to the stored
attributes, to the handles and to the record of system calls.
-/

namespace OfflineFs

open OfflineFs.Effect

/-- The greater of a stored and a cached value. -/
def larger (stored cached : UInt64) : UInt64 :=
  if cached > stored then cached else stored

@[simp]
theorem toNat_larger (stored cached : UInt64) :
    (larger stored cached).toNat = max stored.toNat cached.toNat := by
  unfold larger
  split
  · rename_i exceeds
    have exceeds := UInt64.lt_iff_toNat_lt.mp exceeds
    omega
  · rename_i notExceeds
    have fits := UInt64.le_iff_toNat_le.mp (UInt64.not_lt.mp notExceeds)
    omega

namespace Dbs

/-- Storing a cached value that exceeds the stored one. -/
def raised (dbs : Dbs) (id : UInt64) (attr : Attr) (stored cached : UInt64) : Dbs :=
  if cached > stored then dbs.setattr id attr cached else dbs

section Raised

variable {dbs : Dbs} {id : UInt64} {attr : Attr} {stored cached : UInt64}

theorem attr_raised_self (cached : UInt64) (present : dbs.attr UInt64 id attr = .ok stored) :
    (dbs.raised id attr stored cached).attr UInt64 id attr = .ok (larger stored cached) := by
  unfold raised larger
  split
  · exact attr_setattr_self _ _ _ _
  · exact present

theorem attr_raised_of_ne {T : Type} [HostInt T] {other : UInt64} {read : Attr}
    (distinct : id ≠ other ∨ attr ≠ read) :
    (dbs.raised id attr stored cached).attr T other read = dbs.attr T other read := by
  unfold raised
  split
  · exact attr_setattr_of_ne _ distinct
  · rfl

end Raised

end Dbs

/-- Contents that agree on the media and on everything but some attributes of one
node. -/
structure Dbs.SameExcept (before : Dbs) (id : UInt64) (attrs : List Attr) (after : Dbs) :
    Prop where
  media : after.media = before.media
  get : ∀ table other name, (table = .nodes → other = id → ∀ attr ∈ attrs, name ≠ attr.name) →
    after.get table other name = before.get table other name

namespace Dbs.SameExcept

variable {first second third : Dbs} {id : UInt64} {attrs : List Attr}

theorem refl (dbs : Dbs) : dbs.SameExcept id attrs dbs :=
  ⟨rfl, fun _ _ _ _ => rfl⟩

theorem trans (early : first.SameExcept id attrs second)
    (late : second.SameExcept id attrs third) : first.SameExcept id attrs third where
  media := late.media.trans early.media
  get table other name elsewhere :=
    (late.get table other name elsewhere).trans (early.get table other name elsewhere)

theorem setattr {T : Type} [HostInt T] {attr : Attr} (listed : attr ∈ attrs) (value : T) :
    first.SameExcept id attrs (first.setattr id attr value) where
  media := media_setattr _ _ _ _
  get table other name elsewhere := by
    rw [Dbs.setattr, get_put, if_neg]
    rintro ⟨rfl, rfl, rfl⟩
    exact elsewhere rfl rfl attr listed rfl

theorem raised {attr : Attr} (listed : attr ∈ attrs) (stored cached : UInt64) :
    first.SameExcept id attrs (first.raised id attr stored cached) := by
  unfold Dbs.raised
  split
  · exact setattr listed _
  · exact refl _

/-- What is outside the listed attributes reads the same. -/
theorem get_attr (same : first.SameExcept id attrs second) {other : Attr}
    (unlisted : other ∉ attrs) :
    second.get .nodes id other.name = first.get .nodes id other.name := by
  apply same.get
  rintro _ _ listed member sameName
  rw [Attr.name_inj] at sameName
  exact unlisted (sameName ▸ member)

theorem attr {T : Type} [HostInt T] (same : first.SameExcept id attrs second) {other : Attr}
    (unlisted : other ∉ attrs) : second.attr T id other = first.attr T id other := by
  rw [Dbs.attr, Dbs.attr, getattr, getattr, same.get_attr unlisted]

end Dbs.SameExcept

/-! ## Media -/

namespace Dbs

/-- `Medium::getmedium` as a function of the contents. -/
def getmedium (dbs : Dbs) (id : UInt32) : Except Err Medium :=
  match dbs.media[(⟨id, str "type"⟩ : Key UInt32)]? with
  | none => .error .runtime
  | some mediumtype =>
      if mediumtype = str "directory" then .ok ⟨id, .directory⟩
      else if mediumtype = str "insert" then .ok ⟨id, .insert⟩
      else .error .runtime

/-- The search of `Medium::getmedium` by label as a function of the contents. -/
def findLabel (dbs : Dbs) (label : Bytes) : List UInt32 → Except Err Medium
  | [] => .error .runtime
  | id :: rest =>
      if dbs.media[(⟨id, str "label"⟩ : Key UInt32)]? = some label then dbs.getmedium id
      else dbs.findLabel label rest

/-- `Medium::getmedium` by label as a function of the contents. -/
def getmediumByLabel (dbs : Dbs) (label : Bytes) : Except Err Medium :=
  dbs.findLabel label dbs.mediaIds

end Dbs

namespace Medium

@[simp]
theorem exec_getmedium (id : UInt32) (world : World) :
    exec (getmedium id) world = (.ofExcept (world.dbs.getmedium id), world) := by
  simp only [getmedium, Dbs.getmedium, exec_bind, exec_perform, fsHandler, Outcome.andThen_ok]
  cases world.dbs.media[(⟨id, str "type"⟩ : Key UInt32)]? with
  | none => rfl
  | some mediumtype =>
      simp only
      split
      · rfl
      · split <;> rfl

/-- Looking for a label as a function of the contents. -/
@[simp]
theorem exec_findLabel (label : Bytes) (ids : List UInt32) (world : World) :
    exec (findLabel label ids) world = (.ofExcept (world.dbs.findLabel label ids), world) := by
  induction ids with
  | nil => rfl
  | cons id rest ih =>
      simp only [findLabel, Dbs.findLabel, exec_bind, exec_perform, fsHandler,
        Outcome.andThen_ok]
      cases world.dbs.media[(⟨id, str "label"⟩ : Key UInt32)]? with
      | none => simp [ih]
      | some found =>
          by_cases same : found = label
          · simp [same]
          · simp [same, ih]

@[simp]
theorem exec_getmediumByLabel (label : Bytes) (world : World) :
    exec (getmediumByLabel label) world =
      (.ofExcept (world.dbs.getmediumByLabel label), world) := by
  simp only [getmediumByLabel, exec_bind, exec_perform, fsHandler, Outcome.andThen_ok,
    exec_findLabel]
  rfl

end Medium

/-! ## Associations -/

/-- The attributes that tie a file to a chunk. -/
abbrev placing : List Attr :=
  [.source, .mediumid, .phid]

namespace Dbs

/-- The path of a chunk: the directory of its medium followed by its name. -/
def backing (dbs : Dbs) (mediumid : UInt32) (phid : Bytes) : Option Bytes :=
  dbs.media[(⟨mediumid, str "directory"⟩ : Key UInt32)]?.map (· ++ [slash] ++ phid)

/-- A file whose data are kept in a chunk of a medium. -/
structure Associated (dbs : Dbs) (order : ByteOrder) (fileid : UInt64) (mediumid : UInt32)
    (phid : Bytes) : Prop where
  source : dbs.get .nodes fileid Attr.source.name = some (str "single")
  mediumid : dbs.attr UInt32 fileid .mediumid = .ok (order.inMemory mediumid)
  phid : dbs.get .nodes fileid Attr.phid.name = some phid

/-- The contents after a file was associated with a chunk. -/
def associate (dbs : Dbs) (order : ByteOrder) (fileid : UInt64) (mediumid : UInt32)
    (phid : Bytes) : Dbs :=
  ((dbs.put .nodes fileid Attr.source.name (str "single")).setattr fileid .mediumid
    (order.inMemory mediumid)).put .nodes fileid Attr.phid.name phid

variable {dbs : Dbs} {order : ByteOrder} {fileid : UInt64} {mediumid : UInt32} {phid : Bytes}

theorem Associated.of_same {attrs : List Attr} {after : Dbs}
    (associated : dbs.Associated order fileid mediumid phid)
    (same : dbs.SameExcept fileid attrs after)
    (other : ∀ attr ∈ attrs, attr ∉ [Attr.source, .mediumid, .phid]) :
    after.Associated order fileid mediumid phid := by
  have unlisted : ∀ attr ∈ [Attr.source, .mediumid, .phid], attr ∉ attrs :=
    fun attr member listed => other attr listed member
  exact {
    source := (same.get_attr (unlisted _ (by simp))).trans associated.source
    mediumid := (same.attr (unlisted _ (by simp))).trans associated.mediumid
    phid := (same.get_attr (unlisted _ (by simp))).trans associated.phid }

theorem Associated.unique {other : UInt32} {otherPhid : Bytes}
    (associated : dbs.Associated order fileid mediumid phid)
    (otherAssociated : dbs.Associated order fileid other otherPhid) :
    other = mediumid ∧ otherPhid = phid := by
  have sameMedium := otherAssociated.mediumid.symm.trans associated.mediumid
  have samePhid := otherAssociated.phid.symm.trans associated.phid
  exact ⟨order.inMemory_inj.mp (Except.ok.inj sameMedium), Option.some.inj samePhid⟩

theorem backing_congr {after : Dbs} (media : after.media = dbs.media) :
    after.backing mediumid phid = dbs.backing mediumid phid := by
  rw [backing, backing, media]

theorem sameExcept_put {attr : Attr} {attrs : List Attr} (listed : attr ∈ attrs)
    (value : Bytes) : dbs.SameExcept fileid attrs (dbs.put .nodes fileid attr.name value) where
  media := media_put _ _ _ _ _
  get table other name elsewhere := by
    rw [get_put, if_neg]
    rintro ⟨rfl, rfl, rfl⟩
    exact elsewhere rfl rfl attr listed rfl

theorem sameExcept_associate (dbs : Dbs) (order : ByteOrder) (fileid : UInt64)
    (mediumid : UInt32) (phid : Bytes) :
    dbs.SameExcept fileid [.source, .mediumid, .phid] (dbs.associate order fileid mediumid phid) :=
  ((sameExcept_put (by simp) _).trans (.setattr (by simp) _)).trans (sameExcept_put (by simp) _)

end Dbs

/-! ## Opening a source -/

/-- A source just opened: it remembers the stored size and nothing else, and its
chunk is at the path that the association of the file says. -/
structure Source.OpenedOn (order : ByteOrder) (dbs : Dbs) (id : UInt64) (source : Source) :
    Prop where
  fileid : source.fileid = id
  size : dbs.attr UInt64 id .size = .ok source.size
  atime : source.atime = 0
  mtime : source.mtime = 0
  chunk : ∃ mediumid phid, dbs.Associated order id mediumid phid ∧
    dbs.backing mediumid phid = some source.chunk.path

/-- A chunk is opened at its backing path, or an input/output error is thrown. -/
def OpensAt (path : Option Bytes) (outcome : Outcome Err Fd) : Prop :=
  (∀ fd, outcome = .ok fd → path = some fd.path) ∧ ∀ e, outcome = .error e → e = .runtime

/-- A directory medium opens the file below its directory. -/
theorem opensAt_getchunkDirectory (medium : Medium) (phid : Bytes) (mode : UInt32)
    (world : World) :
    OpensAt (world.dbs.backing medium.id phid)
      (exec (medium.getchunkDirectory phid mode) world).1 := by
  constructor
  · intro fd opened
    simp only [Medium.getchunkDirectory, Medium.getattrv, exec_bind, exec_perform,
      Outcome.andThen_ok, fsHandler] at opened
    cases found : world.dbs.media[(⟨medium.id, str "directory"⟩ : Key UInt32)]? with
    | none => simp [found] at opened
    | some directory =>
        simp only [found, exec_pure, Outcome.andThen_ok] at opened
        have atPath := (ends_exec (ends_chunk_create (directory ++ [slash] ++ phid) mode)
          world).1 fd opened
        rw [Dbs.backing, found, atPath]
        rfl
  · intro e failed
    have ends : EndsIo (fun _ => True) (medium.getchunkDirectory phid mode) :=
      Program.ends_bind (ends_medium_getattrv _ _) fun directory _ =>
        (ends_chunk_create _ mode).weaken fun _ _ => trivial
    exact (ends_exec ends world).2 e failed

/-- The file that is opened is the one behind the chunk. -/
theorem opensAt_getchunk (medium : Medium) (phid : Bytes) (mode : UInt32) (world : World) :
    OpensAt (world.dbs.backing medium.id phid) (exec (medium.getchunk phid mode) world).1 := by
  unfold Medium.getchunk
  cases medium.kind with
  | directory => exact opensAt_getchunkDirectory medium phid mode world
  | insert =>
      have inserts : Program.Calls (Backend (Opens mode)) medium.insert :=
        calls_insert (fun _ => trivial) medium
      have inserted := callsSince_exec inserts world
      have inputOutput := (ends_exec (ends_insert medium) world).2
      simp only [exec_bind]
      rcases result : exec medium.insert world with ⟨outcome, after⟩
      rw [result] at inserted inputOutput
      cases outcome with
      | ok =>
          have opens := opensAt_getchunkDirectory medium phid mode after
          rw [inserted.dbs] at opens
          exact opens
      | error e =>
          refine ⟨nofun, ?_⟩
          rintro _ ⟨⟩
          exact inputOutput e rfl
      | fault => exact ⟨nofun, nofun⟩

theorem Dbs.getmedium_ok {dbs : Dbs} {id : UInt32} {medium : Medium}
    (found : dbs.getmedium id = .ok medium) : medium.id = id := by
  unfold getmedium at found
  split at found
  · cases found
  · split at found
    · cases found
      rfl
    · split at found
      · cases found
        rfl
      · cases found

theorem Dbs.getmedium_error {dbs : Dbs} {id : UInt32} {e : Err}
    (failed : dbs.getmedium id = .error e) : e = .runtime := by
  unfold getmedium at failed
  split at failed
  · cases failed
    rfl
  · split at failed
    · cases failed
    · split at failed
      · cases failed
      · cases failed
        rfl

/-- What is opened for a file that is tied to a chunk. -/
theorem Source.exec_single (fileid : UInt64) (mode : UInt32) (world : World)
    (isSingle : world.dbs.get .nodes fileid Attr.source.name = some (str "single")) :
    (∀ source, (exec (Source.single fileid mode) world).1 = .ok source →
        source.OpenedOn world.order world.dbs fileid) ∧
      ∀ e, (exec (Source.single fileid mode) world).1 = .error e → e = .runtime ∨
        ∀ mediumid phid size, world.dbs.Associated world.order fileid mediumid phid →
          world.dbs.attr UInt64 fileid .size ≠ .ok size := by
  simp only [Source.single, exec_bind, Node.exec_getattr, Node.exec_getattrv,
    Medium.exec_getmedium]
  cases mediumidRead : world.dbs.attr UInt32 fileid .mediumid with
  | error e =>
      refine ⟨fun _ returned => (by cases returned), fun _ _ => .inr ?_⟩
      intro mediumid phid size associated
      rw [associated.mediumid] at mediumidRead
      cases mediumidRead
  | ok mediumid =>
      simp only [Outcome.ofExcept_ok, Outcome.andThen_ok, exec_perform, fsHandler]
      cases found : world.dbs.getmedium (world.order.inMemory mediumid) with
      | error e =>
          refine ⟨fun _ returned => (by cases returned), ?_⟩
          rintro _ ⟨⟩
          exact .inl (Dbs.getmedium_error found)
      | ok medium =>
          simp only [Outcome.ofExcept_ok, Outcome.andThen_ok]
          cases phidRead : world.dbs.get .nodes fileid Attr.phid.name with
          | none =>
              simp only [Dbs.getattrv, phidRead]
              refine ⟨fun _ returned => (by cases returned), fun _ _ => .inr ?_⟩
              intro mediumid phid size associated
              rw [associated.phid] at phidRead
              cases phidRead
          | some phid =>
              have opens := opensAt_getchunk medium phid mode world
              have calls := callsSince_exec (calls_getchunk medium phid mode) world
              simp only [Dbs.getattrv, phidRead, Outcome.ofExcept_ok, Outcome.andThen_ok]
              rcases got : exec (medium.getchunk phid mode) world with ⟨outcome, late⟩
              rw [got] at opens calls
              cases outcome with
              | error e =>
                  refine ⟨fun _ returned => (by cases returned), ?_⟩
                  rintro _ ⟨⟩
                  exact .inl (opens.2 e rfl)
              | fault =>
                  exact ⟨fun _ returned => (by cases returned), fun _ threw => (by cases threw)⟩
              | ok chunk =>
                  have lateDbs : late.dbs = world.dbs := calls.dbs
                  simp only [Outcome.andThen_ok, exec_catching, Node.exec_getattr, lateDbs]
                  cases sized : world.dbs.attr UInt64 fileid .size with
                  | error e =>
                      refine ⟨fun _ returned => (by cases returned), fun _ _ => .inr ?_⟩
                      intro _ _ size _ known
                      cases known
                  | ok size =>
                      refine ⟨?_, fun _ threw => (by cases threw)⟩
                      rintro _ ⟨⟩
                      refine ⟨rfl, sized, rfl, rfl, world.order.inMemory mediumid, phid,
                        ⟨isSingle, ?_, phidRead⟩, ?_⟩
                      · rw [mediumidRead, ByteOrder.inMemory_inMemory]
                      · rw [← Dbs.getmedium_ok found]
                        exact opens.1 chunk rfl

/-- What opening a source gives, when it succeeds, and when it throws. -/
theorem Source.exec_getsource (fileid : UInt64) (mode : UInt32) (world : World) :
    (∀ source, (exec (Source.getsource fileid mode) world).1 = .ok source →
        source.OpenedOn world.order world.dbs fileid) ∧
      ∀ e, (exec (Source.getsource fileid mode) world).1 = .error e → e = .runtime ∨
        ∀ mediumid phid size, world.dbs.Associated world.order fileid mediumid phid →
          world.dbs.attr UInt64 fileid .size ≠ .ok size := by
  simp only [Source.getsource, exec_bind, Node.exec_getattrv, Dbs.getattrv]
  cases sourceRead : world.dbs.get .nodes fileid Attr.source.name with
  | none =>
      refine ⟨fun _ returned => (by cases returned), fun _ _ => .inr ?_⟩
      intro mediumid phid size associated
      rw [associated.source] at sourceRead
      cases sourceRead
  | some source =>
      simp only [Outcome.ofExcept_ok, Outcome.andThen_ok]
      by_cases isSingle : source = str "single"
      · rw [if_pos isSingle]
        exact Source.exec_single fileid mode world (sourceRead.trans (by rw [isSingle]))
      · rw [if_neg isSingle]
        refine ⟨fun _ returned => (by cases returned), ?_⟩
        rintro _ ⟨⟩
        exact .inl rfl

/-- The contents after the source of a file was asked for at a path: as before,
or with a new association with a chunk of the default medium named by the path. -/
def FS.Settled (fs : FS) (order : ByteOrder) (path : Bytes) (fileid : UInt64)
    (before after : Dbs) : Prop :=
  after = before ∨
    (∀ mediumid phid size, before.Associated order fileid mediumid phid →
      before.attr UInt64 fileid .size ≠ .ok size) ∧
    ∃ medium, before.getmediumByLabel fs.defmedium = .ok medium ∧
      after = before.associate order fileid medium.id path

namespace FS.Settled

variable {fs : FS} {order : ByteOrder} {path : Bytes} {fileid : UInt64} {before after : Dbs}

theorem sameExcept (settled : fs.Settled order path fileid before after) :
    before.SameExcept fileid [.source, .mediumid, .phid] after := by
  rcases settled with rfl | ⟨_, medium, _, rfl⟩
  · exact .refl _
  · exact Dbs.sameExcept_associate _ _ _ _ _

theorem eq_of_associated {mediumid : UInt32} {phid : Bytes} {size : UInt64}
    (settled : fs.Settled order path fileid before after)
    (associated : before.Associated order fileid mediumid phid)
    (sized : before.attr UInt64 fileid .size = .ok size) : after = before := by
  rcases settled with same | ⟨unassociated, _⟩
  · exact same
  · exact absurd sized (unassociated _ _ _ associated)

end FS.Settled

/-- What asking for the source of a file changes, and what it returns. -/
theorem FS.exec_getsource (fs : FS) (fileid : UInt64) (path : Bytes) (flags : UInt32)
    (world : World) :
    ∃ outcome late, exec (fs.getsource fileid path flags) world = (outcome, late) ∧
      World.CallsSince (Opens flags) (world.withDbs late.dbs) late ∧
      fs.Settled world.order path fileid world.dbs late.dbs ∧
      ∀ source, outcome = .ok source → source.OpenedOn world.order late.dbs fileid := by
  obtain ⟨opened, fails⟩ := Source.exec_getsource fileid flags world
  have calls := callsSince_exec (calls_getsource fileid flags) world
  rw [FS.getsource, exec_catching]
  rcases result : exec (Source.getsource fileid flags) world with ⟨outcome, early⟩
  rw [result] at opened fails calls
  have earlyDbs : early.dbs = world.dbs := calls.dbs
  have earlyOrder : early.order = world.order := calls.order
  have unchanged : World.CallsSince (Opens flags) (world.withDbs early.dbs) early := by
    rw [earlyDbs]
    exact calls
  cases outcome with
  | ok source => exact ⟨_, _, rfl, unchanged, .inl earlyDbs, earlyDbs ▸ opened⟩
  | fault => exact ⟨_, _, rfl, unchanged, .inl earlyDbs, fun _ isOk => by cases isOk⟩
  | error e =>
      cases e with
      | attrNotFound =>
          have unassociated := (fails _ rfl).resolve_left (by simp)
          simp only [Outcome.orElse_error, exec_bind, Medium.exec_getmediumByLabel, earlyDbs]
          cases found : world.dbs.getmediumByLabel fs.defmedium with
          | error e => exact ⟨_, _, rfl, unchanged, .inl earlyDbs, fun _ isOk => by cases isOk⟩
          | ok medium =>
              simp only [Outcome.ofExcept_ok, Outcome.andThen_ok, Medium.addfile, exec_pure,
                exec_perform, fsHandler, Node.exec_setattrv, Node.exec_setattr, earlyDbs,
                earlyOrder, World.withDbs_dbs, World.withDbs_order]
              have again := callsSince_exec (calls_getsource fileid flags)
                (early.withDbs (world.dbs.associate world.order fileid medium.id path))
              have reopened := (Source.exec_getsource fileid flags
                (early.withDbs (world.dbs.associate world.order fileid medium.id path))).1
              rw [← again.dbs, World.withDbs_order, earlyOrder] at reopened
              refine ⟨_, _, rfl, ?_, .inr ⟨unassociated, medium, found, again.dbs⟩, reopened⟩
              exact World.CallsSince.trans (calls.withDbs _) (again.dbs ▸ again)
      | _ => exact ⟨_, _, rfl, unchanged, .inl earlyDbs, fun _ isOk => by cases isOk⟩

/-! ## Handles -/

/-- The source that a file handle refers to. -/
def World.opened (world : World) (fh : Nat) : Option Source :=
  if fh ≥ maxOpenFiles then none else world.openFiles fh

@[simp]
theorem Source.exec_destroy (source : Source) (world : World) :
    exec source.destroy world = (.ok (), world.called (.close source.chunk)) :=
  rfl

namespace FS

@[simp]
theorem exec_handle (fh : Nat) (world : World) :
    exec (handle fh) world = (.ok (world.opened fh), world) := by
  unfold handle World.opened
  split <;> rfl

/-- Opening takes a free slot if there is one. -/
theorem exec_takeSlot (source : Source) (fh remaining : Nat) (world : World) :
    (∃ free, fh ≤ free ∧ free < fh + remaining ∧ world.openFiles free = none ∧
      exec (takeSlot source fh remaining) world =
        (.ok (some free), world.withSlot free (some source))) ∨
    (∀ slot, fh ≤ slot → slot < fh + remaining → world.openFiles slot ≠ none) ∧
      exec (takeSlot source fh remaining) world = (.ok none, world) := by
  induction remaining generalizing fh with
  | zero => exact .inr ⟨fun slot low high => absurd high (by omega), rfl⟩
  | succ remaining ih =>
      simp only [takeSlot, exec_bind, exec_perform, Outcome.andThen_ok, fsHandler]
      cases used : world.openFiles fh with
      | none =>
          left
          refine ⟨fh, le_rfl, by omega, used, ?_⟩
          simp only [exec_bind, exec_perform, Outcome.andThen_ok, fsHandler, used, exec_pure]
      | some other =>
          simp only
          rcases ih (fh + 1) with ⟨free, low, high, isFree, result⟩ | ⟨full, result⟩
          · exact .inl ⟨free, by omega, by omega, isFree, result⟩
          · right
            refine ⟨?_, result⟩
            intro slot low high
            by_cases first : slot = fh
            · rw [first, used]
              simp
            · exact full slot (by omega) (by omega)

end FS

/-- What opening a file changes: its association may be new, a free slot may be
taken by a source of the file, and system calls of opening may have been made. -/
structure OpenResult (fs : FS) (path : Bytes) (fileid : UInt64) (flags : UInt32)
    (world after : World) : Prop where
  dbs : fs.Settled world.order path fileid world.dbs after.dbs
  clock : after.clock = world.clock
  ticks : after.ticks = world.ticks
  reply : after.reply = world.reply
  order : after.order = world.order
  events : ∃ made, after.events = made ++ world.events ∧ ∀ event ∈ made, Opens flags event.call
  openFiles : after.openFiles = world.openFiles ∨ ∃ fh source, fh < maxOpenFiles ∧
    world.openFiles fh = none ∧
    after.openFiles = Function.update world.openFiles fh (some source) ∧
    source.OpenedOn world.order after.dbs fileid

/-- A path that leads a caller to no node but one. -/
def PathCache.LeadsTo (pc : PathCache) (ctx : Context) (world : World) (path : Bytes)
    (id : UInt64) : Prop :=
  ∀ sctx, ctx.sctx = some sctx → ∀ n, (exec (pc.getnode sctx path) world).1 = .ok n → n.id = id

/-- A path leads somewhere or nowhere. -/
theorem PathCache.exists_leadsTo (pc : PathCache) (ctx : Context) (world : World)
    (path : Bytes) : ∃ id, pc.LeadsTo ctx world path id := by
  cases caller : ctx.sctx with
  | none => exact ⟨0, fun sctx isCaller => by rw [caller] at isCaller; cases isCaller⟩
  | some sctx =>
      rcases result : exec (pc.getnode sctx path) world with ⟨outcome, after⟩
      cases outcome with
      | ok n =>
          refine ⟨n.id, ?_⟩
          intro sctx' isCaller n' found
          rw [caller] at isCaller
          cases isCaller
          rw [result] at found
          cases found
          rfl
      | _ =>
          refine ⟨0, ?_⟩
          intro sctx' isCaller n' found
          rw [caller] at isCaller
          cases isCaller
          rw [result] at found
          cases found

theorem PathCache.leadsTo_of_found {pc : PathCache} {ctx : Context} {world : World}
    {path : Bytes} {sctx : SContext} {n : NodeRef} (caller : ctx.sctx = some sctx)
    (found : (exec (pc.getnode sctx path) world).1 = .ok n) :
    pc.LeadsTo ctx world path n.id := by
  intro sctx' isCaller n' found'
  rw [caller] at isCaller
  cases isCaller
  rw [found] at found'
  cases found'
  rfl

section Requests

variable {fs : FS} {world : World} {path : Bytes} {fileid : UInt64}

theorem OpenResult.withCache {flags : UInt32} (cache : PathCacheState) :
    OpenResult fs path fileid flags world (world.withCache cache) :=
  ⟨.inl rfl, rfl, rfl, rfl, rfl, ⟨[], rfl, by simp⟩, .inl rfl⟩

theorem OpenResult.of_calls {flags : UInt32} {cache : PathCacheState} {after : World}
    (calls : World.CallsSince (Opens flags) ((world.withCache cache).withDbs after.dbs) after)
    (settled : fs.Settled world.order path fileid world.dbs after.dbs) :
    OpenResult fs path fileid flags world after where
  dbs := settled
  clock := calls.clock
  ticks := calls.ticks
  reply := calls.reply
  order := calls.order
  events := calls.events
  openFiles := .inl calls.openFiles

/-- A source that was opened is entered into the table, or destroyed. -/
private theorem openResult_install {flags : UInt32} {cache : PathCacheState} {after : World}
    {source : Source}
    (calls : World.CallsSince (Opens flags) ((world.withCache cache).withDbs after.dbs) after)
    (settled : fs.Settled world.order path fileid world.dbs after.dbs)
    (opened : source.OpenedOn world.order after.dbs fileid) :
    OpenResult fs path fileid flags world (exec (FS.install source) after).2 := by
  have result : OpenResult fs path fileid flags world after := .of_calls calls settled
  simp only [FS.install, exec_bind]
  rcases FS.exec_takeSlot source 0 maxOpenFiles after with
    ⟨fh, _, low, free, taken⟩ | ⟨_, full⟩
  · simp only [taken, Outcome.andThen_ok, exec_pure]
    have openFiles : after.openFiles = world.openFiles := calls.openFiles
    rw [openFiles] at free
    exact {
      dbs := result.dbs, clock := result.clock, ticks := result.ticks
      reply := result.reply, order := result.order, events := result.events
      openFiles := .inr ⟨fh, source, by omega, free, by simp [World.withSlot, openFiles],
        opened⟩ }
  · simp only [full, Outcome.andThen_ok, exec_bind, Source.exec_destroy, exec_pure]
    exact .of_calls (calls.trans (.called trivial)) settled

/-- The caller's path leads to a file, and the file's mode admits the caller with
the access the flags ask for. -/
def FS.Admits (fs : FS) (ctx : Context) (world : World) (path : Bytes) (flags : UInt32)
    (id : UInt64) : Prop :=
  ∃ sctx, ctx.sctx = some sctx ∧
    (exec (fs.pcache.getnode sctx path) world).1 = .ok ⟨id, .file⟩ ∧
    (flags &&& oAccmode = oRdonly ∨ flags &&& oAccmode = oRdwr →
      world.dbs.access id sctx rOk = .ok ()) ∧
    (flags &&& oAccmode = oWronly ∨ flags &&& oAccmode = oRdwr →
      world.dbs.access id sctx wOk = .ok ())

theorem PathCache.LeadsTo.admits {ctx : Context} (leads : fs.pcache.LeadsTo ctx world path fileid)
    {flags : UInt32} {id : UInt64} (admits : fs.Admits ctx world path flags id) : id = fileid := by
  obtain ⟨sctx, caller, found, _⟩ := admits
  exact leads sctx caller ⟨id, .file⟩ found

private theorem exec_checked (condition : Prop) [Decidable condition] (n : NodeRef)
    (sctx : SContext) (mode : UInt32) (current : World) :
    ∃ checked : Except Err Unit,
      exec (onlyIf condition (Node.access n sctx mode)) current =
        (.ofExcept checked, current) ∧
      (checked = .ok () → condition → current.dbs.access n.id sctx mode = .ok ()) := by
  unfold onlyIf
  split
  · exact ⟨_, Node.exec_access _ _ _ _, fun granted _ => granted⟩
  · exact ⟨.ok (), rfl, fun _ asked => absurd asked ‹_›⟩

/-- Opening gets to the source of a file only when the file admits the caller. -/
theorem exec_openFile_admits (sound : fs.pcache.Sound) (ctx : Context) (flags : UInt32)
    (admitted : ∀ id, fs.Admits ctx world path flags id → id = fileid) :
    OpenResult fs path fileid flags world (exec (fs.openFile ctx path flags) world).2 ∧
      ((exec (fs.openFile ctx path flags) world).2.dbs = world.dbs ∨
        fs.Admits ctx world path flags fileid) := by
  let Opening (after : World) : Prop := OpenResult fs path fileid flags world after ∧
    (after.dbs = world.dbs ∨ fs.Admits ctx world path flags fileid)
  have unopened : ∀ cache, Opening (world.withCache cache) :=
    fun cache => ⟨.withCache cache, .inl rfl⟩
  change Opening (exec (fs.openFile ctx path flags) world).2
  apply request_induction
  · rintro after ⟨result, unchanged⟩
    exact ⟨⟨result.dbs, result.clock, result.ticks, result.reply, result.order,
      result.events, result.openFiles⟩, unchanged⟩
  · exact unopened world.cache
  intro sctx caller
  obtain ⟨outcome, cache, resolved, _⟩ := sound.getnode sctx path world
  have start := unopened cache
  simp only [exec_bind, resolved]
  cases outcome with
  | error => exact start
  | fault => exact start
  | ok n =>
      obtain ⟨id, kind⟩ := n
      simp only [Outcome.andThen_ok, Node.exec_cast]
      by_cases file : kind = .file
      · subst file
        simp only [if_true, Outcome.andThen_ok]
        obtain ⟨readable, readCheck, reads⟩ := exec_checked
          (flags &&& oAccmode = oRdonly ∨ flags &&& oAccmode = oRdwr) ⟨id, .file⟩ sctx rOk
          (world.withCache cache)
        obtain ⟨writable, writeCheck, writes⟩ := exec_checked
          (flags &&& oAccmode = oWronly ∨ flags &&& oAccmode = oRdwr) ⟨id, .file⟩ sctx wOk
          (world.withCache cache)
        rw [readCheck]
        cases readable with
        | error => exact start
        | ok =>
            simp only [Outcome.ofExcept_ok, Outcome.andThen_ok, writeCheck]
            cases writable with
            | error => exact start
            | ok =>
                have admits : fs.Admits ctx world path flags id :=
                  ⟨sctx, caller, by rw [resolved], reads rfl, writes rfl⟩
                obtain rfl : id = fileid := admitted id admits
                obtain ⟨outcome, late, got, calls, settled, opened⟩ :=
                  fs.exec_getsource id path flags (world.withCache cache)
                simp only [Outcome.ofExcept_ok, Outcome.andThen_ok, got]
                refine ⟨?_, .inr admits⟩
                cases outcome with
                | error => exact .of_calls calls settled
                | fault => exact .of_calls calls settled
                | ok source => exact openResult_install calls settled (opened source rfl)
      · simp only [file, if_false]
        exact start

theorem exec_openFile (sound : fs.pcache.Sound) (ctx : Context) (flags : UInt32)
    (leads : fs.pcache.LeadsTo ctx world path fileid) :
    OpenResult fs path fileid flags world (exec (fs.openFile ctx path flags) world).2 :=
  (exec_openFile_admits sound ctx flags fun _ => leads.admits).1

/-- A world in which a node's attribute was set to the current time. -/
@[simps! dbs openFiles clock ticks reply order events]
def World.stamped (world : World) (id : UInt64) (attr : Attr) : World :=
  world.tick.withDbs (world.dbs.setattr id attr world.now)

@[simp]
theorem Node.exec_setTime_eq_stamped (id : UInt64) (attr : Attr) (current : World) :
    exec (Node.setTime id attr) current = (.ok (), current.stamped id attr) :=
  rfl

/-- A world in which a source has truncated its file and was closed. -/
def World.truncated (world : World) (source : Source) (length : UInt64) : World :=
  let stamped := world.stamped source.fileid .mtime
  ((stamped.withDbs (stamped.dbs.setattr source.fileid .size length)).called
    (.ftruncate source.chunk length)).called (.close source.chunk)

/-- A world in which a file was stamped and its source then asked for. -/
structure World.StampedThen (fs : FS) (path : Bytes) (fileid : UInt64) (world late : World) :
    Prop where
  calls : World.CallsSince (Opens oWronly)
    (((world.stamped fileid .mtime).stamped fileid .ctime).withDbs late.dbs) late
  dbs : fs.Settled world.order path fileid
    ((world.stamped fileid .mtime).stamped fileid .ctime).dbs late.dbs

/-- How far truncating a file got: it was refused, or the medium failed after
the file was stamped, or it was carried out. -/
inductive TruncateResult (fs : FS) (path : Bytes) (fileid : UInt64) (length : UInt64)
    (world : World) : Outcome Err Int × World → Prop
  | refused {outcome : Outcome Err Int} {after : World} (code : outcome ≠ .ok 0)
      (alike : world.Alike after) :
      TruncateResult fs path fileid length world (outcome, after)
  | failed {outcome : Outcome Err Int} {base late after : World} (code : outcome ≠ .ok 0)
      (start : world.Alike base) (stamped : base.StampedThen fs path fileid late)
      (alike : late.Alike after) :
      TruncateResult fs path fileid length world (outcome, after)
  | done {base late after : World} {source : Source} (start : world.Alike base)
      (stamped : base.StampedThen fs path fileid late)
      (opened : source.OpenedOn world.order late.dbs fileid)
      (alike : (late.truncated source length).Alike after) :
      TruncateResult fs path fileid length world (.ok 0, after)

theorem exec_ftruncate (source : Source) (length : UInt64) (current : World) :
    ∃ result middle, exec (source.ftruncate length) current = (.ok result, middle) ∧
      (current.truncated source length).Alike (middle.called (.close source.chunk)) := by
  simp only [Source.ftruncate, exec_fsTxn, exec_bind, exec_perform, Outcome.andThen_ok, fsHandler,
    Node.exec_setattr, ChunkFile.ftruncate, sys]
  split
  · exact ⟨_, _, rfl, rfl, rfl, rfl, rfl, rfl, rfl, rfl⟩
  · exact ⟨_, _, rfl, rfl, rfl, rfl, rfl, rfl, rfl, rfl⟩

theorem errcode_ne_zero (e : Err) : errcode e ≠ 0 := by
  cases e with
  | badCast target => cases target <;> decide
  | _ => decide

theorem ok_errcode_ne (e : Err) : (.ok (errcode e) : Outcome Err Int) ≠ .ok 0 := by
  simp [errcode_ne_zero]

/-- The part of truncating that comes after the stamps. -/
private theorem truncateResult_opened {length : UInt64} {base : World}
    (start : world.Alike base) :
    TruncateResult fs path fileid length world
      (handling errcode
        (Outcome.andThen
          (exec (fs.getsource fileid path oWronly)
            ((base.stamped fileid .mtime).stamped fileid .ctime))
          fun source current => Outcome.andThen (exec commitTxn current) fun _ current =>
            Outcome.andThen (exec (source.ftruncate length) current) fun _ current =>
              Outcome.andThen (exec source.destroy current) fun _ current =>
                (.ok 0, current))) := by
  have alike := World.Alike.committedAll
  obtain ⟨outcome, late, got, calls, settled, opened⟩ := fs.exec_getsource fileid path oWronly
    ((base.stamped fileid .mtime).stamped fileid .ctime)
  have stamped : base.StampedThen fs path fileid late := ⟨calls, settled⟩
  rw [got]
  cases outcome with
  | error e => exact .failed (ok_errcode_ne e) start stamped (alike _)
  | fault => exact .failed nofun start stamped (.refl _)
  | ok source =>
      obtain ⟨committed, commits, sameTruncation⟩ : ∃ committed,
          exec commitTxn late = (.ok (), committed) ∧
            (late.truncated source length).Alike (committed.truncated source length) :=
        ⟨_, rfl, rfl, rfl, rfl, rfl, rfl, rfl, rfl⟩
      obtain ⟨result, middle, ran, truncated⟩ := exec_ftruncate source length committed
      simp only [Outcome.andThen_ok, commits, ran, Source.exec_destroy]
      have isOpened := opened source rfl
      rw [World.stamped_order, World.stamped_order, start.order] at isOpened
      exact .done start stamped isOpened ((sameTruncation.trans truncated).trans (alike _))

/-- Truncating gets to the source of a file only when the file admits the caller. -/
theorem exec_truncate_admits (sound : fs.pcache.Sound) (ctx : Context) (length : UInt64)
    (admitted : ∀ id, fs.Admits ctx world path oWronly id → id = fileid) :
    TruncateResult fs path fileid length world (exec (fs.truncate ctx path length) world) ∧
      ((exec (fs.truncate ctx path length) world).2.dbs = world.dbs ∨
        fs.Admits ctx world path oWronly fileid) := by
  have refused : ∀ {outcome : Outcome Err Int} {after : World}, outcome ≠ .ok 0 →
      world.Alike after → TruncateResult fs path fileid length world (outcome, after) ∧
        (after.dbs = world.dbs ∨ fs.Admits ctx world path oWronly fileid) :=
    fun code alike => ⟨.refused code alike, .inl alike.dbs⟩
  have alike := World.Alike.committedAll
  simp only [FS.truncate, exec_request]
  cases caller : ctx.sctx with
  | none => exact refused (by decide) (alike _)
  | some sctx =>
      obtain ⟨outcome, cache, resolved, _⟩ := sound.getnode sctx path world
      simp only [exec_bind, resolved]
      have cached := World.Alike.withCache world cache
      cases outcome with
      | error e => exact refused (ok_errcode_ne e) (cached.trans (alike _))
      | fault => exact refused (by simp) cached
      | ok n =>
          obtain ⟨id, kind⟩ := n
          simp only [Outcome.andThen_ok, Node.exec_cast]
          by_cases file : kind = .file
          · subst file
            simp only [if_true, Outcome.andThen_ok, Node.exec_access]
            cases granted : (world.withCache cache).dbs.access id sctx wOk with
            | error e => exact refused (ok_errcode_ne e) (cached.trans (alike _))
            | ok =>
                have admits : fs.Admits ctx world path oWronly id :=
                  ⟨sctx, caller, by rw [resolved], fun reads => absurd reads (by decide),
                    fun _ => granted⟩
                obtain rfl : id = fileid := admitted id admits
                simp only [Outcome.ofExcept_ok, Outcome.andThen_ok, Node.exec_setTime_eq_stamped]
                exact ⟨truncateResult_opened cached, .inr admits⟩
          · simp only [file, if_false]
            exact refused (ok_errcode_ne _) (cached.trans (alike _))

theorem exec_truncate (sound : fs.pcache.Sound) (ctx : Context) (length : UInt64)
    (leads : fs.pcache.LeadsTo ctx world path fileid) :
    TruncateResult fs path fileid length world (exec (fs.truncate ctx path length) world) :=
  (exec_truncate_admits sound ctx length fun _ => leads.admits).1

/-- Setting the times of a file explicitly is refused, or sets both. -/
theorem exec_utimens (sound : fs.pcache.Sound) (ctx : Context) (atime mtime : UInt64)
    (leads : fs.pcache.LeadsTo ctx world path fileid) :
    ∃ outcome after, exec (fs.utimens ctx path (some (atime, mtime))) world = (outcome, after) ∧
      ((outcome ≠ .ok 0 ∧ world.Alike after) ∨
        outcome = .ok 0 ∧ (world.withDbs
          ((world.dbs.setattr fileid .atime atime).setattr fileid .mtime mtime)).Alike after) := by
  have alike := World.Alike.committedAll
  simp only [FS.utimens, exec_request]
  cases caller : ctx.sctx with
  | none => exact ⟨_, _, rfl, .inl ⟨by decide, alike _⟩⟩
  | some sctx =>
      obtain ⟨outcome, cache, resolved, _⟩ := sound.getnode sctx path world
      simp only [exec_bind, resolved]
      have cached := World.Alike.withCache world cache
      cases outcome with
      | error e => exact ⟨_, _, rfl, .inl ⟨ok_errcode_ne e, cached.trans (alike _)⟩⟩
      | fault => exact ⟨_, _, rfl, .inl ⟨nofun, cached⟩⟩
      | ok n =>
          obtain ⟨id, kind⟩ := n
          obtain rfl : id = fileid := leads sctx caller ⟨id, kind⟩ (by rw [resolved])
          have sets : (world.withDbs ((world.dbs.setattr id .atime atime).setattr id .mtime
              mtime)).Alike ((world.withCache cache).withDbs
                ((world.dbs.setattr id .atime atime).setattr id .mtime mtime)).committedAll :=
            ⟨rfl, rfl, rfl, rfl, rfl, rfl, rfl⟩
          simp only [Outcome.andThen_ok]
          by_cases root : sctx.uid = 0
          · simp only [root, ne_eq, not_true, if_false, if_true, exec_pure, Outcome.andThen_ok]
            exact ⟨_, _, rfl, .inr ⟨rfl, sets⟩⟩
          · simp only [ne_eq, root, not_false_eq_true, if_true, exec_bind, Node.exec_getattr]
            cases (world.withCache cache).dbs.attr UInt32 id .uid with
            | error e => exact ⟨_, _, rfl, .inl ⟨ok_errcode_ne e, cached.trans (alike _)⟩⟩
            | ok uid =>
                simp only [Outcome.ofExcept_ok, Outcome.andThen_ok, exec_pure]
                by_cases owner : sctx.uid = uid
                · simp only [owner]
                  exact ⟨_, _, rfl, .inr ⟨rfl, sets⟩⟩
                · simp only [owner]
                  exact ⟨_, _, rfl, .inl ⟨by decide, cached.trans (alike _)⟩⟩

end Requests

namespace Source

@[simp]
theorem exec_writeBack (fileid : UInt64) (attr : Attr) (cached : UInt64) (world : World) :
    exec (writeBack fileid attr cached) world =
      match world.dbs.attr UInt64 fileid attr with
      | .ok stored => (.ok (), world.withDbs (world.dbs.raised fileid attr stored cached))
      | .error e => (.error e, world) := by
  simp only [writeBack, exec_bind, Node.exec_getattr]
  cases world.dbs.attr UInt64 fileid attr with
  | error e => rfl
  | ok stored =>
      simp only [Outcome.ofExcept_ok, Outcome.andThen_ok, Dbs.raised]
      split <;> rfl

/-- A flush stores the cached size, when the size can be read. -/
theorem exec_flush_size {source : Source} {world : World} {stored : UInt64}
    (sized : world.dbs.attr UInt64 source.fileid .size = .ok stored) :
    ∃ outcome after, exec source.flush world = (outcome, after) ∧
      (world.withDbs after.dbs).Alike after ∧
      after.dbs.attr UInt64 source.fileid .size = .ok (larger stored source.size) ∧
      world.dbs.SameExcept source.fileid [.size, .atime, .mtime] after.dbs := by
  have first : world.dbs.SameExcept source.fileid [.size, .atime, .mtime]
      (world.dbs.raised source.fileid .size stored source.size) :=
    Dbs.SameExcept.raised (by simp) _ _
  have sizeRead := Dbs.attr_raised_self source.size sized
  simp only [flush, exec_fsTxn, exec_bind, exec_writeBack, sized, Outcome.andThen_ok,
    World.withDbs_dbs]
  cases (world.dbs.raised source.fileid .size stored source.size).attr UInt64
      source.fileid .atime with
  | error e => exact ⟨_, _, rfl, ⟨rfl, rfl, rfl, rfl, rfl, rfl, rfl⟩, sizeRead, first⟩
  | ok accessed =>
      have second :=
        first.trans (Dbs.SameExcept.raised (by simp : Attr.atime ∈ _) accessed source.atime)
      simp only [Outcome.andThen_ok, World.withDbs_dbs]
      cases ((world.dbs.raised source.fileid .size stored source.size).raised source.fileid
          .atime accessed source.atime).attr UInt64 source.fileid .mtime with
      | error e =>
          refine ⟨_, _, rfl, ⟨rfl, rfl, rfl, rfl, rfl, rfl, rfl⟩, ?_, second⟩
          exact (Dbs.attr_raised_of_ne (.inr (by decide))).trans sizeRead
      | ok modified =>
          have third :=
            second.trans (Dbs.SameExcept.raised (by simp : Attr.mtime ∈ _) modified source.mtime)
          refine ⟨_, _, rfl, ⟨rfl, rfl, rfl, rfl, rfl, rfl, rfl⟩, ?_, third⟩
          refine (Dbs.attr_raised_of_ne (.inr (by decide))).trans ?_
          exact (Dbs.attr_raised_of_ne (.inr (by decide))).trans sizeRead

/-- A flush of a file with all its attributes merges the three cached values. -/
theorem exec_flush_times {source : Source} {world : World} {size accessed modified : UInt64}
    (sized : world.dbs.attr UInt64 source.fileid .size = .ok size)
    (accessedAt : world.dbs.attr UInt64 source.fileid .atime = .ok accessed)
    (modifiedAt : world.dbs.attr UInt64 source.fileid .mtime = .ok modified) :
    exec source.flush world = (.ok 0, (world.withDbs
      (((world.dbs.raised source.fileid .size size source.size).raised source.fileid .atime
        accessed source.atime).raised source.fileid .mtime modified
          source.mtime)).committedAll) := by
  have afterSize : (world.dbs.raised source.fileid .size size source.size).attr UInt64
      source.fileid .atime = .ok accessed :=
    (Dbs.attr_raised_of_ne (.inr (by decide))).trans accessedAt
  have afterAccess : ((world.dbs.raised source.fileid .size size source.size).raised
      source.fileid .atime accessed source.atime).attr UInt64 source.fileid .mtime =
        .ok modified :=
    (Dbs.attr_raised_of_ne (.inr (by decide))).trans
      ((Dbs.attr_raised_of_ne (.inr (by decide))).trans modifiedAt)
  simp only [flush, exec_fsTxn, exec_bind, exec_writeBack, sized, Outcome.andThen_ok,
    World.withDbs_dbs, afterSize, afterAccess]
  rfl

end Source

namespace FS

section Handles

variable {fh : Nat} {source : Source} {world : World}

theorem exec_read (opened : world.opened fh = some source) (nbyte offset : UInt64) :
    ∃ result, exec (read fh nbyte offset) world =
      (.ok result, (world.tick.called (.pread source.chunk nbyte offset)).withSlot fh
        (some { source with atime := world.now })) := by
  simp only [read, exec_bind, exec_handle, opened, Outcome.andThen_ok, Source.read,
    exec_perform, fsHandler, ChunkFile.read, sys]
  split <;> exact ⟨_, rfl⟩

theorem exec_write (opened : world.opened fh = some source) (buf : Bytes) (offset : UInt64) :
    ∃ result, exec (write fh buf offset) world =
      (.ok result, (world.tick.called (.pwrite source.chunk buf offset)).withSlot fh
        (some { source with
          mtime := world.now, size := source.grown (UInt64.ofNat buf.length) offset })) := by
  simp only [write, exec_bind, exec_handle, opened, Outcome.andThen_ok, Source.write,
    exec_perform, fsHandler, ChunkFile.write, sys]
  split <;> exact ⟨_, rfl⟩

theorem exec_flush (opened : world.opened fh = some source) :
    exec (flush fh) world = exec source.flush world := by
  simp only [flush, exec_bind, exec_handle, opened, Outcome.andThen_ok]

theorem exec_release (opened : world.opened fh = some source) :
    exec (release fh) world =
      (.ok 0, (world.called (.close source.chunk)).withSlot fh none) := by
  simp only [release, exec_bind, exec_handle, opened, Outcome.andThen_ok]
  rfl

theorem exec_fsync_data (opened : world.opened fh = some source) :
    ∃ result, exec (fsync fh true) world =
      (.ok result, world.called (.fdatasync source.chunk)) := by
  simp only [fsync, exec_bind, exec_handle, opened, Outcome.andThen_ok, Source.fsync, if_true,
    ChunkFile.fsync, sys, exec_perform, fsHandler]
  split <;> exact ⟨_, rfl⟩

/-- Synchronising more than the data flushes first. -/
theorem exec_fsync_all (opened : world.opened fh = some source) :
    ∃ result : World → Int, exec (fsync fh false) world =
      Outcome.andThen (exec source.flush world) fun _ after =>
        (.ok (result after), after.called (.fsync source.chunk)) := by
  refine ⟨fun after => (after.answer (.fsync source.chunk)).errno.elim 0 fun _ => -1, ?_⟩
  simp only [fsync, exec_bind, exec_handle, opened, Outcome.andThen_ok, Source.fsync,
    Bool.false_eq_true, if_false]
  congr 1
  funext _ after
  simp only [ChunkFile.fsync, sys, Bool.false_eq_true, if_false, exec_bind, exec_perform,
    fsHandler, Outcome.andThen_ok]
  cases (after.answer (.fsync source.chunk)).errno <;> rfl

/-- A request on a handle that is not open changes nothing. -/
theorem exec_not_opened (notOpened : world.opened fh = none) (nbyte offset : UInt64)
    (buf : Bytes) (datasync : Bool) :
    (exec (read fh nbyte offset) world).2 = world ∧
      (exec (write fh buf offset) world).2 = world ∧
      (exec (flush fh) world).2 = world ∧ (exec (release fh) world).2 = world ∧
      (exec (fsync fh datasync) world).2 = world := by
  simp [read, write, flush, release, fsync, notOpened]

end Handles

end FS

end OfflineFs
