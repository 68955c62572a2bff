import Mathlib.Algebra.BigOperators.Group.List.Basic
import Mathlib.Data.UInt
import OfflineFs.Media.Registers
import OfflineFs.Model.Statistics
import OfflineFs.Run.Files
import OfflineFs.Run.Start

/-!
# What the filesystem reports about its media

The space on the media is added up when every medium is known and can be measured, and nothing
is reported otherwise.  What the media tool stores as the size of a volume is counted as such.
-/

namespace OfflineFs

open OfflineFs.Effect OfflineFs.Effect.Program Offmedia

variable {statvfs : Bytes → Option Statvfs} {world : World} {dbs : Dbs} {m : Medium}
variable {mid : UInt32} {kind : MediumKind} {stats : Stats}

/-! ## One medium -/

/-- The number that a text attribute of a medium is read as, 0 if there is none. -/
def Dbs.volume (dbs : Dbs) (mid : UInt32) (name : Bytes) : UInt64 :=
  (dbs.media[(⟨mid, name⟩ : Key UInt32)]?).elim 0 extractUnsigned

/-- What a medium of a class has room for.  The free size of a volume counts only when there is
a total size. -/
inductive Measures (statvfs : Bytes → Option Statvfs) (dbs : Dbs) (mid : UInt32) :
    MediumKind → Stats → Prop
  | directory {directory : Bytes} {st : Statvfs}
      (stored : dbs.media[(⟨mid, str "directory"⟩ : Key UInt32)]? = some directory)
      (answered : statvfs directory = some st) :
      Measures statvfs dbs mid .directory ⟨st.f_blocks * st.f_frsize, st.f_bfree * st.f_frsize⟩
  | insert : Measures statvfs dbs mid .insert
      ⟨dbs.volume mid (str "total_size"),
        if dbs.media[(⟨mid, str "total_size"⟩ : Key UInt32)]? = none then 0
        else dbs.volume mid (str "free_size")⟩

theorem Medium.exec_getattrv (id : UInt32) (name : Bytes) (world : World) :
    exec (Medium.getattrv id name) world =
      match world.dbs.media[(⟨id, name⟩ : Key UInt32)]? with
      | some value => (.ok value, world)
      | none => (.error .runtime, world) := by
  simp only [Medium.getattrv, exec_bind, exec_perform, fsHandler, Outcome.andThen_ok]
  cases world.dbs.media[(⟨id, name⟩ : Key UInt32)]? <;> rfl

/-- A medium is measured, or there is an exception. -/
theorem exec_getstats (statvfs : Bytes → Option Statvfs) (m : Medium) (world : World) :
    (∃ stats, Measures statvfs world.dbs m.id m.kind stats ∧
        exec (m.getstats statvfs) world = (.ok stats, world)) ∨
      (∀ stats, ¬Measures statvfs world.dbs m.id m.kind stats) ∧
        exec (m.getstats statvfs) world = (.error .runtime, world) := by
  rcases m with ⟨mid, kind⟩
  cases kind with
  | directory =>
      simp only [Medium.getstats, Medium.getstatsDirectory, exec_bind, Medium.exec_getattrv]
      cases stored : world.dbs.media[(⟨mid, str "directory"⟩ : Key UInt32)]? with
      | none =>
          refine .inr ⟨fun stats measures => ?_, rfl⟩
          cases measures with
          | directory isStored =>
              rw [stored] at isStored
              cases isStored
      | some directory =>
          cases answered : statvfs directory with
          | none =>
              refine .inr ⟨fun stats measures => ?_, by simp [answered]⟩
              cases measures with
              | directory isStored isAnswer =>
                  rw [stored, Option.some.injEq] at isStored
                  rw [← isStored, answered] at isAnswer
                  cases isAnswer
          | some st => exact .inl ⟨_, .directory stored answered, by simp [answered]⟩
  | insert =>
      refine .inl ⟨_, .insert, ?_⟩
      simp only [Medium.getstats, Medium.getstatsInsert, exec_catching, exec_bind,
        Medium.exec_getattrv, Dbs.volume]
      cases total : world.dbs.media[(⟨mid, str "total_size"⟩ : Key UInt32)]? with
      | none => rfl
      | some text =>
          cases free : world.dbs.media[(⟨mid, str "free_size"⟩ : Key UInt32)]? <;> simp [free]

theorem Measures.eq {other : Stats} (measures : Measures statvfs dbs mid kind stats)
    (again : Measures statvfs dbs mid kind other) : stats = other := by
  cases measures with
  | directory stored answered =>
      cases again with
      | directory isStored isAnswer =>
          rw [stored, Option.some.injEq] at isStored
          rw [← isStored, answered, Option.some.injEq] at isAnswer
          rw [isAnswer]
  | insert =>
      cases again with
      | insert => rfl

/-- The space on a medium of the database, where its class is known and it can be measured. -/
def Dbs.Room (statvfs : Bytes → Option Statvfs) (dbs : Dbs) (mid : UInt32) (stats : Stats) :
    Prop :=
  ∃ kind, dbs.getmedium mid = .ok ⟨mid, kind⟩ ∧ Measures statvfs dbs mid kind stats

/-- There is one answer about the room on a medium. -/
theorem Dbs.Room.eq {other : Stats} (room : dbs.Room statvfs mid stats)
    (again : dbs.Room statvfs mid other) : stats = other := by
  obtain ⟨kind, found, measures⟩ := room
  obtain ⟨kind', again, measured⟩ := again
  rw [found, Except.ok.injEq, Medium.mk.injEq] at again
  obtain rfl := again.2
  exact measures.eq measured

/-- A volume whose sizes are stored as numerals. -/
theorem room_volume {total free : Nat}
    (isInsert : dbs.media[(⟨mid, str "type"⟩ : Key UInt32)]? = some (str "insert"))
    (isTotal : dbs.media[(⟨mid, str "total_size"⟩ : Key UInt32)]? = some (numeral 10 total))
    (isFree : dbs.media[(⟨mid, str "free_size"⟩ : Key UInt32)]? = some (numeral 10 free))
    (totalFits : total < 2 ^ 64) (freeFits : free < 2 ^ 64) :
    dbs.Room statvfs mid ⟨UInt64.ofNat total, UInt64.ofNat free⟩ := by
  have extract {number : Nat} (fits : number < 2 ^ 64) :
      extractUnsigned (numeral 10 number) = UInt64.ofNat number := by
    have bound : number < 256 ^ HostInt.size UInt64 := fits
    rw [extractUnsigned, readInteger_numeral (by decide) (by decide),
      readUnsigned_numeral UInt64 (by decide) (by decide), if_pos bound]
    rfl
  have known : dbs.getmedium mid = .ok ⟨mid, .insert⟩ := by
    have other : str "insert" ≠ str "directory" := by decide +kernel
    simp only [Dbs.getmedium, isInsert, if_neg other, if_true]
  have measures : Measures statvfs dbs mid .insert _ := .insert
  rw [Dbs.volume, Dbs.volume, isTotal, isFree, if_neg (Option.some_ne_none _)] at measures
  simp only [Option.elim_some, extract totalFits, extract freeFits] at measures
  exact ⟨.insert, known, measures⟩

/-! ## All media -/

/-- Where each medium has room the loop adds it up, and otherwise there is an exception. -/
theorem exec_sumStats (statvfs : Bytes → Option Statvfs) (mids : List UInt32) (st : Stats)
    (world : World) :
    (∃ sizes, List.Forall₂ (world.dbs.Room statvfs) mids sizes ∧
        exec (FS.sumStats statvfs st mids) world =
          (.ok ⟨st.total + (sizes.map Stats.total).sum, st.free + (sizes.map Stats.free).sum⟩,
            world)) ∨
      (∃ mid ∈ mids, ∀ stats, ¬world.dbs.Room statvfs mid stats) ∧
        exec (FS.sumStats statvfs st mids) world = (.error .runtime, world) := by
  induction mids generalizing st with
  | nil => exact .inl ⟨[], .nil, by simp [FS.sumStats]⟩
  | cons mid rest ih =>
      simp only [FS.sumStats, exec_bind, Medium.exec_getmedium]
      cases found : world.dbs.getmedium mid with
      | error e =>
          have thrown : e = .runtime := Dbs.getmedium_error found
          refine .inr ⟨⟨mid, List.mem_cons_self, fun stats room => ?_⟩, by rw [thrown]; rfl⟩
          obtain ⟨kind, isKnown, -⟩ := room
          rw [found] at isKnown
          cases isKnown
      | ok m =>
          obtain rfl : m.id = mid := Dbs.getmedium_ok found
          simp only [Outcome.ofExcept_ok, Outcome.andThen_ok]
          rcases exec_getstats statvfs m world with
            ⟨own, measures, runs⟩ | ⟨unmeasured, throws⟩
          · rw [runs]
            simp only [Outcome.andThen_ok]
            rcases ih ⟨st.total + own.total, st.free + own.free⟩ with
              ⟨sizes, rooms, runs⟩ | ⟨⟨other, member, noRoom⟩, throws⟩
            · refine .inl ⟨own :: sizes, .cons ⟨m.kind, found, measures⟩ rooms, ?_⟩
              rw [runs]
              simp only [List.map_cons, List.sum_cons, UInt64.add_assoc]
            · exact .inr ⟨⟨other, List.mem_cons_of_mem _ member, noRoom⟩, throws⟩
          · refine .inr ⟨⟨m.id, List.mem_cons_self, fun stats room => ?_⟩, by rw [throws]; rfl⟩
            obtain ⟨kind, isKnown, measures⟩ := room
            rw [found, Except.ok.injEq] at isKnown
            rw [isKnown] at unmeasured
            exact unmeasured stats measures

/-- A transaction around the loop. -/
theorem exec_statfs (statvfs : Bytes → Option Statvfs) (world : World) :
    exec (FS.statfs statvfs) world =
      match exec (FS.sumStats statvfs {} (getregisters world.dbs.media)) world with
      | (.ok st, after) => (.ok (0, some ⟨4096, 4096, st.total / 4096, st.free / 4096,
          st.free / 4096, 0⟩), after.committedAll)
      | (.error e, after) => (.ok (errcode e, none), after.committedAll)
      | (.fault stop, after) => (.fault stop, after) := by
  have scan : world.dbs.mediaIds = getregisters world.dbs.media := rfl
  simp only [FS.statfs, exec_catching, exec_fsTxn, exec_bind, exec_perform, fsHandler,
    Outcome.andThen_ok, scan]
  rcases exec (FS.sumStats statvfs {} (getregisters world.dbs.media)) world with ⟨outcome, after⟩
  cases outcome <;> rfl

theorem toNat_sum (values : List UInt64) :
    values.sum.toNat = (values.map UInt64.toNat).sum % 2 ^ 64 := by
  induction values with
  | nil => rfl
  | cons value values ih =>
      rw [List.sum_cons, List.map_cons, List.sum_cons, UInt64.toNat_add, ih, Nat.add_mod_mod]

/-- The sums over the media, in blocks of 4096 bytes: each medium in use counts once, and the
sums are taken modulo 2^64.  If a medium is not known or cannot be measured there is an error.
A volume counts with the sizes that are stored for it as numerals.  The databases stay as they
are. -/
theorem statfs_sums (idsLeft : IdsLeft world.dbs.media) (statvfs : Bytes → Option Statvfs) :
    (exec (FS.statfs statvfs) world).2.dbs = world.dbs ∧
      ((∃ mids sizes, mids.Pairwise (· < ·) ∧
          (∀ mid, mid ∈ mids ↔ ∃ name, world.dbs.media[(⟨mid, name⟩ : Key UInt32)]? ≠ none) ∧
          List.Forall₂ (world.dbs.Room statvfs) mids sizes ∧
          ∃ blocks free : UInt64,
            (exec (FS.statfs statvfs) world).1 = .ok (0, some ⟨4096, 4096, blocks, free, free, 0⟩) ∧
            blocks.toNat = (sizes.map fun stats => stats.total.toNat).sum % 2 ^ 64 / 4096 ∧
            free.toNat = (sizes.map fun stats => stats.free.toNat).sum % 2 ^ 64 / 4096) ∨
        (∃ key : Key UInt32, world.dbs.media[key]? ≠ none ∧
            ∀ stats, ¬world.dbs.Room statvfs key.id stats) ∧
          (exec (FS.statfs statvfs) world).1 = .ok (-eIo, none)) ∧
      ∀ (mid : UInt32) (total free : Nat), total < 2 ^ 64 → free < 2 ^ 64 →
        world.dbs.media[(⟨mid, str "type"⟩ : Key UInt32)]? = some (str "insert") →
        world.dbs.media[(⟨mid, str "total_size"⟩ : Key UInt32)]? = some (numeral 10 total) →
        world.dbs.media[(⟨mid, str "free_size"⟩ : Key UInt32)]? = some (numeral 10 free) →
        ∀ stats, world.dbs.Room statvfs mid stats ↔
          stats = ⟨UInt64.ofNat total, UInt64.ofNat free⟩ := by
  obtain ⟨increasing, listed⟩ := getregisters_spec idsLeft
  have volumes : ∀ (mid : UInt32) (total free : Nat), total < 2 ^ 64 → free < 2 ^ 64 →
      world.dbs.media[(⟨mid, str "type"⟩ : Key UInt32)]? = some (str "insert") →
      world.dbs.media[(⟨mid, str "total_size"⟩ : Key UInt32)]? = some (numeral 10 total) →
      world.dbs.media[(⟨mid, str "free_size"⟩ : Key UInt32)]? = some (numeral 10 free) →
      ∀ stats, world.dbs.Room statvfs mid stats ↔
        stats = ⟨UInt64.ofNat total, UInt64.ofNat free⟩ := by
    intro mid total free totalFits freeFits isInsert isTotal isFree stats
    have room : world.dbs.Room statvfs mid _ :=
      room_volume isInsert isTotal isFree totalFits freeFits
    constructor
    · exact fun other => other.eq room
    · rintro rfl
      exact room
  rw [exec_statfs]
  rcases exec_sumStats statvfs (getregisters world.dbs.media) {} world with
    ⟨sizes, rooms, runs⟩ | ⟨⟨mid, member, noRoom⟩, throws⟩
  · rw [runs]
    refine ⟨rfl, .inl ⟨_, sizes, increasing, listed, rooms, _, _, rfl, ?_, ?_⟩, volumes⟩
    · simp [UInt64.toNat_div, toNat_sum, Function.comp_def]
    · simp [UInt64.toNat_div, toNat_sum, Function.comp_def]
  · rw [throws]
    obtain ⟨name, present⟩ := (listed mid).mp member
    exact ⟨rfl, .inr ⟨⟨⟨mid, name⟩, present, noRoom⟩, rfl⟩, volumes⟩

/-- A disk of ten blocks, four of them free. -/
def smallDisk (_directory : Bytes) : Option Statvfs :=
  some ⟨4096, 4096, 10, 4, 4, 255⟩

/-- A directory, and a volume of ten blocks of which two are free. -/
def twoMedia : Db UInt32 :=
  (((directoryMedium 0 (str "m") (str "/b")).insert ⟨1, str "type"⟩ (str "insert")).insert
    ⟨1, str "total_size"⟩ (numeral 10 40960)).insert ⟨1, str "free_size"⟩ (numeral 10 8192)

/-- A world with a medium of each class. -/
def twoMediaWorld : World :=
  .rebuilt twoMedia 0 0 (fun _ => 100) willingReply .little

set_option maxRecDepth 100000 in
/-- Both media count. -/
theorem statfs_sums_mounted :
    (exec (FS.statfs smallDisk) twoMediaWorld).1 = .ok (0, some ⟨4096, 4096, 20, 6, 6, 0⟩) ∧
      (∃ mids sizes, 0 ∈ mids ∧ 1 ∈ mids ∧
        List.Forall₂ (twoMediaWorld.dbs.Room smallDisk) mids sizes ∧
        (20 : UInt64).toNat = (sizes.map fun stats => stats.total.toNat).sum % 2 ^ 64 / 4096 ∧
        (6 : UInt64).toNat = (sizes.map fun stats => stats.free.toNat).sum % 2 ^ 64 / 4096) ∧
      ∀ stats, twoMediaWorld.dbs.Room smallDisk 1 stats ↔ stats = ⟨40960, 8192⟩ := by
  have ends : (exec (FS.statfs smallDisk) twoMediaWorld).1 =
      .ok (0, some ⟨4096, 4096, 20, 6, 6, 0⟩) := by
    decide +kernel
  have idsLeft : IdsLeft twoMediaWorld.dbs.media := idsLeft_of_keys (by decide +kernel)
  obtain ⟨-, sums, volumes⟩ := statfs_sums idsLeft smallDisk
  refine ⟨ends, ?_, volumes 1 40960 8192 (by decide) (by decide) (by decide +kernel)
    (by decide +kernel) (by decide +kernel)⟩
  rcases sums with
    ⟨mids, sizes, -, listed, rooms, blocks, free, result, total, unused⟩ | ⟨-, failed⟩
  · rw [ends] at result
    cases result
    exact ⟨mids, sizes, (listed 0).mpr ⟨str "type", by decide +kernel⟩,
      (listed 1).mpr ⟨str "type", by decide +kernel⟩, rooms, total, unused⟩
  · rw [ends] at failed
    cases failed

end OfflineFs
