import OfflineFs.Model.OpenFiles
import OfflineFs.Model.World
import OfflineFs.Transition.Run

/-!
# Handles of open files

A slot is tested without the mutex, tested again and filled with it, and cleared without it.
Whatever the order in which calls take their steps, the `Source` of a call is in the table
exactly at the handle that the call has.
-/

namespace OfflineFs

open OfflineFs.Effect OfflineFs.Effect.Program OfflineFs.Transition

/-! ## What a phase says -/

namespace OpenPhase

/-- The handle under which the `Source` of the call is in the table. -/
def inTable : OpenPhase → Option Nat
  | .unlocking fh | .live fh | .deleting fh | .clearing fh => some fh
  | _ => none

/-- The call holds the mutex. -/
def locks : OpenPhase → Bool
  | .retesting _ | .storing _ | .passing _ | .unlocking _ => true
  | _ => false

/-- How often the `Source` of the call was deleted. -/
def deletions : OpenPhase → Nat
  | .clearing _ | .released | .refused => 1
  | _ => 0

/-- The slot is in the table, and `release` found its handle. -/
def InRange : OpenPhase → Prop
  | .testing fh => fh ≤ maxOpenFiles
  | .locking fh | .retesting fh | .storing fh | .passing fh | .unlocking fh | .live fh
  | .deleting fh | .clearing fh => fh < maxOpenFiles
  | .missed => False
  | .starting | .refused | .released => True

/-- Neither `open` nor `release` is under way. -/
def Settled : OpenPhase → Prop
  | .starting | .live _ | .refused | .released | .missed => True
  | _ => False

/-- What is left of the loop of `open` at a phase. -/
def rest (source : Source) : OpenPhase → FsProg (Option Nat)
  | .starting => FS.takeSlot source 0 maxOpenFiles
  | .testing fh => FS.takeSlot source fh (maxOpenFiles - fh)
  | .locking fh => do
      perform .lockOpen
      retested fh
  | .retesting fh => retested fh
  | .storing fh => stored fh
  | .passing fh => passed fh
  | .unlocking fh => unlocked fh
  | .live fh => Pure.pure (some fh)
  | _ => Pure.pure none
where
  unlocked (fh : Nat) : FsProg (Option Nat) := do
    perform .unlockOpen
    Pure.pure (some fh)
  stored (fh : Nat) : FsProg (Option Nat) := do
    perform (.setSlot fh (some source))
    unlocked fh
  passed (fh : Nat) : FsProg (Option Nat) := do
    perform .unlockOpen
    FS.takeSlot source (fh + 1) (maxOpenFiles - (fh + 1))
  retested (fh : Nat) : FsProg (Option Nat) := do
    match ← perform (.getSlot fh) with
    | none => stored fh
    | some _ => passed fh

theorem InRange.lt {phase : OpenPhase} {fh : Nat} (inRange : phase.InRange)
    (inTable : phase.inTable = some fh) : fh < maxOpenFiles := by
  cases phase with
  | unlocking _ | live _ | deleting _ | clearing _ =>
      cases inTable
      exact inRange
  | _ => cases inTable

end OpenPhase

namespace OpenTable

variable {ι : Type} [DecidableEq ι] {table next : OpenTable ι} {call other : ι} {fh : Nat}

/-! ## The invariant -/

/-- The slots, the mutex and the deletions are as the phases of the calls say, and a slot that
is about to be filled is empty. -/
structure Sound (table : OpenTable ι) : Prop where
  stored : ∀ call fh, table.slots fh = some call ↔ (table.phase call).inTable = some fh
  held : ∀ call, table.mutex = some call ↔ (table.phase call).locks = true
  vacant : ∀ call fh, table.phase call = .storing fh → table.slots fh = none
  inRange : ∀ call, (table.phase call).InRange
  counted : ∀ call, table.deleted call = (table.phase call).deletions

theorem sound_initial (ι : Type) : (initial ι).Sound where
  stored _ _ := iff_of_false nofun nofun
  held _ := iff_of_false nofun nofun
  vacant _ _ := nofun
  inRange _ := trivial
  counted _ := rfl

/-- What a step of a call has to respect: the other calls keep what they have. -/
structure Moves (call : ι) (phase : OpenPhase) (table next : OpenTable ι) : Prop where
  goes : next.phase = Function.update table.phase call phase
  stored : ∀ other fh, next.slots fh = some other ↔
    if other = call then phase.inTable = some fh else table.slots fh = some other
  held : ∀ other, next.mutex = some other ↔
    if other = call then phase.locks = true else table.mutex = some other
  deleted : ∀ other,
    next.deleted other = if other = call then phase.deletions else table.deleted other
  inRange : phase.InRange

/-- A step of one call that moves nothing but this call. -/
theorem Sound.moves {phase : OpenPhase} (sound : table.Sound) (moves : Moves call phase table next)
    (vacant : ∀ other fh, next.phase other = .storing fh → next.slots fh = none) : next.Sound where
  stored other fh := by
    rw [moves.stored, moves.goes, Function.update_apply]
    split
    · rfl
    · exact sound.stored other fh
  held other := by
    rw [moves.held, moves.goes, Function.update_apply]
    split
    · rfl
    · exact sound.held other
  vacant := vacant
  inRange other := by
    rw [moves.goes, Function.update_apply]
    split
    · exact moves.inRange
    · exact sound.inRange other
  counted other := by
    rw [moves.deleted, moves.goes, Function.update_apply]
    split
    · rfl
    · exact sound.counted other

/-- A step that only goes on leaves everything with its owner. -/
theorem Sound.moves_go {phase : OpenPhase} (sound : table.Sound)
    (inTable : phase.inTable = (table.phase call).inTable)
    (locks : phase.locks = (table.phase call).locks)
    (deletions : phase.deletions = (table.phase call).deletions) (inRange : phase.InRange) :
    Moves call phase table (table.go call phase) where
  goes := rfl
  stored other fh := by
    split
    · rename_i same
      rw [same, inTable]
      exact sound.stored call fh
    · rfl
  held other := by
    split
    · rename_i same
      rw [same, locks]
      exact sound.held call
    · rfl
  deleted other := by
    split
    · rename_i same
      rw [same, deletions]
      exact sound.counted call
    · rfl
  inRange := inRange

/-- Where no slot is filled, a slot that was to be filled stays empty. -/
theorem Sound.vacant_of_moves {phase : OpenPhase} (sound : table.Sound)
    (moves : Moves call phase table next)
    (fills : ∀ fh, table.slots fh = none → next.slots fh = none)
    (own : ∀ fh, phase = .storing fh → table.slots fh = none) (other : ι) (fh : Nat)
    (storing : next.phase other = .storing fh) : next.slots fh = none := by
  rw [moves.goes, Function.update_apply] at storing
  split at storing
  · exact fills fh (own fh storing)
  · exact fills fh (sound.vacant other fh storing)

/-- Going on keeps the invariant. -/
theorem Sound.go {phase : OpenPhase} (sound : table.Sound)
    (inTable : phase.inTable = (table.phase call).inTable)
    (locks : phase.locks = (table.phase call).locks)
    (deletions : phase.deletions = (table.phase call).deletions) (inRange : phase.InRange)
    (own : ∀ fh, phase = .storing fh → table.slots fh = none) : (table.go call phase).Sound :=
  have moves := sound.moves_go inTable locks deletions inRange
  sound.moves moves (sound.vacant_of_moves moves (fun _ => id) own)

/-! ## The steps -/

omit [DecidableEq ι] in
/-- The one that holds the mutex is the only one in the critical section. -/
theorem Sound.eq_of_locks (sound : table.Sound) (locks : (table.phase call).locks = true)
    (otherLocks : (table.phase other).locks = true) : other = call := by
  have holder := (sound.held call).mpr locks
  rw [(sound.held other).mpr otherLocks] at holder
  exact Option.some.inj holder

/-- Taking the mutex. -/
theorem Sound.lock (sound : table.Sound) (waits : table.phase call = .locking fh)
    (free : table.mutex = none) :
    ((table.withMutex (some call)).go call (.retesting fh)).Sound := by
  have inRange := sound.inRange call
  rw [waits] at inRange
  have moves : Moves call (.retesting fh) table
      ((table.withMutex (some call)).go call (.retesting fh)) := by
    constructor
    · rfl
    · intro other slot
      split
      · rename_i same
        rw [same]
        exact (sound.stored call slot).trans (by rw [waits]; rfl)
      · rfl
    · intro other
      split
      · rename_i same
        rw [same]
        exact iff_of_true rfl rfl
      · rename_i apart
        rw [free]
        exact iff_of_false (fun holds => apart (Option.some.inj holds).symm) nofun
    · intro other
      split
      · rename_i same
        rw [same]
        exact (sound.counted call).trans (by rw [waits]; rfl)
      · rfl
    · exact inRange
  exact sound.moves moves (sound.vacant_of_moves moves (fun _ => id) nofun)

/-- Giving the mutex back. -/
theorem Sound.unlock {phase : OpenPhase} (sound : table.Sound)
    (locks : (table.phase call).locks = true) (unlocks : phase.locks = false)
    (inTable : phase.inTable = (table.phase call).inTable)
    (deletions : phase.deletions = (table.phase call).deletions) (inRange : phase.InRange)
    (own : ∀ fh, phase ≠ .storing fh) : ((table.withMutex none).go call phase).Sound := by
  have moves : Moves call phase table ((table.withMutex none).go call phase) := by
    constructor
    · rfl
    · intro other slot
      split
      · rename_i same
        rw [same, inTable]
        exact sound.stored call slot
      · rfl
    · intro other
      split
      · rw [unlocks]
        exact iff_of_false nofun nofun
      · rename_i apart
        refine iff_of_false nofun fun holds => apart ?_
        exact sound.eq_of_locks locks ((sound.held other).mp holds)
    · intro other
      split
      · rename_i same
        rw [same, deletions]
        exact sound.counted call
      · rfl
    · exact inRange
  exact sound.moves moves
    (sound.vacant_of_moves moves (fun _ => id) fun fh is => absurd is (own fh))

/-- The slot that is filled was empty, so no `Source` is overwritten. -/
theorem Sound.store (sound : table.Sound) (storing : table.phase call = .storing fh) :
    ((table.withSlot fh (some call)).go call (.unlocking fh)).Sound := by
  have inRange := sound.inRange call
  rw [storing] at inRange
  have empty := sound.vacant call fh storing
  have locks : (table.phase call).locks = true := by
    rw [storing]
    rfl
  have moves : Moves call (.unlocking fh) table
      ((table.withSlot fh (some call)).go call (.unlocking fh)) := by
    constructor
    · rfl
    · intro other slot
      rw [slots_go, slots_withSlot]
      by_cases here : slot = fh
      · rw [if_pos here, here, empty]
        split
        · rename_i same
          rw [same]
          exact iff_of_true rfl rfl
        · rename_i apart
          exact iff_of_false (fun is => apart (Option.some.inj is).symm) nofun
      · rw [if_neg here]
        split
        · rename_i same
          rw [same]
          refine iff_of_false ?_ fun is => here (Option.some.inj is).symm
          rw [sound.stored, storing]
          exact nofun
        · rfl
    · intro other
      split
      · rename_i same
        rw [same]
        exact iff_of_true ((sound.held call).mpr locks) rfl
      · rfl
    · intro other
      split
      · rename_i same
        rw [same]
        exact (sound.counted call).trans (by rw [storing]; rfl)
      · rfl
    · exact inRange
  apply sound.moves moves
  intro other slot storesToo
  rw [moves.goes, Function.update_apply] at storesToo
  split at storesToo
  · cases storesToo
  · rename_i apart
    refine absurd (sound.eq_of_locks locks ?_) apart
    rw [storesToo]
    rfl

/-- Deleting the own `Source`. -/
theorem Sound.delete {phase : OpenPhase} (sound : table.Sound)
    (inTable : phase.inTable = (table.phase call).inTable)
    (locks : phase.locks = (table.phase call).locks)
    (deletions : phase.deletions = (table.phase call).deletions + 1) (inRange : phase.InRange)
    (own : ∀ fh, phase ≠ .storing fh) : ((table.delete call).go call phase).Sound := by
  have moves : Moves call phase table ((table.delete call).go call phase) := by
    constructor
    · rfl
    · intro other slot
      split
      · rename_i same
        rw [same, inTable]
        exact sound.stored call slot
      · rfl
    · intro other
      split
      · rename_i same
        rw [same, locks]
        exact sound.held call
      · rfl
    · intro other
      rw [deleted_go, deleted_delete]
      split
      · rw [deletions, sound.counted call]
      · rfl
    · exact inRange
  exact sound.moves moves
    (sound.vacant_of_moves moves (fun _ => id) fun fh is => absurd is (own fh))

/-- Emptying the slot of the handle that is released. -/
theorem Sound.clear (sound : table.Sound) (clears : table.phase call = .clearing fh) :
    ((table.withSlot fh none).go call .released).Sound := by
  have ownSlot : table.slots fh = some call := by
    rw [sound.stored, clears]
    rfl
  have moves : Moves call .released table ((table.withSlot fh none).go call .released) := by
    constructor
    · rfl
    · intro other slot
      rw [slots_go, slots_withSlot]
      by_cases here : slot = fh
      · rw [if_pos here, here, ownSlot]
        split
        · exact iff_of_false nofun nofun
        · rename_i apart
          exact iff_of_false nofun fun is => apart (Option.some.inj is).symm
      · rw [if_neg here]
        split
        · rename_i same
          rw [same]
          refine iff_of_false ?_ nofun
          rw [sound.stored, clears]
          exact fun is => here (Option.some.inj is).symm
        · rfl
    · intro other
      split
      · rename_i same
        rw [same]
        exact (sound.held call).trans (by rw [clears]; rfl)
      · rfl
    · intro other
      split
      · rename_i same
        rw [same]
        exact (sound.counted call).trans (by rw [clears]; rfl)
      · rfl
    · trivial
  refine sound.moves moves (sound.vacant_of_moves moves (fun slot empty => ?_) nofun)
  rw [slots_go, slots_withSlot]
  split
  · rfl
  · exact empty

/-- Every step keeps the invariant. -/
theorem Sound.step (sound : table.Sound) (call : ι) : (table.step call).Sound := by
  have inRange := sound.inRange call
  have ownSlot : ∀ fh, (table.phase call).inTable = some fh → table.slots fh = some call :=
    fun fh => (sound.stored call fh).mpr
  rw [OpenTable.step]
  cases phase : table.phase call with
  | starting =>
      exact sound.go (by rw [phase]; rfl) (by rw [phase]; rfl) (by rw [phase]; rfl)
        (Nat.zero_le _) nofun
  | testing fh =>
      dsimp only
      split
      · rename_i inside
        split
        · exact sound.go (by rw [phase]; rfl) (by rw [phase]; rfl) (by rw [phase]; rfl) inside nofun
        · exact sound.go (by rw [phase]; rfl) (by rw [phase]; rfl) (by rw [phase]; rfl) inside nofun
      · exact sound.delete (by rw [phase]; rfl) (by rw [phase]; rfl) (by rw [phase]; rfl) trivial
          nofun
  | locking fh =>
      dsimp only
      split
      · rename_i free
        exact sound.lock phase free
      · exact sound
  | retesting fh =>
      rw [phase] at inRange
      dsimp only
      split
      · rename_i empty
        refine sound.go (by rw [phase]; rfl) (by rw [phase]; rfl) (by rw [phase]; rfl) inRange ?_
        rintro _ ⟨⟩
        exact empty
      · exact sound.go (by rw [phase]; rfl) (by rw [phase]; rfl) (by rw [phase]; rfl) inRange nofun
  | storing fh => exact sound.store phase
  | passing fh =>
      rw [phase] at inRange
      exact sound.unlock (by rw [phase]; rfl) rfl (by rw [phase]; rfl) (by rw [phase]; rfl) inRange
        nofun
  | unlocking fh =>
      rw [phase] at inRange
      exact sound.unlock (by rw [phase]; rfl) rfl (by rw [phase]; rfl) (by rw [phase]; rfl) inRange
        nofun
  | live fh =>
      rw [phase] at inRange
      have own := ownSlot fh (by rw [phase]; rfl)
      dsimp only
      split
      · rename_i bad
        rcases bad with outside | empty
        · exact absurd inRange (Nat.not_lt.mpr outside)
        · rw [own] at empty
          cases empty
      · exact sound.go (by rw [phase]; rfl) (by rw [phase]; rfl) (by rw [phase]; rfl) inRange nofun
  | deleting fh =>
      rw [phase] at inRange
      have own := ownSlot fh (by rw [phase]; rfl)
      simp only [own]
      exact sound.delete (by rw [phase]; rfl) (by rw [phase]; rfl) (by rw [phase]; rfl) inRange
        nofun
  | clearing fh => exact sound.clear phase
  | refused | released | missed => exact sound

/-- A `Source` stays in its slot until its own `release` clears it. -/
theorem Sound.keeps_slot {owner : ι} (sound : table.Sound) (owned : table.slots fh = some owner) :
    (table.step call).slots fh = some owner ∨ owner = call ∧ table.phase call = .clearing fh := by
  rw [OpenTable.step]
  cases phase : table.phase call with
  | storing slot =>
      left
      have apart : fh ≠ slot := by
        rintro rfl
        rw [sound.vacant call fh phase] at owned
        cases owned
      rw [slots_go, slots_withSlot, if_neg apart, owned]
  | clearing slot =>
      by_cases here : slot = fh
      · subst here
        have own : table.slots slot = some call := by
          rw [sound.stored, phase]
          rfl
        rw [own] at owned
        exact .inr ⟨(Option.some.inj owned).symm, rfl⟩
      · left
        rw [slots_go, slots_withSlot, if_neg (Ne.symm here), owned]
  | testing slot =>
      left
      dsimp only
      split
      · split <;> exact owned
      · exact owned
  | locking slot | retesting slot | live slot | deleting slot =>
      left
      dsimp only
      split <;> exact owned
  | _ => exact .inl owned

/-! ## The text of the loop -/

section Text

variable {sources : ι → Source} {world : World}

/-- The world has the sources of the table. -/
def Shows (sources : ι → Source) (table : OpenTable ι) (world : World) : Prop :=
  ∀ fh, world.openFiles fh = (table.slots fh).map sources

/-- A step of a call that has not returned is one call of its text. -/
theorem exec_rest (shows : Shows sources table world) (sound : table.Sound)
    (opening : ∀ fh, (table.phase call).inTable = some fh → table.phase call = .unlocking fh) :
    ∃ after, Shows sources (table.step call) after ∧
      exec ((table.phase call).rest (sources call)) world =
        exec (((table.step call).phase call).rest (sources call)) after := by
  have inRange := sound.inRange call
  rw [OpenTable.step]
  cases phase : table.phase call with
  | starting => exact ⟨world, shows, by rw [phase_go, if_pos rfl]; rfl⟩
  | testing fh =>
      rw [phase] at inRange
      dsimp only
      split
      · rename_i inside
        have more : maxOpenFiles - fh = (maxOpenFiles - (fh + 1)) + 1 := by
          omega
        have found := shows fh
        rw [OpenPhase.rest, more, FS.takeSlot, exec_bind, exec_perform, Outcome.andThen_ok]
        simp only [fsHandler, found]
        split
        · rename_i empty
          refine ⟨world, shows, ?_⟩
          rw [phase_go, if_pos rfl, empty]
          rfl
        · rename_i owner isOwner
          refine ⟨world, shows, ?_⟩
          rw [phase_go, if_pos rfl, isOwner]
          rfl
      · rename_i outside
        have last : maxOpenFiles - fh = 0 := by
          omega
        refine ⟨world, shows, ?_⟩
        rw [OpenPhase.rest, last, phase_go, if_pos rfl]
        rfl
  | locking fh =>
      dsimp only
      split
      · exact ⟨world, shows, by rw [phase_go, if_pos rfl]; rfl⟩
      · exact ⟨world, shows, by rw [phase]⟩
  | retesting fh =>
      have found := shows fh
      rw [OpenPhase.rest, OpenPhase.rest.retested, exec_bind, exec_perform, Outcome.andThen_ok]
      simp only [fsHandler, found]
      split
      · rename_i empty
        refine ⟨world, shows, ?_⟩
        rw [phase_go, if_pos rfl, empty]
        rfl
      · rename_i owner isOwner
        refine ⟨world, shows, ?_⟩
        rw [phase_go, if_pos rfl, isOwner]
        rfl
  | storing fh =>
      refine ⟨world.withSlot fh (some (sources call)), ?_, by rw [phase_go, if_pos rfl]; rfl⟩
      intro other
      rw [slots_go, slots_withSlot, World.withSlot_openFiles, Function.update_apply]
      split
      · rfl
      · exact shows other
  | passing fh | unlocking fh => exact ⟨world, shows, by rw [phase_go, if_pos rfl]; rfl⟩
  | live fh | deleting fh | clearing fh =>
      have stays := opening fh (by rw [phase]; rfl)
      rw [phase] at stays
      cases stays
  | refused | released | missed => exact ⟨world, shows, by rw [phase]⟩

end Text

/-! ## One call alone -/

/-- What a call has found when no other takes a step: the slots before the one it is at were
taken, and one that it found empty still is. -/
def Searched (before : Nat → Option ι) (call : ι) (table : OpenTable ι) : Prop :=
  match table.phase call with
  | .starting => table.slots = before
  | .testing fh => table.slots = before ∧ ∀ slot < fh, before slot ≠ none
  | .locking fh | .retesting fh => table.slots = before ∧ before fh = none
  | .passing _ => False
  | .refused => ∀ slot < maxOpenFiles, before slot ≠ none
  | _ => True

/-- No step empties a slot that a call has passed over and found taken. -/
theorem Searched.step {before : Nat → Option ι} (searched : Searched before call table) :
    Searched before call (table.step call) := by
  unfold Searched at searched
  rw [OpenTable.step]
  cases phase : table.phase call with
  | starting =>
      rw [phase] at searched
      simpa [Searched] using searched
  | testing fh =>
      rw [phase] at searched
      obtain ⟨same, taken⟩ := searched
      dsimp only
      split
      · split
        · rename_i empty
          rw [same] at empty
          simpa [Searched] using ⟨same, empty⟩
        · rename_i owner isOwner
          rw [same] at isOwner
          have more : ∀ slot < fh + 1, before slot ≠ none := by
            intro slot below
            rcases Nat.lt_succ_iff_lt_or_eq.mp below with earlier | rfl
            · exact taken slot earlier
            · rw [isOwner]
              exact nofun
          rw [Searched, OpenTable.phase_go, if_pos rfl]
          exact ⟨same, more⟩
      · rename_i outside
        have all : ∀ slot < maxOpenFiles, before slot ≠ none :=
          fun slot below => taken slot (lt_of_lt_of_le below (Nat.le_of_not_lt outside))
        simpa [Searched] using all
  | locking fh =>
      rw [phase] at searched
      dsimp only
      split
      · simpa [Searched] using searched
      · rw [Searched, phase]
        exact searched
  | retesting fh =>
      rw [phase] at searched
      obtain ⟨same, empty⟩ := searched
      rw [← same] at empty
      simp [Searched, empty]
  | passing fh =>
      rw [phase] at searched
      exact searched.elim
  | storing fh | unlocking fh | clearing fh => simp [Searched]
  | live fh | deleting fh =>
      dsimp only
      split <;> simp [Searched]
  | refused | released | missed =>
      rw [phase] at searched
      rw [Searched, phase]
      exact searched

theorem Searched.steps {before : Nat → Option ι} (searched : Searched before call table) (n : Nat) :
    Searched before call ((fun table : OpenTable ι => table.step call)^[n] table) := by
  induction n with
  | zero => exact searched
  | succ n ih =>
      rw [Function.iterate_succ_apply']
      exact ih.step

/-- An `open` that runs alone is refused only when every slot has a live handle. -/
theorem Sound.refused_alone (sound : table.Sound)
    (alone : ∀ other, other ≠ call → (table.phase other).Settled)
    (starts : table.phase call = .starting) {n : Nat}
    (refused : ((fun table : OpenTable ι => table.step call)^[n] table).phase call = .refused)
    (inside : fh < maxOpenFiles) : ∃ other, table.phase other = .live fh := by
  have searched : Searched table.slots call table := by
    rw [Searched, starts]
  have found := searched.steps n
  rw [Searched, refused] at found
  obtain ⟨owner, owned⟩ := Option.ne_none_iff_exists'.mp (found fh inside)
  have inTable := (sound.stored owner fh).mp owned
  have other : owner ≠ call := by
    rintro rfl
    rw [starts] at inTable
    cases inTable
  have settled := alone owner other
  refine ⟨owner, ?_⟩
  cases phase : table.phase owner with
  | live slot =>
      rw [phase] at inTable
      rw [Option.some.inj inTable]
  | unlocking slot | deleting slot | clearing slot =>
      rw [phase] at settled
      exact settled.elim
  | _ =>
      rw [phase] at inTable
      cases inTable

/-! ## Any order of steps -/

/-- Whatever steps were taken: live handles are distinct and in the table, each of them with
the `Source` of its own call, which stays there until its own `release` clears the slot; a
`Source` is deleted once, by the `release` of its call or when it is refused; and a refusal of a
call that runs alone means that every slot has a live handle. -/
theorem handles_apart (reached : Reaches step (fun _ _ => True) (initial ι) table) :
    (∀ call other fh, table.phase call = .live fh → table.phase other = .live fh →
      call = other) ∧
    (∀ call fh, table.slots fh = some call ↔ (table.phase call).inTable = some fh) ∧
    (∀ call fh, (table.phase call).inTable = some fh → fh < maxOpenFiles) ∧
    (∀ call owner fh, table.slots fh = some owner →
      (table.step call).slots fh = some owner ∨ owner = call ∧ table.phase call = .clearing fh) ∧
    (∀ call, table.deleted call = (table.phase call).deletions ∧ table.phase call ≠ .missed) ∧
    ∀ call n, (∀ other, other ≠ call → (table.phase other).Settled) →
      table.phase call = .starting →
      ((fun table : OpenTable ι => table.step call)^[n] table).phase call = .refused →
      ∀ fh < maxOpenFiles, ∃ other, table.phase other = .live fh := by
  have sound : table.Sound :=
    reached.invariant (sound_initial ι) fun _ call sound _ => sound.step call
  refine ⟨?_, sound.stored, fun call fh => (sound.inRange call).lt, ?_, ?_, ?_⟩
  · intro call other fh isLive otherLive
    have own := (sound.stored call fh).mpr (by rw [isLive]; rfl)
    rw [(sound.stored other fh).mpr (by rw [otherLive]; rfl)] at own
    exact (Option.some.inj own).symm
  · exact fun call owner fh => sound.keeps_slot
  · intro call
    refine ⟨sound.counted call, fun missed => ?_⟩
    have inRange := sound.inRange call
    rw [missed] at inRange
    exact inRange
  · exact fun call n alone starts refused fh => sound.refused_alone alone starts refused

/-- Two calls both find slot 0 empty. -/
def race : List Bool :=
  [true, true, false, false, true, true, true, true, false, false, false, false, false, false,
    false, false]

theorem handles_apart_race : (race.foldl step (initial Bool)).slots 0 = some true ↔
    ((race.foldl step (initial Bool)).phase true).inTable = some 0 :=
  (handles_apart (Meets.of_true step (initial Bool) race).reaches).2.1 true 0

example : (race.foldl step (initial Bool)).phase true = .live 0 ∧
    (race.foldl step (initial Bool)).phase false = .live 1 := by
  decide

end OpenTable

end OfflineFs
