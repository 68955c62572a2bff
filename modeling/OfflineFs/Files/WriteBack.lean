import Mathlib.Order.Lattice
import Mathlib.Order.Defs.LinearOrder
import Mathlib.Logic.Function.Basic

/-!
# Write-back caches that merge by maximum

Several handles each remember a value of their own, and a flush stores a
handle's value when it exceeds the stored one.  The stored value is right once
nothing is left to flush, as long as no handle remembers more than the actual
value when it is flushed.
-/

namespace OfflineFs.WriteBack

variable {η α : Type} [LinearOrder α] [DecidableEq η]
variable {stored actual : α} {cached : η → Option α} {dirty : η → Bool}

/-- The stored value does not exceed the actual one, and when it falls behind a
handle that is still to be flushed remembers at least as much. -/
structure Merges (stored actual : α) (cached : η → Option α) (dirty : η → Bool) : Prop where
  stored_le : stored ≤ actual
  pending : stored = actual ∨ ∃ handle value, cached handle = some value ∧ dirty handle = true ∧
    actual ≤ value

omit [DecidableEq η] in
theorem merges_of_eq (equal : stored = actual) : Merges stored actual cached dirty :=
  ⟨equal.le, .inl equal⟩

omit [DecidableEq η] in
/-- With nothing left to flush, the stored value is the actual one. -/
theorem Merges.stored_eq (merges : Merges stored actual cached dirty)
    (flushed : ∀ handle, cached handle ≠ none → dirty handle = false) : stored = actual := by
  rcases merges.pending with equal | ⟨handle, value, present, isDirty, _⟩
  · exact equal
  · rw [flushed handle (by simp [present])] at isDirty
    contradiction

/-- Using a handle.  Either its value grows and the actual one stays, or it takes
in the actual value as well. -/
theorem Merges.use (merges : Merges stored actual cached dirty) {handle : η} {before after : α}
    {actual' : α} (present : cached handle = some before)
    (grows : actual' = actual ∧ before ≤ after ∨ actual ≤ actual' ∧ actual' ≤ after) :
    Merges stored actual' (Function.update cached handle (some after))
      (Function.update dirty handle true) := by
  rcases grows with ⟨rfl, larger⟩ | ⟨actualLe, le⟩
  · refine ⟨merges.stored_le, ?_⟩
    rcases merges.pending with equal | ⟨other, value, otherPresent, otherDirty, enough⟩
    · exact .inl equal
    · right
      by_cases same : other = handle
      · subst other
        rw [present] at otherPresent
        cases otherPresent
        exact ⟨handle, after, by simp, by simp, enough.trans larger⟩
      · refine ⟨other, value, ?_, ?_, enough⟩
        · rw [Function.update_of_ne same, otherPresent]
        · rw [Function.update_of_ne same]
          exact otherDirty
  · exact ⟨merges.stored_le.trans actualLe, .inr ⟨handle, after, by simp, by simp, le⟩⟩

/-- Flushing a handle that remembers no more than the actual value. -/
theorem Merges.flush (merges : Merges stored actual cached dirty) {handle : η} {value : α}
    (present : cached handle = some value) (fits : value ≤ actual) :
    Merges (max stored value) actual cached (Function.update dirty handle false) := by
  refine ⟨max_le merges.stored_le fits, ?_⟩
  rcases merges.pending with equal | ⟨other, remembered, otherPresent, otherDirty, enough⟩
  · left
    rw [equal, max_eq_left fits]
  · by_cases same : other = handle
    · subst other
      rw [present] at otherPresent
      cases otherPresent
      left
      rw [le_antisymm fits enough, max_eq_right merges.stored_le]
    · right
      refine ⟨other, remembered, otherPresent, ?_, enough⟩
      rw [Function.update_of_ne same]
      exact otherDirty

/-- A new handle has nothing to flush. -/
theorem Merges.opened (merges : Merges stored actual cached dirty) {handle : η}
    (free : cached handle = none) (value : Option α) :
    Merges stored actual (Function.update cached handle value) dirty := by
  refine ⟨merges.stored_le, ?_⟩
  rcases merges.pending with equal | ⟨other, remembered, otherPresent, otherDirty, enough⟩
  · exact .inl equal
  · refine .inr ⟨other, remembered, ?_, otherDirty, enough⟩
    rw [Function.update_of_ne, otherPresent]
    rintro rfl
    rw [free] at otherPresent
    contradiction

/-- A handle can be closed when it has nothing to flush, or nothing that the
stored value does not already cover. -/
theorem Merges.closed (merges : Merges stored actual cached dirty) {handle : η}
    (safe : dirty handle = false ∨ ∀ value, cached handle = some value → value ≤ stored) :
    Merges stored actual (Function.update cached handle none)
      (Function.update dirty handle false) := by
  refine ⟨merges.stored_le, ?_⟩
  rcases merges.pending with equal | ⟨other, remembered, otherPresent, otherDirty, enough⟩
  · exact .inl equal
  · by_cases same : other = handle
    · subst other
      rcases safe with clean | covered
      · rw [clean] at otherDirty
        contradiction
      · left
        exact le_antisymm merges.stored_le (enough.trans (covered _ otherPresent))
    · refine .inr ⟨other, remembered, ?_, ?_, enough⟩
      · rw [Function.update_of_ne same, otherPresent]
      · rw [Function.update_of_ne same, otherDirty]

/-- A handle that remembers nothing has nothing to flush. -/
theorem Merges.forget (merges : Merges stored actual cached dirty) {handle : η}
    (absent : cached handle = none) :
    Merges stored actual cached (Function.update dirty handle false) := by
  have closed := merges.closed (.inr fun value present => by rw [absent] at present; contradiction)
  rwa [← absent, Function.update_eq_self] at closed

end OfflineFs.WriteBack
