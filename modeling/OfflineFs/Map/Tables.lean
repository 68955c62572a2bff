import Mathlib.Logic.Function.Iterate

/-!
# Hash tables that grow

How many buckets a hash table has while keys are entered.  It takes the next larger size when
a key finds no bucket left, and every iterator from before that is invalid afterwards.
-/

namespace OfflineFs.Map

/-- A hash table, as far as its growth depends on it. -/
structure Table where
  buckets : Nat
  keys : Nat
  deriving DecidableEq, Repr

namespace Table

variable (next : Nat → Nat) (table : Table) (count : Nat)

/-- A key that was not there is entered. -/
def enter : Table where
  buckets := if table.keys < table.buckets then table.buckets else next table.buckets
  keys := table.keys + 1

/-- Some keys are entered one after another. -/
def enters : Table :=
  (enter next)^[count] table

/-- The table grows while keys are entered, and not only for the first of them. -/
def Outgrown : Prop :=
  (table.enter next).buckets < (table.enters next count).buckets

instance : Decidable (table.Outgrown next count) :=
  inferInstanceAs (Decidable (_ < _))

variable {next table count}

@[simp]
theorem enters_zero : table.enters next 0 = table :=
  rfl

theorem enters_succ : table.enters next (count + 1) = (table.enter next).enters next count :=
  rfl

theorem not_outgrown_one : ¬ table.Outgrown next 1 :=
  Nat.lt_irrefl _

theorem keys_enters : (table.enters next count).keys = table.keys + count := by
  induction count generalizing table with
  | zero => rfl
  | succ count ih =>
      rw [enters_succ, ih]
      change table.keys + 1 + count = table.keys + (count + 1)
      omega

section Growing

variable (grows : ∀ buckets, buckets < next buckets)

include grows

theorem buckets_le_enter : table.buckets ≤ (table.enter next).buckets := by
  have larger := grows table.buckets
  simp only [enter]
  split <;> omega

theorem buckets_le_enters : table.buckets ≤ (table.enters next count).buckets := by
  induction count generalizing table with
  | zero => exact Nat.le_refl _
  | succ count ih =>
      rw [enters_succ]
      exact Nat.le_trans (buckets_le_enter grows) ih

theorem not_outgrown_zero : ¬ table.Outgrown next 0 :=
  Nat.not_lt.mpr (buckets_le_enter grows)

/-- After the first key the buckets are still the same, or they were outgrown. -/
theorem outgrown_succ_iff : table.Outgrown next (count + 1) ↔
    ((table.enter next).enters next count).buckets ≠ (table.enter next).buckets := by
  have larger : (table.enter next).buckets ≤ ((table.enter next).enters next count).buckets :=
    buckets_le_enters grows
  rw [Outgrown, enters_succ]
  omega

/-- There are never more keys than buckets. -/
theorem keys_le_buckets (fits : table.keys ≤ table.buckets) :
    (table.enters next count).keys ≤ (table.enters next count).buckets := by
  induction count generalizing table with
  | zero => exact fits
  | succ count ih =>
      rw [enters_succ]
      apply ih
      have larger := grows table.buckets
      simp only [enter]
      split <;> omega

/-- A table that cannot hold the keys outgrows its buckets. -/
theorem outgrown_of_lt (fits : table.keys ≤ table.buckets)
    (many : (table.enter next).buckets < table.keys + count) : table.Outgrown next count := by
  have held : (table.enters next count).keys ≤ _ := keys_le_buckets grows fits
  rw [keys_enters] at held
  exact Nat.lt_of_lt_of_le many held

end Growing

end Table

end OfflineFs.Map
