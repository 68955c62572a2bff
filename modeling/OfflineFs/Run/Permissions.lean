import Mathlib.Data.Nat.Bitwise
import Mathlib.Tactic.IntervalCases
import OfflineFs.Run.Requests

/-!
# Permission bits

`Node::access` shifts the bits of the caller's class down and compares them with
the requested ones; `PathCache_hash` masks the execute bit of the class in place.
-/

namespace OfflineFs

/-! ## Single bits -/

/-- The execute bit is missing from a class exactly if the class is even. -/
theorem xOk_missing_iff {granted : UInt32} (small : granted.toNat < 8) :
    xOk &&& ~~~granted ≠ 0 ↔ granted.toNat % 2 = 0 := by
  obtain ⟨number, below, rfl⟩ : ∃ number, number < 8 ∧ granted = UInt32.ofNat number :=
    ⟨granted.toNat, small, by simp⟩
  clear small
  interval_cases number <;> decide

/-- Write and search permission are requested together or one after the other. -/
theorem wxOk_missing_iff {granted : UInt32} (small : granted.toNat < 8) :
    (wOk ||| xOk) &&& ~~~granted ≠ 0 ↔ wOk &&& ~~~granted ≠ 0 ∨ xOk &&& ~~~granted ≠ 0 := by
  obtain ⟨number, below, rfl⟩ : ∃ number, number < 8 ∧ granted = UInt32.ofNat number :=
    ⟨granted.toNat, small, by simp⟩
  clear small
  interval_cases number <;> decide

theorem toNat_and_seven (bits : UInt32) : (bits &&& 7).toNat = bits.toNat % 8 := by
  rw [UInt32.toNat_and]
  exact Nat.and_two_pow_sub_one_eq_mod bits.toNat 3

theorem toNat_and_seven_lt (bits : UInt32) : (bits &&& 7).toNat < 8 := by
  rw [toNat_and_seven]
  exact Nat.mod_lt _ (by decide)

/-- Masking a single bit out of a mode tests that bit. -/
theorem and_twoPow_eq_zero_iff (mode : UInt32) {bit : UInt32} {place : Nat}
    (isBit : bit.toNat = 2 ^ place) : mode &&& bit = 0 ↔ mode.toNat / 2 ^ place % 2 = 0 := by
  rw [← UInt32.toNat_inj, UInt32.toNat_and, isBit, Nat.and_two_pow,
    Nat.testBit_eq_decide_div_mod_eq]
  by_cases odd : mode.toNat / 2 ^ place % 2 = 1
  · simp [odd]
  · have even : mode.toNat / 2 ^ place % 2 = 0 := by omega
    simp [even]

/-- Shifting a class down and testing its execute bit is testing the bit in place. -/
theorem classDenies_iff (mode : UInt32) {shift bit : UInt32} {place : Nat}
    (isBit : bit.toNat = 2 ^ place) (isShift : (mode >>> shift).toNat = mode.toNat / 2 ^ place) :
    xOk &&& ~~~((mode >>> shift) &&& 7) ≠ 0 ↔ mode &&& bit = 0 := by
  rw [xOk_missing_iff (toNat_and_seven_lt _), and_twoPow_eq_zero_iff mode isBit, toNat_and_seven,
    isShift]
  omega

theorem userDenies_iff (mode : UInt32) :
    xOk &&& ~~~((mode >>> 6) &&& 7) ≠ 0 ↔ mode &&& sIxusr = 0 := by
  have isBit : sIxusr.toNat = 2 ^ 6 := by decide
  exact classDenies_iff mode isBit
    (by simp [UInt32.toNat_shiftRight, Nat.shiftRight_eq_div_pow])

theorem groupDenies_iff (mode : UInt32) :
    xOk &&& ~~~((mode >>> 3) &&& 7) ≠ 0 ↔ mode &&& sIxgrp = 0 := by
  have isBit : sIxgrp.toNat = 2 ^ 3 := by decide
  exact classDenies_iff mode isBit
    (by simp [UInt32.toNat_shiftRight, Nat.shiftRight_eq_div_pow])

theorem otherDenies_iff (mode : UInt32) :
    xOk &&& ~~~(mode &&& 7) ≠ 0 ↔ mode &&& sIxoth = 0 := by
  have isBit : sIxoth.toNat = 2 ^ 0 := by decide
  rw [xOk_missing_iff (toNat_and_seven_lt _), and_twoPow_eq_zero_iff mode isBit,
    toNat_and_seven]
  omega

/-! ## Access -/

namespace Dbs

variable {dbs : Dbs} {id : UInt64} {sctx : SContext}

/-- What `access` grants is a class of three bits. -/
theorem granted_lt {fmode granted : UInt32} (isGranted : dbs.granted id sctx fmode = .ok granted) :
    granted.toNat < 8 := by
  unfold Dbs.granted at isGranted
  cases uidRead : dbs.attr UInt32 id .uid with
  | error e => simp [uidRead] at isGranted
  | ok uid =>
      simp only [uidRead] at isGranted
      split at isGranted
      · cases isGranted
        exact toNat_and_seven_lt _
      · cases gidRead : dbs.attr UInt32 id .gid with
        | error e => simp [gidRead] at isGranted
        | ok gid =>
            simp only [gidRead, Except.ok.injEq] at isGranted
            subst isGranted
            split
            · exact toNat_and_seven_lt _
            · exact toNat_and_seven_lt _

/-- Asking for write and search permission at once is asking for both. -/
theorem access_wxOk_iff :
    dbs.access id sctx (wOk ||| xOk) = .ok () ↔
      dbs.access id sctx wOk = .ok () ∧ dbs.access id sctx xOk = .ok () := by
  unfold Dbs.access
  by_cases root : sctx.uid = 0
  · simp [root]
  · simp only [root, if_false]
    cases dbs.attr UInt32 id .mode with
    | error e => simp
    | ok fmode =>
        cases isGranted : dbs.granted id sctx fmode with
        | error e => simp [isGranted]
        | ok granted =>
            have both := wxOk_missing_iff (granted_lt isGranted)
            simp only [isGranted]
            by_cases wMissing : wOk &&& ~~~granted ≠ 0
            · rw [if_pos (both.mpr (.inl wMissing)), if_pos wMissing]
              simp
            · by_cases xMissing : xOk &&& ~~~granted ≠ 0
              · rw [if_pos (both.mpr (.inr xMissing)), if_pos xMissing]
                simp
              · rw [if_neg fun missing => (both.mp missing).elim wMissing xMissing,
                  if_neg wMissing, if_neg xMissing]
                simp

end Dbs

end OfflineFs
