import Mathlib.Data.List.TakeWhile
import Mathlib.Data.Nat.Digits.Defs
import OfflineFs.Model.Format

/-!
# Numerals

How numbers are spelled with digits, and that a stream reads a numeral as its number.
-/

namespace OfflineFs

/-- The character of a digit. -/
def digitOf (digit : Nat) : UInt8 :=
  UInt8.ofNat (48 + digit)

/-- The numeral of a number, without zeros in front. -/
def numeral (base number : Nat) : Bytes :=
  if number = 0 then [digitOf 0] else (base.digits number).reverse.map digitOf

variable {base number digit : Nat}

theorem toNat_digitOf (small : digit < 10) : (digitOf digit).toNat = 48 + digit := by
  rw [digitOf, UInt8.toNat_ofNat']
  omega

theorem numeral_ne_nil (base number : Nat) : numeral base number ≠ [] := by
  unfold numeral
  split
  · exact List.cons_ne_nil _ _
  · rename_i positive
    simpa only [ne_eq, List.map_eq_nil_iff, List.reverse_eq_nil_iff] using
      Nat.digits_ne_nil_iff_ne_zero.mpr positive

theorem exists_digit_of_mem_numeral {byte : UInt8} (more : 1 < base)
    (member : byte ∈ numeral base number) : ∃ digit < base, byte = digitOf digit := by
  unfold numeral at member
  split at member
  · exact ⟨0, by omega, List.mem_singleton.mp member⟩
  · rw [List.mem_map] at member
    obtain ⟨digit, isDigit, rfl⟩ := member
    exact ⟨digit, Nat.digits_lt_base more (List.mem_reverse.mp isDigit), rfl⟩

/-- The value of a numeral, its last digit first. -/
theorem foldr_digits {digits : List Nat} (small : ∀ digit ∈ digits, digit < 10) :
    (digits.map digitOf).foldr (fun byte high => high * base + (byte.toNat - 48)) 0 =
      Nat.ofDigits base digits := by
  induction digits with
  | nil => rfl
  | cons digit digits ih =>
      rw [List.map_cons, List.foldr_cons, Nat.ofDigits_cons,
        ih fun other member => small other (List.mem_cons_of_mem _ member),
        toNat_digitOf (small digit List.mem_cons_self), Nat.add_sub_cancel_left, Nat.mul_comm,
        Nat.add_comm]

/-- A numeral is read as its number. -/
theorem readDigits_numeral (more : 1 < base) (few : base ≤ 10) (number : Nat) :
    readDigits base (numeral base number) = some number := by
  have digits : (numeral base number).takeWhile
      (fun byte => decide (48 ≤ byte ∧ byte.toNat < 48 + base)) = numeral base number := by
    rw [List.takeWhile_eq_self_iff]
    intro byte member
    obtain ⟨digit, small, rfl⟩ := exists_digit_of_mem_numeral more member
    have value := toNat_digitOf (lt_of_lt_of_le small few)
    rw [decide_eq_true_eq, UInt8.le_iff_toNat_le, value]
    exact ⟨Nat.le_add_right 48 digit, by omega⟩
  unfold readDigits
  rw [digits]
  split
  · rename_i empty
    exact absurd empty (numeral_ne_nil base number)
  · congr 1
    unfold numeral
    split
    · rename_i isZero
      rw [isZero, List.foldl_cons, List.foldl_nil, toNat_digitOf (by decide), Nat.zero_mul]
    · have small : ∀ digit ∈ base.digits number, digit < 10 :=
        fun digit member => lt_of_lt_of_le (Nat.digits_lt_base more member) few
      rw [List.map_reverse, List.foldl_reverse, foldr_digits small, Nat.ofDigits_digits]

/-- A stream skips no character of a numeral, and reads no sign from it. -/
theorem exists_numeral_cons (more : 1 < base) (few : base ≤ 10) (number : Nat) :
    ∃ digit < base, ∃ rest, numeral base number = digitOf digit :: rest ∧
      isSpace (digitOf digit) = false ∧ digitOf digit ≠ 45 ∧ digitOf digit ≠ 43 := by
  rcases spelled : numeral base number with _ | ⟨byte, rest⟩
  · exact absurd spelled (numeral_ne_nil base number)
  · have member : byte ∈ numeral base number := spelled ▸ List.mem_cons_self
    obtain ⟨digit, small, rfl⟩ := exists_digit_of_mem_numeral more member
    have plain : ∀ digit < 10,
        isSpace (digitOf digit) = false ∧ digitOf digit ≠ 45 ∧ digitOf digit ≠ 43 := by decide
    exact ⟨digit, small, rest, rfl, plain digit (lt_of_lt_of_le small few)⟩

theorem readInteger_numeral (more : 1 < base) (few : base ≤ 10) (number : Nat) :
    readInteger base (numeral base number) = some (false, number) := by
  obtain ⟨digit, -, rest, spelled, visible, noMinus, noPlus⟩ := exists_numeral_cons more few number
  have value := readDigits_numeral more few number
  rw [spelled] at value ⊢
  rw [readInteger, List.dropWhile_cons_of_neg (by simp [visible])]
  simp only [noMinus, noPlus, if_false, value, Option.map_some]

/-- A numeral is read as its number when that fits, and not at all otherwise. -/
theorem readUnsigned_numeral (T : Type) [HostInt T] (more : 1 < base) (few : base ≤ 10)
    (number : Nat) :
    readUnsigned T base (numeral base number) =
      if number < 256 ^ HostInt.size T then some (HostInt.ofNat number) else none := by
  rw [readUnsigned, readInteger_numeral more few]
  rfl

/-- What is read as a character is the first digit. -/
theorem readChar_numeral (number : Nat) :
    ∃ digit < 10, readChar (numeral 10 number) = some (digitOf digit) ∧
      (numeral 10 number).head? = some (digitOf digit) := by
  obtain ⟨digit, small, rest, spelled, visible, -, -⟩ :=
    exists_numeral_cons (Nat.lt_of_sub_pos (by decide)) le_rfl number
  refine ⟨digit, small, ?_, by rw [spelled]; rfl⟩
  rw [spelled, readChar, List.dropWhile_cons_of_neg (by simp [visible])]
  rfl

/-- The only number whose numeral begins with the character of that code. -/
theorem readChar_numeral_eq_iff (number : Nat) :
    (∃ byte, readChar (numeral 10 number) = some byte ∧ byte.toNat = number) ↔ number = 53 := by
  constructor
  · rintro ⟨byte, read, code⟩
    obtain ⟨digit, small, first, head⟩ := readChar_numeral number
    rw [read, Option.some.injEq] at first
    rw [first, toNat_digitOf small] at code
    have codes : ∀ digit < 10, (numeral 10 (48 + digit)).head? = some (digitOf digit) →
        48 + digit = 53 := by decide
    rw [← code] at head ⊢
    exact codes digit small head
  · rintro rfl
    exact ⟨53, by decide, rfl⟩

end OfflineFs
