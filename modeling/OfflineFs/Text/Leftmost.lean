import Mathlib.Data.List.Basic
import Mathlib.Data.List.Induction
import Mathlib.Data.List.Infix
import Mathlib.Data.List.TakeWhile

/-!
# Taking a text apart at delimiters

A text is cut at the occurrences of given delimiters, in their order.  The cut
that always takes the first occurrence exists whenever any cut does, and it is
unique.
-/

namespace OfflineFs.Text

variable {α : Type*} {delimiter piece rest text : List α} {delimiters pieces : List (List α)}

/-! ## Up to a stop -/

section Stop

variable [DecidableEq α] {stop item : α}

theorem notMem_takeWhile (stop : α) (text : List α) : stop ∉ text.takeWhile (· ≠ stop) := by
  intro member
  simpa using List.mem_takeWhile_imp member

theorem eq_of_dropWhile (left : text.dropWhile (· ≠ stop) = item :: rest) : item = stop := by
  have stops := List.head?_dropWhile_not (· ≠ stop) text
  rw [left] at stops
  simpa using stops

theorem takeWhile_stop (absent : stop ∉ piece) (rest : List α) :
    (piece ++ stop :: rest).takeWhile (· ≠ stop) = piece := by
  have kept : ∀ other ∈ piece, decide (other ≠ stop) = true :=
    fun other member => decide_eq_true fun same => absent (same ▸ member)
  rw [List.takeWhile_append_of_pos kept]
  simp

theorem dropWhile_stop (absent : stop ∉ piece) (rest : List α) :
    (piece ++ stop :: rest).dropWhile (· ≠ stop) = stop :: rest := by
  have kept : ∀ other ∈ piece, decide (other ≠ stop) = true :=
    fun other member => decide_eq_true fun same => absent (same ▸ member)
  rw [List.dropWhile_append_of_pos kept]
  simp

omit [DecidableEq α] in
theorem exists_last (member : stop ∈ text) :
    ∃ front back, text = front ++ stop :: back ∧ stop ∉ back := by
  obtain ⟨back, front, reversed, absent⟩ :=
    List.eq_append_cons_of_mem (List.mem_reverse.mpr member)
  refine ⟨front.reverse, back.reverse, ?_, fun found => absent (List.mem_reverse.mp found)⟩
  rw [← List.reverse_reverse text, reversed]
  simp

/-- A text ends with a run of stops, and before them with something else. -/
theorem exists_trailing (stop : α) (text : List α) :
    ∃ front stops, text = front ++ stops ∧ (∀ item ∈ stops, item = stop) ∧
      front.getLast? ≠ some stop := by
  induction text using List.reverseRecOn with
  | nil => exact ⟨[], [], rfl, by simp, by simp⟩
  | append_singleton text item ih =>
      by_cases same : item = stop
      · obtain ⟨front, stops, rfl, only, last⟩ := ih
        refine ⟨front, stops ++ [item], List.append_assoc _ _ _, ?_, last⟩
        simpa [same, or_imp, forall_and] using only
      · exact ⟨text ++ [item], [], (List.append_nil _).symm, by simp, by simpa using same⟩

end Stop

/-! ## Cuts -/

/-- Each piece and its delimiter after it. -/
def interleave (pieces delimiters : List (List α)) : List α :=
  (List.zipWith (· ++ ·) pieces delimiters).flatten

@[simp]
theorem interleave_cons (piece delimiter : List α) (pieces delimiters : List (List α)) :
    interleave (piece :: pieces) (delimiter :: delimiters) =
      piece ++ delimiter ++ interleave pieces delimiters := by
  simp [interleave]

@[simp]
theorem interleave_nil (pieces : List (List α)) : interleave pieces [] = [] := by
  simp [interleave]

/-- The text is the pieces, each with its delimiter after it, and the rest. -/
def Splits (delimiters : List (List α)) (text : List α) (pieces : List (List α))
    (rest : List α) : Prop :=
  pieces.length = delimiters.length ∧ text = interleave pieces delimiters ++ rest

/-- The piece before the first occurrence of the delimiter, and what is after it. -/
structure First (delimiter text piece rest : List α) : Prop where
  whole : text = piece ++ delimiter ++ rest
  shortest : ∀ other after, text = other ++ delimiter ++ after → piece.length ≤ other.length

/-- The text is split so that each piece is the shortest possible one after the
earlier ones. -/
inductive Leftmost : List (List α) → List α → List (List α) → List α → Prop
  | nil (text : List α) : Leftmost [] text [] text
  | cons {delimiter text piece after : List α} {delimiters pieces : List (List α)}
      {rest : List α} (first : First delimiter text piece after)
      (others : Leftmost delimiters after pieces rest) :
      Leftmost (delimiter :: delimiters) text (piece :: pieces) rest

/-! ## First occurrences -/

namespace First

/-- What is before the first occurrence of a text does not matter to what is after it. -/
theorem suffix (first : First delimiter text piece rest) {other after : List α}
    (whole : text = other ++ delimiter ++ after) : after <:+ rest := by
  have shorter := first.shortest other after whole
  have lengths := congrArg List.length (whole.symm.trans first.whole)
  simp only [List.length_append] at lengths
  have ofText : after <:+ text := ⟨other ++ delimiter, whole.symm⟩
  exact List.suffix_of_suffix_length_le ofText ⟨piece ++ delimiter, first.whole.symm⟩ (by omega)

theorem unique (first : First delimiter text piece rest) {other after : List α}
    (second : First delimiter text other after) : piece = other ∧ rest = after := by
  have length : piece.length = other.length :=
    Nat.le_antisymm (first.shortest _ _ second.whole) (second.shortest _ _ first.whole)
  have same := first.whole.symm.trans second.whole
  simp only [List.append_assoc] at same
  obtain ⟨pieces, rests⟩ := List.append_inj same length
  exact ⟨pieces, List.append_cancel_left rests⟩

theorem of_startsWith (front : delimiter <+: text) :
    First delimiter text [] (text.drop delimiter.length) := by
  obtain ⟨rest, rfl⟩ := front
  constructor
  · simp
  · exact fun _ _ _ => Nat.zero_le _

theorem cons {item : α} (absent : ¬ delimiter <+: item :: text)
    (first : First delimiter text piece rest) :
    First delimiter (item :: text) (item :: piece) rest := by
  constructor
  · simp [first.whole]
  · intro other after whole
    cases other with
    | nil => exact absurd ⟨after, whole.symm⟩ absent
    | cons head other =>
        exact Nat.succ_le_succ (first.shortest other after (List.cons.inj whole).2)

/-- A delimiter that is found first right after a piece is so in a longer text. -/
theorem extend (first : First delimiter (piece ++ delimiter) piece []) (rest : List α) :
    First delimiter (piece ++ delimiter ++ rest) piece rest := by
  refine ⟨rfl, fun other after whole => ?_⟩
  by_contra shorter
  have fits : other ++ delimiter <+: piece ++ delimiter := by
    have front : other ++ delimiter <+: piece ++ delimiter ++ rest := ⟨after, whole.symm⟩
    apply List.prefix_of_prefix_length_le front
    · exact ⟨rest, rfl⟩
    · simp only [List.length_append]
      omega
  obtain ⟨last, within⟩ := fits
  exact shorter (first.shortest other last within.symm)

end First

/-! ## Splits -/

/-- A text is split at a delimiter and then at the others. -/
theorem splits_cons_iff :
    Splits (delimiter :: delimiters) text pieces rest ↔
      ∃ piece others after, pieces = piece :: others ∧ text = piece ++ delimiter ++ after ∧
        Splits delimiters after others rest := by
  constructor
  · rintro ⟨length, whole⟩
    cases pieces with
    | nil => cases length
    | cons piece others =>
        refine ⟨piece, others, interleave others delimiters ++ rest, rfl, ?_,
          Nat.succ.inj length, rfl⟩
        simpa using whole
  · rintro ⟨piece, others, after, rfl, rfl, length, rfl⟩
    constructor
    · simp [length]
    · simp

/-- A text can be split when one of its suffixes can. -/
theorem Splits.of_suffix {after : List α} (splits : Splits delimiters after pieces rest)
    (suffix : after <:+ text) : ∃ pieces rest, Splits delimiters text pieces rest := by
  obtain ⟨front, rfl⟩ := suffix
  cases delimiters with
  | nil => exact ⟨[], front ++ after, rfl, rfl⟩
  | cons delimiter delimiters =>
      rcases splits_cons_iff.mp splits with ⟨piece, others, more, _, rfl, later⟩
      refine ⟨(front ++ piece) :: others, rest, splits_cons_iff.mpr ?_⟩
      exact ⟨front ++ piece, others, more, rfl, by simp, later⟩

namespace Leftmost

theorem splits (leftmost : Leftmost delimiters text pieces rest) :
    Splits delimiters text pieces rest := by
  induction leftmost with
  | nil text => exact ⟨rfl, rfl⟩
  | cons first _ ih => exact splits_cons_iff.mpr ⟨_, _, _, rfl, first.whole, ih⟩

/-- Pieces that end where their delimiter first occurs are found again. -/
theorem interleave {pieces delimiters : List (List α)}
    (first : List.Forall₂ (fun piece delimiter => First delimiter (piece ++ delimiter) piece [])
      pieces delimiters) (rest : List α) :
    Leftmost delimiters (interleave pieces delimiters ++ rest) pieces rest := by
  induction first with
  | nil => simpa using Leftmost.nil rest
  | cons occurs _ ih =>
      rw [interleave_cons, List.append_assoc]
      exact .cons (occurs.extend _) ih

end Leftmost

/-- The first occurrence of each delimiter never misses a split: a search that finds
them, and fails only when there is none, splits every text that can be split. -/
theorem Splits.leftmost (search : ∀ delimiter text : List α,
      (∃ piece rest, First delimiter text piece rest) ∨
        ∀ piece rest, text ≠ piece ++ delimiter ++ rest)
    (splits : Splits delimiters text pieces rest) :
    ∃ pieces rest, Leftmost delimiters text pieces rest := by
  induction delimiters generalizing text pieces rest with
  | nil => exact ⟨[], text, .nil text⟩
  | cons delimiter delimiters ih =>
      rcases splits_cons_iff.mp splits with ⟨piece, others, after, rfl, whole, splits⟩
      rcases search delimiter text with ⟨before, later, first⟩ | missing
      · obtain ⟨_, _, again⟩ := splits.of_suffix (first.suffix whole)
        obtain ⟨pieces, rest, leftmost⟩ := ih again
        exact ⟨before :: pieces, rest, .cons first leftmost⟩
      · exact absurd whole (missing piece after)

end OfflineFs.Text
