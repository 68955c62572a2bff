import OfflineFs.Caches.Paths
import OfflineFs.Model.Offimport

/-!
# Paths below a prefix

An imported path is the prefix with the path of the line after it.  Where neither has a slash
at the seam, two components run into one.
-/

namespace OfflineFs

variable {front back : Bytes}

/-- A text that does not end in a slash ends in a component. -/
theorem exists_last_component (nonempty : front ≠ []) (open_ : front.getLast? ≠ some slash) :
    ∃ before token, slash ∉ token ∧ token ≠ [] ∧
      ∀ rest, tokenize (front ++ rest) = tokenize before ++ tokenize (token ++ rest) := by
  by_cases member : slash ∈ front
  · obtain ⟨before, token, rfl, plain⟩ := Text.exists_last member
    refine ⟨before, token, plain, ?_, fun rest => ?_⟩
    · rintro rfl
      simp at open_
    · rw [List.append_assoc, List.cons_append, tokenize_append]
  · exact ⟨[], front, member, nonempty, fun rest => rfl⟩

/-- A text that does not begin with a slash begins with a component. -/
theorem exists_first_component (nonempty : back ≠ []) (closed : back.head? ≠ some slash) :
    ∃ token after, slash ∉ token ∧ token ≠ [] ∧
      ∀ more, slash ∉ more → tokenize (more ++ back) = (more ++ token) :: after := by
  by_cases member : slash ∈ back
  · obtain ⟨token, rest, rfl, plain⟩ := List.eq_append_cons_of_mem member
    have named : token ≠ [] := by
      rintro rfl
      simp at closed
    refine ⟨token, tokenize rest, plain, named, fun more absent => ?_⟩
    rw [← List.append_assoc, tokenize_component (by simp [absent, plain]), component,
      if_neg (by simp [named]), List.singleton_append]
  · refine ⟨back, [], member, nonempty, fun more absent => ?_⟩
    rw [tokenize_plain (by simp [absent, member]), component, if_neg (by simp [nonempty])]

/-- Joining two texts joins their components exactly when there is a slash at the seam, or
nothing on one side. -/
theorem tokenize_append_iff : tokenize (front ++ back) = tokenize front ++ tokenize back ↔
    front = [] ∨ back = [] ∨ front.getLast? = some slash ∨ back.head? = some slash := by
  constructor
  · intro apart
    by_contra seam
    simp only [not_or] at seam
    obtain ⟨frontNonempty, backNonempty, frontOpen, backOpen⟩ := seam
    obtain ⟨before, last, plain, lastNonempty, ends⟩ :=
      exists_last_component frontNonempty frontOpen
    obtain ⟨first, after, -, -, begins⟩ := exists_first_component backNonempty backOpen
    have whole : tokenize front = tokenize before ++ [last] := by
      have alone := ends []
      rwa [List.append_nil, List.append_nil, tokenize_plain plain, component,
        if_neg lastNonempty] at alone
    have other : tokenize back = first :: after := begins [] List.not_mem_nil
    rw [ends back, begins last plain, whole, other] at apart
    have lengths := congrArg List.length apart
    simp only [List.length_append, List.length_cons, List.length_nil] at lengths
    omega
  · rintro (rfl | rfl | last | first)
    · rfl
    · rw [List.append_nil, tokenize_nil, List.append_nil]
    · obtain ⟨before, rfl⟩ := List.getLast?_eq_some_iff.mp last
      rw [List.append_assoc, List.singleton_append, tokenize_append, tokenize_append, tokenize_nil,
        List.append_nil]
    · obtain ⟨rest, rfl⟩ := List.head?_eq_some_iff.mp first
      have own : tokenize (slash :: rest) = tokenize rest := tokenize_append [] rest
      rw [tokenize_append, own]

namespace Offimport

/-- The prefix as it was given, or the default. -/
def givenPrefix (given : Option Bytes) : Bytes :=
  given.getD [slash]

theorem tokenize_prefixOf (given : Option Bytes) :
    tokenize (prefixOf given) = tokenize (givenPrefix given) := by
  cases given with
  | none => rfl
  | some given =>
      rw [prefixOf]
      split
      · rfl
      · exact tokenize_append [] given

theorem prefixOf_ne_nil (given : Option Bytes) : prefixOf given ≠ [] := by
  cases given with
  | none => exact List.cons_ne_nil _ _
  | some given =>
      rw [prefixOf]
      split
      · rename_i rooted
        rintro rfl
        cases rooted
      · exact List.cons_ne_nil _ _

/-- When a prefix ends in a slash. -/
theorem getLast?_prefixOf (given : Option Bytes) :
    (prefixOf given).getLast? = some slash ↔
      givenPrefix given = [] ∨ (givenPrefix given).getLast? = some slash := by
  cases given with
  | none => exact iff_of_true rfl (.inr rfl)
  | some given =>
      rw [prefixOf, givenPrefix, Option.getD_some]
      cases given with
      | nil => exact iff_of_true rfl (.inl rfl)
      | cons byte given =>
          split
          · simp
          · simp [List.getLast?_cons_cons]

/-- A line's path has the components of the prefix and then its own exactly when the prefix is
empty or ends in a slash, or the path begins with one. -/
theorem tokenize_prefix_iff (given : Option Bytes) (m : FMap) (named : pathOf m ≠ []) :
    tokenize (prefixOf given ++ pathOf m) = tokenize (givenPrefix given) ++ tokenize (pathOf m) ↔
      givenPrefix given = [] ∨ (givenPrefix given).getLast? = some slash ∨
        (pathOf m).head? = some slash := by
  have prefixNonempty := prefixOf_ne_nil given
  rw [← tokenize_prefixOf, tokenize_append_iff, getLast?_prefixOf, or_assoc]
  simp only [prefixNonempty, named, false_or]

theorem tokenize_prefix_slash :
    tokenize (prefixOf (some (str "disc/")) ++ pathOf { path := str "music/a" }) =
        tokenize (givenPrefix (some (str "disc/"))) ++ tokenize (pathOf { path := str "music/a" }) ↔
      givenPrefix (some (str "disc/")) = [] ∨
        (givenPrefix (some (str "disc/"))).getLast? = some slash ∨
          (pathOf { path := str "music/a" }).head? = some slash :=
  tokenize_prefix_iff (some (str "disc/")) { path := str "music/a" } (by decide)

/-- A relative path below a prefix without a slash at its end gets a wrong name. -/
theorem prefix_runs_in : pathOf { path := str "music/a" } ≠ [] ∧
    tokenize (prefixOf (some (str "/disc")) ++ pathOf { path := str "music/a" }) ≠
      tokenize (givenPrefix (some (str "/disc"))) ++ tokenize
        (pathOf { path := str "music/a" }) := by
  decide

end Offimport

end OfflineFs
