import Mathlib.Data.List.TakeWhile
import OfflineFs.Model.Path

/-!
# Tokens and keys

The components of a path are not empty and contain no separator, and joining such
components and taking the result apart again gives them back.  The path caches
use the joined components as keys.
-/

namespace OfflineFs

/-- A name for an entry other than a directory's own. -/
def IsName (name : Bytes) : Prop :=
  name ≠ str "." ∧ name ≠ str ".."

instance (name : Bytes) : Decidable (IsName name) :=
  inferInstanceAs (Decidable (_ ∧ _))

theorem isName_or_own (name : Bytes) : IsName name ∨ name = str "." ∨ name = str ".." := by
  by_cases own : name = str "."
  · exact .inr (.inl own)
  · by_cases up : name = str ".."
    · exact .inr (.inr up)
    · exact .inl ⟨own, up⟩

/-- Components as `tokenize` produces them. -/
def Proper (tokens : List Bytes) : Prop :=
  ∀ token ∈ tokens, token ≠ [] ∧ slash ∉ token

namespace Proper

variable {token : Bytes} {tokens : List Bytes}

theorem nil : Proper [] :=
  fun _ member => absurd member List.not_mem_nil

theorem cons_iff : Proper (token :: tokens) ↔ (token ≠ [] ∧ slash ∉ token) ∧ Proper tokens :=
  List.forall_mem_cons

theorem reverse (proper : Proper tokens) : Proper tokens.reverse :=
  fun token member => proper token (List.mem_reverse.mp member)

theorem of_suffix {up : List Bytes} (proper : Proper tokens) (suffix : up <:+ tokens) :
    Proper up :=
  fun token member => proper token (suffix.subset member)

end Proper

theorem slash_notMem_takeWhile (rest : Bytes) : slash ∉ rest.takeWhile (· ≠ slash) := by
  intro member
  simpa using List.mem_takeWhile_imp member

theorem proper_tokenizeLoop (fuel : Nat) (rest : Bytes) : Proper (tokenizeLoop fuel rest) := by
  induction fuel generalizing rest with
  | zero => exact .nil
  | succ fuel ih =>
      simp only [tokenizeLoop]
      split
      · exact .nil
      · split
        · exact ih _
        · rename_i nonempty
          exact Proper.cons_iff.mpr ⟨⟨nonempty, slash_notMem_takeWhile rest⟩, ih _⟩

theorem proper_tokenize (path : Bytes) : Proper (tokenize path) :=
  proper_tokenizeLoop _ _

/-! ## Joining -/

theorem join_eq (first : Bytes) (rest : List Bytes) :
    join (first :: rest) = first ++ rest.flatMap (slash :: ·) := by
  change rest.foldl (fun result token => result ++ [slash] ++ token) first = _
  induction rest generalizing first with
  | nil => simp
  | cons token rest ih =>
      rw [List.foldl_cons, ih, List.flatMap_cons]
      simp

theorem join_cons_cons (first second : Bytes) (rest : List Bytes) :
    join (first :: second :: rest) = first ++ slash :: join (second :: rest) := by
  simp [join_eq]

/-- The loop consumes a component and the separator after it. -/
theorem tokenizeLoop_component {token : Bytes} (proper : token ≠ [] ∧ slash ∉ token) (fuel : Nat)
    (rest : Bytes) :
    tokenizeLoop (fuel + 1) (token ++ slash :: rest) = token :: tokenizeLoop fuel rest := by
  have kept : ∀ byte ∈ token, decide (byte ≠ slash) = true := by
    intro byte member
    have apart : byte ≠ slash := fun same => proper.2 (same ▸ member)
    simpa using apart
  rw [tokenizeLoop, List.takeWhile_append_of_pos kept, List.dropWhile_append_of_pos kept]
  simp [proper.1]

theorem tokenizeLoop_last {token : Bytes} (proper : token ≠ [] ∧ slash ∉ token) (fuel : Nat) :
    tokenizeLoop (fuel + 1) token = [token] := by
  have kept : ∀ byte ∈ token, decide (byte ≠ slash) = true := by
    intro byte member
    have apart : byte ≠ slash := fun same => proper.2 (same ▸ member)
    simpa using apart
  have whole : token.takeWhile (· ≠ slash) = token := List.takeWhile_eq_self_iff.mpr kept
  have nothing : token.dropWhile (· ≠ slash) = [] := List.dropWhile_eq_nil_iff.mpr kept
  rw [tokenizeLoop, whole, nothing]
  cases fuel <;> simp [proper.1, tokenizeLoop]

/-- Joined components are found again. -/
theorem tokenizeLoop_join {first : Bytes} {rest : List Bytes} (proper : Proper (first :: rest))
    {fuel : Nat} (enough : (join (first :: rest)).length ≤ fuel) :
    tokenizeLoop fuel (join (first :: rest)) = first :: rest := by
  induction rest generalizing first fuel with
  | nil =>
      have component := (Proper.cons_iff.mp proper).1
      have positive := List.length_pos_iff.mpr component.1
      simp only [join_eq, List.flatMap_nil, List.append_nil] at enough ⊢
      obtain ⟨fuel, rfl⟩ := Nat.exists_eq_add_of_lt (positive.trans_le enough)
      rw [Nat.zero_add]
      exact tokenizeLoop_last component fuel
  | cons second rest ih =>
      have parts := Proper.cons_iff.mp proper
      rw [join_cons_cons] at enough ⊢
      simp only [List.length_append, List.length_cons] at enough
      obtain ⟨fuel, rfl⟩ := Nat.exists_eq_add_of_lt (show 0 < fuel by omega)
      rw [Nat.zero_add] at enough ⊢
      rw [tokenizeLoop_component parts.1, ih parts.2 (by omega)]

/-- Taking a joined path apart gives its components back. -/
theorem tokenize_join {tokens : List Bytes} (proper : Proper tokens) :
    tokenize (join tokens) = tokens := by
  cases tokens with
  | nil => rfl
  | cons first rest => exact tokenizeLoop_join proper le_rfl

/-! ## Keys -/

/-- The key of a path, given by its tokens in reverse order. -/
def keyOf (tokens : List Bytes) : Bytes :=
  join tokens.reverse

/-- The key of the parent directory. -/
def parentKey (key : Bytes) : Bytes :=
  join (tokenize key).dropLast

theorem keyOf_inj {first second : List Bytes} (firstProper : Proper first)
    (secondProper : Proper second) : keyOf first = keyOf second ↔ first = second := by
  constructor
  · intro same
    have back := congrArg tokenize same
    rw [keyOf, keyOf, tokenize_join firstProper.reverse, tokenize_join secondProper.reverse] at back
    exact List.reverse_inj.mp back
  · rintro rfl
    rfl

@[simp]
theorem parentKey_keyOf {leaf : Bytes} {up : List Bytes} (proper : Proper (leaf :: up)) :
    parentKey (keyOf (leaf :: up)) = keyOf up := by
  rw [parentKey, keyOf, tokenize_join proper.reverse, List.reverse_cons, List.dropLast_concat]
  rfl

theorem keyOf_eq_nil_iff {tokens : List Bytes} (proper : Proper tokens) :
    keyOf tokens = [] ↔ tokens = [] :=
  keyOf_inj proper .nil

/-- The keys of the ancestors of a path are not its own. -/
theorem keyOf_ne_of_suffix {leaf : Bytes} {up higher : List Bytes} (proper : Proper (leaf :: up))
    (suffix : higher <:+ up) : keyOf higher ≠ keyOf (leaf :: up) := by
  intro same
  have higherProper := (Proper.cons_iff.mp proper).2.of_suffix suffix
  have lengths := congrArg List.length ((keyOf_inj higherProper proper).mp same)
  have shorter := suffix.length_le
  rw [List.length_cons] at lengths
  omega

end OfflineFs
