import OfflineFs.Caches.Tokens
import OfflineFs.Run.PathCaches
import OfflineFs.Text.Leftmost

/-!
# The two path parsers agree

`tokenize` scans a path forward, and the constructor of `Path` takes its last
component off from the back.
-/

namespace OfflineFs

open OfflineFs.Effect

/-! ## Scanning forward -/

/-- The loop has enough rounds when it has one for each byte. -/
theorem tokenizeLoop_enough {fuel more : Nat} {rest : Bytes} (enough : rest.length ≤ fuel)
    (also : rest.length ≤ more) : tokenizeLoop fuel rest = tokenizeLoop more rest := by
  induction fuel generalizing more rest with
  | zero =>
      obtain rfl := List.length_eq_zero_iff.mp (Nat.le_zero.mp enough)
      cases more <;> rfl
  | succ fuel ih =>
      cases more with
      | zero =>
          obtain rfl := List.length_eq_zero_iff.mp (Nat.le_zero.mp also)
          rfl
      | succ more =>
          by_cases empty : rest = []
          · simp only [tokenizeLoop, empty, if_true]
          · have cut : ((rest.dropWhile (· ≠ slash)).drop 1).length < rest.length := by
              have shorter := (List.dropWhile_sublist (· ≠ slash) (l := rest)).length_le
              have nonempty := List.length_pos_iff.mpr empty
              simp only [List.length_drop]
              omega
            simp only [tokenizeLoop, if_neg empty]
            rw [@ih more _ (by omega) (by omega)]

/-- A component as `tokenize` returns it, unless it is empty. -/
def component (token : Bytes) : List Bytes :=
  if token = [] then [] else [token]

@[simp]
theorem tokenize_nil : tokenize [] = [] :=
  rfl

theorem tokenize_plain {token : Bytes} (plain : slash ∉ token) :
    tokenize token = component token := by
  cases token with
  | nil => rfl
  | cons byte token => exact tokenizeLoop_last ⟨List.cons_ne_nil byte token, plain⟩ _

theorem tokenize_component {token : Bytes} (plain : slash ∉ token) (rest : Bytes) :
    tokenize (token ++ slash :: rest) = component token ++ tokenize rest := by
  rw [tokenize, List.length_append, List.length_cons, ← Nat.add_assoc, tokenizeLoop,
    Text.takeWhile_stop plain, Text.dropWhile_stop plain]
  have same : tokenizeLoop (token.length + rest.length) rest = tokenize rest :=
    tokenizeLoop_enough (Nat.le_add_left _ _) le_rfl
  by_cases empty : token = []
  · simp [component, empty, ← same]
  · simp [component, empty, same]

/-- The components before a slash and those after it are found apart. -/
theorem tokenize_append (front rest : Bytes) :
    tokenize (front ++ slash :: rest) = tokenize front ++ tokenize rest := by
  induction length : front.length using Nat.strong_induction_on generalizing front with
  | _ size ih =>
      by_cases member : slash ∈ front
      · obtain ⟨token, others, rfl, plain⟩ := List.eq_append_cons_of_mem member
        have shorter : others.length < size := by
          simp only [List.length_append, List.length_cons] at length
          omega
        rw [List.append_assoc, List.cons_append, tokenize_component plain,
          tokenize_component plain, ih _ shorter others rfl, List.append_assoc]
      · rw [tokenize_component member, tokenize_plain member]

theorem tokenize_slashes {slashes : Bytes} (only : ∀ byte ∈ slashes, byte = slash) :
    tokenize slashes = [] := by
  induction slashes with
  | nil => rfl
  | cons byte slashes ih =>
      obtain ⟨rfl, others⟩ := List.forall_mem_cons.mp only
      exact (tokenize_append [] slashes).trans (ih others)

theorem tokenize_trailing (path : Bytes) {slashes : Bytes}
    (only : ∀ byte ∈ slashes, byte = slash) :
    tokenize (path ++ slashes) = tokenize path := by
  cases slashes with
  | nil => rw [List.append_nil]
  | cons byte slashes =>
      obtain ⟨rfl, others⟩ := List.forall_mem_cons.mp only
      rw [tokenize_append, tokenize_slashes others, List.append_nil]

/-! ## Scanning backward -/

theorem Medium.lastWhere_eq_none {test : UInt8 → Bool} {bytes : Bytes}
    (never : ∀ byte ∈ bytes, test byte = false) : lastWhere test bytes = none := by
  have missing : bytes.reverse.findIdx? test = none := by
    rw [List.findIdx?_eq_none_iff]
    exact fun byte member => never byte (List.mem_reverse.mp member)
  rw [lastWhere, missing, Option.map_none]

/-- The last byte that passes a test, found from the back. -/
theorem Medium.lastWhere_append {test : UInt8 → Bool} {front back : Bytes} {byte : UInt8}
    (last : test byte = true) (never : ∀ byte ∈ back, test byte = false) :
    lastWhere test (front ++ byte :: back) = some (front.length + 1) := by
  have found : (front ++ byte :: back).reverse.findIdx? test = some back.length := by
    rw [List.reverse_append, List.reverse_cons, List.append_assoc, List.findIdx?_append]
    have missing : back.reverse.findIdx? test = none := by
      rw [List.findIdx?_eq_none_iff]
      exact fun byte member => never byte (List.mem_reverse.mp member)
    rw [missing]
    simp [List.findIdx?_cons, last]
  rw [lastWhere, found, Option.map_some, List.length_append, List.length_cons]
  congr 1
  omega

/-- A path has only slashes, or a last component with a slash before it. -/
inductive Ending : Bytes → Bytes → Bytes → Prop
  | slashes {path : Bytes} (only : ∀ byte ∈ path, byte = slash) : Ending path [] []
  | leaf {parentpath leaf slashes : Bytes} (plain : slash ∉ leaf) (nonempty : leaf ≠ [])
      (only : ∀ byte ∈ slashes, byte = slash) :
      Ending (parentpath ++ slash :: leaf ++ slashes) parentpath leaf

/-- Every absolute path ends in one of the ways told apart here. -/
theorem exists_ending {path : Bytes} (rooted : path.head? = some slash) :
    ∃ parentpath leaf, Ending path parentpath leaf := by
  obtain ⟨front, slashes, rfl, only, stops⟩ := Text.exists_trailing slash path
  rcases front with _ | ⟨first, front⟩
  · exact ⟨[], [], .slashes only⟩
  · obtain rfl : first = slash := by simpa using rooted
    obtain ⟨parentpath, leaf, whole, plain⟩ :=
      Text.exists_last (List.mem_cons_self (a := slash) (l := front))
    rw [whole] at stops ⊢
    have nonempty : leaf ≠ [] := by
      rintro rfl
      simp at stops
    exact ⟨parentpath, leaf, .leaf plain nonempty only⟩

namespace Ending

variable {path parentpath leaf : Bytes}

/-- The constructor computes the end of the path. -/
theorem splitPath (ending : Ending path parentpath leaf) :
    splitPath path = (parentpath, leaf) := by
  cases ending with
  | slashes only =>
      have none : Medium.lastWhere (· ≠ slash) path = none :=
        Medium.lastWhere_eq_none fun byte member => by simp [only byte member]
      rw [OfflineFs.splitPath, none]
  | @leaf _ _ slashes plain nonempty only =>
      have notslash : Medium.lastWhere (· ≠ slash) (parentpath ++ slash :: leaf ++ slashes) =
          some (parentpath ++ slash :: leaf).length := by
        obtain ⟨front, last, rfl⟩ := (List.eq_nil_or_concat leaf).resolve_left nonempty
        rw [List.concat_eq_append] at plain ⊢
        have apart : last ≠ slash := fun same => plain (by simp [same])
        have found : Medium.lastWhere (· ≠ slash)
            (parentpath ++ slash :: front ++ last :: slashes) = _ :=
          Medium.lastWhere_append (by simpa using apart) fun byte member => by
            simp [only byte member]
        simpa [Nat.add_assoc] using found
      have slashpos : Medium.lastWhere (· = slash) (parentpath ++ slash :: leaf) =
          some (parentpath.length + 1) :=
        Medium.lastWhere_append (by simp) fun byte member =>
          decide_eq_false fun same => plain (same ▸ member)
      rw [OfflineFs.splitPath, notslash]
      simp only [List.take_left, slashpos]
      simp [List.append_assoc]

/-- The forward scan finds the components of the parent and then the last one. -/
theorem tokenize (ending : Ending path parentpath leaf) :
    tokenize path = OfflineFs.tokenize parentpath ++ component leaf := by
  cases ending with
  | slashes only => rw [tokenize_slashes only, tokenize_nil, List.nil_append]; rfl
  | leaf plain nonempty only =>
      rw [tokenize_trailing _ only, tokenize_append, tokenize_plain plain]

end Ending

/-- The constructor of `Path` takes off the last of the components that `tokenize` finds,
and without any it names the root. -/
theorem splitPath_tokenize (path : Bytes) (rooted : path.head? = some slash) :
    (tokenize path ≠ [] →
        (tokenize path).getLast? = some (splitPath path).2 ∧
          tokenize (splitPath path).1 = (tokenize path).dropLast) ∧
      (tokenize path = [] →
        (splitPath path).2 = [] ∧
          (∀ (dbs : Dbs) (sctx : SContext),
            dbs.resolve sctx (splitPath path).1 = dbs.getnode 0) ∧
          ∀ sctx, PathCache_hash.getnode sctx (splitPath path).1 =
            PathCache_hash.getnode sctx [slash]) := by
  obtain ⟨parentpath, leaf, ending⟩ := exists_ending rooted
  rw [ending.splitPath, ending.tokenize]
  cases ending with
  | slashes only =>
      constructor
      · intro nonempty
        exact absurd rfl nonempty
      · intro _
        refine ⟨rfl, fun dbs sctx => ?_, fun sctx => rfl⟩
        rw [Dbs.resolve]
        cases dbs.getnode 0 <;> rfl
  | leaf plain nonempty only =>
      have last : component leaf = [leaf] := if_neg nonempty
      rw [last]
      constructor
      · intro _
        constructor
        · exact List.getLast?_concat
        · exact List.dropLast_concat.symm
      · intro empty
        exact absurd empty (List.append_ne_nil_of_right_ne_nil _ (List.cons_ne_nil _ _))

theorem splitPath_tokenize_doubled :
    (tokenize (str "//a/b//") ≠ [] →
        (tokenize (str "//a/b//")).getLast? = some (splitPath (str "//a/b//")).2 ∧
          tokenize (splitPath (str "//a/b//")).1 = (tokenize (str "//a/b//")).dropLast) ∧
      (tokenize (str "//a/b//") = [] →
        (splitPath (str "//a/b//")).2 = [] ∧
          (∀ (dbs : Dbs) (sctx : SContext),
            dbs.resolve sctx (splitPath (str "//a/b//")).1 = dbs.getnode 0) ∧
          ∀ sctx, PathCache_hash.getnode sctx (splitPath (str "//a/b//")).1 =
            PathCache_hash.getnode sctx [slash]) :=
  splitPath_tokenize (str "//a/b//") (by decide +kernel)

end OfflineFs
