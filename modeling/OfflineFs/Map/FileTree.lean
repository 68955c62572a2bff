import Mathlib.Data.Finset.Card
import Mathlib.Data.List.Infix
import Mathlib.Tactic.Simps.Basic

/-!
# Trees of directories and files

A place in a tree is the list of the names on the way to it, the innermost first, so the tail
of a place is the directory it is in and its suffixes are the directories above it.

Removing a file and then each directory above it that is left bare removes the directories
that held nothing but the way to the file.  In a tree without bare directories this takes back
what adding the file, with the directories missing above it, has done.
-/

namespace OfflineFs.Map

variable {α : Type} [DecidableEq α]

/-- A finite tree of directories and files. -/
@[ext]
structure FileTree (α : Type) [DecidableEq α] where
  dirs : Finset (List α)
  files : Finset (List α)
  root : [] ∈ dirs
  apart : ∀ place ∈ files, place ∉ dirs
  closed : ∀ name up, name :: up ∈ dirs ∪ files → up ∈ dirs

/-- Why a tree refuses an operation. -/
inductive Refusal
  | missing
  | notDirectory
  | isDirectory
  | present
  | notEmpty
  | busy
  deriving DecidableEq, Repr

namespace FileTree

variable {tree made : FileTree α} {place key dir other : List α} {name : α} {up : List α}

/-! ## Operations -/

/-- Nothing is directly in a place. -/
def Bare (tree : FileTree α) (place : List α) : Prop :=
  ∀ other ∈ tree.dirs ∪ tree.files, other ≠ [] → other.tail ≠ place

instance (tree : FileTree α) (place : List α) : Decidable (tree.Bare place) :=
  inferInstanceAs (Decidable (∀ other ∈ tree.dirs ∪ tree.files, other ≠ [] → other.tail ≠ place))

/-- The directories directly in a place. -/
def subdirs (tree : FileTree α) (place : List α) : Finset (List α) :=
  tree.dirs.filter fun other => other ≠ [] ∧ other.tail = place

/-- Why there is nothing at a place: it is below a file, or a directory is missing. -/
def absence (tree : FileTree α) (place : List α) : Refusal :=
  if ∃ other ∈ place.tail.tails, other ∈ tree.files then .notDirectory else .missing

/-- A directory is made in one that is there. -/
@[simps]
def addDir (tree : FileTree α) (name : α) (up : List α) (inside : up ∈ tree.dirs)
    (free : name :: up ∉ tree.files) : FileTree α where
  dirs := insert (name :: up) tree.dirs
  files := tree.files
  root := Finset.mem_insert_of_mem tree.root
  apart place member added := by
    rcases Finset.mem_insert.mp added with rfl | old
    · exact free member
    · exact tree.apart place member old
  closed other above held := by
    rw [Finset.insert_union, Finset.mem_insert] at held
    rcases held with same | held
    · obtain ⟨-, rfl⟩ := List.cons.inj same
      exact Finset.mem_insert_of_mem inside
    · exact Finset.mem_insert_of_mem (tree.closed other above held)

/-- A file is made in a directory that is there. -/
@[simps]
def addFile (tree : FileTree α) (name : α) (up : List α) (inside : up ∈ tree.dirs)
    (free : name :: up ∉ tree.dirs) : FileTree α where
  dirs := tree.dirs
  files := insert (name :: up) tree.files
  root := tree.root
  apart place member := by
    rcases Finset.mem_insert.mp member with rfl | old
    · exact free
    · exact tree.apart place old
  closed other above held := by
    rw [Finset.union_insert, Finset.mem_insert] at held
    rcases held with same | held
    · obtain ⟨-, rfl⟩ := List.cons.inj same
      exact inside
    · exact tree.closed other above held

/-- A file is removed. -/
@[simps]
def removeFile (tree : FileTree α) (place : List α) : FileTree α where
  dirs := tree.dirs
  files := tree.files.erase place
  root := tree.root
  apart other member := tree.apart other (Finset.mem_of_mem_erase member)
  closed name up held := by
    apply tree.closed name up
    rcases Finset.mem_union.mp held with dir | file
    · exact Finset.mem_union_left _ dir
    · exact Finset.mem_union_right _ (Finset.mem_of_mem_erase file)

/-- A bare directory other than the root is removed. -/
@[simps]
def removeDir (tree : FileTree α) (place : List α) (proper : place ≠ []) (bare : tree.Bare place) :
    FileTree α where
  dirs := tree.dirs.erase place
  files := tree.files
  root := Finset.mem_erase.mpr ⟨proper.symm, tree.root⟩
  apart other member dir := tree.apart other member (Finset.mem_of_mem_erase dir)
  closed name up held := by
    have old : name :: up ∈ tree.dirs ∪ tree.files := by
      rcases Finset.mem_union.mp held with dir | file
      · exact Finset.mem_union_left _ (Finset.mem_of_mem_erase dir)
      · exact Finset.mem_union_right _ file
    exact Finset.mem_erase.mpr ⟨bare _ old (List.cons_ne_nil _ _), tree.closed name up old⟩

/-- Make a directory. -/
def mkdir (tree : FileTree α) : List α → Except Refusal (FileTree α)
  | [] => .error .present
  | name :: up =>
      if name :: up ∈ tree.dirs then .error .present
      else if free : name :: up ∉ tree.files then
        if inside : up ∈ tree.dirs then .ok (tree.addDir name up inside free)
        else .error (tree.absence (name :: up))
      else .error .present

/-- Open a file, and make it if there is nothing in its place. -/
def creat (tree : FileTree α) : List α → Except Refusal (FileTree α)
  | [] => .error .isDirectory
  | name :: up =>
      if free : name :: up ∉ tree.dirs then
        if inside : up ∈ tree.dirs then .ok (tree.addFile name up inside free)
        else .error (tree.absence (name :: up))
      else .error .isDirectory

/-- The link count of a directory is two and one more for each directory in it. -/
def stat (tree : FileTree α) (place : List α) : Except Refusal Nat :=
  if place ∈ tree.dirs then .ok (2 + (tree.subdirs place).card)
  else if place ∈ tree.files then .ok 1
  else .error (tree.absence place)

/-- Remove a file, if there is one. -/
def unlink (tree : FileTree α) (place : List α) : Except Refusal (FileTree α) :=
  if place ∈ tree.files then .ok (tree.removeFile place)
  else if place ∈ tree.dirs then .error .isDirectory
  else .error (tree.absence place)

/-- Remove a directory with nothing in it. -/
def rmdir (tree : FileTree α) (place : List α) : Except Refusal (FileTree α) :=
  if place ∈ tree.dirs then
    if proper : place ≠ [] then
      if bare : tree.Bare place then .ok (tree.removeDir place proper bare)
      else .error .notEmpty
    else .error .busy
  else if place ∈ tree.files then .error .notDirectory
  else .error (tree.absence place)

/-- What making a directory has done. -/
theorem of_mkdir (done : tree.mkdir place = .ok made) :
    place ∉ tree.files ∧ made.files = tree.files ∧ made.dirs = insert place tree.dirs := by
  rcases place with _ | ⟨name, up⟩
  · simp [mkdir] at done
  · rw [mkdir] at done
    split at done
    · simp at done
    · split at done
      case isTrue free =>
        split at done
        · obtain rfl := Except.ok.inj done
          exact ⟨free, rfl, rfl⟩
        · simp at done
      case isFalse => simp at done

/-- What opening a file has done. -/
theorem of_creat (done : tree.creat place = .ok made) :
    place.tail ∈ tree.dirs ∧ made.files = insert place tree.files ∧ made.dirs = tree.dirs := by
  rcases place with _ | ⟨name, up⟩
  · simp [creat] at done
  · rw [creat] at done
    split at done
    · split at done
      case isTrue inside =>
        obtain rfl := Except.ok.inj done
        exact ⟨inside, rfl, rfl⟩
      case isFalse => simp at done
    · simp at done

theorem of_stat {nlink : Nat} (found : tree.stat place = .ok nlink) :
    place ∈ tree.dirs ∨ place ∈ tree.files := by
  rw [stat] at found
  split at found
  case isTrue isDir => exact .inl isDir
  case isFalse =>
    split at found
    case isTrue isFile => exact .inr isFile
    case isFalse => simp at found

/-- Opening a file that is there changes nothing. -/
theorem creat_present (tree : FileTree α) (file : place ∈ tree.files) :
    tree.creat place = .ok tree := by
  rcases place with _ | ⟨name, up⟩
  · exact absurd tree.root (tree.apart _ file)
  · have inside : up ∈ tree.dirs := tree.closed name up (Finset.mem_union_right _ file)
    rw [creat, dif_pos (tree.apart _ file), dif_pos inside]
    congr 1
    ext other
    · rfl
    · rw [addFile_files, Finset.insert_eq_of_mem file]

/-- Remove a directory if nothing is left in it, then the one it was in, and so on. -/
def prune (tree : FileTree α) : List α → FileTree α
  | [] => tree
  | name :: up =>
      if bare : name :: up ∈ tree.dirs ∧ tree.Bare (name :: up) then
        (tree.removeDir (name :: up) (List.cons_ne_nil _ _) bare.2).prune up
      else
        tree

/-! ## What is above and below a place -/

/-- A place and the directories above it but the root, the innermost first. -/
def upward : List α → List (List α)
  | [] => []
  | name :: up => (name :: up) :: upward up

omit [DecidableEq α] in
theorem mem_upward : dir ∈ upward place ↔ dir ≠ [] ∧ dir <:+ place := by
  induction place with
  | nil => simp [upward, List.suffix_nil]
  | cons name up ih =>
      rw [upward, List.mem_cons, ih, List.suffix_cons_iff]
      constructor
      · rintro (rfl | ⟨proper, below⟩)
        · exact ⟨List.cons_ne_nil _ _, .inl rfl⟩
        · exact ⟨proper, .inr below⟩
      · rintro ⟨proper, same | below⟩
        · exact .inl same
        · exact .inr ⟨proper, below⟩

/-- A directory below the root that holds nothing but the way to a place. -/
def Solely (tree : FileTree α) (place dir : List α) : Prop :=
  dir ≠ [] ∧ dir <:+ place ∧ ∀ other ∈ tree.dirs ∪ tree.files, dir <:+ other → other <:+ place

instance (tree : FileTree α) (place dir : List α) : Decidable (tree.Solely place dir) :=
  inferInstanceAs (Decidable (_ ∧ _ ∧ ∀ other ∈ tree.dirs ∪ tree.files, _ → _))

/-- What is above anything in the tree is a directory. -/
theorem closed_suffix (tree : FileTree α) {front : List α} (nonempty : front ≠ [])
    (held : front ++ dir ∈ tree.dirs ∪ tree.files) : dir ∈ tree.dirs := by
  induction front with
  | nil => exact absurd rfl nonempty
  | cons name front ih =>
      have above : front ++ dir ∈ tree.dirs := tree.closed name _ held
      rcases front with _ | ⟨next, front⟩
      · exact above
      · exact ih (List.cons_ne_nil _ _) (Finset.mem_union_left _ above)

theorem dir_of_suffix (tree : FileTree α) (held : place ∈ tree.dirs) (above : dir <:+ place) :
    dir ∈ tree.dirs := by
  obtain ⟨front, rfl⟩ := above
  rcases front with _ | ⟨name, front⟩
  · exact held
  · exact tree.closed_suffix (List.cons_ne_nil name front) (Finset.mem_union_left _ held)

/-- Below a bare place there is nothing. -/
theorem Bare.only (bare : tree.Bare place) (held : other ∈ tree.dirs ∪ tree.files)
    (below : place <:+ other) : other = place := by
  obtain ⟨front, rfl⟩ := below
  rcases List.eq_nil_or_concat front with rfl | ⟨front, name, rfl⟩
  · rfl
  · rw [List.concat_eq_append, List.append_assoc, List.singleton_append] at held
    have child : name :: place ∈ tree.dirs ∪ tree.files := by
      rcases front with _ | ⟨next, front⟩
      · exact held
      · exact Finset.mem_union_left _ (tree.closed_suffix (List.cons_ne_nil next front) held)
    exact absurd rfl (bare _ child (List.cons_ne_nil _ _))

theorem not_bare_iff : ¬ tree.Bare place ↔ ∃ name, name :: place ∈ tree.dirs ∪ tree.files := by
  constructor
  · intro held
    simp only [Bare, not_forall, not_not] at held
    obtain ⟨other, member, proper, rfl⟩ := held
    obtain ⟨name, up, rfl⟩ := List.exists_cons_of_ne_nil proper
    exact ⟨name, member⟩
  · rintro ⟨name, member⟩ bare
    exact bare _ member (List.cons_ne_nil _ _) rfl

theorem subdirs_bare (bare : tree.Bare place) : tree.subdirs place = ∅ := by
  apply Finset.filter_eq_empty_iff.mpr
  rintro other member ⟨proper, within⟩
  exact bare other (Finset.mem_union_left _ member) proper within

/-- A place holds nothing but the way to itself exactly when it is bare. -/
theorem solely_self (proper : place ≠ []) : tree.Solely place place ↔ tree.Bare place := by
  constructor
  · rintro ⟨-, -, only⟩
    by_contra held
    obtain ⟨name, member⟩ := not_bare_iff.mp held
    have short := (only _ member (List.suffix_cons name place)).length_le
    rw [List.length_cons] at short
    omega
  · intro bare
    exact ⟨proper, List.suffix_refl _, fun other member below =>
      (bare.only member below) ▸ List.suffix_refl _⟩

/-! ## Removing what is left bare -/

@[simp]
theorem prune_files (tree : FileTree α) (place : List α) :
    (tree.prune place).files = tree.files := by
  induction place generalizing tree with
  | nil => rfl
  | cons name up ih =>
      rw [prune]
      split
      · exact ih _
      · rfl

/-- Taking one place away leaves what the directories above it hold besides. -/
theorem solely_remove (tree less : FileTree α) (apart : dir ≠ name :: up)
    (rest : ∀ other, other ∈ less.dirs ∪ less.files ↔
      other ≠ name :: up ∧ other ∈ tree.dirs ∪ tree.files) :
    less.Solely up dir ↔ tree.Solely (name :: up) dir := by
  have strict {other : List α} (different : other ≠ name :: up) :
      other <:+ name :: up ↔ other <:+ up :=
    List.suffix_cons_iff.trans (or_iff_right different)
  unfold Solely
  rw [strict apart]
  refine and_congr_right fun _ => and_congr_right fun _ => ?_
  constructor
  · intro only other held below
    by_cases same : other = name :: up
    · exact same ▸ List.suffix_refl _
    · exact (strict same).mpr (only other ((rest other).mpr ⟨same, held⟩) below)
  · intro only other held below
    obtain ⟨different, old⟩ := (rest other).mp held
    exact (strict different).mp (only other old below)

/-- Pruning removes exactly the directories that hold nothing but the way to the place. -/
theorem prune_dirs (tree : FileTree α) (held : place ∈ tree.dirs) :
    (tree.prune place).dirs = tree.dirs.filter fun dir => ¬ tree.Solely place dir := by
  induction place generalizing tree with
  | nil =>
      symm
      apply Finset.filter_true_of_mem
      rintro dir _ ⟨proper, above, -⟩
      exact proper (List.suffix_nil.mp above)
  | cons name up ih =>
      rw [prune]
      split
      case isTrue bare =>
        have above : up ∈ tree.dirs.erase (name :: up) :=
          Finset.mem_erase.mpr ⟨fun same => List.cons_ne_self name up same.symm,
            tree.dir_of_suffix held (List.suffix_cons name up)⟩
        rw [ih _ above]
        ext dir
        simp only [Finset.mem_filter, removeDir_dirs, Finset.mem_erase]
        by_cases same : dir = name :: up
        · have own := (solely_self (List.cons_ne_nil name up)).mpr bare.2
          simp [same, own]
        · have keeps := solely_remove tree (tree.removeDir _ (List.cons_ne_nil name up) bare.2) same
            fun other => by
              have file : other ∈ tree.files → other ≠ name :: up := fun isFile same =>
                tree.apart _ isFile (same ▸ held)
              simp only [Finset.mem_union, removeDir_dirs, removeDir_files, Finset.mem_erase]
              tauto
          simp [same, keeps]
      case isFalse full =>
        symm
        apply Finset.filter_true_of_mem
        rintro dir _ ⟨-, above, only⟩
        -- whatever is in the last directory is below `dir` too, and not on the way
        obtain ⟨child, member⟩ := not_bare_iff.mp fun bare => full ⟨held, bare⟩
        have short := (only _ member (above.trans (List.suffix_cons child _))).length_le
        simp only [List.length_cons] at short
        omega

/-! ## Removing a file and what is left bare above it -/

/-- The tree without a file and without the directories that removing it leaves bare. -/
def without (tree : FileTree α) (place : List α) : FileTree α :=
  (tree.removeFile place).prune place.tail

@[simp]
theorem without_files (tree : FileTree α) (place : List α) :
    (tree.without place).files = tree.files.erase place :=
  prune_files _ _

/-- Nothing is left bare but the directories that held nothing but the way to the file. -/
theorem without_dirs (file : place ∈ tree.files) :
    (tree.without place).dirs = tree.dirs.filter fun dir => ¬ tree.Solely place dir := by
  rcases place with _ | ⟨name, up⟩
  · exact absurd tree.root (tree.apart _ file)
  · have above : up ∈ tree.dirs := tree.closed name up (Finset.mem_union_right _ file)
    rw [without, List.tail_cons, prune_dirs (tree.removeFile (name :: up)) above]
    apply Finset.filter_congr
    intro dir member
    have different (other : List α) (isDir : other ∈ tree.dirs) : other ≠ name :: up := fun same =>
      tree.apart _ file (same ▸ isDir)
    apply not_congr
    apply solely_remove tree _ (different dir member)
    intro other
    have apart := different other
    simp only [Finset.mem_union, removeFile_dirs, removeFile_files, Finset.mem_erase]
    tauto

/-- None of the directories above the file that are left is bare, but for the root. -/
theorem without_not_bare (file : place ∈ tree.files) (member : dir ∈ (tree.without place).dirs)
    (proper : dir ≠ []) (above : dir <:+ place) : ¬ (tree.without place).Bare dir := by
  rw [without_dirs file, Finset.mem_filter] at member
  intro bare
  apply member.2
  refine ⟨proper, above, fun other held below => ?_⟩
  by_contra aside
  have left : other ∈ (tree.without place).dirs ∪ (tree.without place).files := by
    rw [without_dirs file, without_files]
    rcases Finset.mem_union.mp held with isDir | isFile
    · exact Finset.mem_union_left _ (Finset.mem_filter.mpr ⟨isDir, fun solely => aside solely.2.1⟩)
    · refine Finset.mem_union_right _ (Finset.mem_erase.mpr ⟨?_, isFile⟩)
      rintro rfl
      exact aside (List.suffix_refl _)
  exact aside (bare.only left below ▸ above)

/-- The tree has a new file, and the directories above it that it lacked. -/
structure Added (tree : FileTree α) (place : List α) (made : FileTree α) : Prop where
  free : place ∉ tree.files
  files : made.files = insert place tree.files
  dirs : made.dirs = tree.dirs ∪ place.tail.tails.toFinset

namespace Added

/-- Directories with something in them still have it when the new file is gone. -/
theorem not_solely (added : Added tree place made)
    (none : ∀ dir ∈ tree.dirs, dir ≠ [] → ¬ tree.Bare dir) (member : dir ∈ tree.dirs) :
    ¬ made.Solely place dir := by
  have file : place ∉ made.dirs := made.apart _ (added.files ▸ Finset.mem_insert_self _ _)
  have wider : ∀ other ∈ tree.dirs, other ∈ made.dirs := fun other old =>
    added.dirs ▸ Finset.mem_union_left _ old
  induction size : place.length - dir.length using Nat.strong_induction_on generalizing dir with
  | _ size ih =>
      rintro ⟨proper, above, only⟩
      obtain ⟨name, held⟩ := not_bare_iff.mp (none dir member proper)
      have inside : name :: dir ∈ made.dirs ∪ made.files := by
        rcases Finset.mem_union.mp held with isDir | isFile
        · exact Finset.mem_union_left _ (wider _ isDir)
        · exact Finset.mem_union_right _ (added.files ▸ Finset.mem_insert_of_mem isFile)
      have way : name :: dir <:+ place := only _ inside (List.suffix_cons name dir)
      have further : name :: dir ∈ tree.dirs := by
        apply (Finset.mem_union.mp held).resolve_right
        intro isFile
        have made_file : name :: dir ∉ made.dirs :=
          made.apart _ (added.files ▸ Finset.mem_insert_of_mem isFile)
        rcases place with _ | ⟨last, up⟩
        · exact List.cons_ne_nil _ _ (List.suffix_nil.mp way)
        · rcases List.suffix_cons_iff.mp way with same | below
          · exact added.free (same ▸ isFile)
          · apply made_file
            rw [added.dirs]
            exact Finset.mem_union_right _ (List.mem_toFinset.mpr ((List.mem_tails _ _).mpr below))
      apply ih _ ?_ further rfl
      · refine ⟨List.cons_ne_nil _ _, way, fun other held below => ?_⟩
        exact only other held ((List.suffix_cons name dir).trans below)
      · have longest := way.length_le
        rw [List.length_cons] at longest ⊢
        omega

/-- A directory that was added for the new file holds nothing else. -/
theorem solely (added : Added tree place made) (new : dir ∈ made.dirs) (lacked : dir ∉ tree.dirs) :
    made.Solely place dir := by
  have way : dir <:+ place.tail := by
    rw [added.dirs] at new
    simpa using (Finset.mem_union.mp new).resolve_left lacked
  have proper : dir ≠ [] := by
    rintro rfl
    exact lacked tree.root
  refine ⟨proper, way.trans (List.tail_suffix _), fun other held below => ?_⟩
  rw [added.dirs, added.files] at held
  simp only [Finset.mem_union, Finset.mem_insert, List.mem_toFinset, List.mem_tails] at held
  have inside : other ∉ tree.dirs := fun isDir => lacked (tree.dir_of_suffix isDir below)
  rcases held with (isDir | above) | rfl | isFile
  · exact absurd isDir inside
  · exact above.trans (List.tail_suffix _)
  · exact List.suffix_refl _
  · obtain ⟨front, rfl⟩ := below
    rcases front with _ | ⟨name, front⟩
    · exact absurd new (made.apart _ (added.files ▸ Finset.mem_insert_of_mem isFile))
    · exact absurd
        (tree.closed_suffix (List.cons_ne_nil name front) (Finset.mem_union_right _ isFile)) lacked

/-- Removing a new file takes everything back where no directory was bare before. -/
theorem without (added : Added tree place made)
    (none : ∀ dir ∈ tree.dirs, dir ≠ [] → ¬ tree.Bare dir) : made.without place = tree := by
  have file : place ∈ made.files := added.files ▸ Finset.mem_insert_self _ _
  ext dir
  · rw [without_dirs file, Finset.mem_filter]
    constructor
    · rintro ⟨new, kept⟩
      by_contra lacked
      exact kept (added.solely new lacked)
    · intro old
      exact ⟨added.dirs ▸ Finset.mem_union_left _ old, added.not_solely none old⟩
  · rw [without_files, added.files, Finset.erase_insert added.free]

end Added

end FileTree

end OfflineFs.Map
