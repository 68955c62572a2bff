import OfflineFs.Caches.Tokens
import OfflineFs.Map.FileTree
import OfflineFs.Model.World

/-!
# A host with a tree of files

What the system calls on paths answer on a host that has a tree of files and directories below
a base directory, and what they do to the tree.  A call on a path that names no place strictly
below the base, or not plainly, may answer and do anything, but the base itself and the
directories above it are there.  Paths are C strings, so there are no zero bytes in them.
-/

namespace OfflineFs

open OfflineFs.Map

/-- The error of removing a directory that is in use. -/
def eBusy : Int := 16

/-- The error number of a refusal. -/
def refusalErrno : Refusal → Int
  | .missing => eNoent
  | .notDirectory => eNotdir
  | .isDirectory => eIsdir
  | .present => eExist
  | .notEmpty => eNotempty
  | .busy => eBusy

/-- A path to the base directory, or to one above it. -/
def Above (base path : Bytes) : Prop :=
  path ≠ [] ∧ path ++ [slash] <+: base ++ [slash]

instance (base path : Bytes) : Decidable (Above base path) :=
  inferInstanceAs (Decidable (_ ∧ _))

/-- The place that a path below the base names: its components, from the last to the first.
Empty components count for nothing. -/
def locate (base path : Bytes) : Option (List Bytes) :=
  let names := tokenize (path.drop (base ++ [slash]).length)
  if base ++ [slash] <+: path ∧ names ≠ [] ∧ (∀ name ∈ names, IsName name) ∧
      path.getLast? ≠ some slash then
    some names.reverse
  else
    none

section Locate

variable {base path : Bytes} {place : List Bytes}

/-- The paths that name a place in the tree. -/
theorem locate_eq_some : locate base path = some place ↔
    ∃ names, path = base ++ slash :: names ∧ place = (tokenize names).reverse ∧ place ≠ [] ∧
      (∀ name ∈ place, IsName name) ∧ names.getLast? ≠ some slash := by
  unfold locate
  constructor
  · intro found
    simp only [Option.ite_none_right_eq_some, Option.some.injEq] at found
    obtain ⟨⟨⟨names, rfl⟩, nonempty, named, open_⟩, rfl⟩ := found
    rw [List.drop_left] at nonempty named ⊢
    refine ⟨names, by simp, rfl, by simpa using nonempty, by simpa using named, ?_⟩
    rcases List.eq_nil_or_concat names with rfl | ⟨front, last, rfl⟩
    · simp
    · simpa [List.getLast?_cons] using open_
  · rintro ⟨names, rfl, rfl, nonempty, named, open_⟩
    have whole : base ++ slash :: names = base ++ [slash] ++ names := by simp
    rw [whole, List.drop_left]
    apply if_pos
    refine ⟨List.prefix_append _ _, by simpa using nonempty, by simpa using named, ?_⟩
    rcases List.eq_nil_or_concat names with rfl | ⟨front, last, rfl⟩
    · exact absurd rfl nonempty
    · simpa [List.getLast?_cons] using open_

theorem Above.locate (above : Above base path) : OfflineFs.locate base path = none := by
  rw [Option.eq_none_iff_forall_ne_some]
  intro place located
  obtain ⟨names, rfl, -⟩ := locate_eq_some.mp located
  have long := above.2.length_le
  simp only [List.length_append, List.length_cons] at long
  omega

end Locate

/-- A call has done what the operation on the tree does, or was refused with its error. -/
def Did (before : FileTree Bytes) (operation : Except Refusal (FileTree Bytes))
    (result : SysResult) (after : FileTree Bytes) : Prop :=
  match operation with
  | .ok tree => result.errno = none ∧ after = tree
  | .error refusal => result.errno = some (refusalErrno refusal) ∧ after = before

/-- What a call may answer and do.  Whether a file that is there can be opened is left open. -/
def Answers (base : Bytes) (before : FileTree Bytes) (result : SysResult)
    (after : FileTree Bytes) : SysCall → Prop
  | .stat path =>
      after = before ∧ (Above base path → result.errno = none) ∧
        ∀ place ∈ locate base path,
          match before.stat place with
          | .ok nlink => result.errno = none ∧ result.value = nlink
          | .error refusal => result.errno = some (refusalErrno refusal)
  | .creat path _ _ =>
      ∀ place ∈ locate base path,
        if place ∈ before.files then after = before
        else Did before (before.creat place) result after
  | .mkdir path _ => ∀ place ∈ locate base path, Did before (before.mkdir place) result after
  | .unlink path => ∀ place ∈ locate base path, Did before (before.unlink place) result after
  | .rmdir path => ∀ place ∈ locate base path, Did before (before.rmdir place) result after
  | .system _ => True
  | _ => after = before

/-- A host: the tree it has after each sequence of calls. -/
structure TreeHost (base : Bytes) (reply : List SysEvent → SysCall → SysResult) where
  tree : List SysEvent → FileTree Bytes
  answers : ∀ history call, Answers base (tree history) (reply history call)
    (tree (⟨call, reply history call⟩ :: history)) call

namespace TreeHost

/-! ## A host that does nothing else -/

/-- Do an operation on the tree. -/
def done (before : FileTree Bytes) :
    Option (Except Refusal (FileTree Bytes)) → SysResult × FileTree Bytes
  | none => (⟨none, 0, [], 0, 0⟩, before)
  | some (.ok tree) => (⟨none, 0, [], 0, 0⟩, tree)
  | some (.error refusal) => (⟨some (refusalErrno refusal), 0, [], 0, 0⟩, before)

theorem did_done (before : FileTree Bytes) (operation : Except Refusal (FileTree Bytes)) :
    Did before operation (done before (some operation)).1 (done before (some operation)).2 := by
  cases operation <;> exact ⟨rfl, rfl⟩

/-- Serve a call. -/
def serve (base : Bytes) (before : FileTree Bytes) : SysCall → SysResult × FileTree Bytes
  | .stat path =>
      match (locate base path).map before.stat with
      | some (.ok nlink) => (⟨none, nlink, [], 0, 0⟩, before)
      | some (.error refusal) => (⟨some (refusalErrno refusal), 0, [], 0, 0⟩, before)
      | none => (⟨none, 2, [], 0, 0⟩, before)
  | .creat path _ _ => done before ((locate base path).map before.creat)
  | .mkdir path _ => done before ((locate base path).map before.mkdir)
  | .unlink path => done before ((locate base path).map before.unlink)
  | .rmdir path => done before ((locate base path).map before.rmdir)
  | _ => (⟨none, 0, [], 0, 0⟩, before)

/-- The tree after some calls, the latest first. -/
def served (base : Bytes) (start : FileTree Bytes) : List SysEvent → FileTree Bytes
  | [] => start
  | event :: older => (serve base (served base start older) event.call).2

/-- What the host answers to a call after a history of calls. -/
def reply (base : Bytes) (start : FileTree Bytes) (history : List SysEvent) (call : SysCall) :
    SysResult :=
  (serve base (served base start history) call).1

/-- A host that serves a tree answers as one should. -/
theorem answers_serve (base : Bytes) (before : FileTree Bytes) (call : SysCall) :
    Answers base before (serve base before call).1 (serve base before call).2 call := by
  cases call with
  | stat path =>
      rcases located : locate base path with _ | place
      · simp [Answers, serve, located]
      · have below : ¬ Above base path := fun above => by simp [above.locate] at located
        cases result : before.stat place <;> simp [Answers, serve, located, result, below]
  | creat path flags perm =>
      intro place located
      rw [Option.mem_def] at located
      rw [serve, located]
      split
      case isTrue file =>
        rw [Option.map_some, before.creat_present file]
        rfl
      case isFalse => exact did_done before _
  | mkdir path perm | unlink path | rmdir path =>
      intro place located
      rw [Option.mem_def] at located
      rw [serve, located]
      exact did_done before _
  | system command => trivial
  | _ => exact rfl

/-- A host that only serves calls. -/
def serving (base : Bytes) (start : FileTree Bytes) : TreeHost base (reply base start) where
  tree := served base start
  answers history call := answers_serve base (served base start history) call

end TreeHost

end OfflineFs
