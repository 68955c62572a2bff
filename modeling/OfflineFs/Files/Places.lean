import OfflineFs.Files.Host
import OfflineFs.Formats.Prefixes

/-!
# Directories in the path of a backing file

The constructor of `Chunk_file` finds the directories above a file in its path, from the
start.  `delfile` finds them in the `phid`, from the end.  Both find the same ones, however
many slashes there are.
-/

namespace OfflineFs

open OfflineFs.Effect OfflineFs.Map OfflineFs.Map.FileTree

variable {base path phid front : Bytes}

/-- A `phid` that names a file: it ends in a component, and none is `.` or `..`. -/
structure IsPhid (phid : Bytes) : Prop where
  nonempty : phid ≠ []
  open_ : phid.getLast? ≠ some slash
  named : ∀ name ∈ tokenize phid, IsName name

/-- The place of a backing file. -/
def placeOf (phid : Bytes) : List Bytes :=
  (tokenize phid).reverse

/-! ## The directories found from the start -/

/-- The directories above a path, one byte further on. -/
theorem parents_concat (path : Bytes) (byte : UInt8) :
    ChunkFile.parents (path ++ [byte]) = ChunkFile.parents path ++
      if byte = slash ∧ path ≠ [] ∧ path.getLast? ≠ some slash then [path] else [] := by
  unfold ChunkFile.parents
  rw [List.length_append, List.length_singleton, List.range_succ, List.filterMap_append]
  congr 1
  · apply List.filterMap_congr
    intro newpos member
    have inside : newpos < path.length := List.mem_range.mp member
    rw [List.getElem?_append_left inside, List.getElem?_append_left (by omega),
      List.take_append_of_le_length inside.le]
  · rcases List.eq_nil_or_concat path with rfl | ⟨front, last, rfl⟩
    · simp
    · have before : (front.concat last ++ [byte])[(front.concat last).length - 1]? = some last := by
        simp
      simp only [List.filterMap_cons, List.filterMap_nil, List.getElem?_concat_length, before,
        List.take_left]
      by_cases ends : byte = slash ∧ last ≠ slash
      · simp [ends]
      · have kept : ¬ (byte = slash ∧ ¬ last = slash) := ends
        simp [kept]

/-- A directory found in a path is followed by a slash there. -/
theorem prefix_of_mem_parents {path dir : Bytes} (member : dir ∈ ChunkFile.parents path) :
    dir ≠ [] ∧ dir ++ [slash] <+: path := by
  induction path using List.reverseRecOn with
  | nil => exact absurd member List.not_mem_nil
  | append_singleton path byte ih =>
      rw [parents_concat, List.mem_append] at member
      rcases member with early | late
      · obtain ⟨proper, inside⟩ := ih early
        exact ⟨proper, inside.trans (List.prefix_append _ _)⟩
      · split at late
        case isTrue ends =>
          obtain rfl := List.mem_singleton.mp late
          obtain ⟨rfl, proper, -⟩ := ends
          exact ⟨proper, List.prefix_refl _⟩
        case isFalse => exact absurd late List.not_mem_nil

theorem IsPhid.isName (whole : IsPhid phid) {name : Bytes} (member : name ∈ placeOf phid) :
    IsName name :=
  whole.named name (List.mem_reverse.mp member)

theorem placeOf_concat_slash (front : Bytes) : placeOf (front ++ [slash]) = placeOf front := by
  rw [placeOf, tokenize_append, tokenize_nil, List.append_nil]
  rfl

theorem placeOf_slash (front : Bytes) {name : Bytes} (plain : slash ∉ name) (nonempty : name ≠ []) :
    placeOf (front ++ slash :: name) = name :: placeOf front := by
  rw [placeOf, tokenize_append, tokenize_plain plain, component, if_neg nonempty,
    List.reverse_concat]
  rfl

/-- What follows a path that does not end in a slash belongs to its last component. -/
theorem exists_placeOf (nonempty : front ≠ []) (open_ : front.getLast? ≠ some slash) :
    ∃ token above, placeOf front = token :: above ∧
      ∀ rest, slash ∉ rest → placeOf (front ++ rest) = (token ++ rest) :: above := by
  obtain ⟨before, token, plain, proper, ends⟩ := exists_last_component nonempty open_
  have longer : ∀ rest, slash ∉ rest →
      placeOf (front ++ rest) = (token ++ rest) :: placeOf before := by
    intro rest absent
    have whole : slash ∉ token ++ rest := by simp [plain, absent]
    rw [placeOf, ends, tokenize_plain whole, component, if_neg (by simp [proper]),
      List.reverse_concat]
    rfl
  exact ⟨token, placeOf before, by simpa using longer [] List.not_mem_nil, longer⟩

/-- The place of the last directory that has been gone through in a path. -/
def placeDone (front : Bytes) : List Bytes :=
  if front.getLast? = some slash then placeOf front else (placeOf front).tail

theorem placeDone_concat_slash (front : Bytes) :
    placeDone (front ++ [slash]) = placeOf front := by
  rw [placeDone, if_pos List.getLast?_concat, placeOf_concat_slash]

/-- A byte of a component ends none. -/
theorem placeDone_concat {byte : UInt8} (apart : byte ≠ slash) :
    placeDone (front ++ [byte]) = placeDone front := by
  have plain : slash ∉ [byte] := by simpa using apart.symm
  rw [placeDone, if_neg (by simpa using apart)]
  by_cases ends : front.getLast? = some slash
  · obtain ⟨before, rfl⟩ := List.getLast?_eq_some_iff.mp ends
    rw [placeDone_concat_slash, List.append_assoc, List.singleton_append,
      placeOf_slash before plain (List.cons_ne_nil _ _), List.tail_cons]
  · rw [placeDone, if_neg ends]
    by_cases nonempty : front = []
    · rw [nonempty, List.nil_append, placeOf, tokenize_plain plain]
      rfl
    · obtain ⟨token, above, -, longer⟩ := exists_placeOf nonempty ends
      have alone := longer [] List.not_mem_nil
      rw [List.append_nil] at alone
      rw [longer [byte] plain, alone, List.tail_cons, List.tail_cons]

/-- A directory below the base is found in its place. -/
theorem locate_below (named : ∀ name ∈ placeOf front, IsName name) (nonempty : front ≠ [])
    (open_ : front.getLast? ≠ some slash) :
    locate base (base ++ [slash] ++ front) = some (placeOf front) := by
  obtain ⟨token, above, alone, -⟩ := exists_placeOf nonempty open_
  apply locate_eq_some.mpr
  exact ⟨front, by simp, rfl, by simp [alone], named, open_⟩

/-- The directories found in a path below the base are the base and those above it, and then
those on the way to the end of the path. -/
theorem exists_parents (base : Bytes) (named : ∀ name ∈ placeDone front, IsName name) :
    ∃ inner, ChunkFile.parents (base ++ [slash] ++ front) =
        ChunkFile.parents (base ++ [slash]) ++ inner ∧
      inner.map (locate base) = (upward (placeDone front)).reverse.map some := by
  induction front using List.reverseRecOn with
  | nil => exact ⟨[], by simp, rfl⟩
  | append_singleton front byte ih =>
      rw [← List.append_assoc, parents_concat]
      by_cases ends : byte = slash
      · subst ends
        rw [placeDone_concat_slash] at named ⊢
        by_cases nonempty : front = []
        · subst nonempty
          exact ⟨[], by simp, rfl⟩
        rw [List.getLast?_append_of_ne_nil _ nonempty]
        by_cases closed : front.getLast? = some slash
        · -- a second slash is passed over
          have same : placeDone front = placeOf front := if_pos closed
          obtain ⟨inner, found, places⟩ := ih (same ▸ named)
          exact ⟨inner, by simpa [closed] using found, same ▸ places⟩
        · obtain ⟨token, above, alone, -⟩ := exists_placeOf nonempty closed
          have done : placeDone front = above := by
            rw [placeDone, if_neg closed, alone, List.tail_cons]
          obtain ⟨inner, found, places⟩ := ih fun name member =>
            named name (alone ▸ List.mem_cons_of_mem _ (done ▸ member))
          refine ⟨inner ++ [base ++ [slash] ++ front], ?_, ?_⟩
          · rw [if_pos ⟨rfl, by simp, closed⟩, found, List.append_assoc]
          · rw [List.map_append, places, List.map_singleton, locate_below named nonempty closed,
              done, alone, upward, List.reverse_cons, List.map_append, List.map_singleton]
      · rw [placeDone_concat ends] at named ⊢
        rw [if_neg (fun found => ends found.1), List.append_nil]
        exact ih named

theorem IsPhid.placeDone (whole : IsPhid phid) :
    OfflineFs.placeDone phid = (placeOf phid).tail :=
  if_neg whole.open_

/-- What is found in the path of a backing file: its place has a directory above it for each
of the directories found below the base. -/
theorem IsPhid.parents (whole : IsPhid phid) (base : Bytes) :
    (∀ dir ∈ ChunkFile.parents (base ++ [slash] ++ phid),
        Above base dir ∨ ∃ place, locate base dir = some place) ∧
      ∀ place ∈ (ChunkFile.parents (base ++ [slash] ++ phid)).filterMap (locate base),
        place <:+ (placeOf phid).tail := by
  have named : ∀ name ∈ OfflineFs.placeDone phid, IsName name := fun name member =>
    whole.isName (List.mem_of_mem_tail (whole.placeDone ▸ member))
  obtain ⟨inner, found, places⟩ := exists_parents base named
  have within (dir : Bytes) (member : dir ∈ inner) :
      ∃ place, locate base dir = some place ∧ place <:+ (placeOf phid).tail := by
    have here : locate base dir ∈ inner.map (locate base) := List.mem_map_of_mem member
    rw [places, whole.placeDone] at here
    obtain ⟨place, above, same⟩ := List.mem_map.mp here
    exact ⟨place, same.symm, (mem_upward.mp (List.mem_reverse.mp above)).2⟩
  rw [found]
  constructor
  · intro dir member
    rcases List.mem_append.mp member with outer | inside
    · exact .inl (prefix_of_mem_parents outer)
    · obtain ⟨place, located, -⟩ := within dir inside
      exact .inr ⟨place, located⟩
  · intro place member
    obtain ⟨dir, member, located⟩ := List.mem_filterMap.mp member
    rcases List.mem_append.mp member with outer | inside
    · rw [Above.locate (prefix_of_mem_parents outer)] at located
      exact absurd located (Option.some_ne_none place).symm
    · obtain ⟨other, found, below⟩ := within dir inside
      obtain rfl : other = place := Option.some.inj (found.symm.trans located)
      exact below

/-! ## The directories found from the end -/

/-- The part of a path before its last slash, and the slashes that part ends in. -/
theorem parentDirs_slashes {dir slashes name : Bytes} (plain : slash ∉ name)
    (only : ∀ byte ∈ slashes, byte = slash) (open_ : dir.getLast? ≠ some slash) (fuel : Nat) :
    Medium.parentDirs (fuel + 1) (dir ++ slashes ++ slash :: name) =
      if dir = [] then [] else dir :: Medium.parentDirs fuel dir := by
  have cut : Medium.lastWhere (· = slash) (dir ++ slashes ++ slash :: name) =
      some ((dir ++ slashes).length + 1) :=
    Medium.lastWhere_append (by simp) fun byte member =>
      decide_eq_false fun same => plain (same ▸ member)
  have upTo : (dir ++ slashes ++ slash :: name).take ((dir ++ slashes).length + 1) =
      dir ++ (slashes ++ [slash]) := by
    rw [List.take_length_add_append, List.append_assoc]
    rfl
  have rest : ∀ byte ∈ slashes ++ [slash], decide (byte ≠ slash) = false := by
    intro byte member
    rcases List.mem_append.mp member with early | last
    · simp [only byte early]
    · simp [List.mem_singleton.mp last]
  rw [Medium.parentDirs, cut]
  simp only [upTo]
  rcases List.eq_nil_or_concat dir with rfl | ⟨front, last, rfl⟩
  · rw [List.nil_append, Medium.lastWhere_eq_none rest, if_pos rfl]
  · have apart : decide (last ≠ slash) = true := by simpa using open_
    have found : Medium.lastWhere (· ≠ slash) (front.concat last ++ (slashes ++ [slash])) =
        some (front.concat last).length := by
      rw [List.concat_eq_append, List.append_assoc, List.singleton_append,
        Medium.lastWhere_append apart rest, List.length_append, List.length_singleton]
    rw [found, if_neg (by simp)]
    simp only [List.append_assoc, List.take_left]

/-- `delfile` finds the same directories, from the last to the first. -/
theorem map_parentDirs {fuel : Nat} (enough : phid.length ≤ fuel) (whole : IsPhid phid) :
    (Medium.parentDirs fuel phid).map (fun dir => locate base (base ++ [slash] ++ dir)) =
      (upward (placeOf phid).tail).map some := by
  induction fuel generalizing phid with
  | zero => exact absurd (List.length_eq_zero_iff.mp (Nat.le_zero.mp enough)) whole.nonempty
  | succ fuel ih =>
      by_cases member : slash ∈ phid
      · obtain ⟨front, name, rfl, plain⟩ := Text.exists_last member
        obtain ⟨dir, slashes, rfl, only, stops⟩ := Text.exists_trailing slash front
        have nonempty : name ≠ [] := by
          rintro rfl
          exact whole.open_ List.getLast?_concat
        have place : placeOf (dir ++ slashes ++ slash :: name) = name :: placeOf dir := by
          rw [placeOf_slash _ plain nonempty, placeOf, tokenize_trailing dir only]
          rfl
        rw [parentDirs_slashes plain only stops, place, List.tail_cons]
        split
        case isTrue empty => rw [empty]; rfl
        case isFalse proper =>
          have named : ∀ token ∈ placeOf dir, IsName token := fun token member =>
            whole.isName (place ▸ List.mem_cons_of_mem _ member)
          have shorter : dir.length ≤ fuel := by
            simp only [List.length_append, List.length_cons] at enough
            omega
          have above := ih shorter ⟨proper, stops, fun token member =>
            named token (List.mem_reverse.mpr member)⟩
          obtain ⟨token, up, alone, -⟩ := exists_placeOf proper stops
          rw [List.map_cons, locate_below named proper stops, above, alone, List.tail_cons, upward,
            List.map_cons]
      · have place : placeOf phid = [phid] := by
          rw [placeOf, tokenize_plain member, component, if_neg whole.nonempty]
          rfl
        have missing : Medium.lastWhere (· = slash) phid = none :=
          Medium.lastWhere_eq_none fun byte found =>
            decide_eq_false fun same => member (same ▸ found)
        rw [Medium.parentDirs, missing, place]
        rfl

end OfflineFs
