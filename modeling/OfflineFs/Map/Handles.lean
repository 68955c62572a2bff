import Mathlib.Data.List.Nodup

/-!
# Queues with handles

A queue whose elements are removed through handles that were given out when they
were pushed, as iterators of a linked list are.  Handles are counted, so no two
elements share one.
-/

namespace OfflineFs.Map

variable {α : Type}

/-- The handles of a queue are distinct and below the next one. -/
structure Handles (queue : List (Nat × α)) (next : Nat) : Prop where
  nodup : (queue.map Prod.fst).Nodup
  bound : ∀ element ∈ queue, element.1 < next

namespace Handles

variable {queue : List (Nat × α)} {next it : Nat} {value other : α}

theorem nil (next : Nat) : Handles ([] : List (Nat × α)) next where
  nodup := List.nodup_nil
  bound _ member := absurd member List.not_mem_nil

/-- A handle refers to one element. -/
theorem unique (handles : Handles queue next) (first : (it, value) ∈ queue)
    (second : (it, other) ∈ queue) : value = other := by
  have inj := List.inj_on_of_nodup_map handles.nodup first second rfl
  exact congrArg Prod.snd inj

theorem sublist {rest : List (Nat × α)} (handles : Handles queue next)
    (kept : rest.Sublist queue) : Handles rest next where
  nodup := handles.nodup.sublist (kept.map Prod.fst)
  bound element member := handles.bound element (kept.subset member)

/-- Removing the element of a handle. -/
theorem filter (handles : Handles queue next) (it : Nat) :
    Handles (queue.filter (·.1 ≠ it)) next :=
  handles.sublist List.filter_sublist

/-- A handle that was never given out. -/
theorem pushFront (handles : Handles queue next) (value : α) :
    Handles ((next, value) :: queue) (next + 1) where
  nodup := by
    rw [List.map_cons, List.nodup_cons]
    refine ⟨?_, handles.nodup⟩
    intro member
    obtain ⟨element, inQueue, same⟩ := List.mem_map.mp member
    have below := handles.bound element inQueue
    omega
  bound element member := by
    rcases List.mem_cons.mp member with rfl | inQueue
    · exact Nat.lt_succ_self next
    · exact Nat.lt_succ_of_lt (handles.bound element inQueue)

theorem pushBack (handles : Handles queue next) (value : α) :
    Handles (queue ++ [(next, value)]) (next + 1) := by
  have front := handles.pushFront value
  constructor
  · rw [List.map_append, List.nodup_append_comm]
    simpa using front.nodup
  · intro element member
    exact front.bound element (by simpa [or_comm] using member)

/-- Removing the element of a handle shortens the queue by one. -/
theorem length_filter (handles : Handles queue next) (member : (it, value) ∈ queue) :
    (queue.filter (·.1 ≠ it)).length + 1 = queue.length := by
  induction queue with
  | nil => exact absurd member List.not_mem_nil
  | cons first rest ih =>
      have rests := handles.sublist (List.sublist_cons_self first rest)
      have firstFresh := (List.nodup_cons.mp handles.nodup).1
      by_cases same : first.1 = it
      · have untouched : rest.filter (·.1 ≠ it) = rest := by
          rw [List.filter_eq_self]
          intro element inRest
          have apart : element.1 ≠ it := by
            rintro rfl
            exact firstFresh (List.mem_map.mpr ⟨element, inRest, same.symm⟩)
          simpa using apart
        rw [List.filter_cons_of_neg (by simpa using same), untouched, List.length_cons]
      · have inRest : (it, value) ∈ rest := by
          rcases List.mem_cons.mp member with rfl | inRest
          · exact absurd rfl same
          · exact inRest
        rw [List.filter_cons_of_pos (by simpa using same), List.length_cons, List.length_cons,
          ih rests inRest]

theorem mem_filter_iff {element : Nat × α} :
    element ∈ queue.filter (·.1 ≠ it) ↔ element ∈ queue ∧ element.1 ≠ it := by
  simp [List.mem_filter]

end Handles

end OfflineFs.Map
