import Mathlib.Data.List.Basic
import Mathlib.Data.List.Pairwise

/-!
# Items in the order of their last use

A list of the uses of some items, latest first, says how long ago each item was last used.
Items that stand in that order keep it when some of them are removed and when one of them is
used and moved to the front.
-/

namespace OfflineFs.Map

variable {α : Type} [DecidableEq α]

/-- Used items, the one that was used last in front. -/
structure Recent (uses items : List α) : Prop where
  used : ∀ item ∈ items, item ∈ uses
  ordered : items.Pairwise fun newer older => uses.idxOf newer < uses.idxOf older

namespace Recent

variable {uses items rest : List α} {item other : α}

theorem nil (uses : List α) : Recent uses [] where
  used _ member := absurd member List.not_mem_nil
  ordered := .nil

theorem sublist (recent : Recent uses items) (kept : rest.Sublist items) : Recent uses rest where
  used item member := recent.used item (kept.subset member)
  ordered := recent.ordered.sublist kept

/-- An item that is used comes to the front. -/
theorem use (recent : Recent uses items) (absent : item ∉ items) :
    Recent (item :: uses) (item :: items) where
  used other member := by
    rcases List.mem_cons.mp member with rfl | member
    · exact List.mem_cons_self
    · exact List.mem_cons_of_mem _ (recent.used other member)
  ordered := by
    have shifts : ∀ other ∈ items, (item :: uses).idxOf other = uses.idxOf other + 1 := by
      intro other member
      exact List.idxOf_cons_ne _ fun same => absent (same ▸ member)
    rw [List.pairwise_cons]
    constructor
    · intro other member
      rw [List.idxOf_cons_self, shifts other member]
      exact Nat.succ_pos _
    · apply recent.ordered.imp_of_mem
      intro newer older newerIn olderIn earlier
      rw [shifts newer newerIn, shifts older olderIn]
      exact Nat.succ_lt_succ earlier

/-- The item at the back is the least recently used one. -/
theorem lt_last {front : List α} (recent : Recent uses (front ++ [item])) (member : other ∈ front) :
    uses.idxOf other < uses.idxOf item :=
  (List.pairwise_append.mp recent.ordered).2.2 other member item List.mem_cons_self

theorem nodup (recent : Recent uses items) : items.Nodup := by
  apply recent.ordered.imp
  rintro newer _ earlier rfl
  exact Nat.lt_irrefl _ earlier

end Recent

end OfflineFs.Map
