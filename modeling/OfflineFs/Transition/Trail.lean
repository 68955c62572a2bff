import Mathlib.Data.List.Induction

/-!
# Trails of labels

Labelled edges lead along a list of labels.  Where no inner vertex has two edges into it,
and the start has none, only one trail leads from the start to an inner vertex.

A search takes one label after another and may fail.  It comes to the same answer after
some of its steps were changed, when no trail takes it to one of those.
-/

namespace OfflineFs.Transition

universe u v w

variable {V : Type u} {L : Type v} {ε : Type w}

/-- The labels that edges lead along from one vertex to another. -/
inductive Trail (edge : V → L → V → Prop) : V → List L → V → Prop
  | nil (v : V) : Trail edge v [] v
  | cons {v middle last : V} {label : L} {labels : List L} (leads : edge v label middle)
      (rest : Trail edge middle labels last) : Trail edge v (label :: labels) last

variable {edge : V → L → V → Prop} {start v last : V} {labels more : List L} {label : L}

/-- One trail after another. -/
theorem trail_append_iff :
    Trail edge v (labels ++ more) last ↔
      ∃ middle, Trail edge v labels middle ∧ Trail edge middle more last := by
  constructor
  · intro trail
    induction labels generalizing v with
    | nil => exact ⟨v, .nil v, trail⟩
    | cons label labels ih =>
        cases trail with
        | cons leads rest =>
            obtain ⟨middle, first, second⟩ := ih rest
            exact ⟨middle, .cons leads first, second⟩
  · rintro ⟨middle, first, second⟩
    induction first with
    | nil => exact second
    | cons leads _ ih => exact .cons leads (ih second)

theorem trail_concat_iff :
    Trail edge v (labels ++ [label]) last ↔
      ∃ middle, Trail edge v labels middle ∧ edge middle label last := by
  rw [trail_append_iff]
  constructor
  · rintro ⟨middle, first, second⟩
    cases second with
    | cons leads rest =>
        cases rest
        exact ⟨middle, first, leads⟩
  · rintro ⟨middle, first, leads⟩
    exact ⟨middle, first, .cons leads (.nil last)⟩

/-- Where a label leads to one vertex at most, so do labels. -/
theorem trail_functional {other : V} (trail : Trail edge v labels last)
    (again : Trail edge v labels other)
    (functional : ∀ v label first second, edge v label first → edge v label second →
      first = second) : last = other := by
  induction trail with
  | nil =>
      cases again
      rfl
  | cons leads _ ih =>
      cases again with
      | cons otherLeads rest =>
          obtain rfl := functional _ _ _ _ leads otherLeads
          exact ih rest

/-- Edges leave inner vertices only, at most one leads into an inner vertex, and none into
the start. -/
structure Rooted (edge : V → L → V → Prop) (inner : V → Prop) (start : V) : Prop where
  inner_of_edge : ∀ {v label last}, edge v label last → inner v
  edge_unique : ∀ {v other label otherLabel last}, inner last → edge v label last →
    edge other otherLabel last → v = other ∧ label = otherLabel
  not_edge_start : ∀ v label, ¬ edge v label start

namespace Rooted

variable {inner : V → Prop}

/-- A trail that comes back to the start is empty. -/
theorem eq_nil_of_trail (rooted : Rooted edge inner start) (trail : Trail edge v labels start) :
    labels = [] := by
  rcases List.eq_nil_or_concat labels with rfl | ⟨most, label, rfl⟩
  · rfl
  · obtain ⟨middle, -, leads⟩ := trail_concat_iff.mp (List.concat_eq_append ▸ trail)
    exact absurd leads (rooted.not_edge_start middle label)

/-- Only one trail leads to an inner vertex. -/
theorem trail_unique (rooted : Rooted edge inner start) {other : List L} (isInner : inner last)
    (trail : Trail edge start labels last) (again : Trail edge start other last) :
    labels = other := by
  induction labels using List.reverseRecOn generalizing last other with
  | nil =>
      cases trail
      exact (rooted.eq_nil_of_trail again).symm
  | append_singleton labels label ih =>
      obtain ⟨middle, first, leads⟩ := trail_concat_iff.mp trail
      rcases List.eq_nil_or_concat other with rfl | ⟨most, otherLabel, rfl⟩
      · cases again
        exact absurd leads (rooted.not_edge_start middle label)
      · rw [List.concat_eq_append] at again ⊢
        obtain ⟨otherMiddle, second, otherLeads⟩ := trail_concat_iff.mp again
        obtain ⟨rfl, rfl⟩ := rooted.edge_unique isInner leads otherLeads
        rw [ih (rooted.inner_of_edge leads) first second]

end Rooted

/-! ## Searches -/

variable {first second : V → L → Except ε V}

/-- A search that ends somewhere followed a trail. -/
theorem trail_of_foldlM
    (leads : ∀ v label last, label ∈ labels → first v label = .ok last → edge v label last)
    (found : labels.foldlM first v = .ok last) : Trail edge v labels last := by
  induction labels generalizing v with
  | nil =>
      cases found
      exact .nil _
  | cons label labels ih =>
      rw [List.foldlM_cons] at found
      cases taken : first v label with
      | error e =>
          rw [taken] at found
          cases found
      | ok middle =>
          rw [taken] at found
          exact .cons (leads v label middle List.mem_cons_self taken)
            (ih (fun v other last member => leads v other last (.tail label member))
              found)

/-- A search that may take more steps finds as much. -/
theorem foldlM_eq_ok_of_imp
    (weaker : ∀ v label last, first v label = .ok last → second v label = .ok last)
    (found : labels.foldlM first v = .ok last) : labels.foldlM second v = .ok last := by
  induction labels generalizing v with
  | nil => exact found
  | cons label labels ih =>
      rw [List.foldlM_cons] at found ⊢
      cases taken : first v label with
      | error e =>
          rw [taken] at found
          cases found
      | ok middle =>
          rw [taken] at found
          rw [weaker v label middle taken]
          exact ih found

/-- A search goes on from where it has come to. -/
theorem foldlM_through {middle : V} (found : labels.foldlM first v = .ok middle)
    (taken : first middle label = .ok last) :
    (labels ++ [label] ++ more).foldlM first v = more.foldlM first last := by
  induction labels generalizing v with
  | nil =>
      cases found
      rw [List.nil_append, List.singleton_append, List.foldlM_cons, taken]
      rfl
  | cons other labels ih =>
      rw [List.foldlM_cons] at found
      rw [List.cons_append, List.cons_append, List.foldlM_cons]
      cases step : first v other with
      | error e =>
          rw [step] at found
          cases found
      | ok next =>
          rw [step] at found
          exact ih found

/-- A fold over one more label. -/
theorem foldlM_concat_eq_ok_iff : (labels ++ [label]).foldlM first v = .ok last ↔
    ∃ middle, labels.foldlM first v = .ok middle ∧ first middle label = .ok last := by
  constructor
  · intro found
    rw [List.foldlM_append] at found
    cases taken : labels.foldlM first v with
    | error e =>
        rw [taken] at found
        cases found
    | ok middle =>
        rw [taken] at found
        cases next : first middle label with
        | error e =>
            have failed : ([label].foldlM first middle : Except ε V) = .error e := by
              rw [List.foldlM_cons, next]
              rfl
            cases failed.symm.trans found
        | ok final =>
            have ended : ([label].foldlM first middle : Except ε V) = .ok final := by
              rw [List.foldlM_cons, next]
              rfl
            exact ⟨middle, rfl, next.trans (ended.symm.trans found)⟩
  · rintro ⟨middle, found, taken⟩
    rw [← List.append_nil (labels ++ [label])]
    exact foldlM_through found taken

/-- The searches agree along labels whose trails from the start avoid every change. -/
theorem foldlM_eq_of_avoids {avoids : List L → Prop} {trace : List L}
    (trail : Trail edge start trace v)
    (avoided : ∀ front, front ≠ [] → front <+: labels → avoids (trace ++ front))
    (leads : ∀ trace v label last, Trail edge start trace v → avoids (trace ++ [label]) →
      first v label = .ok last → edge v label last)
    (same : ∀ trace v label, Trail edge start trace v → avoids (trace ++ [label]) →
      second v label = first v label) :
    labels.foldlM second v = labels.foldlM first v := by
  induction labels generalizing v trace with
  | nil => rfl
  | cons label labels ih =>
      have one : avoids (trace ++ [label]) :=
        avoided [label] (List.cons_ne_nil _ _) (List.prefix_append [label] labels)
      rw [List.foldlM_cons, List.foldlM_cons, same trace v label trail one]
      cases taken : first v label with
      | error e => rfl
      | ok middle =>
          have further : Trail edge start (trace ++ [label]) middle :=
            trail_concat_iff.mpr ⟨v, trail, leads trace v label middle trail one taken⟩
          refine ih further ?_
          intro front nonempty isPrefix
          rw [List.append_assoc]
          exact avoided ([label] ++ front) (List.cons_ne_nil _ _)
            (List.prefix_append_right_inj [label] |>.mpr isPrefix)

end OfflineFs.Transition
