import OfflineFs.Transition.Trail

/-!
# Namespaces

A namespace says what lists of labels lead to.  It gets a label more, loses what is at a
list of labels and beneath, or has that moved.  The lists that lead somewhere in a rooted
graph are a namespace, and it changes like that when one edge comes, goes or is replaced.
-/

namespace OfflineFs.Transition

universe u v

variable {V : Type u} {L : Type v}

/-- What lists of labels lead to. -/
abbrev Namespace (L : Type v) (V : Type u) :=
  List L → V → Prop

namespace Namespace

/-- One more list leads somewhere. -/
def bound (space : Namespace L V) (names : List L) (v : V) : Namespace L V :=
  fun other last => space other last ∨ other = names ∧ last = v

/-- Nothing is left at a list and beneath. -/
def pruned (space : Namespace L V) (names : List L) : Namespace L V :=
  fun other last => space other last ∧ ¬ names <+: other

/-- What was at one list and beneath is at another. -/
def moved (space : Namespace L V) (source target : List L) : Namespace L V :=
  fun other last => (∃ rest, other = target ++ rest ∧ space (source ++ rest) last) ∨
    space other last ∧ ¬ source <+: other ∧ ¬ target <+: other

/-- Nothing is beneath a list. -/
def Bare (space : Namespace L V) (names : List L) : Prop :=
  ∀ label last, ¬ space (names ++ [label]) last

/-- A list leads to one vertex at most, and what a longer list leads to is beneath an inner
vertex. -/
structure Formed (inner : V → Prop) (space : Namespace L V) : Prop where
  above : ∀ {names label v}, space (names ++ [label]) v → ∃ d, space names d ∧ inner d
  functional : ∀ {names v w}, space names v → space names w → v = w

/-- A change of a namespace. -/
inductive Step (inner : V → Prop) (space : Namespace L V) : Namespace L V → Prop
  | keep : Step inner space space
  | bind {front : List L} {label : L} {d v : V} (above : space front d) (isInner : inner d)
      (free : ∀ w, ¬ space (front ++ [label]) w) (fresh : inner v → ∀ names, ¬ space names v) :
      Step inner space (space.bound (front ++ [label]) v)
  | prune {front : List L} {label : L} (bare : space.Bare (front ++ [label])) :
      Step inner space (space.pruned (front ++ [label]))
  | move {source front : List L} {label : L} {d v : V} (found : space source v)
      (above : space front d) (isInner : inner d) (outside : ¬ source <+: front ++ [label])
      (bare : space.Bare (front ++ [label])) :
      Step inner space (space.moved source (front ++ [label]))

variable {space next : Namespace L V} {inner : V → Prop} {start v : V} {names front : List L}
variable {label : L}

/-- A list is at most as long as one that has it as a prefix. -/
theorem not_prefix_of_concat (front : List L) (label : L) : ¬ front ++ [label] <+: front := by
  intro isPrefix
  have short := isPrefix.length_le
  rw [List.length_append, List.length_singleton] at short
  exact absurd short (Nat.not_succ_le_self _)

theorem prefix_concat_of_front {source : List L} (isPrefix : source <+: names) :
    source <+: names ++ [label] :=
  isPrefix.trans (List.prefix_append names [label])

/-- What a prefix of a list that leads somewhere leads to. -/
theorem Formed.exists_of_prefix (formed : space.Formed inner) (found : space names v)
    (isPrefix : front <+: names) : ∃ w, space front w := by
  induction names using List.reverseRecOn generalizing v with
  | nil =>
      rw [List.prefix_nil.mp isPrefix]
      exact ⟨v, found⟩
  | append_singleton names label ih =>
      rcases List.prefix_concat_iff.mp isPrefix with same | shorter
      · rw [same]
        exact ⟨v, found⟩
      · obtain ⟨d, above, -⟩ := formed.above found
        exact ih above shorter

/-- Beneath a bare list nothing is found. -/
theorem Formed.eq_of_bare (formed : space.Formed inner) (bare : space.Bare front)
    (found : space names v) (isPrefix : front <+: names) : names = front := by
  obtain ⟨rest, rfl⟩ := isPrefix
  cases rest with
  | nil => rw [List.append_nil]
  | cons label rest =>
      have below : front ++ [label] <+: front ++ label :: rest := by
        rw [List.append_cons front label rest]
        exact List.prefix_append _ rest
      obtain ⟨w, nearer⟩ := formed.exists_of_prefix found below
      exact absurd nearer (bare label w)

namespace Formed

variable (formed : space.Formed inner)

include formed

/-- What is moved takes the place of what is there. -/
theorem moved_pruned {source target : List L} (bare : space.Bare target)
    (outside : ¬ source <+: target) :
    (space.pruned target).moved source target = space.moved source target := by
  funext names w
  apply propext
  constructor
  · rintro (⟨rest, same, found, -⟩ | ⟨⟨found, -⟩, notSource, notTarget⟩)
    · exact .inl ⟨rest, same, found⟩
    · exact .inr ⟨found, notSource, notTarget⟩
  · rintro (⟨rest, same, found⟩ | ⟨found, notSource, notTarget⟩)
    · refine .inl ⟨rest, same, found, fun isPrefix => ?_⟩
      rw [← formed.eq_of_bare bare found isPrefix] at outside
      exact outside (List.prefix_append source rest)
    · exact .inr ⟨⟨found, notTarget⟩, notSource, notTarget⟩

end Formed

end Namespace

/-! ## Graphs -/

section Graphs

variable {edge after : V → L → V → Prop} {inner : V → Prop} {start d v : V} {front names : List L}
variable {label : L}

/-- The lists that lead somewhere in a rooted graph. -/
theorem Rooted.formed (rooted : Rooted edge inner start)
    (functional : ∀ v label first second, edge v label first → edge v label second →
      first = second) : Namespace.Formed inner (Trail edge start) := by
  constructor
  · intro names label v trail
    obtain ⟨d, leads, last⟩ := trail_concat_iff.mp trail
    exact ⟨d, leads, rooted.inner_of_edge last⟩
  · exact fun trail again => trail_functional trail again functional

/-- An edge to a vertex that has none. -/
theorem trail_bound (rooted : Rooted edge inner start)
    (leads : Trail edge start front d) (isInner : inner d) (leaf : ∀ label w, ¬ edge v label w)
    (apart : v ≠ d) (edges : ∀ u l w, after u l w ↔ edge u l w ∨ u = d ∧ l = label ∧ w = v) :
    Trail after start = Namespace.bound (Trail edge start) (front ++ [label]) v := by
  have grows : ∀ {u names w}, Trail edge u names w → Trail after u names w := by
    intro u names w trail
    induction trail with
    | nil => exact .nil _
    | cons step _ ih => exact .cons ((edges _ _ _).mpr (.inl step)) ih
  funext names w
  apply propext
  constructor
  · intro trail
    induction names using List.reverseRecOn generalizing w with
    | nil =>
        cases trail
        exact .inl (.nil _)
    | append_singleton names last ih =>
        obtain ⟨middle, first, step⟩ := trail_concat_iff.mp trail
        have stays : Trail edge start names middle ∨ names = front ++ [label] ∧ middle = v :=
          ih middle first
        rcases (edges _ _ _).mp step with old | ⟨rfl, rfl, rfl⟩
        · rcases stays with earlier | ⟨-, rfl⟩
          · exact .inl (trail_concat_iff.mpr ⟨middle, earlier, old⟩)
          · exact absurd old (leaf last w)
        · rcases stays with earlier | ⟨-, same⟩
          · exact .inr ⟨by rw [rooted.trail_unique isInner earlier leads], rfl⟩
          · exact absurd same.symm apart
  · rintro (earlier | ⟨rfl, rfl⟩)
    · exact grows earlier
    · exact trail_concat_iff.mpr ⟨d, grows leads, (edges _ _ _).mpr (.inr ⟨rfl, rfl, rfl⟩)⟩

/-- An edge from an inner vertex is gone. -/
theorem trail_pruned (rooted : Rooted edge inner start)
    (functional : ∀ v label first second, edge v label first → edge v label second →
      first = second) (leads : Trail edge start front d) (isInner : inner d)
    (edges : ∀ u l w, after u l w ↔ edge u l w ∧ ¬ (u = d ∧ l = label)) :
    Trail after start = Namespace.pruned (Trail edge start) (front ++ [label]) := by
  funext names w
  apply propext
  induction names using List.reverseRecOn generalizing w with
  | nil =>
      constructor
      · intro trail
        cases trail
        exact ⟨.nil _, fun isPrefix =>
          List.concat_ne_nil label front (List.prefix_nil.mp isPrefix)⟩
      · rintro ⟨trail, -⟩
        cases trail
        exact .nil _
  | append_singleton names last ih =>
      constructor
      · intro trail
        obtain ⟨middle, first, step⟩ := trail_concat_iff.mp trail
        have earlier : Trail edge start names middle ∧ ¬ front ++ [label] <+: names :=
          (ih middle).mp first
        obtain ⟨old, notGone⟩ := (edges _ _ _).mp step
        refine ⟨trail_concat_iff.mpr ⟨middle, earlier.1, old⟩, fun isPrefix => ?_⟩
        rcases List.prefix_concat_iff.mp isPrefix with same | shorter
        · obtain ⟨rfl, isLast⟩ := List.append_inj' same rfl
          exact notGone ⟨trail_functional earlier.1 leads functional,
            (List.singleton_inj.mp isLast).symm⟩
        · exact earlier.2 shorter
      · rintro ⟨trail, outside⟩
        obtain ⟨middle, first, old⟩ := trail_concat_iff.mp trail
        have still : Trail after start names middle :=
          (ih middle).mpr ⟨first, fun isPrefix =>
            outside (Namespace.prefix_concat_of_front isPrefix)⟩
        refine trail_concat_iff.mpr ⟨middle, still, (edges _ _ _).mpr ⟨old, ?_⟩⟩
        rintro ⟨rfl, rfl⟩
        exact outside (rooted.trail_unique isInner first leads ▸ List.prefix_refl _)

/-- One edge is gone, and another from an inner vertex leads to where that one led. -/
theorem trail_moved {s src : V} {os ns : List L} {old new : L} (rooted : Rooted edge inner start)
    (functional : ∀ v label first second, edge v label first → edge v label second →
      first = second) (leadsOld : Trail edge start os s) (innerOld : inner s)
    (leadsNew : Trail edge start ns d) (innerNew : inner d) (found : edge s old src)
    (outside : ¬ os ++ [old] <+: ns ++ [new])
    (edges : ∀ u l w, after u l w ↔
      (edge u l w ∧ ¬ (u = s ∧ l = old) ∧ ¬ (u = d ∧ l = new)) ∨ u = d ∧ l = new ∧ w = src) :
    Trail after start = Namespace.moved (Trail edge start) (os ++ [old]) (ns ++ [new]) := by
  have notAbove : ¬ os ++ [old] <+: ns := fun isPrefix =>
    outside (Namespace.prefix_concat_of_front isPrefix)
  have stays : ∀ {names w}, Trail edge start names w → ¬ os ++ [old] <+: names →
      ¬ ns ++ [new] <+: names → Trail after start names w := by
    intro names w trail notOld notNew
    induction names using List.reverseRecOn generalizing w with
    | nil =>
        cases trail
        exact .nil _
    | append_singleton names last ih =>
        obtain ⟨middle, first, step⟩ := trail_concat_iff.mp trail
        have earlier : Trail after start names middle :=
          ih first (fun isPrefix => notOld (Namespace.prefix_concat_of_front isPrefix))
            fun isPrefix => notNew (Namespace.prefix_concat_of_front isPrefix)
        refine trail_concat_iff.mpr ⟨middle, earlier, (edges _ _ _).mpr (.inl ⟨step, ?_, ?_⟩)⟩
        · rintro ⟨rfl, rfl⟩
          exact notOld (rooted.trail_unique innerOld first leadsOld ▸ List.prefix_refl _)
        · rintro ⟨rfl, rfl⟩
          exact notNew (rooted.trail_unique innerNew first leadsNew ▸ List.prefix_refl _)
  have arrives : ∀ {rest w}, Trail edge start (os ++ [old] ++ rest) w →
      Trail after start (ns ++ [new] ++ rest) w := by
    intro rest w trail
    induction rest using List.reverseRecOn generalizing w with
    | nil =>
        rw [List.append_nil] at trail ⊢
        obtain ⟨middle, first, step⟩ := trail_concat_iff.mp trail
        obtain rfl := trail_functional first leadsOld functional
        obtain rfl := functional _ _ _ _ step found
        exact trail_concat_iff.mpr
          ⟨d, stays leadsNew notAbove (Namespace.not_prefix_of_concat ns new),
          (edges _ _ _).mpr (.inr ⟨rfl, rfl, rfl⟩)⟩
    | append_singleton rest last ih =>
        rw [← List.append_assoc] at trail ⊢
        obtain ⟨middle, first, step⟩ := trail_concat_iff.mp trail
        refine trail_concat_iff.mpr ⟨middle, ih first, (edges _ _ _).mpr (.inl ⟨step, ?_, ?_⟩)⟩
        · rintro ⟨rfl, -⟩
          exact Namespace.not_prefix_of_concat os old
            ⟨rest, (rooted.trail_unique innerOld leadsOld first).symm⟩
        · rintro ⟨rfl, -⟩
          rw [rooted.trail_unique innerNew leadsNew first] at notAbove
          exact notAbove (List.prefix_append _ rest)
  funext names w
  apply propext
  constructor
  · intro trail
    induction names using List.reverseRecOn generalizing w with
    | nil =>
        cases trail
        refine .inr ⟨.nil _, fun isPrefix => ?_, fun isPrefix => ?_⟩
        · exact List.concat_ne_nil old os (List.prefix_nil.mp isPrefix)
        · exact List.concat_ne_nil new ns (List.prefix_nil.mp isPrefix)
    | append_singleton names last ih =>
        obtain ⟨middle, first, step⟩ := trail_concat_iff.mp trail
        rcases ih middle first with ⟨rest, rfl, earlier⟩ | ⟨earlier, notOld, notNew⟩
        · rcases (edges _ _ _).mp step with ⟨kept, -⟩ | ⟨rfl, -⟩
          · refine .inl ⟨rest ++ [last], List.append_assoc _ _ _, ?_⟩
            rw [← List.append_assoc]
            exact trail_concat_iff.mpr ⟨middle, earlier, kept⟩
          · rw [rooted.trail_unique innerNew leadsNew earlier] at notAbove
            exact absurd (List.prefix_append _ rest) notAbove
        · rcases (edges _ _ _).mp step with ⟨kept, notFrom, notTo⟩ | ⟨rfl, rfl, rfl⟩
          · refine .inr ⟨trail_concat_iff.mpr ⟨middle, earlier, kept⟩, ?_, ?_⟩
            · intro isPrefix
              rcases List.prefix_concat_iff.mp isPrefix with same | shorter
              · obtain ⟨rfl, isLast⟩ := List.append_inj' same rfl
                exact notFrom ⟨trail_functional earlier leadsOld functional,
                  (List.singleton_inj.mp isLast).symm⟩
              · exact notOld shorter
            · intro isPrefix
              rcases List.prefix_concat_iff.mp isPrefix with same | shorter
              · obtain ⟨rfl, isLast⟩ := List.append_inj' same rfl
                exact notTo ⟨trail_functional earlier leadsNew functional,
                  (List.singleton_inj.mp isLast).symm⟩
              · exact notNew shorter
          · obtain rfl := rooted.trail_unique innerNew earlier leadsNew
            refine .inl ⟨[], (List.append_nil _).symm, ?_⟩
            rw [List.append_nil]
            exact trail_concat_iff.mpr ⟨s, leadsOld, found⟩
  · rintro (⟨rest, rfl, trail⟩ | ⟨trail, notOld, notNew⟩)
    · exact arrives trail
    · exact stays trail notOld notNew

end Graphs

end OfflineFs.Transition
