import Mathlib.Logic.Basic

/-!
# Runs whose steps meet a condition

A run applies operations one after another.  A property that the start has and
that every step meeting the condition preserves holds in every state reached.
-/

namespace OfflineFs.Transition

universe u v

variable {σ : Type u} {ι : Type v}

/-- The states reached from `start` by operations that meet the condition in the
state they are applied to. -/
inductive Reaches (step : σ → ι → σ) (condition : σ → ι → Prop) (start : σ) : σ → Prop
  | start : Reaches step condition start start
  | step {state : σ} (op : ι) (reached : Reaches step condition start state)
      (met : condition state op) : Reaches step condition start (step state op)

namespace Reaches

variable {step : σ → ι → σ} {condition : σ → ι → Prop} {start state : σ}

theorem invariant {property : σ → Prop} (initial : property start)
    (preserved : ∀ state op, property state → condition state op → property (step state op))
    (reached : Reaches step condition start state) : property state := by
  induction reached with
  | start => exact initial
  | step op _ met ih => exact preserved _ op ih met

theorem mono {weaker : σ → ι → Prop}
    (weaken : ∀ state op, condition state op → weaker state op)
    (reached : Reaches step condition start state) : Reaches step weaker start state := by
  induction reached with
  | start => exact .start
  | step op _ met ih => exact .step op ih (weaken _ op met)

end Reaches

/-- A list of operations that meet the condition one after another. -/
inductive Meets (step : σ → ι → σ) (condition : σ → ι → Prop) : σ → List ι → Prop
  | nil (state : σ) : Meets step condition state []
  | cons {state : σ} {op : ι} {ops : List ι} (met : condition state op)
      (rest : Meets step condition (step state op) ops) : Meets step condition state (op :: ops)

variable {step : σ → ι → σ} {condition weaker : σ → ι → Prop} {start state : σ}

/-- What an invariant and the condition give holds of every operation of the list. -/
theorem Meets.of_invariant (invariant : σ → Prop) {ops : List ι} (initial : invariant start)
    (preserved : ∀ state op, invariant state → condition state op → invariant (step state op))
    (gives : ∀ state op, invariant state → condition state op → weaker state op)
    (meets : Meets step condition start ops) : Meets step weaker start ops := by
  induction meets with
  | nil state => exact .nil state
  | cons met _ ih => exact .cons (gives _ _ initial met) (ih (preserved _ _ initial met))

theorem Meets.mono {ops : List ι} (weaken : ∀ state op, condition state op → weaker state op)
    (meets : Meets step condition start ops) : Meets step weaker start ops :=
  meets.of_invariant (fun _ => True) trivial (fun _ _ _ _ => trivial)
    fun state op _ => weaken state op

/-- Without a condition every list of operations is a run. -/
theorem Meets.of_true (step : σ → ι → σ) (state : σ) (ops : List ι) :
    Meets step (fun _ _ => True) state ops := by
  induction ops generalizing state with
  | nil => exact .nil state
  | cons op ops ih => exact .cons trivial (ih (step state op))

theorem Reaches.foldl {ops : List ι} (reached : Reaches step condition start state)
    (meets : Meets step condition state ops) :
    Reaches step condition start (ops.foldl step state) := by
  induction meets with
  | nil => exact reached
  | cons met _ ih => exact ih (.step _ reached met)

theorem Meets.reaches {ops : List ι} (meets : Meets step condition start ops) :
    Reaches step condition start (ops.foldl step start) :=
  Reaches.start.foldl meets

end OfflineFs.Transition
