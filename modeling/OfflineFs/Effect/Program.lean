import Mathlib.Logic.Function.Basic

/-!
# Programs over an effect signature

A program is a tree of effect calls.  It may throw an exception, which an
enclosing handler can intercept, or stop on a fault, which nothing intercepts:
a loop that never ends or an operation whose meaning is undefined.

The tree carries no meaning for its effects.  A handler supplies one by saying
what each effect returns and how it changes a state, and `run` executes a
program against a handler.  Other meanings of the same tree, such as its
interleaving with a second program, are given elsewhere.
-/

namespace OfflineFs.Effect

/-- What no exception handler sees. -/
inductive Fault
  | diverged
  | undefined
  deriving DecidableEq, Repr

/-- How a run of a program ends. -/
inductive Outcome (ε α : Type)
  | ok (value : α)
  | error (error : ε)
  | fault (fault : Fault)
  deriving DecidableEq, Repr

/-- Programs that call effects of `E`, throw `ε` and return `α`. -/
inductive Program (E : Type → Type) (ε α : Type) : Type 1
  | pure (value : α)
  | throw (error : ε)
  | halt (fault : Fault)
  | call {β : Type} (effect : E β) (next : β → Program E ε α)

namespace Program

variable {E : Type → Type} {ε α β σ : Type}

/-- Sequential composition: the continuation replaces every returned value. -/
def bind : Program E ε α → (α → Program E ε β) → Program E ε β
  | .pure value, next => next value
  | .throw exn, _ => .throw exn
  | .halt stop, _ => .halt stop
  | .call effect rest, next => .call effect fun reply => (rest reply).bind next

/-- Exception handling: the handler replaces every thrown exception. -/
def catching : Program E ε α → (ε → Program E ε α) → Program E ε α
  | .pure value, _ => .pure value
  | .throw exn, handler => handler exn
  | .halt stop, _ => .halt stop
  | .call effect rest, handler => .call effect fun reply => (rest reply).catching handler

instance : Monad (Program E ε) where
  pure := .pure
  bind := .bind

/-- The program that makes one effect call. -/
def perform (effect : E α) : Program E ε α :=
  .call effect .pure

end Program

/-- A meaning for the effects of `E` as total functions on a state. -/
def Handler (E : Type → Type) (σ : Type) :=
  ∀ ⦃β : Type⦄, E β → σ → β × σ

namespace Outcome

variable {ε α β σ : Type}

/-- Continue a finished run when it returned a value. -/
def andThen : Outcome ε α × σ → (α → σ → Outcome ε β × σ) → Outcome ε β × σ
  | (.ok value, state), next => next value state
  | (.error exn, state), _ => (.error exn, state)
  | (.fault stop, state), _ => (.fault stop, state)

/-- Continue a finished run when it threw an exception. -/
def orElse : Outcome ε α × σ → (ε → σ → Outcome ε α × σ) → Outcome ε α × σ
  | (.ok value, state), _ => (.ok value, state)
  | (.error exn, state), next => next exn state
  | (.fault stop, state), _ => (.fault stop, state)

@[simp]
theorem andThen_ok (value : α) (state : σ) (next : α → σ → Outcome ε β × σ) :
    andThen (.ok value, state) next = next value state :=
  rfl

@[simp]
theorem andThen_error (exn : ε) (state : σ) (next : α → σ → Outcome ε β × σ) :
    andThen (.error exn, state) next = (.error exn, state) :=
  rfl

@[simp]
theorem andThen_fault (stop : Fault) (state : σ) (next : α → σ → Outcome ε β × σ) :
    andThen (.fault stop, state) next = (.fault stop, state) :=
  rfl

@[simp]
theorem orElse_ok (value : α) (state : σ) (next : ε → σ → Outcome ε α × σ) :
    orElse (.ok value, state) next = (.ok value, state) :=
  rfl

@[simp]
theorem orElse_error (exn : ε) (state : σ) (next : ε → σ → Outcome ε α × σ) :
    orElse (.error exn, state) next = next exn state :=
  rfl

@[simp]
theorem orElse_fault (stop : Fault) (state : σ) (next : ε → σ → Outcome ε α × σ) :
    orElse (.fault stop, state) next = (.fault stop, state) :=
  rfl

/-- A sequence returns a value exactly when both parts do. -/
theorem andThen_eq_ok_iff {first : Outcome ε α × σ} {next : α → σ → Outcome ε β × σ}
    {value : β} {final : σ} :
    andThen first next = (.ok value, final) ↔
      ∃ middle state, first = (.ok middle, state) ∧
        next middle state = (.ok value, final) := by
  rcases first with ⟨outcome, state⟩
  cases outcome with
  | ok middle =>
      constructor
      · intro result
        exact ⟨middle, state, rfl, result⟩
      · rintro ⟨_, _, firstEq, result⟩
        cases firstEq
        exact result
  | error => simp
  | fault => simp

/-- The outcome of a computation that either returns or throws. -/
def ofExcept : Except ε α → Outcome ε α
  | .ok value => .ok value
  | .error exn => .error exn

@[simp]
theorem ofExcept_ok (value : α) : ofExcept (.ok value : Except ε α) = .ok value :=
  rfl

@[simp]
theorem ofExcept_error (exn : ε) : ofExcept (.error exn : Except ε α) = .error exn :=
  rfl

end Outcome

namespace Program

variable {E : Type → Type} {ε α β σ : Type}

/-- Execute a program, threading the handler's state.  The state survives an
exception: nothing is rolled back. -/
def run (handler : Handler E σ) : Program E ε α → σ → Outcome ε α × σ
  | .pure value, state => (.ok value, state)
  | .throw exn, state => (.error exn, state)
  | .halt stop, state => (.fault stop, state)
  | .call effect next, state =>
      (next (handler effect state).1).run handler (handler effect state).2

@[simp]
theorem run_pure (handler : Handler E σ) (value : α) (state : σ) :
    run (ε := ε) handler (pure value) state = (.ok value, state) :=
  rfl

@[simp]
theorem run_throw (handler : Handler E σ) (exn : ε) (state : σ) :
    run (α := α) handler (.throw exn) state = (.error exn, state) :=
  rfl

@[simp]
theorem run_halt (handler : Handler E σ) (stop : Fault) (state : σ) :
    run (ε := ε) (α := α) handler (.halt stop) state = (.fault stop, state) :=
  rfl

@[simp]
theorem run_perform (handler : Handler E σ) (effect : E α) (state : σ) :
    run (ε := ε) handler (perform effect) state =
      (.ok (handler effect state).1, (handler effect state).2) :=
  rfl

@[simp]
theorem run_bind (handler : Handler E σ) (first : Program E ε α)
    (next : α → Program E ε β) (state : σ) :
    run handler (first >>= next) state =
      Outcome.andThen (run handler first state) fun value middle =>
        run handler (next value) middle := by
  change run handler (first.bind next) state = _
  induction first generalizing state with
  | pure => rfl
  | throw => rfl
  | halt => rfl
  | call effect rest ih => exact ih _ _

@[simp]
theorem run_catching (handler : Handler E σ) (body : Program E ε α)
    (recover : ε → Program E ε α) (state : σ) :
    run handler (body.catching recover) state =
      Outcome.orElse (run handler body state) fun exn middle =>
        run handler (recover exn) middle := by
  induction body generalizing state with
  | pure => rfl
  | throw => rfl
  | halt => rfl
  | call effect rest ih => exact ih _ _

end Program

end OfflineFs.Effect
