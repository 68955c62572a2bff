import OfflineFs.Effect.Program

/-!
# The calls a program can make

A predicate on effects holds of every call a program can make, whatever its
earlier calls returned.  It carries over to every run: a relation that each
permitted call establishes between the states around it is established by the
whole program.
-/

namespace OfflineFs.Effect

namespace Program

variable {E : Type → Type} {ε α β σ : Type}
variable {permitted other : ∀ ⦃γ : Type⦄, E γ → Prop}

/-- Every call that a program can make is permitted. -/
def Calls (permitted : ∀ ⦃γ : Type⦄, E γ → Prop) : Program E ε α → Prop
  | .pure _ => True
  | .throw _ => True
  | .halt _ => True
  | .call effect next => permitted effect ∧ ∀ reply, (next reply).Calls permitted

@[simp]
theorem calls_pure (value : α) : Calls (ε := ε) permitted (Pure.pure value) :=
  trivial

@[simp]
theorem calls_throw (exn : ε) : Calls (α := α) permitted (.throw exn) :=
  trivial

@[simp]
theorem calls_halt (stop : Fault) : Calls (ε := ε) (α := α) permitted (.halt stop) :=
  trivial

theorem calls_perform {effect : E α} (allowed : permitted effect) :
    Calls (ε := ε) permitted (perform effect) :=
  ⟨allowed, fun _ => trivial⟩

theorem calls_bind {first : Program E ε α} {next : α → Program E ε β}
    (firstCalls : Calls permitted first) (nextCalls : ∀ value, Calls permitted (next value)) :
    Calls permitted (first >>= next) := by
  change Calls permitted (first.bind next)
  induction first with
  | pure value => exact nextCalls value
  | throw => trivial
  | halt => trivial
  | call effect rest ih => exact ⟨firstCalls.1, fun reply => ih reply (firstCalls.2 reply)⟩

theorem calls_catching {body : Program E ε α} {recover : ε → Program E ε α}
    (bodyCalls : Calls permitted body) (recoverCalls : ∀ exn, Calls permitted (recover exn)) :
    Calls permitted (body.catching recover) := by
  induction body with
  | pure => trivial
  | throw exn => exact recoverCalls exn
  | halt => trivial
  | call effect rest ih => exact ⟨bodyCalls.1, fun reply => ih reply (bodyCalls.2 reply)⟩

theorem calls_ite {condition : Prop} [Decidable condition] {yes no : Program E ε α}
    (yesCalls : Calls permitted yes) (noCalls : Calls permitted no) :
    Calls permitted (if condition then yes else no) := by
  split
  · exact yesCalls
  · exact noCalls

theorem Calls.mono {prog : Program E ε α} (calls : Calls permitted prog)
    (weaken : ∀ {γ : Type} (effect : E γ), permitted effect → other effect) :
    Calls other prog := by
  induction prog with
  | pure => trivial
  | throw => trivial
  | halt => trivial
  | call effect rest ih => exact ⟨weaken effect calls.1, fun reply => ih reply (calls.2 reply)⟩

theorem calls_all (prog : Program E ε α) : Calls (fun _ _ => True) prog := by
  induction prog with
  | pure => trivial
  | throw => trivial
  | halt => trivial
  | call effect rest ih => exact ⟨trivial, ih⟩

/-- What every permitted call establishes, and what composes, holds from the
start of a run to its end. -/
theorem Calls.run {prog : Program E ε α} (calls : Calls permitted prog) (handler : Handler E σ)
    (related : σ → σ → Prop) (same : ∀ state, related state state)
    (compose : ∀ {first second third}, related first second → related second third →
      related first third)
    (step : ∀ {γ : Type} (effect : E γ) (state : σ), permitted effect →
      related state (handler effect state).2)
    (state : σ) : related state (run handler prog state).2 := by
  induction prog generalizing state with
  | pure => exact same state
  | throw => exact same state
  | halt => exact same state
  | call effect rest ih => exact compose (step effect state calls.1) (ih _ (calls.2 _) _)

/-! ## How a program can end -/

variable {returned : α → Prop} {nextReturned : β → Prop} {thrown : ε → Prop}

/-- Every value a program can return and every exception it can throw is as
described, whatever its calls return. -/
def Ends (returned : α → Prop) (thrown : ε → Prop) : Program E ε α → Prop
  | .pure value => returned value
  | .throw exn => thrown exn
  | .halt _ => True
  | .call _ next => ∀ reply, (next reply).Ends returned thrown

theorem ends_pure {value : α} (is : returned value) :
    Ends (E := E) returned thrown (Pure.pure value) :=
  is

theorem ends_throw {exn : ε} (is : thrown exn) : Ends (E := E) returned thrown (.throw exn) :=
  is

theorem ends_perform (effect : E α) : Ends (fun _ => True) thrown (perform effect) :=
  fun _ => trivial

theorem ends_bind {first : Program E ε α} {next : α → Program E ε β}
    (firstEnds : Ends returned thrown first)
    (nextEnds : ∀ value, returned value → Ends nextReturned thrown (next value)) :
    Ends nextReturned thrown (first >>= next) := by
  change Ends nextReturned thrown (first.bind next)
  induction first with
  | pure value => exact nextEnds value firstEnds
  | throw => exact firstEnds
  | halt => trivial
  | call effect rest ih => exact fun reply => ih reply (firstEnds reply)

theorem Ends.weaken {stronger : α → Prop} {prog : Program E ε α}
    (ends : Ends stronger thrown prog) (weaken : ∀ value, stronger value → returned value) :
    Ends returned thrown prog := by
  induction prog with
  | pure value => exact weaken value ends
  | throw => exact ends
  | halt => trivial
  | call effect rest ih => exact fun reply => ih reply (ends reply)

/-- What is returned and what is thrown, under any handler. -/
theorem Ends.run {prog : Program E ε α} (ends : Ends returned thrown prog)
    (handler : Handler E σ) (state : σ) :
    (∀ value, (run handler prog state).1 = .ok value → returned value) ∧
    ∀ exn, (run handler prog state).1 = .error exn → thrown exn := by
  induction prog generalizing state with
  | pure value =>
      refine ⟨?_, nofun⟩
      rintro _ ⟨⟩
      exact ends
  | throw exn =>
      refine ⟨nofun, ?_⟩
      rintro _ ⟨⟩
      exact ends
  | halt => exact ⟨nofun, nofun⟩
  | call effect rest ih => exact ih _ (ends _) _

/-! ## Programs without faults -/

/-- No branch of the program stops on a fault. -/
def Finishes : Program E ε α → Prop
  | .pure _ => True
  | .throw _ => True
  | .halt _ => False
  | .call _ next => ∀ reply, (next reply).Finishes

theorem finishes_perform (effect : E α) : Finishes (ε := ε) (perform effect) :=
  fun _ => trivial

theorem finishes_bind {first : Program E ε α} {next : α → Program E ε β}
    (begins : Finishes first) (continues : ∀ value, Finishes (next value)) :
    Finishes (first >>= next) := by
  change Finishes (first.bind next)
  induction first with
  | pure value => exact continues value
  | throw => trivial
  | halt => exact begins.elim
  | call effect rest ih => exact fun reply => ih reply (begins reply)

theorem finishes_ite {condition : Prop} [Decidable condition] {yes no : Program E ε α}
    (holds : Finishes yes) (fails : Finishes no) :
    Finishes (if condition then yes else no) := by
  split
  · exact holds
  · exact fails

theorem Finishes.run {prog : Program E ε α} (finishes : Finishes prog) (handler : Handler E σ)
    (state : σ) (stop : Fault) : (run handler prog state).1 ≠ .fault stop := by
  induction prog generalizing state with
  | pure => exact nofun
  | throw => exact nofun
  | halt => exact finishes.elim
  | call effect rest ih => exact ih _ (finishes _) _

end Program

end OfflineFs.Effect
