import OfflineFs.Effect.Program

/-!
# Triples

A triple says what holds after every run of a program from a state that meets its
precondition: of the value when it returns, of the exception when it throws, and
of the state when it stops on a fault.  The rules follow the constructors that
programs are built with.
-/

namespace OfflineFs.Effect

namespace Outcome

variable {ε α β σ : Type}

/-- A finished run ends as one of three conditions says. -/
def Satisfies (returns : α → σ → Prop) (throws : ε → σ → Prop) (stops : σ → Prop) :
    Outcome ε α × σ → Prop
  | (.ok value, state) => returns value state
  | (.error exn, state) => throws exn state
  | (.fault _, state) => stops state

theorem Satisfies.weaken {returns returns' : α → σ → Prop} {throws throws' : ε → σ → Prop}
    {stops stops' : σ → Prop} {result : Outcome ε α × σ}
    (satisfies : Satisfies returns throws stops result)
    (returned : ∀ value state, returns value state → returns' value state)
    (thrown : ∀ exn state, throws exn state → throws' exn state)
    (stopped : ∀ state, stops state → stops' state) : Satisfies returns' throws' stops' result := by
  rcases result with ⟨outcome, state⟩
  cases outcome with
  | ok value => exact returned value state satisfies
  | error exn => exact thrown exn state satisfies
  | fault stop => exact stopped state satisfies

end Outcome

namespace Program

variable {E : Type → Type} {ε α β σ : Type} {handler : Handler E σ}
variable {pre stops : σ → Prop} {returns : α → σ → Prop} {throws : ε → σ → Prop}

/-- Every run from a state that meets `pre` ends as the other conditions say. -/
def Triple (handler : Handler E σ) (pre : σ → Prop) (prog : Program E ε α)
    (returns : α → σ → Prop) (throws : ε → σ → Prop) (stops : σ → Prop) : Prop :=
  ∀ state, pre state → Outcome.Satisfies returns throws stops (run handler prog state)

theorem triple_pure {value : α} (holds : ∀ state, pre state → returns value state) :
    Triple (ε := ε) handler pre (Pure.pure value) returns throws stops :=
  holds

theorem triple_throw {exn : ε} (holds : ∀ state, pre state → throws exn state) :
    Triple handler pre (.throw exn) returns throws stops :=
  holds

/-- What the first part returns with is where the second part starts. -/
theorem triple_bind {first : Program E ε α} {next : α → Program E ε β}
    {middle : α → σ → Prop} {returns : β → σ → Prop}
    (begins : Triple handler pre first middle throws stops)
    (continues : ∀ value, Triple handler (middle value) (next value) returns throws stops) :
    Triple handler pre (first >>= next) returns throws stops := by
  intro state met
  have begun := begins state met
  rw [run_bind]
  rcases result : run handler first state with ⟨outcome, after⟩
  rw [result] at begun
  cases outcome with
  | ok value => exact continues value after begun
  | error exn => exact begun
  | fault stop => exact begun

/-- What the body throws with is where the handler starts. -/
theorem triple_catching {body : Program E ε α} {recover : ε → Program E ε α}
    {middle : ε → σ → Prop} (tries : Triple handler pre body returns middle stops)
    (recovers : ∀ exn, Triple handler (middle exn) (recover exn) returns throws stops) :
    Triple handler pre (body.catching recover) returns throws stops := by
  intro state met
  have tried := tries state met
  rw [run_catching]
  rcases result : run handler body state with ⟨outcome, after⟩
  rw [result] at tried
  cases outcome with
  | ok value => exact tried
  | error exn => exact recovers exn after tried
  | fault stop => exact tried

theorem triple_ite {condition : Prop} [Decidable condition] {yes no : Program E ε α}
    (holds : condition → Triple handler pre yes returns throws stops)
    (fails : ¬ condition → Triple handler pre no returns throws stops) :
    Triple handler pre (if condition then yes else no) returns throws stops := by
  split
  · rename_i isTrue
    exact holds isTrue
  · rename_i isFalse
    exact fails isFalse

/-- A fact that the precondition gives may be used to prove the triple. -/
theorem triple_of_fact {fact : Prop} {prog : Program E ε α} (gives : ∀ state, pre state → fact)
    (triple : fact → Triple handler pre prog returns throws stops) :
    Triple handler pre prog returns throws stops :=
  fun state met => triple (gives state met) state met

/-- From one state, what holds when a program returns holds of its run. -/
theorem Triple.result {prog : Program E ε α} {start : σ}
    (triple : Triple handler pre prog returns throws stops) (met : pre start) :
    Triple handler (· = start) prog
      (fun value state => returns value state ∧ run handler prog start = (.ok value, state))
      throws stops := by
  rintro state rfl
  have satisfies := triple state met
  rcases result : run handler prog state with ⟨outcome, after⟩
  rw [result] at satisfies
  cases outcome with
  | ok value => exact ⟨satisfies, rfl⟩
  | error exn => exact satisfies
  | fault stop => exact satisfies

theorem Triple.weaken {prog : Program E ε α} {pre' stops' : σ → Prop} {returns' : α → σ → Prop}
    {throws' : ε → σ → Prop} (triple : Triple handler pre prog returns throws stops)
    (started : ∀ state, pre' state → pre state)
    (returned : ∀ value state, returns value state → returns' value state)
    (thrown : ∀ exn state, throws exn state → throws' exn state)
    (stopped : ∀ state, stops state → stops' state) :
    Triple handler pre' prog returns' throws' stops' :=
  fun state met => (triple state (started state met)).weaken returned thrown stopped

end Program

end OfflineFs.Effect
