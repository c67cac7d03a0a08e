namespace Library

/-!
# Programs as trees of operations

A program of one thread is done, or performs an operation and goes on with the
answer.  Nothing is said about where the answers come from, so that the tree
stands for every run of the program, whatever other threads do to what it
shares with them.
-/

universe u

inductive Program (Operation : Type → Type 1) (Value : Type) : Type 1 where
  | done (value : Value)
  | perform {Answer : Type} (operation : Operation Answer)
      (next : Answer → Program Operation Value)

namespace Program

variable {Operation : Type → Type 1} {Value Other : Type}

/-- One program behind the other. -/
def bind : Program Operation Value → (Value → Program Operation Other) → Program Operation Other
  | .done value, next => next value
  | .perform operation between, next => .perform operation fun answer => (between answer).bind next

instance : Monad (Program Operation) where
  pure := .done
  bind := bind

/-! ## What holds of every operation -/

section Every

variable (allowed : (Answer : Type) → Operation Answer → Prop)

/-- Whatever it is answered, the program performs only operations that are
allowed. -/
def Every : Program Operation Value → Prop
  | .done _ => True
  | @perform _ _ Answer operation next =>
      allowed Answer operation ∧ ∀ answer, Every (next answer)

variable {allowed}

theorem every_pure (value : Value) :
    Every allowed (pure value : Program Operation Value) := trivial

theorem Every.bind {program : Program Operation Value} {next : Value → Program Operation Other}
    (first : Every allowed program) (second : ∀ value, Every allowed (next value)) :
    Every allowed (program >>= next) := by
  induction program with
  | done value => exact second value
  | perform operation between inductionHypothesis =>
      exact ⟨first.1, fun answer => inductionHypothesis answer (first.2 answer)⟩

theorem every_ite {condition : Prop} [Decidable condition]
    {yes no : Program Operation Value} (left : condition → Every allowed yes)
    (right : ¬ condition → Every allowed no) :
    Every allowed (if condition then yes else no) := by
  split
  next holds => exact left holds
  next fails => exact right fails

theorem Every.mono {other : (Answer : Type) → Operation Answer → Prop}
    (weaker : ∀ Answer operation, allowed Answer operation → other Answer operation)
    {program : Program Operation Value} (every : Every allowed program) :
    Every other program := by
  induction program with
  | done value => trivial
  | perform operation next inductionHypothesis =>
      exact ⟨weaker _ _ every.1, fun answer => inductionHypothesis answer (every.2 answer)⟩

end Every

/-! ## A thread on its own -/

section Run

variable {State : Type u}
  (handle : (Answer : Type) → Operation Answer → State → Option (Answer × State))

/-- The program with answers from a state that nobody else changes. -/
def run : Program Operation Value → State → Option (Value × State)
  | .done value, state => some (value, state)
  | @perform _ _ Answer operation next, state => do
      let (answer, state) ← handle Answer operation state
      run (next answer) state

variable {handle}

theorem run_bind (program : Program Operation Value) (next : Value → Program Operation Other)
    (state : State) :
    (program >>= next).run handle state =
      (program.run handle state).bind fun result => (next result.1).run handle result.2 := by
  induction program generalizing state with
  | done value => rfl
  | perform operation between inductionHypothesis =>
      change (handle _ operation state).bind _ = Option.bind ((handle _ operation state).bind _) _
      rw [Option.bind_assoc]
      apply congrArg (Option.bind _)
      funext result
      exact inductionHypothesis result.1 result.2

end Run

end Program

end Library
