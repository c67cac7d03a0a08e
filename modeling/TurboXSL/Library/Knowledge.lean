import Mathlib.Order.Basic
import TurboXSL.Library.Interleaving
import TurboXSL.Library.Programs

namespace Library

/-!
# What the threads of a program know

Threads that share a state know something about it that no other thread makes
untrue.  What all of them know is a world; worlds are ordered, a later one says
at least as much.  `Knows` says of one program that it keeps to the agreement:
whatever the others have done meanwhile, each of its operations leads from a
state that fits a world to one that fits a later world.  Programs that keep to
it may then take turns in any way, and start others.
-/

universe u v

/-- The agreement between threads: which states fit a world, what operations do
to a state, and what has to be known where an operation is performed. -/
structure Agreement (Operation : Type → Type 1) (World : Type v) (State : Type u) where
  fits : World → State → Prop
  acts : {Answer : Type} → Operation Answer → State → Answer → State → Prop
  may : {Answer : Type} → Operation Answer → World → Prop

namespace Program

variable {Operation : Type → Type 1} {World : Type v} {State : Type u} [LE World]
  {Value Other : Type} (agreement : Agreement Operation World State)

/-- From a world on the program keeps to the agreement, and ends in a world
where `post` holds of its value. -/
def Knows : Program Operation Value → World → (World → Value → Prop) → Prop
  | .done value, world, post => post world value
  | .perform operation next, world, post => ∀ later, world ≤ later →
      agreement.may operation later ∧
      ∀ state answer after, agreement.fits later state →
        agreement.acts operation state answer after →
        Exists fun last => later ≤ last ∧ agreement.fits last after ∧
          Knows (next answer) last post

variable {agreement} {world : World} {post : World → Value → Prop}

theorem knows_pure {value : Value} (here : post world value) :
    Knows agreement (pure value) world post := here

theorem knows_ite {condition : Prop} [Decidable condition] {yes no : Program Operation Value}
    (left : condition → Knows agreement yes world post)
    (right : ¬ condition → Knows agreement no world post) :
    Knows agreement (if condition then yes else no) world post := by
  split
  next holds => exact left holds
  next fails => exact right fails

/-- An operation with a program behind it. -/
theorem knows_perform {Answer : Type} {operation : Operation Answer}
    {next : Answer → Program Operation Value}
    (may : ∀ later, world ≤ later → agreement.may operation later)
    (acts : ∀ later state answer after, world ≤ later → agreement.fits later state →
      agreement.acts operation state answer after →
      Exists fun last => later ≤ last ∧ agreement.fits last after ∧
        Knows agreement (next answer) last post) :
    Knows agreement (.perform operation next) world post := fun later known =>
  ⟨may later known, fun state answer after => acts later state answer after known⟩

variable [Std.IsPreorder World]

theorem Knows.bind {program : Program Operation Value}
    {next : Value → Program Operation Other} {goal : World → Other → Prop}
    (first : Knows agreement program world post)
    (second : ∀ later value, world ≤ later → post later value →
      Knows agreement (next value) later goal) :
    Knows agreement (program >>= next) world goal := by
  induction program generalizing world with
  | done value => exact second world value (Std.le_refl world) first
  | perform operation between inductionHypothesis =>
      intro later known
      have here := first later known
      refine ⟨here.1, fun state answer after fits acts => ?_⟩
      rcases here.2 state answer after fits acts with ⟨last, grows, fitsLast, rest⟩
      refine ⟨last, grows, fitsLast, inductionHypothesis answer rest ?_⟩
      intro further value beyond
      exact second further value (Std.le_trans known (Std.le_trans grows beyond))

theorem Knows.weaken {program : Program Operation Value} {other : World → Value → Prop}
    (knows : Knows agreement program world post)
    (implies : ∀ later value, world ≤ later → post later value → other later value) :
    Knows agreement program world other := by
  induction program generalizing world with
  | done value => exact implies world value (Std.le_refl world) knows
  | perform operation next inductionHypothesis =>
      intro later known
      have here := knows later known
      refine ⟨here.1, fun state answer after fits acts => ?_⟩
      rcases here.2 state answer after fits acts with ⟨last, grows, fitsLast, rest⟩
      refine ⟨last, grows, fitsLast, inductionHypothesis answer rest ?_⟩
      intro further value beyond
      exact implies further value (Std.le_trans known (Std.le_trans grows beyond))

/-- What a program is good for in one world it is good for in later ones. -/
theorem Knows.later {program : Program Operation Value} {beyond : World}
    (knows : Knows agreement program world post) (known : world ≤ beyond)
    (lasting : ∀ {before after value}, before ≤ after → post before value → post after value) :
    Knows agreement program beyond post := by
  cases program with
  | done value => exact lasting known knows
  | perform operation next => exact fun last further => knows last (Std.le_trans known further)

end Program

/-! ## Threads that take turns -/

section Turns

open Program

variable {Operation : Type → Type 1} {World : Type v} {State : Type u} [LE World]
  [Std.IsPreorder World]

/-- A state and the threads that share it, each with what it still has to do. -/
structure Threads (Operation : Type → Type 1) (State : Type u) where
  state : State
  threads : List (Program Operation Unit)

variable (acts : {Answer : Type} → Operation Answer → State → Answer → State → Prop)
  (starts : {Answer : Type} → Operation Answer → Program Operation Unit → Prop)

/-- One thread performs an operation, which may start other threads. -/
inductive Turn : Threads Operation State → Unit → Threads Operation State → Prop where
  | perform {state after : State} {front behind started : List (Program Operation Unit)}
      {Answer : Type} {operation : Operation Answer} {next : Answer → Program Operation Unit}
      {answer : Answer} (acted : acts operation state answer after)
      (new : ∀ program ∈ started, starts operation program) :
      Turn ⟨state, front ++ .perform operation next :: behind⟩ ()
        ⟨after, front ++ next answer :: behind ++ started⟩

variable {starts} {agreement : Agreement Operation World State}
  (legal : ∀ {Answer : Type} {operation : Operation Answer} {program : Program Operation Unit}
    {world : World}, agreement.may operation world → starts operation program →
    Knows agreement program world fun _ _ => True)

include legal

theorem Turn.fits {before after : Threads Operation State} {label : Unit}
    (turn : Turn agreement.acts starts before label after) {world : World}
    (fits : agreement.fits world before.state)
    (knows : ∀ program ∈ before.threads, Knows agreement program world fun _ _ => True) :
    Exists fun later => world ≤ later ∧ agreement.fits later after.state ∧
      ∀ program ∈ after.threads, Knows agreement program later fun _ _ => True := by
  cases turn with
  | @perform state after front behind started Answer operation next answer acted new =>
      have here := knows _ (List.mem_append_right front List.mem_cons_self) world (Std.le_refl world)
      rcases here.2 state answer after fits acted with ⟨later, grows, fitsLater, rest⟩
      refine ⟨later, grows, fitsLater, ?_⟩
      intro program member
      rcases List.mem_append.mp member with old | young
      · rcases List.mem_append.mp old with first | others
        · exact (knows program (List.mem_append_left _ first)).later grows fun _ _ => trivial
        · rcases List.mem_cons.mp others with same | last
          · rw [same]
            exact rest
          · have there := knows program (List.mem_append_right front (List.mem_cons_of_mem _ last))
            exact there.later grows fun _ _ => trivial
      · exact (legal here.1 (new program young)).later grows fun _ _ => trivial

/-- Threads that keep to the agreement may take turns in any order. -/
theorem run_fits {first last : Threads Operation State} {labels : List Unit}
    (run : Run (Turn agreement.acts starts) first labels last) {world : World}
    (fits : agreement.fits world first.state)
    (knows : ∀ program ∈ first.threads, Knows agreement program world fun _ _ => True) :
    Exists fun later => world ≤ later ∧ agreement.fits later last.state ∧
      ∀ program ∈ last.threads, Knows agreement program later fun _ _ => True := by
  refine run.invariant (fun state => Exists fun later => world ≤ later ∧
    agreement.fits later state.state ∧
      ∀ program ∈ state.threads, Knows agreement program later fun _ _ => True) ?_
      ⟨world, Std.le_refl world, fits, knows⟩
  rintro before label after ⟨middle, grown, fitsMiddle, knowsMiddle⟩ turn
  rcases turn.fits legal fitsMiddle knowsMiddle with ⟨later, grows, found⟩
  exact ⟨later, Std.le_trans grown grows, found⟩

end Turns

end Library
