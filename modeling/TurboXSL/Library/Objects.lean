import Mathlib.Data.Option.Basic

namespace Library

/-!
# Objects that answer calls

An object is a function that answers a call in a state, and has no answer where
nothing is said about what happens.  One object refines another if its answers
are the same, through a relation between the states of the two; what holds of a
call then holds of every sequence of calls.
-/

universe u v w x

variable {State : Type u} {Concrete : Type u} {Abstract : Type v} {Call : Type w}
  {Answer : Type x}

/-- The state after these calls, and the answers to them. -/
def serveAll (step : State → Call → Option (State × Answer)) :
    State → List Call → Option (State × List Answer)
  | state, [] => some (state, [])
  | state, call :: calls =>
      (step state call).bind fun next =>
        (serveAll step next.1 calls).map fun last => (last.1, next.2 :: last.2)

section Steps

variable {step : State → Call → Option (State × Answer)} {state last : State} {call : Call}
  {calls : List Call} {answers : List Answer}

theorem serveAll_cons_eq_some_iff :
    serveAll step state (call :: calls) = some (last, answers) ↔
      Exists fun next => Exists fun answer => Exists fun rest =>
        step state call = some (next, answer) ∧
          serveAll step next calls = some (last, rest) ∧ answers = answer :: rest := by
  rw [serveAll, Option.bind_eq_some_iff]
  constructor
  · rintro ⟨⟨next, answer⟩, first, later⟩
    rcases Option.map_eq_some_iff.mp later with ⟨⟨other, rest⟩, served, same⟩
    rcases Prod.mk.inj same with ⟨rfl, rfl⟩
    exact ⟨next, answer, rest, first, served, rfl⟩
  · rintro ⟨next, answer, rest, first, served, rfl⟩
    refine ⟨(next, answer), first, ?_⟩
    rw [served]
    rfl

theorem serveAll_append (step : State → Call → Option (State × Answer)) (state : State)
    (first later : List Call) :
    serveAll step state (first ++ later) =
      (serveAll step state first).bind fun middle =>
        (serveAll step middle.1 later).map fun last => (last.1, middle.2 ++ last.2) := by
  induction first generalizing state with
  | nil =>
      change _ = (serveAll step state later).map fun last => (last.1, [] ++ last.2)
      exact Option.map_id'.symm
  | cons call first inductionHypothesis =>
      rw [List.cons_append, serveAll, serveAll]
      cases step state call with
      | none => rfl
      | some next =>
          rw [Option.bind_some, Option.bind_some, inductionHypothesis]
          cases serveAll step next.1 first with
          | none => rfl
          | some middle =>
              rw [Option.map_some, Option.bind_some, Option.bind_some, Option.map_map]
              rfl

/-- What every call keeps holds after all of them. -/
theorem serveAll_preserves (property : State → Prop)
    (keep : ∀ state call next answer, property state → step state call = some (next, answer) →
      property next)
    (start : property state) (served : serveAll step state calls = some (last, answers)) :
    property last := by
  induction calls generalizing state answers with
  | nil =>
      rcases Prod.mk.inj (Option.some.inj served) with ⟨rfl, _⟩
      exact start
  | cons call calls inductionHypothesis =>
      rcases serveAll_cons_eq_some_iff.mp served with ⟨next, answer, rest, first, later, _⟩
      exact inductionHypothesis (keep _ _ _ _ start first) later

/-- The object that stops where it would leave the states with room. -/
def within (room : State → Prop) [DecidablePred room]
    (step : State → Call → Option (State × Answer)) (state : State) (call : Call) :
    Option (State × Answer) :=
  (step state call).filter fun next => room next.1

theorem within_eq_some_iff {room : State → Prop} [DecidablePred room] {next : State}
    {answer : Answer} : within room step state call = some (next, answer) ↔
      step state call = some (next, answer) ∧ room next := by
  unfold within
  rw [Option.filter_eq_some_iff, decide_eq_true_iff]

/-- If room is never gained, it was there all along. -/
theorem serveAll_within {room : State → Prop} [DecidablePred room]
    (back : ∀ state call next answer, step state call = some (next, answer) → room next →
      room state)
    (served : serveAll step state calls = some (last, answers)) (enough : room last) :
    serveAll (within room step) state calls = some (last, answers) ∧ room state := by
  induction calls generalizing state answers with
  | nil =>
      rcases Prod.mk.inj (Option.some.inj served) with ⟨rfl, rfl⟩
      exact ⟨rfl, enough⟩
  | cons call calls inductionHypothesis =>
      rcases serveAll_cons_eq_some_iff.mp served with ⟨next, answer, rest, first, later, rfl⟩
      rcases inductionHypothesis later with ⟨followed, there⟩
      refine ⟨serveAll_cons_eq_some_iff.mpr ⟨next, answer, rest, ?_, followed, rfl⟩,
        back _ _ _ _ first there⟩
      exact within_eq_some_iff.mpr ⟨first, there⟩

end Steps

/-- Related states answer every call alike, as long as the abstract one has an
answer, and stay related. -/
def Refines (related : Concrete → Abstract → Prop)
    (concrete : Concrete → Call → Option (Concrete × Answer))
    (abstract : Abstract → Call → Option (Abstract × Answer)) : Prop :=
  ∀ state model call next answer, related state model → abstract model call = some (next, answer) →
    Exists fun after => concrete state call = some (after, answer) ∧ related after next

theorem Refines.serveAll {related : Concrete → Abstract → Prop}
    {concrete : Concrete → Call → Option (Concrete × Answer)}
    {abstract : Abstract → Call → Option (Abstract × Answer)}
    (refines : Refines related concrete abstract) {state : Concrete} {model last : Abstract}
    {calls : List Call} {answers : List Answer} (start : related state model)
    (served : serveAll abstract model calls = some (last, answers)) :
    Exists fun after => serveAll concrete state calls = some (after, answers) ∧
      related after last := by
  induction calls generalizing state model answers with
  | nil =>
      rcases Prod.mk.inj (Option.some.inj served) with ⟨rfl, rfl⟩
      exact ⟨state, rfl, start⟩
  | cons call calls inductionHypothesis =>
      rcases serveAll_cons_eq_some_iff.mp served with ⟨next, answer, rest, first, later, rfl⟩
      rcases refines _ _ _ _ _ start first with ⟨middle, taken, kept⟩
      rcases inductionHypothesis kept later with ⟨after, followed, there⟩
      exact ⟨after, serveAll_cons_eq_some_iff.mpr ⟨middle, answer, rest, taken, followed, rfl⟩,
        there⟩

end Library
