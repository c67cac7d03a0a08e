import Mathlib.Logic.Relation

namespace Library

/-!
# Deterministic machines that pass over a state

A loop is a function `pass` that takes the state at the head of one
iteration and either continues with the state at the head of the next one
(`.ok`) or leaves the loop with a result (`.error`).  The results below are
about whole runs: what one pass preserves holds in every state reached, a
measure that every pass decreases makes the loop halt, and a trap that every
pass keeps makes it run for ever.
-/

universe u v w

variable {State : Type u} {Result : Type v}

/-- One pass of the loop continues in `after`. -/
def Steps (pass : State → Except Result State) (before after : State) : Prop :=
  pass before = .ok after

/-- `after` is the state at the head of some later (or the same) iteration. -/
abbrev Reaches (pass : State → Except Result State) : State → State → Prop :=
  Relation.ReflTransGen (Steps pass)

/-- Iterate at most `fuel` passes; `none` when none of them leaves the loop. -/
def run (pass : State → Except Result State) : Nat → State → Option Result
  | 0, _ => none
  | fuel + 1, state =>
      match pass state with
      | .ok next => run pass fuel next
      | .error result => some result

/-- The loop started in `state` leaves with `result`. -/
def Returns (pass : State → Except Result State) (state : State) (result : Result) : Prop :=
  Exists fun fuel => run pass fuel state = some result

/-- The loop started in `state` is left after finitely many passes. -/
def Halts (pass : State → Except Result State) (state : State) : Prop :=
  Exists fun result => Returns pass state result

variable {pass : State → Except Result State}

theorem run_of_stop {state : State} {result : Result} (stop : pass state = .error result)
    (fuel : Nat) : run pass (fuel + 1) state = some result := by
  simp only [run, stop]

theorem run_of_step {state next : State} (step : Steps pass state next) (fuel : Nat) :
    run pass (fuel + 1) state = run pass fuel next := by
  have continued : pass state = .ok next := step
  simp only [run, continued]

theorem Returns.of_stop {state : State} {result : Result} (stop : pass state = .error result) :
    Returns pass state result :=
  ⟨1, run_of_stop stop 0⟩

/-- A step neither loses nor adds a result. -/
theorem Steps.returns_iff {state next : State} (step : Steps pass state next)
    (result : Result) : Returns pass state result ↔ Returns pass next result := by
  constructor
  · rintro ⟨fuel, returned⟩
    cases fuel with
    | zero => cases returned
    | succ fuel => exact ⟨fuel, (run_of_step step fuel).symm.trans returned⟩
  · rintro ⟨fuel, returned⟩
    exact ⟨fuel + 1, (run_of_step step fuel).trans returned⟩

/-- Nor does a whole run. -/
theorem Reaches.returns_iff {state later : State} (reached : Reaches pass state later)
    (result : Result) : Returns pass state result ↔ Returns pass later result := by
  induction reached with
  | refl => exact Iff.rfl
  | tail _ step inductionHypothesis => exact inductionHypothesis.trans (step.returns_iff result)

theorem Reaches.halts_iff {state later : State} (reached : Reaches pass state later) :
    Halts pass state ↔ Halts pass later :=
  exists_congr reached.returns_iff

/-- The results of a loop are those of the passes that leave it. -/
theorem returns_iff_reaches_stop {state : State} {result : Result} :
    Returns pass state result ↔
      Exists fun last => Reaches pass state last ∧ pass last = .error result := by
  constructor
  · rintro ⟨fuel, returned⟩
    induction fuel generalizing state with
    | zero => cases returned
    | succ fuel inductionHypothesis =>
        cases outcome : pass state with
        | error stopped =>
            have same := (run_of_stop outcome fuel).symm.trans returned
            exact ⟨state, .refl, outcome.trans (congrArg Except.error (Option.some.inj same))⟩
        | ok next =>
            have step : Steps pass state next := outcome
            have later := (run_of_step step fuel).symm.trans returned
            rcases inductionHypothesis later with ⟨last, reached, stop⟩
            exact ⟨last, reached.head outcome, stop⟩
  · rintro ⟨last, reached, stop⟩
    exact (reached.returns_iff result).mpr (.of_stop stop)

/-- A loop that returns does so in one way only. -/
theorem Returns.unique {state : State} {first second : Result}
    (left : Returns pass state first) (right : Returns pass state second) : first = second := by
  rcases returns_iff_reaches_stop.mp left with ⟨last, reached, stop⟩
  rcases (reached.returns_iff second).mp right with ⟨fuel, returned⟩
  cases fuel with
  | zero => cases returned
  | succ fuel => exact Option.some.inj ((run_of_stop stop fuel).symm.trans returned)

/-- What every pass preserves holds in every state reached. -/
theorem Reaches.preserves {property : State → Prop} {state later : State}
    (keep : ∀ before after, property before → Steps pass before after → property after)
    (reached : Reaches pass state later) (start : property state) : property later := by
  induction reached with
  | refl => exact start
  | tail _ step inductionHypothesis => exact keep _ _ inductionHypothesis step

/-- Two states of one run lie on one line. -/
theorem Reaches.total {state first second : State} (left : Reaches pass state first)
    (right : Reaches pass state second) :
    Reaches pass first second ∨ Reaches pass second first :=
  Relation.ReflTransGen.total_of_right_unique
    (fun _ _ _ one other => Except.ok.inj (one.symm.trans other)) left right

/-! ## What a run emits -/

variable {Event : Type w} {emit : State → Option Event}

/-- A run that emits at most one event at each of its passes. -/
inductive Traces (pass : State → Except Result State) (emit : State → Option Event)
    (first : State) : List Event → State → Prop where
  | refl : Traces pass emit first [] first
  | tail {events : List Event} {before after : State}
      (earlier : Traces pass emit first events before) (step : Steps pass before after) :
      Traces pass emit first (events ++ (emit before).toList) after

theorem Traces.reaches {first last : State} {events : List Event}
    (trace : Traces pass emit first events last) : Reaches pass first last := by
  induction trace with
  | refl => exact .refl
  | tail _ step inductionHypothesis => exact inductionHypothesis.tail step

/-- A run that goes on emits more events behind those it emitted. -/
theorem Traces.extend {first middle last : State} {events : List Event}
    (trace : Traces pass emit first events middle) (reached : Reaches pass middle last) :
    Exists fun more => Traces pass emit first (events ++ more) last := by
  induction reached with
  | refl => exact ⟨[], (List.append_nil events).symm ▸ trace⟩
  | tail _ step inductionHypothesis =>
      rcases inductionHypothesis with ⟨more, extended⟩
      exact ⟨more ++ _, List.append_assoc events more _ ▸ extended.tail step⟩

/-- Every state reached has a trace. -/
theorem Reaches.traces {first last : State} (emit : State → Option Event)
    (reached : Reaches pass first last) :
    Exists fun events => Traces pass emit first events last :=
  (Traces.refl : Traces pass emit first [] first).extend reached

/-- A measure that every pass from a good state decreases makes the loop halt. -/
theorem Halts.of_measure (good : State → Prop) (measure : State → Nat)
    (keep : ∀ before after, good before → Steps pass before after → good after)
    (decrease : ∀ before after, good before → Steps pass before after →
      measure after < measure before)
    {state : State} (start : good state) : Halts pass state := by
  induction bound : measure state using Nat.strongRecOn generalizing state with
  | ind _ inductionHypothesis =>
      cases outcome : pass state with
      | error result => exact ⟨result, .of_stop outcome⟩
      | ok next =>
          have less := decrease state next start outcome
          have later := inductionHypothesis (measure next) (bound ▸ less)
            (keep state next start outcome) rfl
          exact (Reaches.halts_iff (.single outcome)).mpr later

/-- A trap that every pass keeps is never left. -/
theorem not_halts_of_trap (trap : State → Prop)
    (keep : ∀ before, trap before → Exists fun after => Steps pass before after ∧ trap after)
    {state : State} (start : trap state) : ¬ Halts pass state := by
  rintro ⟨result, fuel, returned⟩
  induction fuel generalizing state with
  | zero => cases returned
  | succ fuel inductionHypothesis =>
      rcases keep state start with ⟨next, step, trapped⟩
      exact inductionHypothesis trapped ((run_of_step step fuel).symm.trans returned)

end Library
