import TurboXSL.ScanProgress

namespace TurboXSL

open Library

/-!
# The compiler and the scan of its text

Whatever a level of the compiler does with a text, the scan does: where the
level returns, the scan stands behind the same bytes; where it fails, the scan
fails in the same way.  `Simulates` says so for one function, and the levels
are composed from it as the compiler composes them.
-/

/-- The end of a scan that stands for a failure of the compiler. -/
def Compile.Halt.verdict : Compile.Halt → Scan.Verdict
  | .nullDeref => .nullDeref
  | .overread => .overread
  | .running => .stalls

namespace Scan

open Compile (Found Halt Compiler)

section Simulation

variable {α β : Type}

/-- What a part of the compiler has found, the scan finds from `first` on: it
reaches the bytes behind it, with the stack it had, or it ends as the part
fails.  Only where the allowance is ample does a part that is still running
say something. -/
def Simulates (ample : Prop) (first : State) (stack : List Frame)
    (settled : α → Mode → Bytes → Prop) : Except Halt (Found α) → Prop
  | .ok (value, rest, _) => Exists fun mode =>
      Reaches pass first ⟨mode, skipSpaces rest, stack⟩ ∧ settled value mode (skipSpaces rest)
  | .error halt => (halt = .running → ample) → Returns pass first halt.verdict

variable {ample : Prop} {first : State} {stack : List Frame} {settled : α → Mode → Bytes → Prop}
  {found : Except Halt (Found α)}

theorem Simulates.ahead {middle : State} (reached : Reaches pass first middle)
    (simulates : Simulates ample middle stack settled found) :
    Simulates ample first stack settled found := by
  cases found with
  | error halt => exact fun known => (reached.returns_iff _).mpr (simulates known)
  | ok result =>
      rcases simulates with ⟨mode, later, known⟩
      exact ⟨mode, reached.trans later, known⟩

theorem Simulates.next {middle : State} (stepped : Steps pass first middle)
    (simulates : Simulates ample middle stack settled found) :
    Simulates ample first stack settled found :=
  simulates.ahead (.single stepped)

theorem Simulates.weaken {wider : Prop} (imp : wider → ample)
    (simulates : Simulates ample first stack settled found) :
    Simulates wider first stack settled found := by
  cases found with
  | error halt => exact fun known => simulates fun running => imp (known running)
  | ok result => exact simulates

theorem Simulates.bind {after : Found α → Except Halt (Found β)} {ends : List Frame}
    {settledAfter : β → Mode → Bytes → Prop}
    (simulates : Simulates ample first stack settled found)
    (later : ∀ value rest reported mode, Reaches pass first ⟨mode, skipSpaces rest, stack⟩ →
      settled value mode (skipSpaces rest) →
        Simulates ample ⟨mode, skipSpaces rest, stack⟩ ends settledAfter
          (after (value, rest, reported))) :
    Simulates ample first ends settledAfter (found >>= after) := by
  cases found with
  | error halt => exact simulates
  | ok result =>
      rcases result with ⟨value, rest, reported⟩
      rcases simulates with ⟨mode, reached, known⟩
      exact (later value rest reported mode reached known).ahead reached

/-- A result that is only renamed. -/
theorem Simulates.map {after : Found α → Except Halt (Found β)}
    {settledAfter : β → Mode → Bytes → Prop}
    (simulates : Simulates ample first stack settled found)
    (later : ∀ value rest reported mode, settled value mode (skipSpaces rest) →
      Exists fun result => Exists fun said => after (value, rest, reported) = .ok (result, rest, said) ∧
        settledAfter result mode (skipSpaces rest)) :
    Simulates ample first stack settledAfter (found >>= after) := by
  apply simulates.bind
  intro value rest reported mode _ known
  rcases later value rest reported mode known with ⟨result, said, same, fits⟩
  rw [same]
  exact ⟨mode, .refl, fits⟩

theorem Simulates.imp {fits : α → Mode → Bytes → Prop}
    (simulates : Simulates ample first stack settled found)
    (implies : ∀ value mode rest, settled value mode rest → fits value mode rest) :
    Simulates ample first stack fits found := by
  cases found with
  | error halt => exact simulates
  | ok result =>
      rcases simulates with ⟨mode, reached, known⟩
      exact ⟨mode, reached, implies _ _ _ known⟩

theorem Simulates.fails {halt : Halt} (verdict : pass first = .error halt.verdict) :
    Simulates ample first stack settled (.error halt) :=
  fun _ => .of_stop verdict

end Simulation

/-- A NULL pointer is a missing operand, and nothing else is. -/
def Held (least : Nat) (node : Expr) (mode : Mode) : Prop :=
  (node = .null ∧ mode = .missing least) ∨ (node ≠ .null ∧ Exists fun barred => mode = .complete barred)

/-- Where a level stops, no operator of it or of a tighter one goes on. -/
structure Settled (level least : Nat) (node : Expr) (mode : Mode) (p : Bytes) : Prop where
  held : Held least node mode
  slash : byteAt p ≠ '/'.toUInt8
  bracket : byteAt p ≠ '['.toUInt8
  operators : ∀ other q, operatorAt p = some (other, q) →
    other < level ∨ mode = .complete (some other)
  barred : ∀ other, mode = .complete (some other) → level ≤ other

/-- No operator of the level or a tighter one waits for its right operand in
vain. -/
def Free (level : Nat) (stack : List Frame) : Prop := ∀ lost ∈ lostAt stack, lost < level

theorem operatorAt_level {p q : Bytes} {level : Nat} (found : operatorAt p = some (level, q)) :
    level ≤ 7 := by
  have inner := operatorAt_iff.mp found
  unfold levelOperator at inner
  split at inner
  all_goals first | omega | cases inner

/-- Behind an operand, an operator that nothing bars. -/
theorem complete_operator (stack : List Frame) {barred : Option Nat} {p q : Bytes} {level : Nat}
    (slash : byteAt p ≠ '/'.toUInt8) (bracket : byteAt p ≠ '['.toUInt8)
    (found : operatorAt p = some (level, q)) (plain : barred ≠ some level)
    (free : Free level stack) :
    Steps pass ⟨.complete barred, p, stack⟩ ⟨.operand (level + 1), skipSpaces q, stack⟩ := by
  have outside : ¬ ∃ lost ∈ lostAt stack, level ≤ lost := by
    rintro ⟨lost, member, le⟩
    have less := free lost member
    omega
  change complete barred p stack = _
  unfold complete
  simp only [if_neg slash, if_neg bracket, found, if_neg plain, if_neg outside]
  rfl

/-- Behind a missing operand, an operator that would follow the NULL pointer. -/
theorem missing_operator {least : Nat} {p q : Bytes} {stack : List Frame} {level : Nat}
    (slash : byteAt p ≠ '/'.toUInt8) (bracket : byteAt p ≠ '['.toUInt8)
    (found : operatorAt p = some (level, q)) (le : least ≤ level) :
    Steps pass ⟨.missing least, p, stack⟩
      ⟨.operand (level + 1), skipSpaces q, .lost level :: stack⟩ := by
  change missing least p stack = _
  unfold missing
  simp only [if_neg slash, if_neg bracket, found, if_pos le]
  rfl

/-- A missing operand that a level can do without. -/
theorem missing_settle (stack : List Frame) {level least : Nat} {node : Expr} {p : Bytes}
    (settled : Settled level least node (.missing least) p) (le : level ≤ least) :
    pass ⟨.missing least, p, stack⟩ = settle least p stack := by
  change missing least p stack = _
  unfold missing
  simp only [if_neg settled.slash, if_neg settled.bracket]
  cases found : operatorAt p with
  | none => rfl
  | some operator =>
      rcases operator with ⟨other, q⟩
      rcases settled.operators other q found with less | wrong
      · have not : ¬ least ≤ other := by omega
        simp only [if_neg not]
      · cases wrong

/-- The end of brackets, a call or the whole text. -/
theorem closes (stack : List Frame) {node : Expr} {mode : Mode} {p : Bytes}
    (settled : Settled 0 0 node mode p) :
    pass ⟨mode, p, stack⟩ = close (decide (node = .null)) p stack := by
  rcases settled.held with ⟨null, rfl⟩ | ⟨there, barred, rfl⟩
  · rw [missing_settle stack settled (Nat.le_refl 0), decide_eq_true null]
    rfl
  · change complete barred p stack = _
    unfold complete
    rw [decide_eq_false there]
    simp only [if_neg settled.slash, if_neg settled.bracket]
    cases found : operatorAt p with
    | none => rfl
    | some operator =>
        rcases operator with ⟨other, q⟩
        rcases settled.operators other q found with less | same
        · exact absurd less (Nat.not_lt_zero other)
        · cases same
          simp only [if_pos]

/-- Behind an operand with no operator of its own, an operator whose left
operand is missing fails. -/
theorem complete_lost {level : Nat} {barred : Option Nat} {p : Bytes} {stack : List Frame}
    (slash : byteAt p ≠ '/'.toUInt8) (bracket : byteAt p ≠ '['.toUInt8)
    (operators : ∀ other q, operatorAt p = some (other, q) → other ≤ level ∨ barred = some other) :
    pass ⟨.complete barred, p, .lost level :: stack⟩ = .error .nullDeref := by
  change complete barred p _ = _
  unfold complete
  simp only [if_neg slash, if_neg bracket]
  cases found : operatorAt p with
  | none => rfl
  | some operator =>
      rcases operator with ⟨other, q⟩
      by_cases same : barred = some other
      · simp only [if_pos same]
        rfl
      · have waits : ∃ lost ∈ lostAt (.lost level :: stack), other ≤ lost :=
          ⟨level, rfl, (operators other q found).resolve_right same⟩
        simp only [if_neg same, if_pos waits]

/-- A missing operand behind an operator is stored as NULL. -/
theorem missing_complete (stack : List Frame) {level : Nat} {node : Expr} {p : Bytes}
    (settled : Settled (level + 1) (level + 1) node (.missing (level + 1)) p)
    (still : skipSpaces p = p) :
    Steps pass ⟨.missing (level + 1), p, stack⟩ ⟨.complete (barred (level + 1)), p, stack⟩ := by
  have settles := missing_settle stack settled (Nat.le_refl _)
  unfold settle at settles
  rw [if_neg (Nat.succ_ne_zero level)] at settles
  unfold go at settles
  rw [still] at settles
  exact settles

theorem lost_fails {level : Nat} {node : Expr} {mode : Mode} {p : Bytes} {stack : List Frame}
    (settled : Settled (level + 1) (level + 1) node mode p) (still : skipSpaces p = p) :
    Returns pass ⟨mode, p, .lost level :: stack⟩ .nullDeref := by
  have operators : ∀ {after : Option Nat}, (∀ other, mode = .complete (some other) → after = some other) →
      ∀ other q, operatorAt p = some (other, q) → other ≤ level ∨ after = some other := by
    intro after same other q found
    rcases settled.operators other q found with less | bars
    · exact .inl (Nat.le_of_lt_succ less)
    · exact .inr (same other bars)
  rcases settled.held with ⟨-, rfl⟩ | ⟨-, barred, rfl⟩
  · have stored := missing_complete (.lost level :: stack) settled still
    refine (Reaches.returns_iff (.single stored) _).mpr (.of_stop ?_)
    exact complete_lost settled.slash settled.bracket (operators nofun)
  · refine .of_stop (complete_lost settled.slash settled.bracket (operators ?_))
    intro other same
    cases same
    rfl

/-! ## Steps and calls -/

/-- Every loop is allowed a turn for every byte, and the brackets are nested no
deeper than the text is long. -/
def Ample (budget : Nat → Nat) (bound : Nat) (p : Bytes) : Prop :=
  (∀ length, length < budget length) ∧ (skipSpaces p).length < bound

/-- What a step leaves behind it. -/
def Stepped (node : Expr) (mode : Mode) (_ : Bytes) : Prop := node ≠ .null ∧ mode = .complete none

/-- What `do_node2_expr` leaves behind it. -/
def Begun (least : Nat) (node : Expr) (mode : Mode) : Prop :=
  (node = .null ∧ mode = .missing least) ∨ (node ≠ .null ∧ mode = .complete none)

theorem notAt_of_not_begins {p : Bytes} (other : beginsOperand p = false) (least : Nat) :
    notAt least p = none := by
  cases found : notAt least p with
  | none => rfl
  | some q =>
      unfold notAt at found
      split at found
      · have here : byteAt p = 'n'.toUInt8 :=
          matchAt_head (by decide) (Option.filter_eq_some_iff.mp found).1
        unfold beginsOperand at other
        rw [here] at other
        simp only [Bool.or_eq_false_iff] at other
        exact absurd other.2 (by decide)
      · cases found

/-- Where no operand begins, it is missing. -/
theorem operand_missing {p : Bytes} (other : beginsOperand p = false) (least : Nat)
    (stack : List Frame) : operand least p stack = go (.missing least) p stack := by
  have noCall := notAt_of_not_begins other least
  unfold beginsOperand at other
  simp only [Bool.or_eq_false_iff, decide_eq_false_iff_not] at other
  unfold operand
  simp only [noCall, other, if_false, Bool.false_eq_true]

section Levels

variable {budget : Nat → Nat} {depth : Nat} {inner : Compiler}
  (simulates : ∀ p stack, Free 0 stack →
    Simulates (Ample budget depth p) ⟨.operand 0, skipSpaces p, stack⟩ stack (Settled 0 0) (inner p))

include simulates

/-- An argument that cannot begin is missing, and nothing is consumed. -/
theorem inner_stuck {p : Bytes} (still : skipSpaces p = p) (stays : stuck p = true) :
    inner p = .error .running ∨
      Exists fun rest => Exists fun reported => inner p = .ok (.null, rest, reported) ∧
        skipSpaces rest = p := by
  unfold stuck at stays
  simp only [Bool.and_eq_true, Bool.not_eq_true', decide_eq_true_eq, Option.isNone_iff_eq_none]
    at stays
  have first : Steps pass ⟨.operand 0, p, []⟩ ⟨.missing 0, p, []⟩ := by
    change operand 0 p [] = _
    rw [operand_missing stays.1.1.1]
    unfold go
    rw [still]
  have last : pass ⟨.missing 0, p, []⟩ = .error (.ends true p) := by
    have slash : byteAt p ≠ '/'.toUInt8 := by
      intro same
      have other := stays.1.1.1
      unfold beginsOperand at other
      rw [same] at other
      simp only [Bool.or_eq_false_iff] at other
      exact absurd other.2 (by decide)
    change missing 0 p [] = _
    unfold missing
    simp only [if_neg slash, if_neg stays.1.1.2, stays.1.2]
    rfl
  have sim := simulates p [] (by intro lost member; cases member)
  rw [still] at sim
  cases outcome : inner p with
  | error halt =>
      rw [outcome] at sim
      cases halt with
      | running => exact .inl rfl
      | nullDeref =>
          have verdict := (Reaches.returns_iff (.single first) _).mp (sim nofun)
          exact absurd (verdict.unique (.of_stop last)) nofun
      | overread =>
          have verdict := (Reaches.returns_iff (.single first) _).mp (sim nofun)
          exact absurd (verdict.unique (.of_stop last)) nofun
  | ok result =>
      rcases result with ⟨node, rest, reported⟩
      rw [outcome] at sim
      rcases sim with ⟨mode, reached, settled⟩
      have stands : (⟨mode, skipSpaces rest, []⟩ : State) = ⟨.missing 0, p, []⟩ := by
        rcases reached.cases_head with same | ⟨second, stepped, later⟩
        · cases same
          rcases settled.held with ⟨-, wrong⟩ | ⟨-, barred, wrong⟩ <;> cases wrong
        · have same : second = ⟨.missing 0, p, []⟩ := Except.ok.inj (stepped.symm.trans first)
          rcases later.cases_head with done | ⟨third, wrong, -⟩
          · exact done.symm.trans same
          · rw [same] at wrong
            exact absurd (wrong.symm.trans last) nofun
      cases stands
      rcases settled.held with ⟨null, -⟩ | ⟨-, barred, wrong⟩
      · exact .inr ⟨rest, reported, by rw [null], rfl⟩
      · cases wrong

/-- The loop over the arguments stands still for ever there. -/
theorem callArguments_stuck {p : Bytes} (stays : stuck (skipSpaces p) = true)
    (open_ : byteAt (skipSpaces p) ≠ ')'.toUInt8) (fuel : Nat) :
    Compile.callArguments inner fuel p = .error .running := by
  induction fuel generalizing p with
  | zero => rfl
  | succ fuel inductionHypothesis =>
      unfold Compile.callArguments
      simp only [if_neg open_]
      rcases inner_stuck simulates (skipSpaces_idem p) stays with
        running | ⟨rest, reported, found, same⟩
      · rw [running]
        rfl
      · have comma : byteAt (skipSpaces p) ≠ ','.toUInt8 := by
          unfold stuck at stays
          simp only [Bool.and_eq_true, decide_eq_true_eq] at stays
          exact stays.2
        have again := inductionHypothesis (p := skipSpaces p) (by rw [skipSpaces_idem]; exact stays)
          (by rw [skipSpaces_idem]; exact open_)
        rw [found]
        change (Compile.callArguments inner fuel (if byteAt (skipSpaces rest) = ','.toUInt8 then _
          else skipSpaces rest) >>= _) = _
        rw [same, if_neg comma, again]
        rfl

end Levels

/-- Anywhere else an argument, or the comma behind it, leaves less of the text. -/
theorem argument_shorter {p : Bytes} (still : skipSpaces p = p) (moves : stuck p = false)
    {stack : List Frame} {node : Expr} {mode : Mode} {rest : Bytes}
    (reached : Reaches pass ⟨.operand 0, p, .call :: stack⟩ ⟨mode, rest, .call :: stack⟩)
    (settled : Settled 0 0 node mode rest) :
    (if byteAt rest = ','.toUInt8 then rest.tail else rest).length < p.length := by
  have optional : (if byteAt rest = ','.toUInt8 then rest.tail else rest).length ≤ rest.length := by
    split
    · exact tail_le rest
    · exact Nat.le_refl _
  have notFirst : ∀ other : Mode, (∀ least, other ≠ .missing least) →
      (∀ barred, other ≠ .complete barred) → mode ≠ other := by
    rintro other noMissing noComplete rfl
    rcases settled.held with ⟨-, same⟩ | ⟨-, barred, same⟩
    · exact noMissing 0 same
    · exact noComplete barred same
  rcases reached.cases_head with same | ⟨second, stepped, later⟩
  · cases same
    exact absurd rfl (notFirst (.operand 0) nofun nofun)
  · have operandIs : operand 0 p (.call :: stack) = .ok second := stepped
    by_cases begins : beginsOperand p = true
    · rcases operand_next begins operandIs with less | ⟨rfl, slash, nonempty⟩
      · have le := reaches_length later
        exact Nat.lt_of_le_of_lt (optional.trans le) less
      · rw [still] at later
        rcases later.cases_head with same | ⟨third, next, last⟩
        · cases same
          exact absurd rfl (notFirst .step nofun nofun)
        · have le := Within.step (.call :: stack) slash third next
          have after := reaches_length last
          have positive := List.length_pos_of_ne_nil nonempty
          change rest.length ≤ third.p.length at after
          omega
    · have noOperand : beginsOperand p = false := Bool.not_eq_true _ ▸ begins
      rw [operand_missing noOperand] at operandIs
      unfold go at operandIs
      rw [still] at operandIs
      cases operandIs
      have slash : byteAt p ≠ '/'.toUInt8 := by
        intro same
        unfold beginsOperand at noOperand
        rw [same] at noOperand
        simp only [Bool.or_eq_false_iff] at noOperand
        exact absurd noOperand.2 (by decide)
      rcases later.cases_head with same | ⟨third, next, last⟩
      · cases same
        have comma : byteAt p = ','.toUInt8 := by
          by_contra noComma
          have noOperator : operatorAt p = none := by
            cases found : operatorAt p with
            | none => rfl
            | some operator =>
                rcases settled.operators _ _ found with less | wrong
                · exact absurd less (Nat.not_lt_zero _)
                · cases wrong
          have stays : stuck p = true := by
            unfold stuck
            rw [noOperand, noOperator, decide_eq_true settled.bracket, decide_eq_true noComma]
            rfl
          exact absurd (stays.symm.trans moves) (by decide)
        rw [if_pos comma]
        exact tail_lt (by decide) comma
      · have after := reaches_length last
        change rest.length ≤ third.p.length at after
        refine Nat.lt_of_le_of_lt (optional.trans after) ?_
        have missingIs : missing 0 p (.call :: stack) = .ok third := next
        unfold missing at missingIs
        rw [if_neg slash] at missingIs
        split at missingIs
        · rename_i here
          cases missingIs
          exact Nat.lt_of_le_of_lt (skipSpaces_le _) (tail_lt (by decide) here)
        · rename_i noBracket
          split at missingIs
          · rename_i level q found
            rw [if_pos (Nat.zero_le level)] at missingIs
            cases missingIs
            exact Nat.lt_of_le_of_lt (skipSpaces_le _) (operatorAt_length found)
          · rename_i noOperator
            have comma : byteAt p = ','.toUInt8 := by
              by_contra noComma
              have stays : stuck p = true := by
                unfold stuck
                rw [noOperand, noOperator, decide_eq_true noBracket, decide_eq_true noComma]
                rfl
              exact absurd (stays.symm.trans moves) (by decide)
            change close true p (.call :: stack) = _ at missingIs
            unfold close at missingIs
            rw [if_pos comma] at missingIs
            cases missingIs
            exact Nat.lt_of_le_of_lt (skipSpaces_le _) (tail_lt (by decide) comma)

section Steps

variable {budget : Nat → Nat} {depth : Nat} {inner : Compiler}
  (simulates : ∀ p stack, Free 0 stack →
    Simulates (Ample budget depth p) ⟨.operand 0, skipSpaces p, stack⟩ stack (Settled 0 0) (inner p))

include simulates

theorem callArguments_simulates (fuel : Nat) (p : Bytes) (stack : List Frame) :
    Simulates (Ample budget depth p ∧ (skipSpaces p).length < fuel)
      ⟨.arguments, skipSpaces p, .call :: stack⟩ stack (fun _ mode _ => mode = .complete none)
      (Compile.callArguments inner fuel p) := by
  induction fuel generalizing p with
  | zero => exact fun known => absurd (known rfl).2 (Nat.not_lt_zero _)
  | succ fuel inductionHypothesis =>
      by_cases closed : byteAt (skipSpaces p) = ')'.toUInt8
      · unfold Compile.callArguments
        simp only [if_pos closed]
        refine ⟨.complete none, .single ?_, rfl⟩
        change arguments (skipSpaces p) (.call :: stack) = _
        unfold arguments
        rw [if_pos closed]
        rfl
      · by_cases stays : stuck (skipSpaces p) = true
        · rw [callArguments_stuck simulates stays closed]
          refine .fails ?_
          change arguments (skipSpaces p) (.call :: stack) = _
          unfold arguments
          rw [if_neg closed, if_pos stays]
          rfl
        · have moves : stuck (skipSpaces p) = false := Bool.not_eq_true _ ▸ stays
          have stepped : Steps pass ⟨.arguments, skipSpaces p, .call :: stack⟩
              ⟨.operand 0, skipSpaces (skipSpaces p), .call :: stack⟩ := by
            change arguments (skipSpaces p) (.call :: stack) = _
            unfold arguments
            rw [if_neg closed, if_neg stays]
            rfl
          unfold Compile.callArguments
          simp only [if_neg closed]
          refine .next stepped ((simulates (skipSpaces p) (.call :: stack) (by rintro _ ⟨⟩) |>.weaken ?_).bind ?_)
          · rintro ⟨⟨turns, deep⟩, -⟩
            exact ⟨turns, by rw [skipSpaces_idem]; exact deep⟩
          · intro argument rest reported mode reached settled
            rw [skipSpaces_idem] at reached
            have shorter := argument_shorter (skipSpaces_idem p) moves reached settled
            have closing := closes (.call :: stack) settled
            refine .next closing ((inductionHypothesis _).weaken ?_ |>.map ?_)
            · rintro ⟨⟨turns, deep⟩, more⟩
              have space := skipSpaces_le (if byteAt (skipSpaces rest) = ','.toUInt8 then
                (skipSpaces rest).tail else skipSpaces rest)
              exact ⟨⟨turns, by omega⟩, by omega⟩
            · intro others last later behind same
              exact ⟨_, _, rfl, same⟩

theorem nameTest_simulates (result : Option ExprType) (p : Bytes) (stack : List Frame)
    {start : State} (begun : pass start = nameTest p stack) :
    Simulates ((∀ length, length < budget length) ∧ p.length ≤ depth) start stack Stepped
      (Compile.nameTest budget inner result p) := by
  unfold Compile.nameTest
  unfold nameTest at begun
  cases found : nameAt p with
  | none =>
      rw [found] at begun
      exact .fails begun
  | some name =>
      have shorter := nameAt_length found
      rw [found] at begun
      change Simulates _ _ _ _ (if byteAt (skipSpaces name.2) = '('.toUInt8 then _ else _)
      simp only at begun
      by_cases call : byteAt (skipSpaces name.2) = '('.toUInt8
      · rw [if_pos call] at begun ⊢
        refine .next begun ?_
        have read := callArguments_simulates simulates (budget (skipSpaces name.2).length)
          (skipSpaces name.2).tail stack
        have space := skipSpaces_le (skipSpaces name.2).tail
        have less := tail_lt (by decide) call
        have gap := skipSpaces_le name.2
        refine (read.weaken ?_).map ?_
        · rintro ⟨turns, short⟩
          have enough := turns (skipSpaces name.2).length
          exact ⟨⟨turns, by omega⟩, by omega⟩
        · intro arguments rest reported mode same
          exact ⟨_, _, rfl, nofun, same⟩
      · rw [if_neg call] at begun ⊢
        refine .next begun ?_
        cases result <;> exact ⟨.complete none, .refl, nofun, rfl⟩

omit simulates in
theorem axisTest_simulates (type : ExprType) (p : Bytes) (stack : List Frame) {start : State}
    (begun : pass start = axisTest p stack) (ample : Prop) :
    Simulates ample start stack Stepped (Compile.axisTest type p) := by
  unfold Compile.axisTest
  unfold axisTest at begun
  by_cases star : byteAt p = '*'.toUInt8
  · rw [if_pos star] at begun ⊢
    exact ⟨.complete none, .single begun, nofun, rfl⟩
  · rw [if_neg star] at begun ⊢
    cases found : nameAt p with
    | none =>
        rw [found] at begun
        exact .fails begun
    | some name =>
        rw [found] at begun
        change Simulates _ _ _ _ (if byteAt name.2 = '('.toUInt8 then _ else _)
        simp only at begun
        by_cases call : byteAt name.2 = '('.toUInt8
        · rw [if_pos call] at begun ⊢
          by_cases unclosed : name.2.dropWhile (· ≠ ')'.toUInt8) = []
          · rw [if_pos unclosed] at begun
            simp only [if_pos unclosed]
            exact .fails begun
          · rw [if_neg unclosed] at begun
            simp only [if_neg unclosed]
            exact ⟨.complete none, .single begun, nofun, rfl⟩
        · rw [if_neg call] at begun ⊢
          exact ⟨.complete none, .single begun, nofun, rfl⟩

theorem doSelectExpr_simulates (p : Bytes) (stack : List Frame) :
    Simulates (Ample budget (depth + 1) p) ⟨.step, skipSpaces p, stack⟩ stack Stepped
      (Compile.doSelectExpr budget inner p) := by
  have begun : pass ⟨.step, skipSpaces p, stack⟩ = step (skipSpaces p) stack := rfl
  unfold Compile.doSelectExpr
  unfold step at begun
  by_cases star : byteAt (skipSpaces p) = '*'.toUInt8
  · simp only [if_pos star] at begun ⊢
    exact ⟨.complete none, .single begun, by rintro ⟨⟩, rfl⟩
  · by_cases point : byteAt (skipSpaces p) = '.'.toUInt8
    · simp only [if_neg star, if_pos point] at begun ⊢
      by_cases second : byteAt (skipSpaces p).tail = '.'.toUInt8
      · rw [if_pos second] at begun ⊢
        exact ⟨.complete none, .single begun, by rintro ⟨⟩, rfl⟩
      · rw [if_neg second] at begun ⊢
        exact ⟨.complete none, .single begun, by rintro ⟨⟩, rfl⟩
    · by_cases slash : byteAt (skipSpaces p) = '/'.toUInt8
      · simp only [if_neg star, if_neg point, if_pos slash] at begun ⊢
        exact ⟨.complete none, .single begun, by rintro ⟨⟩, rfl⟩
      · by_cases mark : byteAt (skipSpaces p) = '@'.toUInt8
        · simp only [if_neg star, if_neg point, if_neg slash, if_pos mark] at begun ⊢
          by_cases second : byteAt (skipSpaces p).tail = '*'.toUInt8
          · rw [if_pos second] at begun ⊢
            exact ⟨.complete none, .single begun, by rintro ⟨⟩, rfl⟩
          · rw [if_neg second] at begun ⊢
            refine (nameTest_simulates simulates _ _ _ begun).weaken ?_
            rintro ⟨turns, short⟩
            exact ⟨turns, (tail_le _).trans (Nat.le_of_lt_succ short)⟩
        · simp only [if_neg star, if_neg point, if_neg slash, if_neg mark] at begun ⊢
          cases axis : axisAt (skipSpaces p) with
          | none =>
              rw [axis] at begun
              refine (nameTest_simulates simulates _ _ _ begun).weaken ?_
              rintro ⟨turns, short⟩
              exact ⟨turns, Nat.le_of_lt_succ short⟩
          | some found =>
              rw [axis] at begun
              exact axisTest_simulates _ _ _ begun _

omit simulates in
theorem doVarExpr_simulates (type : ExprType) (p : Bytes) (stack : List Frame) {start : State}
    (begun : pass start = named p stack) (ample : Prop) :
    Simulates ample start stack Stepped (Compile.doVarExpr type p) := by
  unfold Compile.doVarExpr
  unfold named at begun
  cases found : nameAt p with
  | none =>
      rw [found] at begun
      exact .fails begun
  | some name =>
      rw [found] at begun
      refine ⟨.complete none, .single ?_, nofun, rfl⟩
      rw [skipSpaces_idem]
      exact begun

theorem doNode2Expr_simulates (least : Nat) (p : Bytes) (stack : List Frame)
    (noCall : notAt least (skipSpaces p) = none) :
    Simulates (Ample budget (depth + 1) p) ⟨.operand least, skipSpaces p, stack⟩ stack
      (fun node mode _ => Begun least node mode) (Compile.doNode2Expr budget inner p) := by
  have begun : pass ⟨.operand least, skipSpaces p, stack⟩ = operand least (skipSpaces p) stack := rfl
  have plain : ∀ {node : Expr} {rest : Bytes} {reported : Bool}, node ≠ .null →
      pass ⟨.operand least, skipSpaces p, stack⟩ = go (.complete none) rest stack →
      Simulates (Ample budget (depth + 1) p) ⟨.operand least, skipSpaces p, stack⟩ stack
        (fun node mode _ => Begun least node mode) (.ok (node, rest, reported)) :=
    fun there stepped => ⟨.complete none, .single stepped, .inr ⟨there, rfl⟩⟩
  have ofStepped : ∀ {found : Except Halt (Found Expr)},
      Simulates (Ample budget (depth + 1) p) ⟨.operand least, skipSpaces p, stack⟩ stack Stepped found →
      Simulates (Ample budget (depth + 1) p) ⟨.operand least, skipSpaces p, stack⟩ stack
        (fun node mode _ => Begun least node mode) found := by
    intro found simulated
    cases found with
    | error halt => exact simulated
    | ok result =>
        rcases simulated with ⟨mode, reached, stepped⟩
        exact ⟨mode, reached, .inr stepped⟩
  unfold operand at begun
  simp only [noCall] at begun
  unfold Compile.doNode2Expr
  by_cases quote : byteAt (skipSpaces p) = '\''.toUInt8
  · simp only [if_pos quote] at begun ⊢
    refine plain nofun ?_
    rw [begun]
    unfold go
    rw [skipSpaces_idem]
  · by_cases bracket : byteAt (skipSpaces p) = '('.toUInt8
    · simp only [if_neg quote, if_pos bracket] at begun ⊢
      refine .next begun ((simulates (skipSpaces p).tail (.group least :: stack) nofun).weaken ?_
        |>.bind ?_)
      · intro ample
        have less := tail_lt (by decide) bracket
        have space := skipSpaces_le (skipSpaces p).tail
        have short := ample.2
        exact ⟨ample.1, by omega⟩
      · intro node1 rest reported mode _ settled
        have closing := closes (.group least :: stack) settled
        have same : skipSpaces (if byteAt (skipSpaces rest) = ')'.toUInt8 then
            skipSpaces (skipSpaces rest).tail else skipSpaces rest) =
            skipSpaces (if byteAt (skipSpaces rest) = ')'.toUInt8 then (skipSpaces rest).tail
              else skipSpaces rest) := by
          split
          · exact skipSpaces_idem _
          · rfl
        refine ⟨if decide (node1 = .null) then .missing least else .complete none, ?_, ?_⟩
        · rw [same]
          exact .single closing
        · by_cases null : node1 = .null
          · rw [decide_eq_true null]
            exact .inl ⟨null, rfl⟩
          · rw [decide_eq_false null]
            exact .inr ⟨null, rfl⟩
    · by_cases number : xCanNumber (skipSpaces p) = true
      · simp only [if_neg quote, if_neg bracket, if_pos number] at begun ⊢
        cases found : numberExpr (skipSpaces p) with
        | none =>
            rw [found] at begun
            exact .fails begun
        | some result =>
            rw [found] at begun
            refine plain ?_ begun
            unfold numberExpr at found
            simp only at found
            split at found <;>
            · cases found
              exact nofun
      · by_cases dollar : byteAt (skipSpaces p) = '$'.toUInt8
        · simp only [if_neg quote, if_neg bracket, if_neg number, if_pos dollar] at begun ⊢
          exact ofStepped (doVarExpr_simulates _ _ _ begun _)
        · by_cases mark : byteAt (skipSpaces p) = '@'.toUInt8
          · simp only [if_neg quote, if_neg bracket, if_neg number, if_neg dollar, if_pos mark]
              at begun ⊢
            by_cases star : byteAt (skipSpaces p).tail = '*'.toUInt8
            · rw [if_pos star] at begun ⊢
              exact plain nofun begun
            · rw [if_neg star] at begun ⊢
              exact ofStepped (doVarExpr_simulates _ _ _ begun _)
          · by_cases selects : xIsSelchar (byteAt (skipSpaces p)) = true
            · simp only [if_neg quote, if_neg bracket, if_neg number, if_neg dollar, if_neg mark,
                if_pos selects] at begun ⊢
              have read := @doSelectExpr_simulates budget depth inner simulates
                (if byteAt (skipSpaces p) = '/'.toUInt8 then (skipSpaces p).tail else skipSpaces p) stack
              refine .next begun ((read.weaken ?_).map ?_)
              · intro ample
                have space := skipSpaces_le
                  (if byteAt (skipSpaces p) = '/'.toUInt8 then (skipSpaces p).tail else skipSpaces p)
                have tail := tail_le (skipSpaces p)
                have short := ample.2
                refine ⟨ample.1, ?_⟩
                split at space
                · rename_i slash
                  rw [if_pos slash]
                  omega
                · rename_i slash
                  rw [if_neg slash]
                  omega
              · intro node1 rest reported mode stepped
                cases node1 with
                | null => exact absurd rfl stepped.1
                | node head children next =>
                    simp only
                    split
                    · exact ⟨_, _, rfl, .inr ⟨nofun, stepped.2⟩⟩
                    · exact ⟨_, _, rfl, .inr ⟨nofun, stepped.2⟩⟩
            · simp only [if_neg quote, if_neg bracket, if_neg number, if_neg dollar, if_neg mark,
                if_neg selects] at begun ⊢
              exact ⟨.missing least, .single begun, .inl ⟨rfl, rfl⟩⟩

theorem nodeSteps_simulates (least : Nat) (stack : List Frame) (fuel : Nat) {node1 : Expr}
    {mode : Mode} (begun : Begun least node1 mode) (p : Bytes) :
    Simulates (Ample budget (depth + 1) p ∧ (skipSpaces p).length < fuel)
      ⟨mode, skipSpaces p, stack⟩ stack (Settled 8 least)
      (Compile.nodeSteps budget inner fuel node1 p) := by
  induction fuel generalizing node1 mode p with
  | zero => exact fun known => absurd (known rfl).2 (Nat.not_lt_zero _)
  | succ fuel inductionHypothesis =>
      unfold Compile.nodeSteps
      by_cases slash : byteAt (skipSpaces p) = '/'.toUInt8
      · have stepped : Steps pass ⟨mode, skipSpaces p, stack⟩
            ⟨.step, skipSpaces (skipSpaces p).tail, stack⟩ := by
          rcases begun with ⟨-, rfl⟩ | ⟨-, rfl⟩
          · change missing least (skipSpaces p) stack = _
            unfold missing
            rw [if_pos slash]
            rfl
          · change complete none (skipSpaces p) stack = _
            unfold complete
            rw [if_pos slash]
            rfl
        have less := tail_lt (by decide) slash
        have space := skipSpaces_le (skipSpaces p).tail
        simp only [if_pos slash]
        refine .next stepped ((doSelectExpr_simulates simulates (skipSpaces p).tail stack).weaken ?_
          |>.bind ?_)
        · rintro ⟨⟨turns, deep⟩, -⟩
          exact ⟨turns, by omega⟩
        · intro node2 rest reported after reached known
          have le := reaches_length reached
          change (skipSpaces rest).length ≤ (skipSpaces (skipSpaces p).tail).length at le
          cases node2 with
          | null => exact absurd rfl known.1
          | node head children next =>
              have grown : Begun least (.node head node1 next) after := .inr ⟨by rintro ⟨⟩, known.2⟩
              refine (inductionHypothesis grown rest |>.weaken ?_).map ?_
              · rintro ⟨⟨turns, deep⟩, more⟩
                exact ⟨⟨turns, by omega⟩, by omega⟩
              · intro node last later behind settled
                exact ⟨_, _, rfl, settled⟩
      · by_cases bracket : byteAt (skipSpaces p) = '['.toUInt8
        · have stepped : Steps pass ⟨mode, skipSpaces p, stack⟩
              ⟨.operand 0, skipSpaces (skipSpaces p).tail,
                .filter (decide (node1 ≠ .null)) :: stack⟩ := by
            rcases begun with ⟨null, rfl⟩ | ⟨there, rfl⟩
            · change missing least (skipSpaces p) stack = _
              unfold missing
              rw [if_neg slash, if_pos bracket, decide_eq_false (not_not_intro null)]
              rfl
            · change complete none (skipSpaces p) stack = _
              unfold complete
              rw [if_neg slash, if_pos bracket, decide_eq_true there]
              rfl
          have less := tail_lt (by decide) bracket
          have space := skipSpaces_le (skipSpaces p).tail
          simp only [if_neg slash, if_pos bracket]
          refine .next stepped ((simulates (skipSpaces p).tail
            (.filter (decide (node1 ≠ .null)) :: stack) (by rintro _ ⟨⟩)).weaken ?_ |>.bind ?_)
          · rintro ⟨⟨turns, deep⟩, -⟩
            exact ⟨turns, by omega⟩
          · intro node2 rest reported after reached settled
            have le := reaches_length reached
            change (skipSpaces rest).length ≤ (skipSpaces (skipSpaces p).tail).length at le
            have closing := closes (.filter (decide (node1 ≠ .null)) :: stack) settled
            cases node1 with
            | null => exact .fails closing
            | node head children next =>
                have grown : Begun least (.node { type := .filter } (.node head children node2) .null)
                    (.complete none) := .inr ⟨by rintro ⟨⟩, rfl⟩
                refine .next closing (inductionHypothesis grown _ |>.weaken ?_ |>.map ?_)
                · rintro ⟨⟨turns, deep⟩, more⟩
                  have optional : (skipSpaces (if byteAt (skipSpaces rest) = ']'.toUInt8 then
                      (skipSpaces rest).tail else skipSpaces rest)).length ≤
                      (skipSpaces rest).length := by
                    refine (skipSpaces_le _).trans ?_
                    split
                    · exact tail_le _
                    · exact Nat.le_refl _
                  exact ⟨⟨turns, by omega⟩, by omega⟩
                · intro node last later behind known
                  exact ⟨_, _, rfl, known⟩
        · simp only [if_neg slash, if_neg bracket]
          refine ⟨mode, ?_, ?_⟩
          · rw [skipSpaces_idem]
          · rw [skipSpaces_idem]
            refine ⟨?_, slash, bracket, ?_, ?_⟩
            · rcases begun with ⟨null, same⟩ | ⟨there, same⟩
              · exact .inl ⟨null, same⟩
              · exact .inr ⟨there, none, same⟩
            · intro other q found
              exact .inl (Nat.lt_succ_of_le (operatorAt_level found))
            · intro other same
              rcases begun with ⟨-, rfl⟩ | ⟨-, rfl⟩ <;> cases same

theorem doNodeExpr_simulates (least : Nat) (p : Bytes) (stack : List Frame)
    (noCall : notAt least (skipSpaces p) = none) :
    Simulates (Ample budget (depth + 1) p) ⟨.operand least, skipSpaces p, stack⟩ stack
      (Settled 8 least) (Compile.doNodeExpr budget inner p) := by
  unfold Compile.doNodeExpr
  refine (doNode2Expr_simulates simulates least p stack noCall).bind ?_
  intro node1 rest reported mode reached begun
  have le := reaches_length reached
  change (skipSpaces rest).length ≤ (skipSpaces p).length at le
  refine (nodeSteps_simulates simulates least stack (budget rest.length) begun rest |>.weaken ?_).map ?_
  · rintro ⟨turns, deep⟩
    have enough := turns rest.length
    have space := skipSpaces_le rest
    exact ⟨⟨turns, by omega⟩, by omega⟩
  · intro node last later behind settled
    exact ⟨_, _, rfl, settled⟩

end Steps

/-! ## Operators with many operands -/

/-- A level of the compiler and the scan of its text. -/
def SimulatesLevel (budget : Nat → Nat) (depth level : Nat) (sub : Compiler) : Prop :=
  ∀ p least stack, least ≤ level → Free level stack →
    (7 ≤ level → notAt least (skipSpaces p) = none) →
      Simulates (Ample budget (depth + 1) p) ⟨.operand least, skipSpaces p, stack⟩ stack
        (Settled level least) (sub p)

/-- A level may stop where the level above it does, unless an operator of its
own stands there. -/
theorem Settled.looser {level least : Nat} {node : Expr} {mode : Mode} {p : Bytes}
    (settled : Settled (level + 1) least node mode p) (last : levelOperator level p = none) :
    Settled level least node mode p where
  held := settled.held
  slash := settled.slash
  bracket := settled.bracket
  operators := by
    intro other q found
    rcases settled.operators other q found with less | bars
    · rcases Nat.lt_or_eq_of_le (Nat.le_of_lt_succ less) with below | rfl
      · exact .inl below
      · rw [operatorAt_iff, last] at found
        cases found
    · exact .inr bars
  barred := fun other same => Nat.le_of_succ_le (settled.barred other same)

/-- The operator of a level stands behind what the level above has read, and
the scan goes on behind it. -/
theorem operator_next {level least : Nat} {node : Expr} {mode : Mode} {p q : Bytes}
    {stack : List Frame} (settled : Settled (level + 1) least node mode p)
    (found : levelOperator level p = some q) (le : least ≤ level) (free : Free level stack) :
    Steps pass ⟨mode, p, stack⟩
      ⟨.operand (level + 1), skipSpaces q, if node = .null then .lost level :: stack else stack⟩ := by
  have here := operatorAt_iff.mpr found
  rcases settled.held with ⟨null, rfl⟩ | ⟨there, barred, rfl⟩
  · rw [if_pos null]
    exact missing_operator settled.slash settled.bracket here le
  · rw [if_neg there]
    refine complete_operator stack settled.slash settled.bracket here ?_ free
    rintro rfl
    exact absurd (settled.barred level rfl) (Nat.not_succ_le_self level)

theorem Free.waiting {level : Nat} {stack : List Frame} (free : Free level stack) (node : Expr) :
    Free (level + 1) (if node = .null then .lost level :: stack else stack) := by
  split
  · intro lost member
    cases member
    exact Nat.lt_succ_self level
  · exact fun lost member => Nat.lt_succ_of_lt (free lost member)

theorem levelOperator_junction (junction : Junction) (p : Bytes) :
    levelOperator junction.level p = matchAt (separatorAt junction.level) p := by
  cases junction <;> rfl

theorem barred_junction (junction : Junction) : barred (junction.level + 1) = some junction.level := by
  cases junction <;> rfl

section Operators

variable {budget : Nat → Nat} {depth : Nat} {sub : Compiler}

theorem furtherOperands_simulates (junction : Junction)
    (simulates : SimulatesLevel budget depth (junction.level + 1) sub) {stack : List Frame}
    (free : Free junction.level stack) (fuel : Nat) (node1 : Expr) (p : Bytes) :
    Simulates (Ample budget (depth + 1) p ∧ (skipSpaces p).length < fuel)
      ⟨.operand (junction.level + 1), skipSpaces p,
        if node1 = .null then .lost junction.level :: stack else stack⟩ stack
      (fun _ mode rest => ∀ node least, node ≠ .null → Settled junction.level least node mode rest)
      (Compile.furtherOperands sub (separatorAt junction.level) fuel node1 p) := by
  induction fuel generalizing node1 p with
  | zero => exact fun known => absurd (known rfl).2 (Nat.not_lt_zero _)
  | succ fuel inductionHypothesis =>
      have noCall : 7 ≤ junction.level + 1 → notAt (junction.level + 1) (skipSpaces p) = none := by
        intro high
        unfold notAt
        rcases junction.many_level with level | level | level
        · omega
        · omega
        · rw [level, if_neg (by decide)]
      unfold Compile.furtherOperands
      refine (simulates p (junction.level + 1) _ (Nat.le_refl _) (free.waiting node1) noCall
        |>.weaken And.left).bind ?_
      intro next rest reported mode reached settled
      have le := reaches_length reached
      change (skipSpaces rest).length ≤ (skipSpaces p).length at le
      by_cases null : node1 = .null
      · simp only [if_pos null]
        exact fun _ => lost_fails settled (skipSpaces_idem rest)
      · simp only [if_neg null]
        rcases settled.held with ⟨missing, rfl⟩ | ⟨there, barred, rfl⟩
        · rw [if_pos missing]
          refine ⟨.complete (barred (junction.level + 1)), ?_, ?_⟩
          · rw [skipSpaces_idem]
            exact .single (missing_complete stack settled (skipSpaces_idem rest))
          · rw [skipSpaces_idem]
            intro node least known
            refine ⟨.inr ⟨known, _, rfl⟩, settled.slash, settled.bracket, ?_, ?_⟩
            · intro other q found
              rcases settled.operators other q found with less | wrong
              · rcases Nat.lt_or_eq_of_le (Nat.le_of_lt_succ less) with below | rfl
                · exact .inl below
                · exact .inr (congrArg Mode.complete (barred_junction junction))
              · cases wrong
            · intro other same
              rw [barred_junction] at same
              cases same
              exact Nat.le_refl _
        · rw [if_neg there]
          cases found : matchAt (separatorAt junction.level) (skipSpaces rest) with
          | none =>
              refine ⟨.complete barred, ?_, ?_⟩
              · rw [skipSpaces_idem]
              · rw [skipSpaces_idem]
                intro node least known
                rw [← levelOperator_junction] at found
                have stops := settled.looser found
                exact ⟨.inr ⟨known, _, rfl⟩, stops.slash, stops.bracket, stops.operators, stops.barred⟩
          | some q =>
              rw [← levelOperator_junction] at found
              have plain : barred ≠ some junction.level := by
                rintro rfl
                exact absurd (settled.barred _ rfl) (Nat.not_succ_le_self _)
              have stepped := complete_operator stack settled.slash settled.bracket
                (operatorAt_iff.mpr found) plain free
              have less := operatorAt_length (operatorAt_iff.mpr found)
              have space := skipSpaces_le q
              have later := inductionHypothesis next q
              rw [if_neg there] at later
              refine .next stepped ((later.weaken ?_).map ?_)
              · rintro ⟨⟨turns, deep⟩, more⟩
                exact ⟨⟨turns, by omega⟩, by omega⟩
              · intro operands last said behind known
                exact ⟨_, _, rfl, known⟩

theorem manyOperands_simulates (junction : Junction)
    (simulates : SimulatesLevel budget depth (junction.level + 1) sub) (type : ExprType) :
    SimulatesLevel budget depth junction.level
      (Compile.manyOperands budget sub (separatorAt junction.level) type) := by
  intro p least stack le free noCall
  unfold Compile.manyOperands
  have above : 7 ≤ junction.level + 1 → notAt least (skipSpaces p) = none := by
    intro high
    apply noCall
    rcases junction.many_level with level | level | level <;> omega
  have freeAbove : Free (junction.level + 1) stack := fun lost member =>
    Nat.lt_succ_of_lt (free lost member)
  refine (simulates p least stack (Nat.le_succ_of_le le) freeAbove above).bind ?_
  intro node1 rest reported mode reached settled
  have shorter := reaches_length reached
  change (skipSpaces rest).length ≤ (skipSpaces p).length at shorter
  simp only
  cases found : matchAt (separatorAt junction.level) (skipSpaces rest) with
  | none =>
      rw [← levelOperator_junction] at found
      refine ⟨mode, ?_, ?_⟩
      · rw [skipSpaces_idem]
      · rw [skipSpaces_idem]
        exact settled.looser found
  | some q =>
      rw [← levelOperator_junction] at found
      have less := operatorAt_length (operatorAt_iff.mpr found)
      have space := skipSpaces_le q
      have later := furtherOperands_simulates junction simulates free (budget q.length) node1
        (skipSpaces q)
      rw [skipSpaces_idem] at later
      refine .next (operator_next settled found le free) ((later.weaken ?_).map ?_)
      · rintro ⟨turns, deep⟩
        have enough := turns q.length
        refine ⟨⟨turns, ?_⟩, by omega⟩
        rw [skipSpaces_idem]
        omega
      · intro operands last said behind known
        exact ⟨_, _, rfl, known _ least nofun⟩

/-! ## Operators with two operands -/

/-- The right operand of an operator is stored, whether it is there or not. -/
theorem Settled.stored (stack : List Frame) {level : Nat} (low : 2 ≤ level) (high : level ≤ 5)
    {node : Expr} {mode : Mode} {p : Bytes} (settled : Settled (level + 1) (level + 1) node mode p)
    (still : skipSpaces p = p) :
    Exists fun after => Reaches pass ⟨mode, p, stack⟩ ⟨after, p, stack⟩ ∧
      ∀ stored least, stored ≠ .null → Settled (level + 1) least stored after p := by
  rcases settled.held with ⟨missing, rfl⟩ | ⟨there, barred, rfl⟩
  · have none_ : Scan.barred (level + 1) = none := by
      unfold Scan.barred
      rw [if_neg (by omega)]
    have stepped := missing_complete stack settled still
    rw [none_] at stepped
    refine ⟨.complete none, .single stepped, ?_⟩
    intro stored least known
    refine ⟨.inr ⟨known, none, rfl⟩, settled.slash, settled.bracket, ?_, nofun⟩
    intro other q found
    rcases settled.operators other q found with less | wrong
    · exact .inl less
    · cases wrong
  · refine ⟨.complete barred, .refl, ?_⟩
    intro stored least known
    exact ⟨.inr ⟨known, barred, rfl⟩, settled.slash, settled.bracket, settled.operators,
      settled.barred⟩

theorem furtherOperators_simulates {level : Nat} (low : 2 ≤ level) (high : level ≤ 5)
    {operator : Bytes → Option (ExprType × Bytes)}
    (same : ∀ p, levelOperator level p = (operator p).map Prod.snd)
    (simulates : SimulatesLevel budget depth (level + 1) sub) {stack : List Frame} {least : Nat}
    (le : least ≤ level) (free : Free level stack) (fuel : Nat) {node1 : Expr} {mode : Mode}
    (p : Bytes) (settled : Settled (level + 1) least node1 mode (skipSpaces p)) :
    Simulates (Ample budget (depth + 1) p ∧ (skipSpaces p).length < fuel)
      ⟨mode, skipSpaces p, stack⟩ stack (Settled level least)
      (Compile.furtherOperators sub operator fuel node1 p) := by
  induction fuel generalizing node1 mode p with
  | zero => exact fun known => absurd (known rfl).2 (Nat.not_lt_zero _)
  | succ fuel inductionHypothesis =>
      unfold Compile.furtherOperators
      have here := same (skipSpaces p)
      simp only
      cases found : operator (skipSpaces p) with
      | none =>
          rw [found] at here
          refine ⟨mode, ?_, ?_⟩
          · rw [skipSpaces_idem]
          · rw [skipSpaces_idem]
            exact settled.looser here
      | some result =>
          rcases result with ⟨type, q⟩
          rw [found] at here
          change levelOperator level (skipSpaces p) = some q at here
          have less := operatorAt_length (operatorAt_iff.mpr here)
          have space := skipSpaces_le q
          have read := simulates (skipSpaces q) (level + 1)
            (if node1 = .null then .lost level :: stack else stack) (Nat.le_refl _)
            (free.waiting node1) (by omega)
          rw [skipSpaces_idem] at read
          refine .next (operator_next settled here le free) ((read.weaken ?_).bind ?_)
          · rintro ⟨⟨turns, deep⟩, -⟩
            refine ⟨turns, ?_⟩
            rw [skipSpaces_idem]
            omega
          · intro node2 rest reported after reached known
            have shorter := reaches_length reached
            change (skipSpaces rest).length ≤ (skipSpaces q).length at shorter
            cases node1 with
            | null => exact fun _ => lost_fails known (skipSpaces_idem rest)
            | node head children next =>
                rcases known.stored stack low high (skipSpaces_idem rest) with
                  ⟨stored, moved, settles⟩
                have later := inductionHypothesis rest
                  (settles (.node { type := type } (.node head children node2) .null) least nofun)
                refine .ahead moved ((later.weaken ?_).map ?_)
                · rintro ⟨⟨turns, deep⟩, more⟩
                  exact ⟨⟨turns, by omega⟩, by omega⟩
                · intro node last said behind done
                  exact ⟨_, _, rfl, done⟩

theorem leftOperators_simulates {level : Nat} (low : 2 ≤ level) (high : level ≤ 5)
    {operator : Bytes → Option (ExprType × Bytes)}
    (same : ∀ p, levelOperator level p = (operator p).map Prod.snd)
    (simulates : SimulatesLevel budget depth (level + 1) sub) :
    SimulatesLevel budget depth level (Compile.leftOperators budget sub operator) := by
  intro p least stack le free _
  have freeAbove : Free (level + 1) stack := fun lost member =>
    Nat.lt_succ_of_lt (free lost member)
  unfold Compile.leftOperators
  refine (simulates p least stack (Nat.le_succ_of_le le) freeAbove (by omega)).bind ?_
  intro node1 rest reported mode reached settled
  have shorter := reaches_length reached
  change (skipSpaces rest).length ≤ (skipSpaces p).length at shorter
  refine (furtherOperators_simulates low high same simulates le free (budget rest.length) rest settled
    |>.weaken ?_).map ?_
  · rintro ⟨turns, deep⟩
    have enough := turns rest.length
    have space := skipSpaces_le rest
    exact ⟨⟨turns, by omega⟩, by omega⟩
  · intro node last said behind known
    exact ⟨_, _, rfl, known⟩

end Operators

/-! ## All levels -/

section Levels

variable {budget : Nat → Nat} {depth : Nat} {inner : Compiler}
  (simulates : ∀ p stack, Free 0 stack →
    Simulates (Ample budget depth p) ⟨.operand 0, skipSpaces p, stack⟩ stack (Settled 0 0) (inner p))

include simulates

theorem doUnionExpr_simulates :
    SimulatesLevel budget depth 7 (Compile.doUnionExpr budget inner) := by
  intro p least stack le free noCall
  have nodes : SimulatesLevel budget depth 8 (Compile.doNodeExpr budget inner) :=
    fun p least stack _ _ noCall => doNodeExpr_simulates simulates least p stack (noCall (by decide))
  have read := manyOperands_simulates .union nodes .union (skipSpaces p) least stack le free
  rw [skipSpaces_idem] at read
  refine (read noCall).weaken ?_
  rintro ⟨turns, deep⟩
  exact ⟨turns, by rw [skipSpaces_idem]; exact deep⟩

theorem doNotExpr_simulates (fuel : Nat) (p : Bytes) (least : Nat) (stack : List Frame)
    (le : least ≤ 6) (free : Free 6 stack) :
    Simulates (Ample budget (depth + 1) p ∧ (skipSpaces p).length < fuel)
      ⟨.operand least, skipSpaces p, stack⟩ stack (Settled 6 least)
      (Compile.doNotExpr budget inner fuel p) := by
  induction fuel generalizing p least with
  | zero => exact fun known => absurd (known rfl).2 (Nat.not_lt_zero _)
  | succ fuel inductionHypothesis =>
      have others : notAt least (skipSpaces p) = none →
          Simulates (Ample budget (depth + 1) p ∧ (skipSpaces p).length < fuel + 1)
            ⟨.operand least, skipSpaces p, stack⟩ stack (Settled 6 least)
            (Compile.doUnionExpr budget inner (skipSpaces p)) := by
        intro noCall
        have read := doUnionExpr_simulates simulates (skipSpaces p) least stack (by omega)
          (fun lost member => Nat.lt_succ_of_lt (free lost member))
        rw [skipSpaces_idem] at read
        refine ((read fun _ => noCall).weaken ?_).imp fun node mode rest settled => settled.looser rfl
        rintro ⟨⟨turns, deep⟩, -⟩
        exact ⟨turns, by rw [skipSpaces_idem]; exact deep⟩
      have calls : notAt least (skipSpaces p) = (matchAt (lit "not") (skipSpaces p)).filter
          fun q => byteAt q = '('.toUInt8 || xIsWs (byteAt q) := by
        unfold notAt
        rw [if_pos le]
      unfold Compile.doNotExpr
      simp only
      cases found : matchAt (lit "not") (skipSpaces p) with
      | none =>
          rw [found] at calls
          exact others calls
      | some q =>
          rw [found] at calls
          simp only
          by_cases call : byteAt q = '('.toUInt8 ∨ xIsWs (byteAt q) = true
          · have here : notAt least (skipSpaces p) = some q := by
              rw [calls, Option.filter_some, if_pos]
              exact Bool.or_eq_true _ _ ▸ call.imp_left decide_eq_true
            have less := notAt_length here
            have stepped : Steps pass ⟨.operand least, skipSpaces p, stack⟩
                ⟨.operand 6, skipSpaces q, stack⟩ := by
              change operand least (skipSpaces p) stack = _
              unfold operand
              rw [here]
              rfl
            have space := skipSpaces_le q
            have read := inductionHypothesis (skipSpaces q) 6 (Nat.le_refl 6)
            rw [skipSpaces_idem] at read
            rw [if_pos call]
            refine .next stepped ((read.weaken ?_).bind ?_)
            · rintro ⟨⟨turns, deep⟩, more⟩
              refine ⟨⟨turns, ?_⟩, by omega⟩
              rw [skipSpaces_idem]
              omega
            · intro operand rest reported mode _ settled
              rcases @Settled.stored stack 5 (by decide) (by decide) _ _ _ settled (skipSpaces_idem rest) with ⟨stored, moved, settles⟩
              exact ⟨stored, moved, settles _ least nofun⟩
          · have noCall : notAt least (skipSpaces p) = none := by
              rw [calls, Option.filter_some, if_neg]
              rw [Bool.or_eq_true, decide_eq_true_eq]
              exact call
            rw [if_neg call]
            exact others noCall

theorem doMulExpr_simulates : SimulatesLevel budget depth 5 (Compile.doMulExpr budget inner) := by
  apply leftOperators_simulates (by decide) (by decide) (fun p => rfl)
  intro p least stack le free _
  refine (doNotExpr_simulates simulates (budget p.length) p least stack le free).weaken ?_
  rintro ⟨turns, deep⟩
  have enough := turns p.length
  have space := skipSpaces_le p
  exact ⟨⟨turns, deep⟩, by omega⟩

theorem doAndExpr_simulates : SimulatesLevel budget depth 1 (Compile.doAndExpr budget inner) := by
  have add : SimulatesLevel budget depth 4 (Compile.doAddExpr budget inner) :=
    leftOperators_simulates (by decide) (by decide) (fun p => rfl) (doMulExpr_simulates simulates)
  have rel : SimulatesLevel budget depth 3 (Compile.doRelExpr budget inner) :=
    leftOperators_simulates (by decide) (by decide) (fun p => rfl) add
  have eq : SimulatesLevel budget depth 2 (Compile.doEqExpr budget inner) :=
    leftOperators_simulates (by decide) (by decide) (fun p => rfl) rel
  exact manyOperands_simulates .and eq .and

end Levels

/-- An expression, inside any brackets. -/
theorem doOrExpr_simulates (budget : Nat → Nat) (depth : Nat) (p : Bytes) (stack : List Frame)
    (free : Free 0 stack) :
    Simulates (Ample budget depth p) ⟨.operand 0, skipSpaces p, stack⟩ stack (Settled 0 0)
      (Compile.doOrExpr budget depth p) := by
  induction depth generalizing p stack with
  | zero => exact fun known => absurd (known rfl).2 (Nat.not_lt_zero _)
  | succ depth inductionHypothesis =>
      have read := manyOperands_simulates .or (doAndExpr_simulates inductionHypothesis) .or
        (skipSpaces p) 0 stack (Nat.le_refl 0) free
        (fun high => absurd high (by decide : ¬ 7 ≤ 0))
      rw [skipSpaces_idem] at read
      refine read.weaken ?_
      rintro ⟨turns, deep⟩
      exact ⟨turns, by rw [skipSpaces_idem]; exact deep⟩

/-- However the compiler ends, the scan of the text ends in the same way; and
where an ample allowance is used up, the scan stalls. -/
theorem xpathCompile_scans (budget : Nat → Nat) (depth : Nat) (expr : CString) :
    match Compile.xpathCompile budget depth expr with
    | .ok (node, rest, _) => Scans expr (.ends (decide (node = .null)) (skipSpaces rest))
    | .error halt => (halt = .running → Ample budget depth expr.bytes) → Scans expr halt.verdict := by
  have read := doOrExpr_simulates budget depth expr.bytes [] nofun
  unfold Compile.xpathCompile
  cases outcome : Compile.doOrExpr budget depth expr.bytes with
  | error halt =>
      rw [outcome] at read
      exact read
  | ok result =>
      rcases result with ⟨node, rest, reported⟩
      rw [outcome] at read
      rcases read with ⟨mode, reached, settled⟩
      exact (reached.returns_iff _).mpr (.of_stop (closes [] settled))

end Scan

end TurboXSL
