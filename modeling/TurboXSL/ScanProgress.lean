import TurboXSL.Scanner
import TurboXSL.Printing

namespace TurboXSL

open Library

namespace Scan

/-!
# The scan never goes back

The operators of the scan are those of the levels, one level for every byte an
operator can begin with.  No step of the scan has more of the text in front of
it than the step before.
-/

/-! ## Operators -/

/-- The operators of one level, with the bytes behind. -/
def levelOperator : Nat → Bytes → Option Bytes
  | 7, p => matchAt (lit "|") p
  | 5, p => (mulOperator p).map Prod.snd
  | 4, p => (addOperator p).map Prod.snd
  | 3, p => (relOperator p).map Prod.snd
  | 2, p => (eqOperator p).map Prod.snd
  | 1, p => matchAt (lit "and ") p
  | 0, p => matchAt (lit "or ") p
  | _, _ => none

/-- The level of the operators that begin with a byte. -/
def levelOf (c : UInt8) : Nat :=
  if c = '|'.toUInt8 then 7
  else if c = '*'.toUInt8 ∨ c = 'd'.toUInt8 ∨ c = 'm'.toUInt8 then 5
  else if c = '+'.toUInt8 ∨ c = '-'.toUInt8 then 4
  else if c = '<'.toUInt8 ∨ c = '>'.toUInt8 then 3
  else if c = '='.toUInt8 ∨ c = '!'.toUInt8 then 2
  else if c = 'a'.toUInt8 then 1
  else if c = 'o'.toUInt8 then 0
  else 8

theorem matchAt_head {want : UInt8} {str p q : Bytes} (plain : want ≠ ' '.toUInt8)
    (found : matchAt (want :: str) p = some q) : byteAt p = want := by
  by_contra different
  rw [matchAt_eq_none_of_byte plain different] at found
  cases found

/-- What stands in front of the rest is as long as the text that matched. -/
theorem matchAt_length {str p q : Bytes} (nonzero : 0 ∉ str) (found : matchAt str p = some q) :
    q.length + str.length = p.length := by
  induction str generalizing p with
  | nil =>
      cases found
      rfl
  | cons want str inductionHypothesis =>
      have wantNonzero : want ≠ 0 := fun same => nonzero (same ▸ List.mem_cons_self)
      unfold matchAt at found
      simp only at found
      split at found
      · cases found
      · rename_i agrees
        have tail := inductionHypothesis (fun member => nonzero (List.mem_cons_of_mem _ member)) found
        cases p with
        | nil =>
            refine absurd ⟨?_, ?_⟩ agrees
            · exact fun same => wantNonzero same.symm
            · rintro ⟨-, white | bracket⟩
              · exact absurd white (by decide)
              · exact absurd bracket (by decide)
        | cons c p =>
            rw [List.length_cons, List.length_cons]
            change q.length + str.length = p.length at tail
            omega

/-- An operator has a byte of its level in front, and leaves less of the text. -/
theorem levelOperator_spec {level : Nat} {p q : Bytes} (found : levelOperator level p = some q) :
    levelOf (byteAt p) = level ∧ q.length < p.length := by
  have ofMatch : ∀ {want : UInt8} {str r : Bytes}, want ≠ ' '.toUInt8 → 0 ∉ want :: str →
      matchAt (want :: str) p = some r → levelOf (byteAt p) = levelOf want ∧ r.length < p.length := by
    intro want str r notBlank nonzero matched
    have longer := matchAt_length nonzero matched
    rw [List.length_cons] at longer
    exact ⟨congrArg levelOf (matchAt_head notBlank matched), by omega⟩
  have ofByte : ∀ {c : UInt8}, c ≠ 0 → byteAt p = c →
      levelOf (byteAt p) = levelOf c ∧ p.tail.length < p.length := by
    intro c nonzero here
    refine ⟨congrArg levelOf here, ?_⟩
    rw [byteAt_of_cons here nonzero]
    exact Nat.lt_succ_self _
  have ofTyped : ∀ {type : ExprType} {want : UInt8} {str : Bytes} {found : ExprType × Bytes},
      want ≠ ' '.toUInt8 → 0 ∉ want :: str →
      (matchAt (want :: str) p).map (type, ·) = some found →
      levelOf (byteAt p) = levelOf want ∧ found.2.length < p.length := by
    intro type want str found notBlank nonzero typed
    rcases Option.map_eq_some_iff.mp typed with ⟨r, matched, rfl⟩
    exact ofMatch notBlank nonzero matched
  unfold levelOperator at found
  split at found
  · exact ofMatch (by decide) (by decide) found
  · rcases Option.map_eq_some_iff.mp found with ⟨operator, inner, rfl⟩
    unfold mulOperator at inner
    split at inner
    · rename_i here
      cases inner
      exact ofByte (by decide) here
    · rcases Option.or_eq_some_iff.mp inner with first | ⟨-, second⟩
      · exact ofTyped (by decide) (by decide) first
      · exact ofTyped (by decide) (by decide) second
  · rcases Option.map_eq_some_iff.mp found with ⟨operator, inner, rfl⟩
    unfold addOperator at inner
    split at inner
    · rename_i here
      cases inner
      exact ofByte (by decide) here
    · split at inner
      · rename_i here
        cases inner
        exact ofByte (by decide) here
      · cases inner
  · rcases Option.map_eq_some_iff.mp found with ⟨operator, inner, rfl⟩
    unfold relOperator at inner
    rcases Option.or_eq_some_iff.mp inner with front | ⟨-, back⟩
    · rcases Option.or_eq_some_iff.mp front with first | ⟨-, second⟩
      · exact ofTyped (by decide) (by decide) first
      · exact ofTyped (by decide) (by decide) second
    · rcases Option.or_eq_some_iff.mp back with first | ⟨-, second⟩
      · exact ofTyped (by decide) (by decide) first
      · exact ofTyped (by decide) (by decide) second
  · rcases Option.map_eq_some_iff.mp found with ⟨operator, inner, rfl⟩
    unfold eqOperator at inner
    split at inner
    · rename_i here
      cases inner
      exact ofByte (by decide) here
    · split at inner
      · rename_i here
        cases inner
        have first := ofByte (by decide) here.1
        have tail : p.tail.tail.length ≤ p.tail.length := (List.tail_sublist _).length_le
        exact ⟨first.1, Nat.lt_of_le_of_lt tail first.2⟩
      · cases inner
  · exact ofMatch (by decide) (by decide) found
  · exact ofMatch (by decide) (by decide) found
  · cases found

theorem operatorAt_iff {p q : Bytes} {level : Nat} :
    operatorAt p = some (level, q) ↔ levelOperator level p = some q := by
  have single : ∀ (other : Nat) (found : Option Bytes),
      found.map (other, ·) = some (level, q) ↔ other = level ∧ found = some q := by
    intro other found
    cases found with
    | none => simp
    | some r => simp
  have shape : operatorAt p =
      ((levelOperator 7 p).map (7, ·)).or (((levelOperator 5 p).map (5, ·)).or
        (((levelOperator 4 p).map (4, ·)).or (((levelOperator 3 p).map (3, ·)).or
          (((levelOperator 2 p).map (2, ·)).or (((levelOperator 1 p).map (1, ·)).or
            ((levelOperator 0 p).map (0, ·))))))) := by
    unfold operatorAt levelOperator
    simp only [Option.map_map]
    rfl
  rw [shape]
  constructor
  · intro found
    simp only [Option.or_eq_some_iff, single] at found
    rcases found with ⟨rfl, found⟩ | ⟨-, ⟨rfl, found⟩ | ⟨-, ⟨rfl, found⟩ | ⟨-, ⟨rfl, found⟩ |
      ⟨-, ⟨rfl, found⟩ | ⟨-, ⟨rfl, found⟩ | ⟨-, rfl, found⟩⟩⟩⟩⟩⟩ <;> exact found
  · intro found
    have other : ∀ {wrong : Nat}, wrong ≠ level → levelOperator wrong p = none := by
      intro wrong different
      cases outcome : levelOperator wrong p with
      | none => rfl
      | some r =>
          exact absurd ((levelOperator_spec outcome).1.symm.trans (levelOperator_spec found).1) different
    have levels : level = 7 ∨ level = 5 ∨ level = 4 ∨ level = 3 ∨ level = 2 ∨ level = 1 ∨
        level = 0 := by
      unfold levelOperator at found
      split at found
      all_goals first | omega | cases found
    rcases levels with rfl | rfl | rfl | rfl | rfl | rfl | rfl <;>
    · simp only [Option.or_eq_some_iff, single, Option.map_eq_none_iff]
      simp [found, other]

/-! ## The scan never goes back -/

theorem skipSpaces_le (p : Bytes) : (skipSpaces p).length ≤ p.length :=
  (List.dropWhile_sublist _).length_le

theorem tail_le (p : Bytes) : p.tail.length ≤ p.length := (List.tail_sublist p).length_le

theorem tail_lt {p : Bytes} {c : UInt8} (nonzero : c ≠ 0) (here : byteAt p = c) :
    p.tail.length < p.length := by
  rw [byteAt_of_cons here nonzero]
  exact Nat.lt_succ_self _

/-- The next state has no more than `bound` bytes in front of it. -/
def Within (bound : Nat) (next : Except Verdict State) : Prop :=
  ∀ state, next = .ok state → state.p.length ≤ bound

theorem Within.go {bound : Nat} {p : Bytes} (le : p.length ≤ bound) (mode : Mode)
    (stack : List Frame) : Within bound (go mode p stack) := by
  rintro state next
  cases next
  exact (skipSpaces_le p).trans le

theorem Within.error {bound : Nat} (verdict : Verdict) : Within bound (.error verdict) := nofun

theorem nameAt_length {p name rest : Bytes} (found : nameAt p = some (name, rest)) :
    rest.length < p.length := by
  cases p with
  | nil => cases found
  | cons c p =>
      cases found
      exact Nat.lt_succ_of_le (List.dropWhile_sublist _).length_le

theorem Within.nameTest {p : Bytes} (stack : List Frame) :
    Within (p.length - 1) (nameTest p stack) := by
  unfold Scan.nameTest
  cases found : nameAt p with
  | none => exact .error _
  | some result =>
      have shorter := nameAt_length found
      have space := skipSpaces_le result.2
      have tail := tail_le (skipSpaces result.2)
      simp only
      split
      · exact .go (by omega) _ _
      · exact .go (by omega) _ _

theorem Within.named {p : Bytes} (stack : List Frame) : Within (p.length - 1) (named p stack) := by
  unfold Scan.named
  cases found : nameAt p with
  | none => exact .error _
  | some result =>
      have shorter := nameAt_length found
      exact .go (by omega) _ _

theorem Within.axisTest {p : Bytes} (stack : List Frame) : Within p.length (axisTest p stack) := by
  unfold Scan.axisTest
  split
  · exact .go (tail_le p) _ _
  · cases found : nameAt p with
    | none => exact .error _
    | some result =>
        have shorter := nameAt_length found
        have closing : (result.2.dropWhile (· ≠ ')'.toUInt8)).length ≤ result.2.length :=
          (List.dropWhile_sublist _).length_le
        simp only
        split
        · split
          · exact .error _
          · exact .go (by omega) _ _
        · exact .go (by omega) _ _

theorem axisAt_length {p rest : Bytes} {type : ExprType} (found : axisAt p = some (type, rest)) :
    rest.length < p.length := by
  unfold axisAt at found
  rcases List.exists_of_findSome?_eq_some found with ⟨axis, member, matched⟩
  rcases Option.map_eq_some_iff.mp matched with ⟨q, here, same⟩
  cases same
  have spelled := axis_spelling member
  have longer := matchAt_length spelled.1.2 here
  have positive := List.length_pos_of_ne_nil (axis_head member).1
  omega

/-- Only in front of a slash does a step leave all of the text. -/
theorem Within.step {p : Bytes} (stack : List Frame) (other : byteAt p ≠ '/'.toUInt8) :
    Within (p.length - 1) (step p stack) := by
  have tails := tail_le p.tail
  unfold Scan.step
  split
  · rename_i here
    have shorter := tail_lt (by decide) here
    exact .go (by omega) _ _
  · split
    · rename_i here
      have shorter := tail_lt (by decide) here
      refine .go ?_ _ _
      split <;> omega
    · split
      · rename_i here
        have shorter := tail_lt (by decide) here
        split
        · exact .go (by omega) _ _
        · intro state next
          have later := Within.nameTest (p := p.tail) stack state next
          omega
      · cases found : axisAt p with
        | none => exact Within.nameTest stack
        | some result =>
            have shorter := axisAt_length found
            intro state next
            have later := Within.axisTest stack state next
            omega

theorem numberExpr_length {p : Bytes} {tree : Expr} {rest : Bytes}
    (found : numberExpr p = some (tree, rest)) : rest.length ≤ p.length - 1 := by
  have digits : ∀ q : Bytes, (q.dropWhile isDigit).length ≤ q.length := fun q =>
    (List.dropWhile_sublist _).length_le
  have first := digits p.tail
  have second := digits (p.tail.dropWhile isDigit).tail
  have point := tail_le (p.tail.dropWhile isDigit)
  have size : p.tail.length = p.length - 1 := List.length_tail
  unfold numberExpr at found
  simp only at found
  split at found
  · cases found
    have space := skipSpaces_le ((p.tail.dropWhile isDigit).tail.dropWhile isDigit)
    omega
  · cases found
    have space := skipSpaces_le (p.tail.dropWhile isDigit)
    omega

theorem notAt_length {least : Nat} {p q : Bytes} (found : notAt least p = some q) :
    q.length < p.length := by
  unfold notAt at found
  split at found
  · have longer := matchAt_length (by decide) (Option.filter_eq_some_iff.mp found).1
    change q.length + 3 = p.length at longer
    omega
  · cases found

/-- Where an operand begins, it is left behind at once, but for the name of a
step. -/
theorem operand_next {least : Nat} {p : Bytes} {stack : List Frame} {next : State}
    (begins : beginsOperand p = true) (found : operand least p stack = .ok next) :
    next.p.length < p.length ∨
      next = ⟨.step, skipSpaces p, stack⟩ ∧ byteAt p ≠ '/'.toUInt8 ∧ p ≠ [] := by
  have nonempty : 0 < p.length := by
    cases p with
    | nil => exact absurd begins (by decide)
    | cons c p => exact Nat.succ_pos _
  have shorter : Within (p.length - 1) (operand least p stack) → next.p.length < p.length := by
    intro within
    have le := within next found
    omega
  have tails := tail_le p.tail
  have size : p.tail.length = p.length - 1 := List.length_tail
  unfold operand at found shorter
  cases call : notAt least p with
  | some q =>
      rw [call] at shorter
      have less := notAt_length call
      exact .inl (shorter (.go (by omega) _ _))
  | none =>
      simp only [call] at found shorter
      unfold beginsOperand at begins
      simp only [Bool.or_eq_true, decide_eq_true_eq] at begins
      split at found
      · rename_i here
        rw [if_pos here] at shorter
        have quote : (p.tail.dropWhile (· ≠ '\''.toUInt8)).length ≤ p.tail.length :=
          (List.dropWhile_sublist _).length_le
        have behind := tail_le (p.tail.dropWhile (· ≠ '\''.toUInt8))
        exact .inl (shorter (.go (by omega) _ _))
      · rename_i noQuote
        rw [if_neg noQuote] at shorter
        split at found
        · rename_i here
          rw [if_pos here] at shorter
          exact .inl (shorter (.go (by omega) _ _))
        · rename_i noBracket
          rw [if_neg noBracket] at shorter
          split at found
          · rename_i here
            rw [if_pos here] at shorter
            refine .inl (shorter ?_)
            cases number : numberExpr p with
            | none => exact .error _
            | some result => exact .go (numberExpr_length number) _ _
          · rename_i noNumber
            rw [if_neg noNumber] at shorter
            split at found
            · rename_i here
              rw [if_pos here] at shorter
              refine .inl (shorter ?_)
              intro state after
              have le := Within.named stack state after
              omega
            · rename_i noDollar
              rw [if_neg noDollar] at shorter
              split at found
              · rename_i here
                rw [if_pos here] at shorter
                refine .inl (shorter ?_)
                split
                · exact .go (by omega) _ _
                · intro state after
                  have le := Within.named stack state after
                  omega
              · rename_i noAt
                rw [if_neg noAt] at shorter
                split at found
                · rename_i here
                  rw [if_pos here] at shorter
                  by_cases slash : byteAt p = '/'.toUInt8
                  · rw [if_pos slash] at shorter
                    exact .inl (shorter (.go (by omega) _ _))
                  · rw [if_neg slash] at found
                    cases found
                    exact .inr ⟨rfl, slash, List.ne_nil_of_length_pos nonempty⟩
                · rename_i other
                  exact absurd begins (by simp [noQuote, noBracket, noNumber, noDollar, noAt, other])

theorem Within.operand (least : Nat) (p : Bytes) (stack : List Frame) :
    Within p.length (operand least p stack) := by
  intro next found
  by_cases begins : beginsOperand p = true
  · rcases operand_next begins found with less | ⟨rfl, -⟩
    · omega
    · exact skipSpaces_le p
  · unfold beginsOperand at begins
    simp only [Bool.or_eq_true, decide_eq_true_eq, not_or] at begins
    unfold Scan.operand at found
    cases call : notAt least p with
    | some q =>
        have less := notAt_length call
        rw [call] at found
        cases found
        have space := skipSpaces_le q
        change (skipSpaces q).length ≤ p.length
        omega
    | none =>
        simp only [call, begins, if_false, Bool.false_eq_true] at found
        cases found
        exact skipSpaces_le p

theorem Within.close (missing : Bool) (p : Bytes) (stack : List Frame) :
    Within p.length (close missing p stack) := by
  have optional : ∀ c : UInt8, (if byteAt p = c then p.tail else p).length ≤ p.length := by
    intro c
    split
    · exact tail_le p
    · exact Nat.le_refl _
  cases stack with
  | nil => exact .error _
  | cons frame stack =>
      cases frame with
      | group least => exact .go (optional _) _ _
      | filter based =>
          unfold Scan.close
          cases based with
          | true => exact .go (optional _) _ _
          | false => exact .error _
      | call => exact .go (optional _) _ _
      | lost level => exact .error _

theorem Within.settle (least : Nat) (p : Bytes) (stack : List Frame) :
    Within p.length (settle least p stack) := by
  unfold Scan.settle
  split
  · exact .close true p stack
  · exact .go (Nat.le_refl _) _ _

theorem operatorAt_length {p q : Bytes} {level : Nat} (found : operatorAt p = some (level, q)) :
    q.length < p.length :=
  (levelOperator_spec (operatorAt_iff.mp found)).2

theorem Within.missing (least : Nat) (p : Bytes) (stack : List Frame) :
    Within p.length (missing least p stack) := by
  unfold Scan.missing
  split
  · exact .go (tail_le p) _ _
  · split
    · exact .go (tail_le p) _ _
    · split
      · rename_i level q found
        split
        · exact .go (Nat.le_of_lt (operatorAt_length found)) _ _
        · exact .settle least p stack
      · exact .settle least p stack

theorem Within.complete (barred : Option Nat) (p : Bytes) (stack : List Frame) :
    Within p.length (complete barred p stack) := by
  unfold Scan.complete
  split
  · exact .go (tail_le p) _ _
  · split
    · exact .go (tail_le p) _ _
    · split
      · rename_i level q found
        split
        · exact .close false p stack
        · split
          · exact .error _
          · exact .go (Nat.le_of_lt (operatorAt_length found)) _ _
      · exact .close false p stack

theorem Within.arguments (p : Bytes) (stack : List Frame) :
    Within p.length (arguments p stack) := by
  unfold Scan.arguments
  split
  · exact .go (tail_le p) _ _
  · split
    · exact .error _
    · exact .go (Nat.le_refl _) _ _

theorem Within.anyStep (p : Bytes) (stack : List Frame) : Within p.length (Scan.step p stack) := by
  by_cases slash : byteAt p = '/'.toUInt8
  · have marks : byteAt p ≠ '*'.toUInt8 ∧ byteAt p ≠ '.'.toUInt8 := by
      rw [slash]
      decide
    unfold Scan.step
    rw [if_neg marks.1, if_neg marks.2, if_pos slash]
    apply Within.go
    split
    · exact (tail_le p.tail).trans (tail_le p)
    · exact Nat.le_refl _
  · intro next found
    have le := Within.step stack slash next found
    omega

/-- No step of the scan goes back in the text. -/
theorem pass_length {before after : State} (stepped : Steps pass before after) :
    after.p.length ≤ before.p.length := by
  have found : pass before = .ok after := stepped
  rcases before with ⟨mode, p, stack⟩
  cases mode with
  | operand least => exact Within.operand least p stack after found
  | step => exact Within.anyStep p stack after found
  | missing least => exact Within.missing least p stack after found
  | complete barred => exact Within.complete barred p stack after found
  | arguments => exact Within.arguments p stack after found

theorem reaches_length {first last : State} (reached : Reaches pass first last) :
    last.p.length ≤ first.p.length := by
  induction reached with
  | refl => exact Nat.le_refl _
  | tail _ stepped inductionHypothesis => exact (pass_length stepped).trans inductionHypothesis

/-! ## How a scan ends -/

/-- A step that can only fail for want of more text. -/
def Overreads (next : Except Verdict State) : Prop :=
  ∀ verdict, next = .error verdict → verdict = .overread

theorem Overreads.go (mode : Mode) (p : Bytes) (stack : List Frame) :
    Overreads (go mode p stack) := nofun

theorem Overreads.stop : Overreads (.error .overread) := by
  intro verdict same
  cases same
  rfl

theorem Overreads.nameTest (p : Bytes) (stack : List Frame) : Overreads (nameTest p stack) := by
  unfold Scan.nameTest
  split
  · exact .stop
  · simp only
    split <;> exact .go _ _ _

theorem Overreads.named (p : Bytes) (stack : List Frame) : Overreads (named p stack) := by
  unfold Scan.named
  split
  · exact .stop
  · exact .go _ _ _

theorem Overreads.axisTest (p : Bytes) (stack : List Frame) : Overreads (axisTest p stack) := by
  unfold Scan.axisTest
  split
  · exact .go _ _ _
  · split
    · exact .stop
    · split
      · simp only
        split
        · exact .stop
        · exact .go _ _ _
      · exact .go _ _ _

theorem Overreads.operand (least : Nat) (p : Bytes) (stack : List Frame) :
    Overreads (operand least p stack) := by
  unfold Scan.operand
  split
  · exact .go _ _ _
  · split
    · exact .go _ _ _
    · split
      · exact .go _ _ _
      · split
        · split
          · exact .stop
          · exact .go _ _ _
        · split
          · exact .named _ _
          · split
            · split
              · exact .go _ _ _
              · exact .named _ _
            · split <;> exact .go _ _ _

theorem Overreads.step (p : Bytes) (stack : List Frame) : Overreads (step p stack) := by
  unfold Scan.step
  split
  · exact .go _ _ _
  · split
    · exact .go _ _ _
    · split
      · exact .go _ _ _
      · split
        · split
          · exact .go _ _ _
          · exact .nameTest _ _
        · split
          · exact .axisTest _ _
          · exact .nameTest _ _

theorem close_verdict {absent : Bool} {p : Bytes} {stack : List Frame} {verdict : Verdict}
    (stop : close absent p stack = .error verdict) :
    verdict = .nullDeref ∨ stack = [] ∧ verdict = .ends absent p := by
  unfold close at stop
  split at stop
  · cases stop
    exact .inr ⟨rfl, rfl⟩
  · cases stop
  · split at stop
    · cases stop
    · cases stop
      exact .inl rfl
  · cases stop
  · cases stop
    exact .inl rfl

theorem missing_verdict {least : Nat} {p : Bytes} {stack : List Frame} {verdict : Verdict}
    (stop : missing least p stack = .error verdict) :
    verdict = .nullDeref ∨ stack = [] ∧ verdict = .ends true p := by
  have ofSettle : settle least p stack = .error verdict →
      verdict = .nullDeref ∨ stack = [] ∧ verdict = .ends true p := by
    intro settled
    unfold settle at settled
    split at settled
    · exact close_verdict settled
    · cases settled
  unfold missing at stop
  split at stop
  · cases stop
  · split at stop
    · cases stop
    · split at stop
      · split at stop
        · cases stop
        · exact ofSettle stop
      · exact ofSettle stop

/-- Something else than an operator stands behind an operand, outside all
brackets. -/
structure Leftover (barred : Option Nat) (p : Bytes) (stack : List Frame) : Prop where
  outside : stack = []
  slash : byteAt p ≠ '/'.toUInt8
  bracket : byteAt p ≠ '['.toUInt8
  operators : ∀ level q, operatorAt p = some (level, q) → barred = some level

theorem complete_verdict {barred : Option Nat} {p : Bytes} {stack : List Frame} {verdict : Verdict}
    (stop : complete barred p stack = .error verdict) :
    verdict = .nullDeref ∨ Leftover barred p stack ∧ verdict = .ends false p := by
  unfold complete at stop
  split at stop
  · cases stop
  · rename_i slash
    split at stop
    · cases stop
    · rename_i bracket
      split at stop
      · rename_i level q found
        split at stop
        · rename_i bars
          refine (close_verdict stop).imp_right fun ⟨outside, same⟩ => ⟨⟨outside, slash, bracket, ?_⟩, same⟩
          intro other r here
          rw [found] at here
          cases here
          exact bars
        · split at stop
          · cases stop
            exact .inl rfl
          · cases stop
      · rename_i found
        refine (close_verdict stop).imp_right fun ⟨outside, same⟩ => ⟨⟨outside, slash, bracket, ?_⟩, same⟩
        intro other r here
        rw [found] at here
        cases here

/-- Only the arguments of a call can stall a scan. -/
theorem pass_stalls {state : State} :
    pass state = .error .stalls ↔
      state.mode = .arguments ∧ byteAt state.p ≠ ')'.toUInt8 ∧ stuck state.p = true := by
  rcases state with ⟨mode, p, stack⟩
  constructor
  · intro stop
    cases mode with
    | operand least => exact absurd (Overreads.operand least p stack _ stop) nofun
    | step => exact absurd (Overreads.step p stack _ stop) nofun
    | missing least => rcases missing_verdict stop with wrong | ⟨-, wrong⟩ <;> cases wrong
    | complete barred => rcases complete_verdict stop with wrong | ⟨-, wrong⟩ <;> cases wrong
    | arguments =>
        refine ⟨rfl, ?_⟩
        change arguments p stack = _ at stop
        unfold arguments at stop
        split at stop
        · cases stop
        · rename_i open_
          split at stop
          · rename_i stays
            exact ⟨open_, stays⟩
          · cases stop
  · rintro ⟨same, open_, stays⟩
    cases same
    change arguments p stack = _
    unfold arguments
    rw [if_neg open_, if_pos stays]

/-- A scan that has found an operand ends behind it. -/
theorem pass_ends {state : State} {rest : Bytes} :
    pass state = .error (.ends false rest) ↔
      state.p = rest ∧ Exists fun barred => state.mode = .complete barred ∧
        Leftover barred rest state.stack := by
  rcases state with ⟨mode, p, stack⟩
  constructor
  · intro stop
    cases mode with
    | operand least => exact absurd (Overreads.operand least p stack _ stop) nofun
    | step => exact absurd (Overreads.step p stack _ stop) nofun
    | missing least => rcases missing_verdict stop with wrong | ⟨-, wrong⟩ <;> cases wrong
    | complete barred =>
        rcases complete_verdict stop with wrong | ⟨leftover, same⟩
        · cases wrong
        · cases same
          exact ⟨rfl, barred, rfl, leftover⟩
    | arguments =>
        change arguments p stack = _ at stop
        unfold arguments at stop
        split at stop
        · cases stop
        · split at stop <;> cases stop
  · rintro ⟨rfl, barred, same, leftover⟩
    cases same
    change complete barred p stack = _
    unfold complete
    have outside : stack = [] := leftover.outside
    subst outside
    rw [if_neg leftover.slash, if_neg leftover.bracket]
    cases found : operatorAt p with
    | none => rfl
    | some operator =>
        rcases operator with ⟨level, q⟩
        simp only [if_pos (leftover.operators level q found)]
        rfl

end Scan

end TurboXSL
