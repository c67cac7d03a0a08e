import TurboXSL.Printing

namespace TurboXSL

/-!
# Every term is compiled to its tree

The induction over terms.  A term is read at its own level and, by the lemmas
of the levels, at every looser one; where brackets are printed around it, it
is an atom.
-/

/-- What the printed form of a term is to the parser. -/
structure Term.Reads (term : Term) : Prop where
  opening : Opening term.printed
  noCall : 7 ≤ term.level → NoCall term.printed
  reads : ReadsAt (min term.level 8) term.printed term.tree
  atom : term.level = 9 → Atom term.printed term.tree
  left : 2 ≤ term.level → term.level ≤ 5 → ReadsLeft term.level term.printed term.tree

namespace Term

theorem level_le (term : Term) : term.level ≤ 9 := by
  have ofOperator : ∀ operator : Operator, operator.level ≤ 9 := by
    intro operator
    cases operator <;> decide
  have ofJunction : ∀ junction : Junction, junction.level ≤ 9 := by
    intro junction
    cases junction <;> decide
  cases term with
  | binary operator left right => exact ofOperator operator
  | many junction first second rest => exact ofJunction junction
  | integer | text | variable_ | call => exact Nat.le_refl 9
  | child | attribute_ | filter => exact Nat.le_succ 8
  | not => exact (by decide : 6 ≤ 9)

namespace Reads

variable {term : Term}

theorem ofAtom (atomic : term.level = 9) (atom : Atom term.printed term.tree) : term.Reads where
  opening := atom.toOpening
  noCall := fun _ => atom.noCall
  reads := by
    rw [atomic]
    exact atom.readsAt
  atom := fun _ => atom
  left := by
    intro _ high
    omega

theorem lower (reads : term.Reads) {looser : Nat} (le : looser ≤ term.level) (top : looser ≤ 8) :
    ReadsAt looser term.printed term.tree :=
  reads.reads.lower reads.opening (fun high => reads.noCall (by omega)) (Nat.min_le_right _ _)
    (by omega)

/-- With the brackets a step asks for, every term is an atom. -/
theorem atomic (reads : term.Reads) : Atom (bracketed term.level 9 term.printed) term.tree := by
  unfold bracketed
  split
  · exact .bracketed (reads.lower (Nat.zero_le _) (by decide))
  · have bound := term.level_le
    exact reads.atom (by omega)

/-- A term below an operator, with the brackets its level asks for. -/
theorem operand (reads : term.Reads) {least : Nat} (top : least ≤ 8) :
    Opening (bracketed term.level least term.printed) ∧
      ReadsAt least (bracketed term.level least term.printed) term.tree := by
  unfold bracketed
  split
  · have atom := Atom.bracketed (reads.lower (Nat.zero_le _) (by decide))
    exact ⟨atom.toOpening, atom.readsAt.lower atom.toOpening (fun _ => atom.noCall) (Nat.le_refl 8) top⟩
  · exact ⟨reads.opening, reads.lower (by omega) top⟩

theorem leftOperand (reads : term.Reads) {level : Nat} (low : 2 ≤ level) (high : level ≤ 5) :
    ReadsLeft level (bracketed term.level level term.printed) term.tree := by
  by_cases same : term.level = level
  · unfold bracketed
    rw [if_neg (by omega), ← same]
    exact reads.left (by omega) (by omega)
  · have shape : bracketed term.level level term.printed =
        bracketed term.level (level + 1) term.printed := by
      unfold bracketed
      split
      · rw [if_pos (by omega)]
      · rw [if_neg (by omega)]
    rw [shape]
    exact (reads.operand (by omega)).2.left

theorem ofLeft {level : Nat} (same : term.level = level) (low : 2 ≤ level) (high : level ≤ 5)
    (opening : Opening term.printed) (reads : ReadsLeft level term.printed term.tree) :
    term.Reads where
  opening := opening
  noCall := by
    intro above
    omega
  reads := by
    rw [same, Nat.min_eq_left (by omega)]
    exact reads.readsAt low high
  atom := by
    intro atomic
    omega
  left := by
    intro _ _
    rw [same]
    exact reads

/-- A step or a filter on an atom. -/
theorem ofStep (node : term.level = 8) {text : Bytes} {tree : Expr} (atom : Atom text tree)
    {more : Bytes} (shape : term.printed = text ++ more) (reads : ReadsAt 8 (text ++ more) term.tree) :
    term.Reads where
  opening := by
    rw [shape]
    exact atom.toOpening.append more
  noCall := by
    intro _
    rw [shape]
    exact atom.noCall.append more
  reads := by
    rw [node, shape]
    exact reads
  atom := by
    intro atomic
    omega
  left := by
    intro _ high
    omega

end Reads

/-- What a junction's operand is to the parser. -/
theorem Reads.readsOperand {term : Term} (reads : term.Reads) (junction : Junction) :
    ReadsOperand junction.level
      (bracketed term.level junction.operandLevel term.printed, term.tree) := by
  have there := term.tree_ne_null
  cases junction with
  | union => exact ⟨reads.atomic.toOpening, reads.atomic.readsAt, there⟩
  | and => exact ⟨(reads.operand (by decide)).1, (reads.operand (by decide)).2, there⟩
  | or => exact ⟨(reads.operand (by decide)).1, (reads.operand (by decide)).2, there⟩

theorem Reads.many {junction : Junction} {first second : Term} {rest : List Term}
    (readsFirst : first.Reads) (readsSecond : second.Reads) (readsRest : ∀ term ∈ rest, term.Reads) :
    (Term.many junction first second rest).Reads := by
  have operands : ∀ operand ∈ (first :: second :: rest).map fun term =>
      (bracketed term.level junction.operandLevel term.printed, term.tree),
        ReadsOperand junction.level operand := by
    intro operand member
    rcases List.mem_map.mp member with ⟨term, inside, rfl⟩
    rcases List.mem_cons.mp inside with rfl | inside
    · exact readsFirst.readsOperand junction
    · rcases List.mem_cons.mp inside with rfl | inside
      · exact readsSecond.readsOperand junction
      · exact (readsRest term inside).readsOperand junction
  have read := ReadsAt.many junction operands
  have printed : (Term.many junction first second rest).printed =
      separated (spaced junction.symbol) (((first :: second :: rest).map fun term =>
        (bracketed term.level junction.operandLevel term.printed, term.tree)).map Prod.fst) := by
    rw [List.map_map]
    change separated _ (_ :: _ :: printedAll junction.operandLevel rest) = _
    rw [printedAll_eq_map]
    rfl
  have tree : (Term.many junction first second rest).tree = .node { type := junction.type }
      (.chained (((first :: second :: rest).map fun term =>
        (bracketed term.level junction.operandLevel term.printed, term.tree)).map Prod.snd)) .null := by
    rw [List.map_map]
    change Expr.node _ (first.tree.withNext (second.tree.withNext (.chained (trees rest)))) .null = _
    rw [trees_eq_map]
    rfl
  have begins := operands _ List.mem_cons_self
  refine ⟨?_, ?_, ?_, ?_, ?_⟩
  · rw [printed, List.map_cons, List.map_cons, List.map_cons, List.map_cons, separated_cons,
      List.append_assoc]
    exact begins.opening.append _
  · intro high
    cases junction with
    | union =>
        rw [printed, List.map_cons, List.map_cons, List.map_cons, List.map_cons, separated_cons,
          List.append_assoc]
        exact readsFirst.atomic.noCall.append _
    | and => exact absurd high (by decide : ¬ 7 ≤ 1)
    | or => exact absurd high (by decide : ¬ 7 ≤ 0)
  · rw [printed, tree]
    have level : min (Term.many junction first second rest).level 8 = junction.level := by
      cases junction <;> rfl
    rw [level]
    exact read
  · intro atomic
    rcases junction.many_level with level | level | level <;>
    · rw [show (Term.many junction first second rest).level = junction.level from rfl, level] at atomic
      omega
  · intro low high
    change 2 ≤ junction.level at low
    change junction.level ≤ 5 at high
    rcases junction.many_level with level | level | level <;> omega

/-- The printed form of every term is read at every level that may hold it. -/
theorem reads (term : Term) : term.Reads := by
  induction term using Term.induction with
  | integer value => exact .ofAtom rfl (.integer value)
  | text content => exact .ofAtom rfl (.text content)
  | variable_ name => exact .ofAtom rfl (.variable_ name)
  | call name other arguments inductionHypothesis =>
      refine .ofAtom rfl ?_
      have known : ∀ argument ∈ arguments.map fun term => (bracketed term.level 0 term.printed, term.tree),
          Opening argument.1 ∧ ReadsAt 0 argument.1 argument.2 ∧ argument.2 ≠ .null := by
        intro argument member
        rcases List.mem_map.mp member with ⟨term, inside, rfl⟩
        have read := (inductionHypothesis term inside).operand (Nat.zero_le 8)
        exact ⟨read.1, read.2, term.tree_ne_null⟩
      have atom := Atom.call name other (fun argument member => (known argument member).1)
        (fun argument member => (known argument member).2.1)
        (fun argument member => (known argument member).2.2)
      rw [List.map_map, List.map_map] at atom
      unfold printed tree
      rw [printedAll_eq_map, trees_eq_map]
      exact atom
  | child operand name inductionHypothesis =>
      have atom := inductionHypothesis.atomic
      exact .ofStep rfl atom (List.append_assoc _ _ _) (.child atom name)
  | attribute_ operand name inductionHypothesis =>
      have atom := inductionHypothesis.atomic
      exact .ofStep rfl atom (List.append_assoc _ _ _) (.attribute_ atom name)
  | filter operand predicate inductionHypothesis inner =>
      have atom := inductionHypothesis.atomic
      exact .ofStep rfl atom (List.append_assoc _ _ _)
        (.filter atom operand.tree_ne_null (inner.lower (Nat.zero_le _) (by decide)))
  | not operand inductionHypothesis =>
      have atom := Atom.bracketed (inductionHypothesis.lower (Nat.zero_le _) (by decide))
      refine ⟨?_, ?_, .not atom, ?_, ?_⟩
      · exact ⟨List.cons_ne_nil _ _, (by decide : xIsWs 'n'.toUInt8 = false),
          (by decide : 'n'.toUInt8 ≠ ')'.toUInt8)⟩
      · intro high
        exact absurd high (by decide : ¬ 7 ≤ 6)
      · intro atomic
        exact absurd atomic (by decide : ¬ 6 = 9)
      · intro _ high
        exact absurd high (by decide : ¬ 6 ≤ 5)
  | binary operator left right readsLeft readsRight =>
      have bounds : 2 ≤ operator.level ∧ operator.level ≤ 5 := by
        cases operator <;> decide
      have second := readsRight.operand (show operator.level + 1 ≤ 8 by omega)
      have first := readsLeft.leftOperand bounds.1 bounds.2
      have begins := readsLeft.operand (show operator.level ≤ 8 by omega)
      refine .ofLeft rfl bounds.1 bounds.2 ?_ (first.extend left.tree_ne_null second.1 second.2)
      unfold printed
      rw [List.append_assoc]
      exact begins.1.append _
  | many junction first second rest readsFirst readsSecond readsRest =>
      exact .many readsFirst readsSecond readsRest

end Term

/-- Compiling the printed form of a term gives its tree back, and leaves
nothing of the text. -/
theorem printed_compiled (term : Term) :
    doOrExpr (term.printed.length + 1) term.printed = some (term.tree, []) ∧
      xpathCompile term.printed = some term.tree := by
  have read := (term.reads.lower (Nat.zero_le _) (by decide) : ReadsAt 0 _ _) term.printed.length []
    (Nat.le_refl _) .nil
  rw [List.append_nil] at read
  have whole : doOrExpr (term.printed.length + 1) term.printed = some (term.tree, []) := read
  refine ⟨whole, ?_⟩
  unfold xpathCompile
  rw [whole]
  rfl

end TurboXSL
