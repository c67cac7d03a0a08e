import TurboXSL.Terms

namespace TurboXSL

namespace Compile

/-!
# The compiler with its failures told apart

The parsers of compiled expressions answer `none` for everything that goes
wrong.  Here the same functions say what it is: a NULL pointer is followed, a
byte behind the NUL is read, or the turns allowed to a loop are used up
(`running`), and whether `error()` was called on the way.  A loop that starts
with `n` bytes in front of it is allowed `budget n` turns, brackets may be
nested `depth` deep, and nothing is said about the compiler itself unless it
holds for every allowance.
-/

/-- Why the compiler has not returned. -/
inductive Halt where
  | nullDeref
  | overread
  | running
deriving DecidableEq, Repr

/-- What is built, the bytes behind it, and whether an error was reported. -/
abbrev Found (α : Type) := α × Bytes × Bool

abbrev Compiler := Bytes → Except Halt (Found Expr)

/-- What is missing stops the compiler. -/
def orHalt {α : Type} (halt : Halt) : Option α → Except Halt α
  | none => .error halt
  | some value => .ok value

/-- The node test behind an axis: the scan for the closing bracket does not
look for the NUL. -/
def axisTest (type : ExprType) : Compiler := fun p =>
  if byteAt p = '*'.toUInt8 then .ok (.leaf { type := type }, p.tail, false)
  else do
    let (name, p) ← orHalt .overread (nameAt p)
    if byteAt p = '('.toUInt8 then
      let closing := p.dropWhile (· ≠ ')'.toUInt8)
      if closing = [] then .error .overread
      else .ok (.leaf { type := type, kind := some (.call name) }, closing, false)
    else .ok (.leaf { type := type, name := some name, kind := some (.named name) }, p, false)

/-- `do_var_expr` -/
def doVarExpr (type : ExprType) : Compiler := fun p => do
  let (name, p) ← orHalt .overread (nameAt p)
  .ok (.leaf { type := type, name := some name }, skipSpaces p, false)

section Levels

variable (budget : Nat → Nat) (doOrExpr : Compiler)

/-- The loop over the arguments of a call.  `xml_add_child` does not add a
NULL argument. -/
def callArguments : Nat → Bytes → Except Halt (Found (List Expr))
  | 0, _ => .error .running
  | fuel + 1, p =>
      let p := skipSpaces p
      if byteAt p = ')'.toUInt8 then .ok ([], p.tail, false)
      else do
        let (argument, p, reported) ← doOrExpr p
        let p := skipSpaces p
        let (rest, p, later) ← callArguments fuel (if byteAt p = ','.toUInt8 then p.tail else p)
        .ok (if argument = .null then rest else argument :: rest, p, reported || later)

/-- The end of `do_select_expr`: a name, which brackets make a call. -/
def nameTest (result : Option ExprType) : Compiler := fun p => do
  let (name, p) ← orHalt .overread (nameAt p)
  let p := skipSpaces p
  if byteAt p = '('.toUInt8 then
    let (arguments, p, reported) ← callArguments doOrExpr (budget p.length) p.tail
    .ok (.node { type := .call, name := some name } (.chained arguments) .null, p, reported)
  else
    match result with
    | none => .ok (.leaf { type := .select, name := some name, kind := some (.named name) }, p, false)
    | some type => .ok (.leaf { type := type, name := some name }, p, false)

/-- `do_select_expr` -/
def doSelectExpr : Compiler := fun p =>
  let p := skipSpaces p
  if byteAt p = '*'.toUInt8 then .ok (.leaf { type := .all }, p.tail, false)
  else if byteAt p = '.'.toUInt8 then
    if byteAt p.tail = '.'.toUInt8 then .ok (.leaf { type := .parent }, p.tail.tail, false)
    else .ok (.leaf { type := .self }, p.tail, false)
  else if byteAt p = '/'.toUInt8 then
    .ok (.leaf { type := .descendant }, if byteAt p.tail = '*'.toUInt8 then p.tail.tail else p, false)
  else if byteAt p = '@'.toUInt8 then
    if byteAt p.tail = '*'.toUInt8 then .ok (.leaf { type := .attrAll }, p.tail.tail, false)
    else nameTest budget doOrExpr (some .attr) p.tail
  else
    match axisAt p with
    | some (type, p) => axisTest type p
    | none => nameTest budget doOrExpr none p

/-- `do_node2_expr`: where no operand begins, an error is reported and the
cursor stays. -/
def doNode2Expr : Compiler := fun p =>
  let p := skipSpaces p
  if byteAt p = '\''.toUInt8 then
    let content := p.tail.takeWhile (· ≠ '\''.toUInt8)
    .ok (.leaf { type := .text, content := content },
      skipSpaces (p.tail.dropWhile (· ≠ '\''.toUInt8)).tail, false)
  else if byteAt p = '('.toUInt8 then do
    let (node1, p, reported) ← doOrExpr p.tail
    let p := skipSpaces p
    .ok (node1, if byteAt p = ')'.toUInt8 then skipSpaces p.tail else p, reported)
  else if xCanNumber p then do
    let (node1, p) ← orHalt .overread (numberExpr p)
    .ok (node1, p, false)
  else if byteAt p = '$'.toUInt8 then doVarExpr .var p.tail
  else if byteAt p = '@'.toUInt8 then
    if byteAt p.tail = '*'.toUInt8 then .ok (.leaf { type := .attrAll }, p.tail.tail, false)
    else doVarExpr .attr p.tail
  else if xIsSelchar (byteAt p) then do
    let rooted := byteAt p = '/'.toUInt8
    let (node1, p, reported) ← doSelectExpr budget doOrExpr (if rooted then p.tail else p)
    if node1.type? = some .select ∨ node1.type? = some .descendant then
      let based ← orHalt .nullDeref
        (node1.setChildren (.leaf { type := if rooted then .root else .context }))
      .ok (based, p, reported)
    else .ok (node1, p, reported)
  else .ok (.null, p, true)

/-- The loop of `do_node_expr`: further steps and filters on `node1`.  A filter
without its closing bracket is reported. -/
def nodeSteps : Nat → Expr → Compiler
  | 0, _, _ => .error .running
  | fuel + 1, node1, p =>
      let p := skipSpaces p
      if byteAt p = '/'.toUInt8 then do
        let (node2, p, reported) ← doSelectExpr budget doOrExpr p.tail
        let step ← orHalt .nullDeref (node2.setChildren node1)
        let (node, p, later) ← nodeSteps fuel step p
        .ok (node, p, reported || later)
      else if byteAt p = '['.toUInt8 then do
        let (node2, p, reported) ← doOrExpr p.tail
        let p := skipSpaces p
        let closed := byteAt p = ']'.toUInt8
        let operands ← orHalt .nullDeref (node1.setNext node2)
        let (node, p, later) ← nodeSteps fuel (.node { type := .filter } operands .null)
          (if closed then p.tail else p)
        .ok (node, p, reported || !decide closed || later)
      else .ok (node1, p, false)

/-- `do_node_expr` -/
def doNodeExpr : Compiler := fun p => do
  let (node1, p, reported) ← doNode2Expr budget doOrExpr p
  let (node, p, later) ← nodeSteps budget doOrExpr (budget p.length) node1 p
  .ok (node, p, reported || later)

/-- `do { node1->next = sub(...); node1 = node1->next; } while (node1 &&
match(separator))` -/
def furtherOperands (sub : Compiler) (separator : Bytes) :
    Nat → Expr → Bytes → Except Halt (Found (List Expr))
  | 0, _, _ => .error .running
  | fuel + 1, node1, p => do
      let (next, p, reported) ← sub p
      if node1 = .null then .error .nullDeref
      else
        let p := skipSpaces p
        if next = .null then .ok ([], p, reported)
        else
          match matchAt separator p with
          | none => .ok ([next], p, reported)
          | some p => do
              let (rest, p, later) ← furtherOperands sub separator fuel next p
              .ok (next :: rest, p, reported || later)

/-- A level whose operator takes any number of operands. -/
def manyOperands (sub : Compiler) (separator : Bytes) (type : ExprType) : Compiler := fun p => do
  let (node1, p, reported) ← sub p
  let p := skipSpaces p
  match matchAt separator p with
  | none => .ok (node1, p, reported)
  | some p => do
      let (rest, p, later) ← furtherOperands sub separator (budget p.length) node1 (skipSpaces p)
      .ok (.node { type := type } (node1.withNext (.chained rest)) .null, p, reported || later)

/-- The loop of a level whose operators take two operands, from the left. -/
def furtherOperators (sub : Compiler) (operator : Bytes → Option (ExprType × Bytes)) :
    Nat → Expr → Compiler
  | 0, _, _ => .error .running
  | fuel + 1, node1, p =>
      let p := skipSpaces p
      match operator p with
      | none => .ok (node1, p, false)
      | some (type, p) => do
          let (node2, p, reported) ← sub (skipSpaces p)
          let operands ← orHalt .nullDeref (node1.setNext node2)
          let (node, p, later) ← furtherOperators sub operator fuel
            (.node { type := type } operands .null) p
          .ok (node, p, reported || later)

def leftOperators (sub : Compiler) (operator : Bytes → Option (ExprType × Bytes)) : Compiler :=
  fun p => do
    let (node1, p, reported) ← sub p
    let (node, p, later) ← furtherOperators sub operator (budget p.length) node1 p
    .ok (node, p, reported || later)

/-- `do_union_expr` -/
def doUnionExpr : Compiler := fun p =>
  manyOperands budget (doNodeExpr budget doOrExpr) (lit "|") .union (skipSpaces p)

/-- `do_not_expr` -/
def doNotExpr : Nat → Compiler
  | 0, _ => .error .running
  | fuel + 1, p =>
      let p := skipSpaces p
      match matchAt (lit "not") p with
      | some q =>
          if byteAt q = '('.toUInt8 ∨ xIsWs (byteAt q) then do
            let (operand, p, reported) ← doNotExpr fuel (skipSpaces q)
            .ok (.node { type := .not } operand .null, p, reported)
          else doUnionExpr budget doOrExpr p
      | none => doUnionExpr budget doOrExpr p

/-- `do_mul_expr` -/
def doMulExpr : Compiler :=
  leftOperators budget (fun p => doNotExpr budget doOrExpr (budget p.length) p) mulOperator

/-- `do_add_expr` -/
def doAddExpr : Compiler := leftOperators budget (doMulExpr budget doOrExpr) addOperator

/-- `do_rel_expr` -/
def doRelExpr : Compiler := leftOperators budget (doAddExpr budget doOrExpr) relOperator

/-- `do_eq_expr` -/
def doEqExpr : Compiler := leftOperators budget (doRelExpr budget doOrExpr) eqOperator

/-- `do_and_expr` -/
def doAndExpr : Compiler := manyOperands budget (doEqExpr budget doOrExpr) (lit "and ") .and

end Levels

/-- `do_or_expr` -/
def doOrExpr (budget : Nat → Nat) : Nat → Compiler
  | 0, _ => .error .running
  | depth + 1, p =>
      manyOperands budget (doAndExpr budget (doOrExpr budget depth)) (lit "or ") .or (skipSpaces p)

/-- `xpath_compile` on a text, with an allowance for the loops and one for the
nesting of brackets. -/
def xpathCompile (budget : Nat → Nat) (depth : Nat) (expr : CString) : Except Halt (Found Expr) :=
  doOrExpr budget depth expr.bytes

/-! ## The parsers of compiled expressions -/

/-- A result without the errors that were reported. -/
def forget {α : Type} : Except Halt (Found α) → Option (α × Bytes)
  | .ok (value, rest, _) => some (value, rest)
  | .error _ => none

/-- The compiler and the parser of one level do the same, failures apart. -/
def Agrees (compiler : Compiler) (parser : Parser) : Prop := ∀ p, forget (compiler p) = parser p

/-- One turn for every byte, and one to see the end. -/
def enough (length : Nat) : Nat := length + 1

theorem forget_bind {α β : Type} {found : Except Halt (Found α)}
    {after : Found α → Except Halt (Found β)} {parsed : α × Bytes → Option (β × Bytes)}
    (same : ∀ value rest reported, found = .ok (value, rest, reported) →
      forget (after (value, rest, reported)) = parsed (value, rest)) :
    forget (found >>= after) = forget found >>= parsed := by
  cases outcome : found with
  | error halt => rfl
  | ok result => exact same _ _ _ outcome

/-- Only the report is changed. -/
theorem forget_report {α : Type} {found : Except Halt (Found α)}
    {after : Found α → Except Halt (Found α)} {report : Bool → Bool}
    (same : ∀ value rest reported,
      after (value, rest, reported) = .ok (value, rest, report reported)) :
    forget (found >>= after) = forget found := by
  cases found with
  | error halt => rfl
  | ok result =>
      change forget (after (result.1, result.2.1, result.2.2)) = _
      rw [same]
      rfl

theorem forget_orHalt {α β : Type} (halt : Halt) (known : Option α)
    (after : α → Except Halt (Found β)) :
    forget (orHalt halt known >>= after) = known >>= fun value => forget (after value) := by
  cases known <;> rfl

theorem axisTest_agrees (type : ExprType) : Agrees (axisTest type) (TurboXSL.axisTest type) := by
  intro p
  unfold axisTest TurboXSL.axisTest
  split
  · rfl
  · rw [forget_orHalt]
    congr 1
    funext found
    simp only
    split
    · split <;> rfl
    · rfl

theorem doVarExpr_agrees (type : ExprType) : Agrees (doVarExpr type) (TurboXSL.doVarExpr type) := by
  intro p
  unfold doVarExpr TurboXSL.doVarExpr
  rw [forget_orHalt]
  rfl

section Agreement

variable {compiler : Compiler} {parser : Parser} (agrees : Agrees compiler parser)

include agrees

theorem callArguments_agrees (fuel : Nat) (p : Bytes) :
    forget (callArguments compiler fuel p) = TurboXSL.callArguments parser fuel p := by
  induction fuel generalizing p with
  | zero => rfl
  | succ fuel inductionHypothesis =>
      unfold callArguments TurboXSL.callArguments
      simp only
      split
      · rfl
      · rw [← agrees]
        apply forget_bind
        intro argument rest reported _
        simp only
        rw [← inductionHypothesis]
        apply forget_bind
        intro others rest later _
        rfl

omit agrees in
theorem callArguments_there {fuel : Nat} {p rest : Bytes} {arguments : List Expr} {reported : Bool}
    (found : callArguments compiler fuel p = .ok (arguments, rest, reported)) :
    ∀ argument ∈ arguments, argument ≠ .null := by
  induction fuel generalizing p rest arguments reported with
  | zero => cases found
  | succ fuel inductionHypothesis =>
      unfold callArguments at found
      simp only at found
      split at found
      · cases found
        exact fun _ member => absurd member List.not_mem_nil
      · cases first : compiler (skipSpaces p) with
        | error halt =>
            rw [first] at found
            cases found
        | ok result =>
            rcases result with ⟨argument, behind, said⟩
            simp only [first] at found
            change (callArguments compiler fuel _ >>= fun result => _) = _ at found
            cases others : callArguments compiler fuel (if byteAt (skipSpaces behind) = ','.toUInt8
              then (skipSpaces behind).tail else skipSpaces behind) with
            | error halt =>
                rw [others] at found
                cases found
            | ok result =>
                rcases result with ⟨more, last, later⟩
                rw [others] at found
                cases found
                intro expr member
                have known := inductionHypothesis others
                split at member
                · exact known expr member
                · rcases List.mem_cons.mp member with rfl | member
                  · assumption
                  · exact known expr member

theorem nameTest_agrees (result : Option ExprType) :
    Agrees (nameTest enough compiler result) (TurboXSL.nameTest parser result) := by
  intro p
  unfold nameTest TurboXSL.nameTest
  rw [forget_orHalt]
  congr 1
  funext found
  simp only
  split
  · rw [← callArguments_agrees agrees]
    apply forget_bind
    intro arguments rest reported outcome
    simp only [Expr.link_eq_chained (callArguments_there outcome)]
    rfl
  · cases result <;> rfl

theorem doSelectExpr_agrees :
    Agrees (doSelectExpr enough compiler) (TurboXSL.doSelectExpr parser) := by
  intro p
  unfold doSelectExpr TurboXSL.doSelectExpr
  simp only
  split
  · rfl
  · split
    · split <;> rfl
    · split
      · rfl
      · split
        · split
          · rfl
          · exact nameTest_agrees agrees _ _
        · cases axisAt (skipSpaces p) with
          | none => exact nameTest_agrees agrees _ _
          | some found => exact axisTest_agrees _ _

theorem doNode2Expr_agrees :
    Agrees (doNode2Expr enough compiler) (TurboXSL.doNode2Expr parser) := by
  intro p
  unfold doNode2Expr TurboXSL.doNode2Expr
  simp only
  split
  · rfl
  · split
    · rw [← agrees]
      apply forget_bind
      intro node1 rest reported _
      rfl
    · split
      · rw [forget_orHalt]
        cases numberExpr (skipSpaces p) <;> rfl
      · split
        · exact doVarExpr_agrees _ _
        · split
          · split
            · rfl
            · exact doVarExpr_agrees _ _
          · split
            · rw [← doSelectExpr_agrees agrees]
              apply forget_bind
              intro node1 rest reported _
              simp only
              split
              · rw [forget_orHalt]
                rfl
              · rfl
            · rfl

theorem nodeSteps_agrees (fuel : Nat) (node1 : Expr) :
    Agrees (nodeSteps enough compiler fuel node1) (TurboXSL.nodeSteps parser fuel node1) := by
  induction fuel generalizing node1 with
  | zero => exact fun _ => rfl
  | succ fuel inductionHypothesis =>
      intro p
      unfold nodeSteps TurboXSL.nodeSteps
      simp only
      split
      · rw [← doSelectExpr_agrees agrees]
        apply forget_bind
        intro node2 rest reported _
        simp only
        rw [forget_orHalt]
        congr 1
        funext step
        rw [← inductionHypothesis]
        exact forget_report fun _ _ _ => rfl
      · split
        · rw [← agrees]
          apply forget_bind
          intro node2 rest reported _
          simp only
          rw [forget_orHalt]
          congr 1
          funext operands
          rw [← inductionHypothesis]
          exact forget_report fun _ _ _ => rfl
        · rfl

theorem doNodeExpr_agrees : Agrees (doNodeExpr enough compiler) (TurboXSL.doNodeExpr parser) := by
  intro p
  unfold doNodeExpr TurboXSL.doNodeExpr
  rw [← doNode2Expr_agrees agrees]
  apply forget_bind
  intro node1 rest reported _
  simp only
  rw [← nodeSteps_agrees agrees]
  exact forget_report fun _ _ _ => rfl

end Agreement

section Operators

variable {sub : Compiler} {subParser : Parser} (agrees : Agrees sub subParser)

include agrees

theorem furtherOperands_agrees (separator : Bytes) (fuel : Nat) {node1 : Expr}
    (there : node1 ≠ .null) (p : Bytes) :
    forget (furtherOperands sub separator fuel node1 p) =
      TurboXSL.furtherOperands subParser separator fuel p := by
  induction fuel generalizing node1 p with
  | zero => rfl
  | succ fuel inductionHypothesis =>
      unfold furtherOperands TurboXSL.furtherOperands
      rw [← agrees]
      apply forget_bind
      intro next rest reported _
      simp only [if_neg there]
      split
      · rfl
      · rename_i known
        cases matchAt separator (skipSpaces rest) with
        | none => rfl
        | some p =>
            simp only
            rw [← inductionHypothesis known]
            apply forget_bind
            intro others last later _
            rfl

omit agrees in
theorem furtherOperands_there {separator : Bytes} {fuel : Nat} {node1 : Expr} {p rest : Bytes}
    {operands : List Expr} {reported : Bool}
    (found : furtherOperands sub separator fuel node1 p = .ok (operands, rest, reported)) :
    node1 ≠ .null ∧ ∀ operand ∈ operands, operand ≠ .null := by
  induction fuel generalizing node1 p rest operands reported with
  | zero => cases found
  | succ fuel inductionHypothesis =>
      unfold furtherOperands at found
      cases outcome : sub p with
      | error halt =>
          rw [outcome] at found
          cases found
      | ok result =>
          rcases result with ⟨next, behind, said⟩
          rw [outcome] at found
          change (if node1 = .null then _ else _) = _ at found
          split at found
          · cases found
          · rename_i there
            refine ⟨there, ?_⟩
            simp only at found
            split at found
            · cases found
              exact fun _ member => absurd member List.not_mem_nil
            · rename_i known
              cases matched : matchAt separator (skipSpaces behind) with
              | none =>
                  rw [matched] at found
                  cases found
                  intro operand member
                  rw [List.mem_singleton.mp member]
                  exact known
              | some p =>
                  rw [matched] at found
                  simp only at found
                  cases more : furtherOperands sub separator fuel next p with
                  | error halt =>
                      rw [more] at found
                      cases found
                  | ok result =>
                      rcases result with ⟨others, last, later⟩
                      rw [more] at found
                      cases found
                      intro operand member
                      rcases List.mem_cons.mp member with rfl | member
                      · exact known
                      · exact (inductionHypothesis more).2 operand member

theorem manyOperands_agrees (separator : Bytes) (type : ExprType) :
    Agrees (manyOperands enough sub separator type)
      (TurboXSL.manyOperands subParser separator type) := by
  intro p
  unfold manyOperands TurboXSL.manyOperands
  rw [← agrees]
  apply forget_bind
  intro node1 rest reported _
  simp only
  cases matchAt separator (skipSpaces rest) with
  | none => rfl
  | some p =>
      simp only
      by_cases there : node1 = .null
      · have stops : forget (furtherOperands sub separator (enough p.length) node1 (skipSpaces p)) =
            none := by
          cases outcome : furtherOperands sub separator (enough p.length) node1 (skipSpaces p) with
          | error halt => rfl
          | ok result =>
              rcases result with ⟨operands, behind, said⟩
              exact absurd there (furtherOperands_there outcome).1
        have left : ∀ (after : Found (List Expr) → Except Halt (Found Expr)),
            forget (furtherOperands sub separator (enough p.length) node1 (skipSpaces p) >>= after) =
              none := by
          intro after
          cases outcome : furtherOperands sub separator (enough p.length) node1 (skipSpaces p) with
          | error halt => rfl
          | ok result =>
              rw [outcome] at stops
              cases stops
        rw [left]
        rw [there]
        cases TurboXSL.furtherOperands subParser separator (p.length + 1) (skipSpaces p) with
        | none => rfl
        | some found =>
            change none = (Expr.link found.1 >>= fun linked => _)
            cases Expr.link found.1 <;> rfl
      · rw [show p.length + 1 = enough p.length from rfl, ← furtherOperands_agrees agrees _ _ there]
        apply forget_bind
        intro operands behind later outcome
        simp only [Expr.link_eq_chained (furtherOperands_there outcome).2, Option.bind_eq_bind,
          Option.bind_some, Expr.setNext_of_ne_null there]
        rfl

theorem furtherOperators_agrees (operator : Bytes → Option (ExprType × Bytes)) (fuel : Nat)
    (node1 : Expr) : Agrees (furtherOperators sub operator fuel node1)
      (TurboXSL.furtherOperators subParser operator fuel node1) := by
  induction fuel generalizing node1 with
  | zero => exact fun _ => rfl
  | succ fuel inductionHypothesis =>
      intro p
      unfold furtherOperators TurboXSL.furtherOperators
      simp only
      cases operator (skipSpaces p) with
      | none => rfl
      | some found =>
          simp only
          rw [← agrees]
          apply forget_bind
          intro node2 rest reported _
          simp only
          rw [forget_orHalt]
          congr 1
          funext operands
          rw [← inductionHypothesis]
          exact forget_report fun _ _ _ => rfl

theorem leftOperators_agrees (operator : Bytes → Option (ExprType × Bytes)) :
    Agrees (leftOperators enough sub operator) (TurboXSL.leftOperators subParser operator) := by
  intro p
  unfold leftOperators TurboXSL.leftOperators
  rw [← agrees]
  apply forget_bind
  intro node1 rest reported _
  simp only
  rw [← furtherOperators_agrees agrees]
  exact forget_report fun _ _ _ => rfl

end Operators

theorem doNotExpr_agrees {compiler : Compiler} {parser : Parser} (agrees : Agrees compiler parser)
    (fuel : Nat) :
    Agrees (doNotExpr enough compiler fuel) (TurboXSL.doNotExpr parser fuel) := by
  have union : Agrees (doUnionExpr enough compiler) (TurboXSL.doUnionExpr parser) := fun _ =>
    manyOperands_agrees (doNodeExpr_agrees agrees) _ _ _
  induction fuel with
  | zero => exact fun _ => rfl
  | succ fuel inductionHypothesis =>
      intro p
      unfold doNotExpr TurboXSL.doNotExpr
      simp only
      cases matchAt (lit "not") (skipSpaces p) with
      | none => exact union _
      | some q =>
          simp only
          split
          · rw [← inductionHypothesis]
            apply forget_bind
            intro operand rest reported _
            rfl
          · exact union _

/-- With a turn for every byte the compiler is the parser. -/
theorem doOrExpr_agrees (depth : Nat) :
    Agrees (doOrExpr enough depth) (TurboXSL.doOrExpr depth) := by
  induction depth with
  | zero => exact fun _ => rfl
  | succ depth inductionHypothesis =>
      have mul : Agrees (doMulExpr enough (doOrExpr enough depth))
          (TurboXSL.doMulExpr (TurboXSL.doOrExpr depth)) :=
        leftOperators_agrees (fun p => doNotExpr_agrees inductionHypothesis (p.length + 1) p) _
      have eq : Agrees (doEqExpr enough (doOrExpr enough depth))
          (TurboXSL.doEqExpr (TurboXSL.doOrExpr depth)) :=
        leftOperators_agrees (leftOperators_agrees (leftOperators_agrees mul _) _) _
      exact fun p => manyOperands_agrees (manyOperands_agrees eq _ _) _ _ _

theorem xpathCompile_agrees (expr : CString) :
    (forget (xpathCompile enough (expr.bytes.length + 1) expr)).map Prod.fst =
      TurboXSL.xpathCompile expr.bytes :=
  congrArg (Option.map Prod.fst) (doOrExpr_agrees _ _)

end Compile

end TurboXSL
