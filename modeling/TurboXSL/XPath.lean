import TurboXSL.Bytes

namespace TurboXSL

/-!
# Compiled expressions

`xpath_compile` is a recursive descent parser.  What it builds are `XMLNODE`s
again, linked by `children` and `next`; an expression is modelled by the tree
of these two links, with `null` for the NULL pointer.  Parsers map the bytes
before the NUL to a tree and the bytes that remain.  They return `none` where
the C code follows a NULL pointer, reads behind the NUL or does not end.

The parser of one level takes the parser for whole expressions
(`do_or_expr`), which brackets and arguments begin again with, as a
parameter.
-/

/-- `NODETYPE`, as far as it concerns nodes of expressions. -/
inductive ExprType where
  | text | var | not | or | and | eq | ne | lt | gt | call | le | ge | add | sub | mul | div | mod
  | filter | all | attr | root | parent | self | ancestor | followingSibling | precedingSibling
  | preceding | following | select | attrAll | int | context | descendant | descendantOrSelf
  | union | ancestorOrSelf
deriving DecidableEq, Repr

/-- The node test kept in the `attributes` field of a step: an `EMPTY_NODE`
with a name, or a call. -/
inductive Kind where
  | named (name : Bytes)
  | call (name : Bytes)
deriving DecidableEq, Repr

/-- The fields of one node of an expression, its links apart. -/
structure ExprNode where
  type : ExprType
  name : Option Bytes := none
  content : Bytes := []
  integer : Int := 0
  kind : Option Kind := none
deriving DecidableEq, Repr

/-- A pointer to a node of an expression. -/
inductive Expr where
  | null
  | node (head : ExprNode) (children next : Expr)
deriving DecidableEq, Repr

namespace Expr

def leaf (head : ExprNode) : Expr := .node head .null .null

def type? : Expr → Option ExprType
  | .null => none
  | .node head _ _ => some head.type

/-- The nodes met by `n = n->children`. -/
def spine : Expr → List ExprNode
  | .null => []
  | .node head children _ => head :: spine children

/-- `expr->children = children` -/
def setChildren : Expr → Expr → Option Expr
  | .null, _ => none
  | .node head _ next, children => some (.node head children next)

/-- `expr->next = next` -/
def setNext : Expr → Expr → Option Expr
  | .null, _ => none
  | .node head children _, next => some (.node head children next)

/-- Siblings in order, linked by `next`. -/
def link : List Expr → Option Expr
  | [] => some .null
  | first :: rest => do first.setNext (← link rest)

end Expr

/-- The bytes before the NUL, to a tree and the bytes behind it. -/
abbrev Parser := Bytes → Option (Expr × Bytes)

/-- `for (e = p+1; *e && x_is_namechar(*e); ++e)`: the first byte of a name
is taken whatever it is, but behind the NUL there is nothing to read. -/
def nameAt : Bytes → Option (Bytes × Bytes)
  | [] => none
  | c :: p => some (c :: p.takeWhile xIsNamechar, p.dropWhile xIsNamechar)

/-- `atol`, which stops at the limits of `long`. -/
def atol (p : Bytes) : Int :=
  let start := p.dropWhile isSpace
  let q := if byteAt start = '-'.toUInt8 ∨ byteAt start = '+'.toUInt8 then start.tail else start
  let value : Int := digitsValue 10 (digitsAt 10 q).1
  if byteAt start = '-'.toUInt8 then max (-value) (-2 ^ 63) else min value (2 ^ 63 - 1)

/-- The axes in the order in which `do_select_expr` tries them. -/
def axes : List (Bytes × ExprType) :=
  [(lit "child::", .select), (lit "descendant::", .descendant), (lit "attribute::", .attr),
    (lit "self::", .self), (lit "descendant-or-self::", .descendantOrSelf),
    (lit "following-sibling::", .followingSibling), (lit "following::", .following),
    (lit "parent::", .parent), (lit "ancestor::", .ancestor),
    (lit "preceding-sibling::", .precedingSibling), (lit "preceding::", .preceding),
    (lit "ancestor-or-self::", .ancestorOrSelf)]

def axisAt (p : Bytes) : Option (ExprType × Bytes) :=
  axes.findSome? fun axis => (matchAt axis.1 p).map (axis.2, ·)

/-- The node test behind an axis.  A test with brackets is left with the
cursor on the closing one. -/
def axisTest (type : ExprType) : Parser := fun p =>
  if byteAt p = '*'.toUInt8 then some (.leaf { type := type }, p.tail)
  else do
    let (name, p) ← nameAt p
    if byteAt p = '('.toUInt8 then
      let closing := p.dropWhile (· ≠ ')'.toUInt8)
      if closing = [] then none
      else some (.leaf { type := type, kind := some (.call name) }, closing)
    else some (.leaf { type := type, name := some name, kind := some (.named name) }, p)

section Levels

variable (doOrExpr : Parser)

/-- The arguments of a call up to the closing bracket.  An argument that is
NULL is not added, and where it has consumed nothing the loop never ends. -/
def callArguments : Nat → Bytes → Option (List Expr × Bytes)
  | 0, _ => none
  | fuel + 1, p =>
      let p := skipSpaces p
      if byteAt p = ')'.toUInt8 then some ([], p.tail)
      else do
        let (argument, p) ← doOrExpr p
        let p := skipSpaces p
        let (rest, p) ← callArguments fuel (if byteAt p = ','.toUInt8 then p.tail else p)
        some (if argument = .null then rest else argument :: rest, p)

/-- The end of `do_select_expr`: a name, which brackets make a call;
`result` is the step begun before the name, if any. -/
def nameTest (result : Option ExprType) : Parser := fun p => do
  let (name, p) ← nameAt p
  let p := skipSpaces p
  if byteAt p = '('.toUInt8 then
    let (arguments, p) ← callArguments doOrExpr (p.length + 1) p.tail
    some (.node { type := .call, name := some name } (← Expr.link arguments) .null, p)
  else
    match result with
    | none => some (.leaf { type := .select, name := some name, kind := some (.named name) }, p)
    | some type => some (.leaf { type := type, name := some name }, p)

/-- `do_select_expr` -/
def doSelectExpr : Parser := fun p =>
  let p := skipSpaces p
  if byteAt p = '*'.toUInt8 then some (.leaf { type := .all }, p.tail)
  else if byteAt p = '.'.toUInt8 then
    if byteAt p.tail = '.'.toUInt8 then some (.leaf { type := .parent }, p.tail.tail)
    else some (.leaf { type := .self }, p.tail)
  else if byteAt p = '/'.toUInt8 then
    some (.leaf { type := .descendant }, if byteAt p.tail = '*'.toUInt8 then p.tail.tail else p)
  else if byteAt p = '@'.toUInt8 then
    if byteAt p.tail = '*'.toUInt8 then some (.leaf { type := .attrAll }, p.tail.tail)
    else nameTest doOrExpr (some .attr) p.tail
  else
    match axisAt p with
    | some (type, p) => axisTest type p
    | none => nameTest doOrExpr none p

/-- `do_var_expr` -/
def doVarExpr (type : ExprType) : Parser := fun p => do
  let (name, p) ← nameAt p
  some (.leaf { type := type, name := some name }, skipSpaces p)

/-- A number: without a point an integer, with one a text. -/
def numberExpr : Parser := fun p =>
  let front := p.take 1 ++ p.tail.takeWhile isDigit
  let rest := p.tail.dropWhile isDigit
  if byteAt rest = '.'.toUInt8 then
    some (.leaf { type := .text, content := front ++ '.'.toUInt8 :: rest.tail.takeWhile isDigit },
      skipSpaces (rest.tail.dropWhile isDigit))
  else some (.leaf { type := .int, integer := atol front }, skipSpaces rest)

/-- `do_node2_expr` -/
def doNode2Expr : Parser := fun p =>
  let p := skipSpaces p
  if byteAt p = '\''.toUInt8 then
    let content := p.tail.takeWhile (· ≠ '\''.toUInt8)
    some (.leaf { type := .text, content := content },
      skipSpaces (p.tail.dropWhile (· ≠ '\''.toUInt8)).tail)
  else if byteAt p = '('.toUInt8 then do
    let (node1, p) ← doOrExpr p.tail
    let p := skipSpaces p
    some (node1, if byteAt p = ')'.toUInt8 then skipSpaces p.tail else p)
  else if xCanNumber p then numberExpr p
  else if byteAt p = '$'.toUInt8 then doVarExpr .var p.tail
  else if byteAt p = '@'.toUInt8 then
    if byteAt p.tail = '*'.toUInt8 then some (.leaf { type := .attrAll }, p.tail.tail)
    else doVarExpr .attr p.tail
  else if xIsSelchar (byteAt p) then do
    let rooted := byteAt p = '/'.toUInt8
    let (node1, p) ← doSelectExpr doOrExpr (if rooted then p.tail else p)
    if node1.type? = some .select ∨ node1.type? = some .descendant then
      some (← node1.setChildren (.leaf { type := if rooted then .root else .context }), p)
    else some (node1, p)
  else some (.null, p)

/-- The loop of `do_node_expr`: further steps and filters on `node1`. -/
def nodeSteps : Nat → Expr → Parser
  | 0, _, _ => none
  | fuel + 1, node1, p =>
      let p := skipSpaces p
      if byteAt p = '/'.toUInt8 then do
        let (node2, p) ← doSelectExpr doOrExpr p.tail
        nodeSteps fuel (← node2.setChildren node1) p
      else if byteAt p = '['.toUInt8 then do
        let (node2, p) ← doOrExpr p.tail
        let p := skipSpaces p
        let node3 := .node { type := .filter } (← node1.setNext node2) .null
        nodeSteps fuel node3 (if byteAt p = ']'.toUInt8 then p.tail else p)
      else some (node1, p)

/-- `do_node_expr` -/
def doNodeExpr : Parser := fun p => do
  let (node1, p) ← doNode2Expr doOrExpr p
  nodeSteps doOrExpr (p.length + 1) node1 p

/-- `do { node1->next = sub(...); node1 = node1->next; } while (node1 &&
match(separator))` -/
def furtherOperands (sub : Parser) (separator : Bytes) : Nat → Bytes → Option (List Expr × Bytes)
  | 0, _ => none
  | fuel + 1, p => do
      let (node1, p) ← sub p
      let p := skipSpaces p
      if node1 = .null then some ([], p)
      else
        match matchAt separator p with
        | none => some ([node1], p)
        | some p => do
            let (rest, p) ← furtherOperands sub separator fuel p
            some (node1 :: rest, p)

/-- A level whose operator takes any number of operands. -/
def manyOperands (sub : Parser) (separator : Bytes) (type : ExprType) : Parser := fun p => do
  let (node1, p) ← sub p
  let p := skipSpaces p
  match matchAt separator p with
  | none => some (node1, p)
  | some p => do
      let (rest, p) ← furtherOperands sub separator (p.length + 1) (skipSpaces p)
      some (.node { type := type } (← node1.setNext (← Expr.link rest)) .null, p)

/-- The loop of a level whose operators take two operands, from the left. -/
def furtherOperators (sub : Parser) (operator : Bytes → Option (ExprType × Bytes)) :
    Nat → Expr → Parser
  | 0, _, _ => none
  | fuel + 1, node1, p =>
      let p := skipSpaces p
      match operator p with
      | none => some (node1, p)
      | some (type, p) => do
          let (node2, p) ← sub (skipSpaces p)
          furtherOperators sub operator fuel
            (.node { type := type } (← node1.setNext node2) .null) p

def leftOperators (sub : Parser) (operator : Bytes → Option (ExprType × Bytes)) : Parser :=
  fun p => do
    let (node1, p) ← sub p
    furtherOperators sub operator (p.length + 1) node1 p

/-- `do_union_expr` -/
def doUnionExpr : Parser := fun p =>
  manyOperands (doNodeExpr doOrExpr) (lit "|") .union (skipSpaces p)

/-- `do_not_expr` -/
def doNotExpr : Nat → Parser
  | 0, _ => none
  | fuel + 1, p =>
      let p := skipSpaces p
      match matchAt (lit "not") p with
      | some q =>
          if byteAt q = '('.toUInt8 ∨ xIsWs (byteAt q) then do
            let (operand, p) ← doNotExpr fuel (skipSpaces q)
            some (.node { type := .not } operand .null, p)
          else doUnionExpr doOrExpr p
      | none => doUnionExpr doOrExpr p

def mulOperator (p : Bytes) : Option (ExprType × Bytes) :=
  if byteAt p = '*'.toUInt8 then some (.mul, p.tail)
  else ((matchAt (lit "div ") p).map (.div, ·)).or ((matchAt (lit "mod ") p).map (.mod, ·))

/-- `do_mul_expr` -/
def doMulExpr : Parser := leftOperators (fun p => doNotExpr doOrExpr (p.length + 1) p) mulOperator

def addOperator (p : Bytes) : Option (ExprType × Bytes) :=
  if byteAt p = '+'.toUInt8 then some (.add, p.tail)
  else if byteAt p = '-'.toUInt8 then some (.sub, p.tail)
  else none

/-- `do_add_expr` -/
def doAddExpr : Parser := leftOperators (doMulExpr doOrExpr) addOperator

def relOperator (p : Bytes) : Option (ExprType × Bytes) :=
  (((matchAt (lit "<=") p).map (.le, ·)).or ((matchAt (lit ">=") p).map (.ge, ·))).or
    (((matchAt (lit "<") p).map (.lt, ·)).or ((matchAt (lit ">") p).map (.gt, ·)))

/-- `do_rel_expr` -/
def doRelExpr : Parser := leftOperators (doAddExpr doOrExpr) relOperator

def eqOperator (p : Bytes) : Option (ExprType × Bytes) :=
  if byteAt p = '='.toUInt8 then some (.eq, p.tail)
  else if byteAt p = '!'.toUInt8 ∧ byteAt p.tail = '='.toUInt8 then some (.ne, p.tail.tail)
  else none

/-- `do_eq_expr` -/
def doEqExpr : Parser := leftOperators (doRelExpr doOrExpr) eqOperator

/-- `do_and_expr` -/
def doAndExpr : Parser := manyOperands (doEqExpr doOrExpr) (lit "and ") .and

end Levels

/-- `do_or_expr`.  Every nesting consumes its opening bracket, so the number
of bytes bounds the depth. -/
def doOrExpr : Nat → Parser
  | 0, _ => none
  | depth + 1, p => manyOperands (doAndExpr (doOrExpr depth)) (lit "or ") .or (skipSpaces p)

/-- `xpath_compile` -/
def xpathCompile (expr : Bytes) : Option Expr :=
  (doOrExpr (expr.length + 1) expr).map Prod.fst

/-- The expression of a step by name. -/
def Expr.selectStep (name : Bytes) (children : Expr) : Expr :=
  .node { type := .select, name := some name, kind := some (.named name) } children .null


example : xpathCompile (lit "/a//b[1]") =
    some (.node { type := .filter }
      (.node { type := .select, name := some (lit "b"), kind := some (.named (lit "b")) }
        (.node { type := .descendant } (.selectStep (lit "a") (.leaf { type := .root })) .null)
        (.leaf { type := .int, integer := 1 })) .null) := by decide

end TurboXSL
