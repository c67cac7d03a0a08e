import TurboXSL.PathSyntax

namespace TurboXSL

/-!
# Expressions and how they are printed

`Term` is the part of the expression language whose trees can be written down
again without loss: literals, variables, calls, steps, filters and all
operators.  A term carries what makes its names and literals printable.
`Term.tree` is the compiled form, `Term.printed` the text, with brackets where
precedence asks for them and around every compound operand of a step, a
filter or a union.
-/

/-- A text that single quotes can hold. -/
structure Quotable where
  bytes : Bytes
  noQuote : '\''.toUInt8 ∉ bytes
  noNul : 0 ∉ bytes

abbrev PlainName := { name : Bytes // IsName name }

/-- The operators that take two operands. -/
inductive Operator where
  | mul | div | mod | add | sub | le | ge | lt | gt | eq | ne
deriving DecidableEq, Repr

namespace Operator

def symbol : Operator → Bytes
  | .mul => lit "*"
  | .div => lit "div"
  | .mod => lit "mod"
  | .add => lit "+"
  | .sub => lit "-"
  | .le => lit "<="
  | .ge => lit ">="
  | .lt => lit "<"
  | .gt => lit ">"
  | .eq => lit "="
  | .ne => lit "!="

def type : Operator → ExprType
  | .mul => .mul
  | .div => .div
  | .mod => .mod
  | .add => .add
  | .sub => .sub
  | .le => .le
  | .ge => .ge
  | .lt => .lt
  | .gt => .gt
  | .eq => .eq
  | .ne => .ne

/-- The tighter an operator binds, the higher its level. -/
def level : Operator → Nat
  | .mul | .div | .mod => 5
  | .add | .sub => 4
  | .le | .ge | .lt | .gt => 3
  | .eq | .ne => 2

end Operator

/-- The operators that take any number of operands. -/
inductive Junction where
  | union | and | or
deriving DecidableEq, Repr

namespace Junction

def symbol : Junction → Bytes
  | .union => lit "|"
  | .and => lit "and"
  | .or => lit "or"

def type : Junction → ExprType
  | .union => .union
  | .and => .and
  | .or => .or

def level : Junction → Nat
  | .union => 7
  | .and => 1
  | .or => 0

/-- The level below which an operand is put into brackets. -/
def operandLevel : Junction → Nat
  | .union => 9
  | .and => 2
  | .or => 1

end Junction

inductive Term where
  | integer (value : Fin (2 ^ 63))
  | text (content : Quotable)
  | variable_ (name : PlainName)
  | call (name : PlainName) (other : name.val ≠ lit "not") (arguments : List Term)
  | child (operand : Term) (name : PlainName)
  | attribute_ (operand : Term) (name : PlainName)
  | filter (operand predicate : Term)
  | not (operand : Term)
  | binary (operator : Operator) (left right : Term)
  | many (junction : Junction) (first second : Term) (rest : List Term)

namespace Expr

/-- `expr->next = next`, where `expr` is known not to be NULL. -/
def withNext : Expr → Expr → Expr
  | .null, _ => .null
  | .node head children _, next => .node head children next

/-- Operands in order, linked by `next`. -/
def chained : List Expr → Expr
  | [] => .null
  | first :: rest => first.withNext (chained rest)

theorem setNext_of_ne_null {expr : Expr} (there : expr ≠ .null) (next : Expr) :
    expr.setNext next = some (expr.withNext next) := by
  cases expr with
  | null => exact absurd rfl there
  | node head children old => rfl

theorem link_eq_chained {exprs : List Expr} (there : ∀ expr ∈ exprs, expr ≠ .null) :
    Expr.link exprs = some (chained exprs) := by
  induction exprs with
  | nil => rfl
  | cons first rest inductionHypothesis =>
      have tail := inductionHypothesis fun expr member => there expr (List.mem_cons_of_mem _ member)
      unfold Expr.link
      rw [tail]
      exact setNext_of_ne_null (there first List.mem_cons_self) _

end Expr

/-- A number in decimal digits. -/
def decimal (value : Nat) : Bytes :=
  if value < 10 then [UInt8.ofNat (value + 48)]
  else decimal (value / 10) ++ [UInt8.ofNat (value % 10 + 48)]

/-- A text in brackets, where its level asks for them. -/
def bracketed (level least : Nat) (text : Bytes) : Bytes :=
  if level < least then '('.toUInt8 :: text ++ [')'.toUInt8] else text

/-- Texts with a separator between them. -/
def separated (separator : Bytes) : List Bytes → Bytes
  | [] => []
  | [text] => text
  | text :: rest => text ++ separator ++ separated separator rest

def spaced (symbol : Bytes) : Bytes := ' '.toUInt8 :: symbol ++ [' '.toUInt8]

namespace Term

def level : Term → Nat
  | .integer _ | .text _ | .variable_ _ | .call .. => 9
  | .child .. | .attribute_ .. | .filter .. => 8
  | .not _ => 6
  | .binary operator _ _ => operator.level
  | .many junction _ _ _ => junction.level

mutual

/-- The tree that stands for a term. -/
def tree : Term → Expr
  | .integer value => .leaf { type := .int, integer := value.val }
  | .text content => .leaf { type := .text, content := content.bytes }
  | .variable_ name => .leaf { type := .var, name := some name.val }
  | .call name _ arguments =>
      .node { type := .call, name := some name.val } (.chained (trees arguments)) .null
  | .child operand name => .selectStep name.val operand.tree
  | .attribute_ operand name => .node { type := .attr, name := some name.val } operand.tree .null
  | .filter operand predicate =>
      .node { type := .filter } (operand.tree.withNext predicate.tree) .null
  | .not operand => .node { type := .not } operand.tree .null
  | .binary operator left right =>
      .node { type := operator.type } (left.tree.withNext right.tree) .null
  | .many junction first second rest =>
      .node { type := junction.type }
        (first.tree.withNext (second.tree.withNext (.chained (trees rest)))) .null

def trees : List Term → List Expr
  | [] => []
  | first :: rest => first.tree :: trees rest

end

mutual

def printed : Term → Bytes
  | .integer value => decimal value.val
  | .text content => '\''.toUInt8 :: content.bytes ++ ['\''.toUInt8]
  | .variable_ name => '$'.toUInt8 :: name.val
  | .call name _ arguments =>
      name.val ++ '('.toUInt8 :: separated (lit ",") (printedAll 0 arguments) ++ [')'.toUInt8]
  | .child operand name => bracketed operand.level 9 operand.printed ++ slash ++ name.val
  | .attribute_ operand name =>
      bracketed operand.level 9 operand.printed ++ slash ++ '@'.toUInt8 :: name.val
  | .filter operand predicate =>
      bracketed operand.level 9 operand.printed ++ '['.toUInt8 :: predicate.printed ++ [']'.toUInt8]
  | .not operand => lit "not(" ++ operand.printed ++ [')'.toUInt8]
  | .binary operator left right =>
      bracketed left.level operator.level left.printed ++ spaced operator.symbol ++
        bracketed right.level (operator.level + 1) right.printed
  | .many junction first second rest =>
      separated (spaced junction.symbol)
        (bracketed first.level junction.operandLevel first.printed ::
          bracketed second.level junction.operandLevel second.printed ::
            printedAll junction.operandLevel rest)

/-- Every text with the brackets it needs below an operator. -/
def printedAll (least : Nat) : List Term → List Bytes
  | [] => []
  | first :: rest => bracketed first.level least first.printed :: printedAll least rest

end

theorem trees_eq_map (terms : List Term) : trees terms = terms.map tree := by
  induction terms with
  | nil => rfl
  | cons first rest inductionHypothesis =>
      unfold trees
      rw [inductionHypothesis, List.map_cons]

theorem printedAll_eq_map (least : Nat) (terms : List Term) :
    printedAll least terms = terms.map fun term => bracketed term.level least term.printed := by
  induction terms with
  | nil => rfl
  | cons first rest inductionHypothesis =>
      unfold printedAll
      rw [inductionHypothesis, List.map_cons]

theorem tree_ne_null (term : Term) : term.tree ≠ .null := by
  cases term <;> rintro ⟨⟩

/-- Induction over terms, with the operands of a list each on its own. -/
@[elab_as_elim]
theorem induction {motive : Term → Prop} (integer : ∀ value, motive (.integer value))
    (text : ∀ content, motive (.text content)) (variable_ : ∀ name, motive (.variable_ name))
    (call : ∀ name other arguments, (∀ term ∈ arguments, motive term) →
      motive (.call name other arguments))
    (child : ∀ operand name, motive operand → motive (.child operand name))
    (attribute_ : ∀ operand name, motive operand → motive (.attribute_ operand name))
    (filter : ∀ operand predicate, motive operand → motive predicate →
      motive (.filter operand predicate))
    (not : ∀ operand, motive operand → motive (.not operand))
    (binary : ∀ operator left right, motive left → motive right →
      motive (.binary operator left right))
    (many : ∀ junction first second rest, motive first → motive second →
      (∀ term ∈ rest, motive term) → motive (.many junction first second rest))
    (term : Term) : motive term :=
  @Term.rec motive (fun terms => ∀ term ∈ terms, motive term) integer text variable_ call child
    attribute_ filter not binary many (fun _ member => absurd member List.not_mem_nil)
    (fun _ _ first rest _ member => (List.mem_cons.mp member).elim (fun same => same ▸ first)
      (rest _)) term

end Term

example : (Term.many .or
      (.binary .eq
        (.filter (.child (.variable_ ⟨lit "x", ⟨by decide, forall_bytes (by decide), by decide⟩⟩)
          ⟨lit "a", ⟨by decide, forall_bytes (by decide), by decide⟩⟩) (.integer 2))
        (.text ⟨lit "b", by decide, by decide⟩))
      (.not (.call ⟨lit "f", ⟨by decide, forall_bytes (by decide), by decide⟩⟩ (by decide)
        [.integer 1, .binary .add (.integer 3) (.integer 2)]))
      []).printed = lit "($x/a)[2] = 'b' or not(f(1,3 + 2))" := by
  decide +kernel

end TurboXSL
