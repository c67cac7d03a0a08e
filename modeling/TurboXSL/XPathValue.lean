import TurboXSL.Node

namespace TurboXSL

open Library

/-!
# Values of expressions

`rvalue.c` over the memory of nodes.  A function returns `none` where the C
code follows a NULL pointer or a list that does not end.  Floating point
numbers are a parameter with the operations that the code performs on them.
-/

/-- The operations on `double`. -/
class Double (Num : Type) where
  ofInt : Int → Num
  /-- `strtod` -/
  strtod : Bytes → Num
  nan : Num
  isNan : Num → Bool
  add : Num → Num → Num
  sub : Num → Num → Num
  mul : Num → Num → Num
  div : Num → Num → Num
  /-- The remainder of the truncated numbers; none for a zero divisor. -/
  mod : Num → Num → Option Num
  equal : Num → Num → Bool
  less : Num → Num → Bool
  /-- The number as `rval2string` prints it. -/
  print : Num → Bytes

/-- Whole numbers in the place of `double`, enough for concrete runs. -/
instance : Double Int where
  ofInt := id
  strtod := fun text => digitsValue 10 (digitsAt 10 text).1
  nan := 0
  isNan := fun _ => false
  add := (· + ·)
  sub := (· - ·)
  mul := (· * ·)
  div := (· / ·)
  mod := fun left right => if right = 0 then none else some (left.tmod right)
  equal := fun left right => left = right
  less := fun left right => left < right
  print := fun number => lit (toString number)

/-- `RVALUE` -/
inductive RValue (Num : Type) where
  | null
  | bool (integer : Bool)
  | int (integer : Int)
  | number (number : Num)
  | string (string : Option Bytes)
  | nodeset (nodeset : Ptr)
deriving DecidableEq, Repr

/-! ## The text of nodes -/

/-- `add_node_str`: the text below and behind a node, what is below first. -/
def addNodeStr (heap : Heap) : Nat → Ptr → Option Bytes
  | _, none => some []
  | 0, some _ => none
  | fuel + 1, some node => do
      let below ← addNodeStr heap fuel (heap.get node).children
      let behind ← addNodeStr heap fuel (heap.get node).next
      let own := if (heap.get node).type = .text then (heap.get node).content.getD [] else []
      some (below ++ own ++ behind)

/-- `node2string` of a node whose `next` is `next`. -/
def nodeText (heap : Heap) (node : NodeId) (next : Ptr) : Option Bytes :=
  match (heap.get node).type with
  | .text | .attribute => (heap.get node).content
  | _ => do
      let below ← addNodeStr heap heap.size (heap.get node).children
      let behind ← addNodeStr heap heap.size next
      some (below ++ behind)

/-- `node2string`, which also collects the text of the siblings behind. -/
def node2string (heap : Heap) (node : NodeId) : Option Bytes :=
  nodeText heap node (heap.get node).next

/-- `nodes2string`, which cuts every node off from those behind it. -/
def nodes2string (heap : Heap) (node : Ptr) : Option Bytes := do
  let nodes ← siblings heap node
  let texts ← nodes.mapM fun node => nodeText heap node none
  some texts.flatten

section Conversions

variable {Num : Type} [Double Num]

/-- `rval2bool` -/
def rval2bool : RValue Num → Bool
  | .null => false
  | .bool integer => integer
  | .int integer => integer ≠ 0
  | .number number => !Double.equal number (Double.ofInt 0)
  | .string none => false
  | .string (some string) => string ≠ []
  | .nodeset nodeset => nodeset.isSome

/-- `rval2string`; the inner `none` is the NULL string. -/
def rval2string (heap : Heap) : RValue Num → Option (Option Bytes)
  | .null => some none
  | .int integer => some (some (lit (toString integer)))
  | .bool integer => some (some (lit (if integer then "true" else "false")))
  | .number number => some (some (Double.print number))
  | .string string => some string
  | .nodeset none => some none
  | .nodeset (some node) =>
      if (heap.get node).type = .empty then (nodes2string heap (some node)).map some
      else (node2string heap node).map some

/-- The number that a string begins with. -/
def textNumber (string : Bytes) : Num :=
  let start := skipSpaces string
  let digits := if byteAt start = '-'.toUInt8 then start.tail else start
  if byteAt digits = '.'.toUInt8 ∨ isDigit (byteAt digits) then Double.strtod start else Double.nan

/-- `rval2number` -/
def rval2number (heap : Heap) : RValue Num → Option Num
  | .null => some Double.nan
  | .bool integer => some (Double.ofInt (if integer then 1 else 0))
  | .int integer => some (Double.ofInt integer)
  | .number number => some number
  | .string none => some (Double.ofInt 0)
  | .string (some string) => some (textNumber string)
  | .nodeset none => some Double.nan
  | .nodeset (some node) =>
      (node2string heap ((heap.get node).children.getD node)).map textNumber

/-- `rval_compare`; the inner `none` is the answer NaN. -/
def rvalCompare (heap : Heap) (left right : RValue Num) : Option (Option Int) :=
  match left, right with
  | .null, .null => some (some 0)
  | .null, _ => some (some (-1))
  | _, .null => some (some 1)
  | left, right => do
      let ld ← rval2number heap left
      let rd ← rval2number heap right
      if Double.isNan ld ∨ Double.isNan rd then some none
      else if Double.less ld rd then some (some (-1))
      else if Double.less rd ld then some (some 1)
      else some (some 0)

/-- `rval_less`, `rval_less_or_equal`, `rval_greater`, `rval_greater_or_equal`:
the sign of the comparison passes `test`, and NaN passes none. -/
def rvalOrdered (test : Int → Bool) (heap : Heap) (left right : RValue Num) : Option Bool := do
  some ((← rvalCompare heap left right).any test)

def rvalLess : Heap → RValue Num → RValue Num → Option Bool := rvalOrdered (· < 0)
def rvalLessOrEqual : Heap → RValue Num → RValue Num → Option Bool := rvalOrdered (· ≤ 0)
def rvalGreater : Heap → RValue Num → RValue Num → Option Bool := rvalOrdered (0 < ·)
def rvalGreaterOrEqual : Heap → RValue Num → RValue Num → Option Bool := rvalOrdered (0 ≤ ·)

/-- `nodeset_equal_common`; a head that is an `EMPTY_NODE` stands for its
children. -/
def nodesetEqualCommon (heap : Heap) (value : RValue Num) (nodeset : Ptr) (eq : Bool) :
    Option Bool :=
  match nodeset with
  | none => some false
  | some head => do
      let node := heap.get head
      let nodes ← siblings heap
        (if node.type = .empty ∧ node.children.isSome then node.children else some head)
      nodes.anyM fun p =>
        match value with
        | .number a => do some (Double.equal a (← rval2number heap (.nodeset (some p))) == eq)
        | .int a => do
            some (Double.equal (Double.ofInt a) (← rval2number heap (.nodeset (some p) : RValue Num))
              == eq)
        | .string a => do
            some (decide (a = (← rval2string heap (.nodeset (some p) : RValue Num))) == eq)
        | _ => some false

/-- `rval_equal` with the flag `eq`, which is off for the test of difference. -/
def rvalEqual (heap : Heap) (left right : RValue Num) (eq : Bool) : Option Bool :=
  match left, right with
  | .null, _ | _, .null => some false
  | .bool left, right => some (decide (left = rval2bool right) == eq)
  | left, .bool right => some (decide (rval2bool left = right) == eq)
  | .nodeset left, .nodeset right => do
      let leftNodes ← siblings heap left
      let rightNodes ← siblings heap right
      leftNodes.anyM fun ln => do
        let l ← node2string heap ln
        rightNodes.anyM fun rn => do some (decide (l = (← node2string heap rn)) == eq)
  | .nodeset left, right => nodesetEqualCommon heap right left eq
  | left, .nodeset right => nodesetEqualCommon heap left right eq
  | .string left, .string right => some (decide (left = right) == eq)
  | left, right => do
      some (Double.equal (← rval2number heap left) (← rval2number heap right) == eq)

end Conversions

end TurboXSL
