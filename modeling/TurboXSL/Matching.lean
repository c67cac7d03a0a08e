import TurboXSL.XPathExec

namespace TurboXSL

open Library

/-!
# Matching a node against a pattern

`select_match` walks from a node upwards while it walks from a pattern
inwards.  Where it evaluates an expression it throws away all but the answer;
the nodes allocated on the way are unreachable afterwards, so the memory of
the caller is taken to be as it was.
-/

section Matching

variable {Num : Type} [Double Num] (env : Env Num) (depth : Nat) (heap : Heap)

/-- `select_match_with_filter` -/
def selectMatchWithFilter (node : NodeId) : Option (Operand Num) → Option Bool
  | none => none
  | some expr =>
      if expr.head.type = .int then
        some (decide (((heap.get node).position : Int) = expr.head.integer))
      else do
        let (value, _) ← expr.run node heap
        match value with
        | .int n => some (decide (((heap.get node).position : Int) = n))
        | value => some (rval2bool value)

/-- The answer of an evaluation to a truth value. -/
def verdict (result : Option (RValue Num × Heap)) : Option Bool :=
  result.map fun result => rval2bool result.1

/-- `select_match` with the first of some patterns, which is NULL where there
is none. -/
def matchFirst : List (Ptr → Option Bool) → Ptr → Option Bool
  | [], _ => some true
  | first :: _, node => first node

/-- The switch of `select_match`, given what it does on the children. -/
def matchNode (templ : ExprNode) (children : Expr) (inner : List (Ptr → Option Bool)) :
    Ptr → Option Bool
  | none => some false
  | some node =>
      let args := operandsAt env.withoutLocals depth children
      match templ.type with
      | .root => some (decide (env.rootNode = node))
      | .select =>
          if ¬ xmlsEquals (heap.get node).name templ.name then some false
          else matchFirst inner (heap.get node).parent
      | .context => some true
      | .self => matchFirst inner (some node)
      | .filter => do
          if ← matchFirst inner (some node) then
            if args.isEmpty then none else selectMatchWithFilter heap node args.tail.head?
          else some false
      | .union | .or => inner.anyM fun pattern => pattern (some node)
      | .and => inner.allM fun pattern => pattern (some node)
      | .all => matchFirst inner (heap.get node).parent
      | .call =>
          if templ.name = some (lit "text") then some (decide ((heap.get node).type = .text))
          else some (decide (templ.name = some (lit "node")))
      | .eq =>
          verdict (compare (fun heap left right => rvalEqual heap left right true) args node heap)
      | .ne =>
          verdict (compare (fun heap left right => rvalEqual heap left right false) args node heap)
      | .le => verdict (compare rvalLessOrEqual args node heap)
      | .ge => verdict (compare rvalGreaterOrEqual args node heap)
      | .lt => verdict (compare rvalLess args node heap)
      -- The source asks `rval_greater_or_equal` here too.
      | .gt => verdict (compare rvalGreaterOrEqual args node heap)
      | .not => (verdict (firstOperand args node heap)).map fun answer => !answer
      | _ => some false

/-- `select_match` with a pattern and with the siblings behind it. -/
def selectMatchers : Expr → List (Ptr → Option Bool)
  | .null => []
  | .node head children next =>
      matchNode env depth heap head children (selectMatchers children) :: selectMatchers next

/-- `select_match` -/
def selectMatch (templ : Expr) (node : Ptr) : Option Bool :=
  matchFirst (selectMatchers env depth heap templ) node

@[simp] theorem selectMatch_null (node : Ptr) :
    selectMatch env depth heap .null node = some true := rfl

theorem selectMatch_none (head : ExprNode) (children next : Expr) :
    selectMatch env depth heap (.node head children next) none = some false := rfl

theorem selectMatch_node (head : ExprNode) (children next : Expr) (node : Ptr) :
    selectMatch env depth heap (.node head children next) node =
      matchNode env depth heap head children (selectMatchers env depth heap children) node := rfl

variable {env depth heap}

theorem selectMatch_select {head : ExprNode} (type : head.type = .select) (children next : Expr)
    (node : NodeId) : selectMatch env depth heap (.node head children next) (some node) =
      if (heap.get node).name = head.name
        then selectMatch env depth heap children (heap.get node).parent
        else some false := by
  rw [selectMatch_node]
  simp only [matchNode, type]
  by_cases same : (heap.get node).name = head.name
  · simp only [same, not_true_eq_false, if_false, if_true]
    rfl
  · simp only [same, not_false_eq_true, if_true, if_false]

theorem selectMatch_context {head : ExprNode} (type : head.type = .context)
    (children next : Expr) (node : NodeId) :
    selectMatch env depth heap (.node head children next) (some node) = some true := by
  rw [selectMatch_node]
  simp only [matchNode, type]

theorem selectMatch_root {head : ExprNode} (type : head.type = .root)
    (children next : Expr) (node : NodeId) :
    selectMatch env depth heap (.node head children next) (some node) =
      some (decide (env.rootNode = node)) := by
  rw [selectMatch_node]
  simp only [matchNode, type]

end Matching

end TurboXSL
