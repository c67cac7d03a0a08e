import TurboXSL.Selections
import TurboXSL.TaskModes

namespace TurboXSL

open Library Program

/-!
# Initialisers of variables

`do_local_var` finds or makes the node of a variable, `xpath_eval_node` makes it
NULL, and only then is the expression evaluated.  An expression that does not
mention the variable cannot tell: its value is that of the scope before.
-/

variable {Num : Type}

/-! ## What a variable stands for -/

/-- The value of a global variable, NULL where there is none. -/
def Env.globalValue (env : Env Num) (name : Option Bytes) : RValue Num :=
  match env.globals.find? fun binding => decide (name = some binding.1) with
  | some binding => binding.2
  | none => .null

/-- What `get_variable_rv` finds and copies. -/
def Env.variableValue (env : Env Num) (name : Option Bytes) : RValue Num :=
  match env.localVariables.find? fun binding => decide (xmlsEquals name binding.1) with
  | some binding => binding.2
  | none => env.globalValue name

theorem getVariableRv_eq (env : Env Num) (name : Option Bytes) (heap : Heap) :
    getVariableRv env name heap = rvalCopy heap (env.variableValue name) := by
  unfold getVariableRv Env.variableValue Env.globalValue
  cases env.localVariables.find? fun binding => decide (xmlsEquals name binding.1) with
  | some binding => rfl
  | none =>
      cases env.globals.find? fun binding => decide (name = some binding.1) <;> rfl

/-- The environment with other local variables. -/
def Env.withVariables (env : Env Num) (bindings : List (Option Bytes × RValue Num)) : Env Num :=
  { env with localVariables := bindings }

/-- The expression refers to the variable, or may come to one that does by an
`xsl:key`. -/
inductive Mentions (env : Env Num) (x : Option Bytes) : Expr → Prop where
  | here {head : ExprNode} {children next : Expr} (type : head.type = .var) (name : head.name = x) :
      Mentions env x (.node head children next)
  | child {head : ExprNode} {children next : Expr} (below : Mentions env x children) :
      Mentions env x (.node head children next)
  | behind {head : ExprNode} {children next : Expr} (later : Mentions env x next) :
      Mentions env x (.node head children next)
  | key {head : ExprNode} {children next : Expr} {declaration : Bytes × (Bytes → Bytes)}
      {value : Bytes} {expression : Expr} (type : head.type = .call)
      (name : head.name = some (lit "key")) (declared : declaration ∈ env.keys)
      (found : env.findExpr (declaration.2 value) = some expression)
      (mentions : Mentions env x expression) : Mentions env x (.node head children next)

section Agreement

variable [Double Num] {env : Env Num} {x : Option Bytes}
  {bindings : List (Option Bytes × RValue Num)}

theorem xfKey_withVariables {run other : Expr → Eval Num}
    (agree : ∀ declaration ∈ env.keys, ∀ value expression,
      env.findExpr (declaration.2 value) = some expression → other expression = run expression)
    (args : List (Operand Num)) :
    xfKey (env.withVariables bindings) other args = xfKey env run args := by
  funext current heap
  unfold xfKey
  apply Option.bind_congr
  intro first _
  apply Option.bind_congr
  intro keyName _
  cases keyName with
  | none => rfl
  | some keyName =>
      dsimp only
      split
      next => rfl
      next =>
          apply Option.bind_congr
          intro second _
          apply Option.bind_congr
          intro keyValue _
          cases keyValue with
          | none => rfl
          | some keyValue =>
              have keys : (env.withVariables bindings).keys = env.keys := rfl
              dsimp only
              rw [keys]
              cases found : env.keys.find? fun key => key.1 = keyName with
              | none => rfl
              | some declaration =>
                  apply Option.bind_congr
                  intro expression compiled
                  have same := agree declaration (List.mem_of_find?_eq_some found) keyValue
                    expression compiled
                  unfold xpathEvalSelection
                  rw [same]
                  rfl

theorem executeNode_withVariables
    (others : ∀ y, y ≠ x → (env.withVariables bindings).variableValue y = env.variableValue y)
    {run other : Expr → Eval Num}
    (agree : ∀ expression, ¬ Mentions env x expression → other expression = run expression)
    {head : ExprNode} {children next : Expr}
    (silent : ¬ Mentions env x (.node head children next)) (args : List (Operand Num)) :
    executeNode (env.withVariables bindings) other head args = executeNode env run head args := by
  funext current heap
  unfold executeNode
  cases type : head.type with
  | var =>
      dsimp only
      rw [getVariableRv_eq, getVariableRv_eq, others _ fun same => silent (.here type same)]
  | call =>
      dsimp only
      apply Option.bind_congr
      intro name named
      have callbacks : (env.withVariables bindings).perlFunctions = env.perlFunctions := rfl
      unfold xpathCallDispatcher
      rw [callbacks]
      cases env.perlFunctions name with
      | some callback => rfl
      | none =>
          by_cases isKey : name = lit "key"
          · have keys : xfKey (env.withVariables bindings) other args = xfKey env run args := by
              refine xfKey_withVariables (fun declaration declared value expression found => ?_) args
              apply agree
              intro mentions
              exact silent (.key type (named.trans (congrArg some isKey)) declared found mentions)
            dsimp only
            rw [keys]
            rfl
          · dsimp only
            rw [if_neg isKey, if_neg isKey]
            rfl
  | _ => rfl

theorem operands_withVariables
    (others : ∀ y, y ≠ x → (env.withVariables bindings).variableValue y = env.variableValue y)
    {run other : Expr → Eval Num}
    (agree : ∀ expression, ¬ Mentions env x expression → other expression = run expression)
    (etree : Expr) (silent : ¬ Mentions env x etree) :
    operands (env.withVariables bindings) other etree = operands env run etree := by
  induction etree with
  | null => rfl
  | node head children next below behind =>
      rw [operands, operands, below fun mentions => silent (.child mentions),
        behind fun mentions => silent (.behind mentions),
        executeNode_withVariables others agree silent]

/-- The value of an expression that does not mention `x` does not depend on `x`. -/
theorem keyEval_withVariables
    (others : ∀ y, y ≠ x → (env.withVariables bindings).variableValue y = env.variableValue y)
    (depth : Nat) (etree : Expr) (silent : ¬ Mentions env x etree) :
    keyEval (env.withVariables bindings) depth etree = keyEval env depth etree := by
  induction depth generalizing etree with
  | zero => rfl
  | succ depth inductionHypothesis =>
      rw [keyEval, keyEval, operands_withVariables others inductionHypothesis etree silent]

theorem xpathExecuteScalar_withVariables
    (others : ∀ y, y ≠ x → (env.withVariables bindings).variableValue y = env.variableValue y)
    (depth : Nat) {etree : Expr} (silent : ¬ Mentions env x etree) :
    xpathExecuteScalar (env.withVariables bindings) depth etree =
      xpathExecuteScalar env depth etree := by
  rw [xpathExecuteScalar, xpathExecuteScalar, operandsAt, operandsAt,
    operands_withVariables others (keyEval_withVariables others depth) etree silent]

end Agreement

/-! ## The node of a variable -/

/-- The attributes of a node in memory: of an element, or the variables of a frame. -/
structure Owns (heap : Heap) (vars : NodeId) (attributes : List NodeId) : Prop where
  listed : siblings heap (heap.get vars).attributes = some attributes
  present : vars < heap.size
  inside : ∀ attr ∈ attributes, attr < heap.size
  apart : vars ∉ attributes

section Attributes

variable {heap after : Heap} {vars : NodeId} {attributes : List NodeId}

/-- They are still there when their links are as before. -/
theorem Owns.keep (frame : Owns heap vars attributes) (grows : heap.size ≤ after.size)
    (head : (after.get vars).attributes = (heap.get vars).attributes)
    (links : ∀ attr ∈ attributes, (after.get attr).next = (heap.get attr).next) :
    Owns after vars attributes where
  listed := by
    rw [head]
    have chain := (follow_eq_some_iff.mp frame.listed).1
    exact siblings_of_chain (chain.congr links) fun attr member =>
      Nat.lt_of_lt_of_le (frame.inside attr member) grows
  present := Nat.lt_of_lt_of_le frame.present grows
  inside := fun attr member => Nat.lt_of_lt_of_le (frame.inside attr member) grows
  apart := frame.apart

theorem Owns.ne (frame : Owns heap vars attributes) {attr : NodeId} (member : attr ∈ attributes) :
    attr ≠ vars := fun same => frame.apart (same ▸ member)

/-- Evaluation leaves the local variables in place. -/
theorem Owns.allocates (frame : Owns heap vars attributes)
    (allocates : Allocates (some vars) heap after) : Owns after vars attributes := by
  refine frame.keep allocates.grows (allocates.frame vars rfl frame.present) fun attr member => ?_
  rw [allocates.same attr (frame.inside attr member) fun same =>
    frame.ne member (Option.some.inj same).symm]

/-- The nodes with a new variable in front of a frame. -/
def pushVariable (heap : Heap) (vars : NodeId) (x : Option Bytes) : Heap :=
  ((xmlNewNode heap x .attribute).1.modify heap.size fun cell =>
    { cell with next := ((xmlNewNode heap x .attribute).1.get vars).attributes }).modify vars
      fun cell => { cell with attributes := some heap.size }

theorem pushVariable_new (present : vars < heap.size) (x : Option Bytes) :
    ((pushVariable heap vars x).get heap.size).name = x ∧
      ((pushVariable heap vars x).get heap.size).next = (heap.get vars).attributes := by
  rw [pushVariable, Arena.modify_get_of_ne _ _ (Nat.ne_of_gt present), Arena.modify_get_same,
    xmlNewNode, Arena.alloc_get_same, Arena.alloc_get_of_lt _ _ present]
  exact ⟨rfl, rfl⟩

theorem pushVariable_old {attr : NodeId} (inside : attr < heap.size) (other : attr ≠ vars)
    (x : Option Bytes) : (pushVariable heap vars x).get attr = heap.get attr := by
  rw [pushVariable, Arena.modify_get_of_ne _ _ other,
    Arena.modify_get_of_ne _ _ (Nat.ne_of_lt inside), xmlNewNode, Arena.alloc_get_of_lt _ _ inside]

/-- A new node in front of the others. -/
theorem Owns.cons (owned : Owns heap vars attributes) (grows : heap.size < after.size)
    (head : (after.get vars).attributes = some heap.size)
    (new : (after.get heap.size).next = (heap.get vars).attributes)
    (links : ∀ attr ∈ attributes, (after.get attr).next = (heap.get attr).next) :
    Owns after vars (heap.size :: attributes) := by
  have inside : ∀ attr ∈ heap.size :: attributes, attr < after.size := by
    intro attr member
    rcases List.mem_cons.mp member with rfl | member
    · exact grows
    · exact Nat.lt_trans (owned.inside attr member) grows
  refine ⟨siblings_of_chain ?_ inside, Nat.lt_trans owned.present grows, inside, ?_⟩
  · rw [head]
    apply Chain.cons
    rw [new]
    exact (follow_eq_some_iff.mp owned.listed).1.congr links
  · intro member
    rcases List.mem_cons.mp member with same | member
    · exact absurd same (Nat.ne_of_lt owned.present)
    · exact owned.apart member

theorem Owns.push (owned : Owns heap vars attributes) (x : Option Bytes) :
    Owns (pushVariable heap vars x) vars (heap.size :: attributes) := by
  refine owned.cons (Nat.lt_succ_self _) ?_ (pushVariable_new owned.present x).2 ?_
  · rw [pushVariable, Arena.modify_get_same]
  · intro attr member
    rw [pushVariable_old (owned.inside attr member) (owned.ne member)]

end Attributes

/-- The variables of a list of nodes. -/
def bindingsOf (memory : Memory Num) (attributes : List NodeId) :
    List (Option Bytes × RValue Num) :=
  attributes.map fun attr => ((memory.heap.get attr).name, memory.extra attr)

/-- The environment of expressions with these local variables. -/
def Transformation.scopeOf (pctx : Transformation Num) (memory : Memory Num) (vars : NodeId)
    (attributes : List NodeId) : Env Num :=
  { pctx.env with
    locals := some vars,
    localVariables := bindingsOf memory attributes,
    globals := memory.vars pctx.number }

section Scopes

variable {memory placed : Memory Num} {vars binding : NodeId} {attributes now : List NodeId}
  {x : Option Bytes} (pctx : Transformation Num)

/-- Keys are the same in all scopes. -/
theorem Mentions.of_scope {e : Expr}
    (mentions : Mentions (pctx.scopeOf memory vars attributes) x e) : Mentions pctx.env x e := by
  induction mentions with
  | here type name => exact .here type name
  | child _ inductionHypothesis => exact .child inductionHypothesis
  | behind _ inductionHypothesis => exact .behind inductionHypothesis
  | key type name declared found _ inductionHypothesis =>
      exact .key type name declared found inductionHypothesis

theorem Owns.scope (frame : Owns memory.heap vars attributes) :
    pctx.scope vars memory = some (pctx.scopeOf memory vars attributes) := by
  unfold Transformation.scope
  rw [frame.listed]
  rfl

/-- The first variable of a name that is listed, or else the global one. -/
theorem variableValue_scopeOf (y : Option Bytes) :
    (pctx.scopeOf memory vars attributes).variableValue y =
      (attributes.find? fun attr => decide (xmlsEquals y (memory.heap.get attr).name)).elim
        ((pctx.scopeOf memory vars attributes).globalValue y) memory.extra := by
  have listed : (bindingsOf memory attributes).find?
      (fun binding => decide (xmlsEquals y binding.1)) =
        (attributes.find? fun attr => decide (xmlsEquals y (memory.heap.get attr).name)).map
          fun attr => ((memory.heap.get attr).name, memory.extra attr) := List.find?_map
  unfold Env.variableValue
  rw [show (pctx.scopeOf memory vars attributes).localVariables = bindingsOf memory attributes
    from rfl, listed]
  cases attributes.find? fun attr => decide (xmlsEquals y (memory.heap.get attr).name) <;> rfl

theorem find_congr {p q : NodeId → Bool} {nodes : List NodeId} (agree : ∀ n ∈ nodes, p n = q n) :
    nodes.find? p = nodes.find? q := by
  induction nodes with
  | nil => rfl
  | cons n nodes inductionHypothesis =>
      rw [List.find?_cons, List.find?_cons, agree n List.mem_cons_self,
        inductionHypothesis fun m member => agree m (List.mem_cons_of_mem n member)]

/-- The node of `x` is in its place: it comes first among those of this name,
and the other names are found where they were. -/
structure Placed (memory placed : Memory Num) (vars : NodeId) (attributes now : List NodeId)
    (x : Option Bytes) (binding : NodeId) : Prop where
  frame : Owns placed.heap vars now
  extra : placed.extra = memory.extra
  globals : placed.vars = memory.vars
  found : now.find? (fun attr => decide (xmlsEquals x (placed.heap.get attr).name)) = some binding
  others : ∀ y, y ≠ x →
    now.find? (fun attr => decide (xmlsEquals y (placed.heap.get attr).name)) =
      attributes.find? fun attr => decide (xmlsEquals y (memory.heap.get attr).name)

section Placed

variable (isPlaced : Placed memory placed vars attributes now x binding) {heap : Heap}
  (names : ∀ attr ∈ now, (heap.get attr).name = (placed.heap.get attr).name) (value : RValue Num)

include isPlaced names

/-- Once its node has a value, `x` stands for it. -/
theorem Placed.variableValue :
    (pctx.scopeOf ({ placed with heap := heap }.setExtra binding value) vars now).variableValue x =
      value := by
  have found : now.find? (fun attr => decide (xmlsEquals x (heap.get attr).name)) =
      some binding := by
    rw [← isPlaced.found]
    apply find_congr
    intro attr member
    rw [names attr member]
  rw [variableValue_scopeOf]
  change (now.find? fun attr => decide (xmlsEquals x (heap.get attr).name)).elim _ _ = _
  rw [found]
  exact if_pos rfl

/-- The other variables stand for what they stood for. -/
theorem Placed.otherValue {y : Option Bytes} (other : y ≠ x) :
    (pctx.scopeOf ({ placed with heap := heap }.setExtra binding value) vars now).variableValue y =
      (pctx.scopeOf memory vars attributes).variableValue y := by
  have found : now.find? (fun attr => decide (xmlsEquals y (heap.get attr).name)) =
      attributes.find? fun attr => decide (xmlsEquals y (memory.heap.get attr).name) := by
    rw [← isPlaced.others y other]
    apply find_congr
    intro attr member
    rw [names attr member]
  have hit := List.find?_some isPlaced.found
  have named := of_decide_eq_true hit
  rw [variableValue_scopeOf, variableValue_scopeOf]
  change (now.find? fun attr => decide (xmlsEquals y (heap.get attr).name)).elim _ _ = _
  rw [found]
  cases there : attributes.find? fun attr => decide (xmlsEquals y (memory.heap.get attr).name) with
  | none =>
      change Env.globalValue { pctx.env with globals := placed.vars pctx.number } y = _
      rw [isPlaced.globals]
      rfl
  | some attr =>
      have apart : attr ≠ binding := by
        rintro rfl
        have here := List.find?_some ((isPlaced.others y other).trans there)
        exact other ((of_decide_eq_true here).trans named.symm)
      change (if attr = binding then value else placed.extra attr) = memory.extra attr
      rw [if_neg apart, isPlaced.extra]

end Placed

/-- The scope in which the initialiser is evaluated. -/
theorem Placed.emptied (isPlaced : Placed memory placed vars attributes now x binding) :
    pctx.scopeOf (placed.setExtra binding .null) vars now =
      (pctx.scopeOf memory vars attributes).withVariables
        (bindingsOf (placed.setExtra binding .null) now) := by
  have globals : (placed.setExtra binding .null).vars = memory.vars := isPlaced.globals
  unfold Transformation.scopeOf Env.withVariables
  rw [globals]

/-- What holds after `x` was given a value. -/
theorem Placed.assigned (isPlaced : Placed memory placed vars attributes now x binding)
    {heap : Heap} (allocates : Allocates (some vars) placed.heap heap) (value : RValue Num) :
    Exists fun scope =>
      pctx.scope vars ({ placed with heap := heap }.setExtra binding value) = some scope ∧
      scope.variableValue x = value ∧
      ∀ y, y ≠ x →
        scope.variableValue y = (pctx.scopeOf memory vars attributes).variableValue y := by
  have frame : Owns ({ placed with heap := heap }.setExtra binding value).heap vars now :=
    isPlaced.frame.allocates allocates
  have names : ∀ attr ∈ now, (heap.get attr).name = (placed.heap.get attr).name := by
    intro attr member
    rw [allocates.same attr (isPlaced.frame.inside attr member) fun same =>
      isPlaced.frame.ne member (Option.some.inj same).symm]
  exact ⟨_, frame.scope pctx, isPlaced.variableValue pctx names value,
    fun _ other => isPlaced.otherValue pctx names value other⟩

end Scopes

section Runs

variable {start : TemplateTask Num → Memory Num → Option (Memory Num)} {Value Other : Type}
  {memory : Memory Num}

/-- A thread on its own goes on with the answer of its first part. -/
theorem alone_first {first : Thread Num Value} {next : Value → Thread Num Other} {value : Value}
    {middle : Memory Num} (ran : first.run (alone start) memory = some (value, middle)) :
    (first >>= next).run (alone start) memory = (next value).run (alone start) middle := by
  rw [run_bind, ran]
  rfl

theorem alone_access (change : Memory Num → Option (Value × Memory Num)) :
    (access change).run (alone start) memory = change memory := by
  change (change memory).bind _ = _
  cases change memory <;> rfl

theorem alone_reading {read : Heap → Option Value} {value : Value}
    (found : read memory.heap = some value) :
    (reading read).run (alone start) memory = some (value, memory) := by
  rw [reading, alone_access, found]
  rfl

theorem alone_nodeOf (node : NodeId) :
    (nodeOf node).run (alone start) memory = some (memory.heap.get node, memory) :=
  alone_reading rfl

theorem alone_attributeOf {node : NodeId} {name : Bytes} {value : Option Bytes}
    (found : xmlGetAttr memory.heap (some name) (memory.heap.size + 1) node = some value) :
    (attributeOf node name).run (alone start) memory = some (value, memory) :=
  alone_reading found

theorem alone_setExtra (node : NodeId) (value : RValue Num) :
    (setExtra node value).run (alone start) memory = some ((), memory.setExtra node value) :=
  alone_access _

/-- The node that is found loses its content; otherwise one is put in front. -/
theorem localVariable_run (start : TemplateTask Num → Memory Num → Option (Memory Num))
    {vars : NodeId} {attributes : List NodeId} (frame : Owns memory.heap vars attributes)
    (x : Option Bytes) :
    (localVariable vars x).run (alone start) memory = some
      (match attributes.find? fun tmp => decide (xmlsEquals x (memory.heap.get tmp).name) with
        | some tmp => (tmp, { memory with heap := memory.heap.modify tmp fun cell =>
            { cell with content := none } })
        | none => (memory.heap.size, { memory with heap := pushVariable memory.heap vars x })) := by
  have read : (do
      let attributes ← siblings memory.heap (memory.heap.get vars).attributes
      some (attributes.find? fun tmp => decide (xmlsEquals x (memory.heap.get tmp).name))) =
      some (attributes.find? fun tmp => decide (xmlsEquals x (memory.heap.get tmp).name)) := by
    rw [frame.listed]
    rfl
  unfold localVariable
  rw [alone_first (alone_reading read)]
  cases attributes.find? fun tmp => decide (xmlsEquals x (memory.heap.get tmp).name) <;> rfl

theorem localVariable_placed
    (start : TemplateTask Num → Memory Num → Option (Memory Num)) {vars : NodeId}
    {attributes : List NodeId}
    (frame : Owns memory.heap vars attributes) (x : Option Bytes) :
    Exists fun binding => Exists fun placed => Exists fun now =>
      (localVariable vars x).run (alone start) memory = some (binding, placed) ∧
        Placed memory placed vars attributes now x binding := by
  rw [localVariable_run start frame]
  cases found : attributes.find? fun tmp => decide (xmlsEquals x (memory.heap.get tmp).name) with
  | some tmp =>
      have member := List.mem_of_find?_eq_some found
      have same : ∀ attr, ((memory.heap.modify tmp fun cell =>
          { cell with content := none }).get attr).name = (memory.heap.get attr).name := by
        intro attr
        by_cases at_ : attr = tmp
        · rw [at_, Arena.modify_get_same]
        · rw [Arena.modify_get_of_ne _ _ at_]
      refine ⟨tmp, { memory with heap := memory.heap.modify tmp fun cell =>
        { cell with content := none } }, attributes, rfl, ?_, rfl, rfl, ?_, fun y _ => ?_⟩
      · refine frame.keep (Nat.le_refl _) ?_ fun attr _ => ?_
        · rw [Arena.modify_get_of_ne _ _ (frame.ne member).symm]
        · by_cases at_ : attr = tmp
          · rw [at_, Arena.modify_get_same]
          · rw [Arena.modify_get_of_ne _ _ at_]
      · simp only [same, found]
      · simp only [same]
  | none =>
      have named := (pushVariable_new frame.present x).1
      refine ⟨memory.heap.size, { memory with heap := pushVariable memory.heap vars x },
        memory.heap.size :: attributes, rfl, frame.push x, rfl, rfl, ?_, fun y other => ?_⟩
      · rw [List.find?_cons_of_pos]
        exact decide_eq_true named.symm
      · rw [List.find?_cons_of_neg]
        · apply find_congr
          intro attr member
          rw [pushVariable_old (frame.inside attr member) (frame.ne member)]
        · rw [named]
          exact fun same => other (of_decide_eq_true same)

theorem setExtra_setExtra (node : NodeId) (first value : RValue Num) (heap : Heap) :
    { memory.setExtra node first with heap := heap }.setExtra node value =
      { memory with heap := heap }.setExtra node value := by
  have extra : (fun other => if other = node then value else
      if other = node then first else memory.extra other) =
        fun other => if other = node then value else memory.extra other := by
    funext other
    by_cases same : other = node
    · rw [if_pos same, if_pos same]
    · rw [if_neg same, if_neg same, if_neg same]
  exact congrArg (fun extra => { memory with heap := heap, extra := extra }) extra

variable {pctx : Transformation Num}

theorem alone_evaluating {vars : NodeId} {now : List NodeId} (frame : Owns memory.heap vars now)
    (evaluate : Env Num → Heap → Option (Value × Heap)) :
    (evaluating pctx vars evaluate).run (alone start) memory =
      (evaluate (pctx.scopeOf memory vars now) memory.heap).map fun result =>
        (result.1, { memory with heap := result.2 }) := by
  rw [evaluating, alone_access, frame.scope pctx]
  change Option.bind (evaluate (pctx.scopeOf memory vars now) memory.heap) _ = _
  cases evaluate (pctx.scopeOf memory vars now) memory.heap <;> rfl

variable [Double Num]

/-- `xpath_eval_node`: the expression is evaluated once the node is NULL. -/
theorem alone_evalNode {vars current node : NodeId} {now : List NodeId} {select : Bytes}
    {e : Expr} (compiled : pctx.env.findExpr select = some e) (frame : Owns memory.heap vars now) :
    (evalNode pctx vars current (some select) node).run (alone start) memory =
      if e = .null then some ((), memory.setExtra node .null)
      else (xpathExecuteScalar (pctx.scopeOf (memory.setExtra node .null) vars now) pctx.depth e
          current (memory.heap.modify vars fun cell => { cell with parent := some current })).map
        fun result => ((), { memory with heap := result.2 }.setExtra node result.1) := by
  have found : (findExpr pctx (some select)).run (alone start) (memory.setExtra node .null) =
      some (e, memory.setExtra node .null) := alone_reading compiled
  have emptied : Owns (memory.setExtra node .null).heap vars now := frame
  unfold evalNode
  rw [alone_first (alone_setExtra node .null), alone_first found]
  split
  next => rfl
  next =>
      rw [run_bind, alone_evaluating emptied, Option.bind_map, Option.map_eq_bind]
      apply Option.bind_congr
      intro result _
      exact (alone_setExtra node result.1).trans
        (congrArg (fun after => some ((), after)) (setExtra_setExtra node .null result.1 result.2))

end Runs

/-! ## Instructions that bind a variable -/

section Initialisers

variable [Double Num] {call : Caller Num}
  {start : TemplateTask Num → Memory Num → Option (Memory Num)} {memory : Memory Num}
  {context : TemplateContext Num} {instruction : NodeId} {x : Option Bytes} {e : Expr}
  {program : Thread Num Unit} {attributes : List NodeId}

/-- The instruction has the name `x` and a `select` that stands for `e`. -/
structure Declares (memory : Memory Num) (context : TemplateContext Num) (instruction : NodeId)
    (x : Option Bytes) (e : Expr) : Prop where
  named : xmlGetAttr memory.heap (some xslAName) (memory.heap.size + 1) instruction = some x
  selects : Exists fun select =>
    xmlGetAttr memory.heap (some xslASelect) (memory.heap.size + 1) instruction =
      some (some select) ∧ context.context.env.findExpr select = some e

/-- `xsl:variable`, or an `xsl:param` for which no value is given. -/
inductive Initialiser (call : Caller Num) (memory : Memory Num) (context : TemplateContext Num)
    (instruction : NodeId) (x : Option Bytes) : Thread Num Unit → Prop where
  | ofVariable : Initialiser call memory context instruction x
      (instructionVariable call context instruction)
  | ofParam {parameters : List NodeId}
      (listed : siblings memory.heap context.parameters = some parameters)
      (absent : ∀ parameter ∈ parameters, (memory.heap.get parameter).name ≠ x) :
      Initialiser call memory context instruction x (instructionParam call context instruction)

/-- Afterwards `x` has the value that `e` has in the scope as it was before the
instruction, evaluated once the node of the variable is in its place, and the
other variables have the values that they had. -/
def InitialisedOutside (start : TemplateTask Num → Memory Num → Option (Memory Num))
    (memory : Memory Num) (context : TemplateContext Num) (x : Option Bytes) (e : Expr)
    (program : Thread Num Unit) : Prop :=
  Exists fun env => Exists fun binding => Exists fun placed =>
    context.context.scope context.localVariables memory = some env ∧
    (localVariable context.localVariables x).run (alone start) memory = some (binding, placed) ∧
    ∀ value heap,
      xpathExecuteScalar env context.context.depth e context.documentNode
        (placed.heap.modify context.localVariables fun cell =>
          { cell with parent := some context.documentNode }) = some (value, heap) →
      Exists fun after => Exists fun scope =>
        program.run (alone start) memory = some ((), after) ∧
        (e ≠ .null → after.heap = heap) ∧
        context.context.scope context.localVariables after = some scope ∧
        scope.variableValue x = value ∧
        ∀ y, y ≠ x → scope.variableValue y = env.variableValue y

/-- Both instructions find or make the node of the variable, and evaluate. -/
theorem Initialiser.run (start : TemplateTask Num → Memory Num → Option (Memory Num))
    {select : Bytes}
    (initialiser : Initialiser call memory context instruction x program)
    (named : xmlGetAttr memory.heap (some xslAName) (memory.heap.size + 1) instruction = some x)
    (selects : xmlGetAttr memory.heap (some xslASelect) (memory.heap.size + 1) instruction =
      some (some select)) :
    program.run (alone start) memory =
      ((localVariable context.localVariables x).run (alone start) memory).bind fun result =>
        (evalNode context.context context.localVariables context.documentNode (some select)
          result.1).run (alone start) result.2 := by
  have declared : (doLocalVar call context.context context.localVariables context.documentNode
      instruction).run (alone start) memory =
        ((localVariable context.localVariables x).run (alone start) memory).bind fun result =>
          (evalNode context.context context.localVariables context.documentNode (some select)
            result.1).run (alone start) result.2 := by
    unfold doLocalVar
    rw [alone_first (alone_attributeOf named), alone_first (alone_attributeOf selects), run_bind]
  cases initialiser with
  | ofVariable => exact declared
  | ofParam listed absent =>
      rename_i parameters
      have none_ : (xpathInSelection context.parameters x).run (alone start) memory =
          some (none, memory) := by
        apply alone_reading
        rw [listed]
        refine congrArg some (List.find?_eq_none.mpr fun parameter member same => ?_)
        exact absent parameter member (of_decide_eq_true same)
      unfold instructionParam
      rw [alone_first (alone_attributeOf named), alone_first (alone_attributeOf selects),
        alone_first none_, alone_first (alone_nodeOf instruction), if_pos ⟨rfl, .inl nofun⟩]
      exact declared

/-- The initialiser is evaluated once its variable is NULL. -/
theorem Initialiser.evaluated {placed : Memory Num} {binding : NodeId} {now : List NodeId}
    (initialiser : Initialiser call memory context instruction x program)
    (declares : Declares memory context instruction x e)
    (ran : (localVariable context.localVariables x).run (alone start) memory =
      some (binding, placed))
    (isPlaced : Placed memory placed context.localVariables attributes now x binding)
    (filled : e ≠ .null) :
    program.run (alone start) memory =
      (xpathExecuteScalar
        ((context.context.scopeOf memory context.localVariables attributes).withVariables
          (bindingsOf (placed.setExtra binding .null) now))
        context.context.depth e context.documentNode
        (placed.heap.modify context.localVariables fun cell =>
          { cell with parent := some context.documentNode })).map
        fun result => ((), { placed with heap := result.2 }.setExtra binding result.1) := by
  rcases declares with ⟨named, select, selects, compiled⟩
  rw [initialiser.run start named selects, ran, Option.bind_some,
    alone_evalNode compiled isPlaced.frame, if_neg filled, isPlaced.emptied]

/-- An initialiser that does not mention its variable sees the scope before. -/
theorem initialised_of_silent (frame : Owns memory.heap context.localVariables attributes)
    (declares : Declares memory context instruction x e)
    (initialiser : Initialiser call memory context instruction x program)
    (silent : ¬ Mentions context.context.env x e) :
    InitialisedOutside start memory context x e program := by
  rcases localVariable_placed start frame x with ⟨binding, placed, now, ran, isPlaced⟩
  refine ⟨_, binding, placed, frame.scope _, ran, fun value heap evaluated => ?_⟩
  by_cases empty : e = .null
  · rcases declares with ⟨named, select, selects, compiled⟩
    have whole := initialiser.run start named selects
    rw [ran, Option.bind_some, alone_evalNode compiled isPlaced.frame, if_pos empty] at whole
    rw [empty] at evaluated
    cases evaluated
    rcases isPlaced.assigned context.context (.refl _ placed.heap) .null with
      ⟨scope, found, same, others⟩
    exact ⟨_, scope, whole, fun other => absurd empty other, found, same, others⟩
  · have others : ∀ y, y ≠ x →
        ((context.context.scopeOf memory context.localVariables attributes).withVariables
          (bindingsOf (placed.setExtra binding .null) now)).variableValue y =
        (context.context.scopeOf memory context.localVariables attributes).variableValue y := by
      intro y other
      rw [← isPlaced.emptied]
      exact isPlaced.otherValue context.context (fun _ _ => rfl) .null other
    have whole := initialiser.evaluated declares ran isPlaced empty
    rw [xpathExecuteScalar_withVariables others _ fun mentions => silent mentions.of_scope,
      evaluated] at whole
    have old : Old (some context.localVariables) placed.heap := by
      rintro l ⟨⟩
      exact isPlaced.frame.present
    have current := setCurrent_allocates placed.heap (Eq.refl (some context.localVariables))
      context.documentNode
    have allocates := current.trans old
      (xpathExecuteScalar_framed (context.context.scopeOf memory context.localVariables attributes)
        context.context.depth e _ _ _ _ (old.grow current) evaluated).allocates
    rcases isPlaced.assigned context.context allocates value with ⟨scope, found, same, others⟩
    exact ⟨_, scope, whole, fun _ => rfl, found, same, others⟩

theorem xpathExecuteScalar_variable (env : Env Num) (depth : Nat) {head : ExprNode}
    (type : head.type = .var) (current : NodeId) (heap : Heap) :
    xpathExecuteScalar env depth (.leaf head) current heap =
      rvalCopy heap (env.variableValue head.name) := by
  rw [Expr.leaf, xpathExecuteScalar_node, executeNode, type, ← getVariableRv_eq]

/-- A variable that is initialised with itself becomes NULL. -/
theorem initialised_with_itself_iff
    (frame : Owns memory.heap context.localVariables attributes)
    (declares : Declares memory context instruction x e)
    (initialiser : Initialiser call memory context instruction x program) {head : ExprNode}
    (itself : e = .leaf head) (type : head.type = .var) (name : head.name = x)
    (plain : ∀ nodeset, (context.context.scopeOf memory context.localVariables
      attributes).variableValue x ≠ .nodeset nodeset) :
    InitialisedOutside start memory context x e program ↔
      (context.context.scopeOf memory context.localVariables attributes).variableValue x =
        .null := by
  rcases localVariable_placed start frame x with ⟨binding, placed, now, ran, isPlaced⟩
  have current := setCurrent_allocates placed.heap (Eq.refl (some context.localVariables))
    context.documentNode
  rcases isPlaced.assigned context.context current .null with ⟨scope, found, null_, others⟩
  have emptied := isPlaced.variableValue context.context (fun _ _ => rfl) .null
  rw [isPlaced.emptied] at emptied
  have whole := initialiser.evaluated declares ran isPlaced (itself ▸ nofun)
  rw [itself, xpathExecuteScalar_variable _ _ type, name, emptied] at whole
  have copied : ∀ heap, rvalCopy heap ((context.context.scopeOf memory context.localVariables
      attributes).variableValue x) = some ((context.context.scopeOf memory context.localVariables
        attributes).variableValue x, heap) := by
    intro heap
    cases value : (context.context.scopeOf memory context.localVariables attributes).variableValue x
    case nodeset nodeset => exact absurd value (plain nodeset)
    all_goals rfl
  constructor
  · rintro ⟨env, binding', placed', inScope, ran', holds⟩
    cases (frame.scope context.context).symm.trans inScope
    cases ran.symm.trans ran'
    rw [itself, xpathExecuteScalar_variable _ _ type, name, copied] at holds
    rcases holds _ _ rfl with ⟨after, scope', done, -, found', same, -⟩
    cases whole.symm.trans done
    cases found.symm.trans found'
    exact same.symm.trans null_
  · intro null
    refine ⟨_, binding, placed, frame.scope _, ran, fun value heap evaluated => ?_⟩
    rw [itself, xpathExecuteScalar_variable _ _ type, name, copied, null] at evaluated
    cases evaluated
    exact ⟨_, scope, whole, fun _ => rfl, found, null_, others⟩

/-- Initialisers see the outer scope where they do not mention their variable.
Where one is nothing but the variable, it does so only if the variable had no
value before. -/
theorem initialisers_see_outside (call : Caller Num)
    (start : TemplateTask Num → Memory Num → Option (Memory Num)) (memory : Memory Num)
    (context : TemplateContext Num) (instruction : NodeId) (x : Option Bytes) (e : Expr)
    (program : Thread Num Unit) (attributes : List NodeId)
    (frame : Owns memory.heap context.localVariables attributes)
    (declares : Declares memory context instruction x e)
    (initialiser : Initialiser call memory context instruction x program) :
    (¬ Mentions context.context.env x e → InitialisedOutside start memory context x e program) ∧
      ∀ head, e = .leaf head → head.type = .var → head.name = x →
        (∀ nodeset, (context.context.scopeOf memory context.localVariables
          attributes).variableValue x ≠ .nodeset nodeset) →
        (InitialisedOutside start memory context x e program ↔
          (context.context.scopeOf memory context.localVariables attributes).variableValue x =
            .null) :=
  ⟨initialised_of_silent frame declares initialiser, fun _ itself type name plain =>
    initialised_with_itself_iff frame declares initialiser itself type name plain⟩

end Initialisers

/-- A frame with a variable `x`, and an `xsl:variable` of that name. -/
def secondDeclaration (select : Bytes) : Memory Int where
  heap := .ofList [
    { type := .empty, attributes := some 1 },
    { type := .attribute, name := some (lit "x") },
    { type := .element, name := some (lit "xsl:variable"), attributes := some 3 },
    { type := .attribute, name := some xslAName, content := some (lit "x"), next := some 4 },
    { type := .attribute, name := some xslASelect, content := some select }]
  extra := fun _ => .int 5
  vars := fun _ => []
  rawout := fun _ => 0

theorem secondDeclaration_frame (select : Bytes) :
    Owns (secondDeclaration select).heap variableContent.localVariables [1] := by
  have size : (secondDeclaration select).heap.size = 5 := rfl
  refine ⟨rfl, ?_, ?_, by decide⟩
  · rw [size]
    decide
  · intro attr member
    rw [List.mem_singleton.mp member, size]
    decide

theorem secondDeclaration_declares {select : Bytes} {e : Expr}
    (compiled : xpathCompile select = some e) :
    Declares (secondDeclaration select) variableContent 2 (some (lit "x")) e :=
  ⟨rfl, select, rfl, compiled⟩

theorem initialisers_see_outside_constant :
    InitialisedOutside (fun _ _ => none) (secondDeclaration (lit "7")) variableContent
      (some (lit "x")) (.leaf { type := .int, integer := 7 })
      (instructionVariable (perform 2) variableContent 2) := by
  apply (initialisers_see_outside (perform 2) (fun _ _ => none) (secondDeclaration (lit "7"))
    variableContent 2 (some (lit "x")) _ _ [1] (secondDeclaration_frame _)
    (secondDeclaration_declares rfl) .ofVariable).1
  intro mentions
  cases mentions with
  | here type => cases type
  | child below => cases below
  | behind later => cases later
  | key type => cases type

/-- `<xsl:variable name="x" select="$x"/>` where `x` is 5 makes it NULL. -/
theorem variable_forgets_itself :
    Declares (secondDeclaration (lit "$x")) variableContent 2 (some (lit "x"))
        (.leaf { type := .var, name := some (lit "x") }) ∧
      (variableContent.context.scopeOf (secondDeclaration (lit "$x")) 0 [1]).variableValue
        (some (lit "x")) = .int 5 ∧
      ¬ InitialisedOutside (fun _ _ => none) (secondDeclaration (lit "$x")) variableContent
        (some (lit "x")) (.leaf { type := .var, name := some (lit "x") })
        (instructionVariable (perform 2) variableContent 2) := by
  have five : (variableContent.context.scopeOf (secondDeclaration (lit "$x"))
      variableContent.localVariables [1]).variableValue (some (lit "x")) = .int 5 := rfl
  have declares := secondDeclaration_declares (show xpathCompile (lit "$x") = _ from rfl)
  refine ⟨declares, five, fun outside => ?_⟩
  have emptied := (initialised_with_itself_iff (secondDeclaration_frame _) declares .ofVariable rfl
    rfl rfl fun _ same => nomatch five.symm.trans same).mp outside
  exact nomatch five.symm.trans emptied

end TurboXSL
