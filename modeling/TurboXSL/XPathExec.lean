import TurboXSL.XPath
import TurboXSL.XPathValue

namespace TurboXSL

open Library

/-!
# Evaluation of expressions

`xpath_execute_scalar` over the memory of nodes.  A node-set is a list of
freshly allocated copies of its members, linked by `next`; the copies keep
the `children`, `attributes` and `parent` of what they copy, and `original`
points back to it.

The functions that walk an axis first list the nodes to be copied with their
positions; since a copy never changes a node that is walked over, this is the
order in which the C code alternates the two.  An expression is evaluated by
recursion over its two links: the operands of a node are the evaluators of
its children.
-/

/-- `xmls_equals` -/
abbrev xmlsEquals (a b : Option Bytes) : Prop := a = b

/-- `xml_get_attr`: the outer `none` is a NULL pointer followed below an
`EMPTY_NODE`, the inner one the answer NULL. -/
def xmlGetAttr (heap : Heap) (name : Option Bytes) : Nat → NodeId → Option (Option Bytes)
  | 0, _ => none
  | fuel + 1, node =>
      if (heap.get node).type = .empty then
        match (heap.get node).children with
        | none => none
        | some child => xmlGetAttr heap name fuel child
      else do
        let attributes ← siblings heap (heap.get node).attributes
        some ((attributes.find? fun attr => (heap.get attr).name = name).bind
          fun attr => (heap.get attr).content)

/-! ## Copies -/

/-- The node that `add_to_selection` makes of `src`. -/
def selectionCopy (heap : Heap) (prev : Ptr) (src : NodeId) (position : Nat) : XmlNode :=
  { type := (heap.get src).type
    name := (heap.get src).name
    content := (heap.get src).content
    parent := (heap.get src).parent
    prev := prev
    children := (heap.get src).children
    attributes := (heap.get src).attributes
    original := some src
    uid := (heap.get src).uid
    position := position }

/-- `node->next = next` where `node` is not NULL. -/
def setNext (heap : Heap) (node : Ptr) (next : Ptr) : Heap :=
  match node with
  | none => heap
  | some node => heap.modify node fun cell => { cell with next := next }

/-- `add_to_selection` of a node, with its position already counted. -/
def addToSelection (heap : Heap) (prev : Ptr) (src : NodeId) (position : Nat) : Heap × NodeId :=
  (setNext (heap.alloc (selectionCopy heap prev src position)) prev (some heap.size), heap.size)

/-- The copies of the listed nodes with the listed positions, behind `prev`. -/
def addAllToSelection (heap : Heap) (prev : Ptr) : List (NodeId × Nat) → Heap × List NodeId
  | [] => (heap, [])
  | (src, position) :: rest =>
      let (heap, dst) := addToSelection heap prev src position
      let (heap, copies) := addAllToSelection heap (some dst) rest
      (heap, dst :: copies)

/-- A new selection and its head. -/
def newSelection (heap : Heap) (sources : List (NodeId × Nat)) : Heap × Ptr :=
  let (heap, copies) := addAllToSelection heap none sources
  (heap, copies.head?)

/-- Positions from one on. -/
def numbered (nodes : List NodeId) : List (NodeId × Nat) := nodes.zipIdx 1

/-- `xpath_nodeset_copy`, the copies of the nodes of a list. -/
def nodesetCopies (heap : Heap) (prev : Ptr) : List (NodeId × Nat) → Heap × List NodeId
  | [] => (heap, [])
  | (src, position) :: rest =>
      let copy := { selectionCopy heap prev src position with
        original := (heap.get src).original, uid := some heap.size }
      let dst := heap.size
      let (heap, copies) :=
        nodesetCopies (setNext (heap.alloc copy) prev (some dst)) (some dst) rest
      (heap, dst :: copies)

/-- `xpath_nodeset_copy` -/
def xpathNodesetCopy (heap : Heap) (src : Ptr) : Option (Heap × Ptr) := do
  let nodes ← siblings heap src
  let (heap, copies) := nodesetCopies heap none (numbered nodes)
  some (heap, copies.head?)

/-- `xml_add_siblings`: the list behind `prev`, and the positions of all its
nodes but the last.  Gives the last node and the last position used. -/
def xmlAddSiblings (heap : Heap) (prev : Ptr) (src : Ptr) (pos : Nat) :
    Option (Heap × Ptr × Nat) :=
  match src with
  | none => some (heap, prev, pos)
  | some head => do
      let heap := match prev with
        | none => heap
        | some _ => (setNext heap prev src).modify head fun cell => { cell with prev := prev }
      let nodes ← siblings heap src
      let heap := (nodes.dropLast.zipIdx (pos + 1)).foldl
        (fun heap node => heap.modify node.1 fun cell => { cell with position := node.2 }) heap
      some (heap, nodes.getLast?, pos + nodes.dropLast.length)

/-! ## Axes -/

/-- `xpath_node_kind` -/
def xpathNodeKind (node : XmlNode) : Option Kind → Bool
  | none => node.type = .element ∨ node.type = .attribute
  | some (.call name) =>
      if name = lit "text" then node.type = .text else name = lit "node"
  | some (.named name) => node.type = .element ∧ xmlsEquals node.name (some name)

/-- `add_all_children`; an `EMPTY_NODE` stands for its children. -/
def addAllChildren (heap : Heap) (kind : Option Kind) : Nat → Ptr → Option (List NodeId)
  | _, none => some []
  | 0, some _ => none
  | fuel + 1, some node => do
      let below ← addAllChildren heap kind fuel (heap.get node).children
      let behind ← addAllChildren heap kind fuel (heap.get node).next
      let here := if (heap.get node).type ≠ .empty ∧ xpathNodeKind (heap.get node) kind
        then [node] else []
      some (here ++ below ++ behind)

/-- The nodes above, up to a node named `root`. -/
def properAncestors (heap : Heap) (current : NodeId) : Option (List NodeId) := do
  let nodes ← follow (fun node => (heap.get node).parent) heap.size (heap.get current).parent
  some (nodes.takeWhile fun node => ¬ xmlsEquals (heap.get node).name (some xslSRoot))

/-- The siblings on one side of a node; a copy asks its original. -/
def siblingsBeside (heap : Heap) (side : XmlNode → Ptr) (current : NodeId) :
    Option (List NodeId) :=
  let original := (heap.get current).original.getD current
  follow (fun node => side (heap.get node)) heap.size (side (heap.get original))

/-- `xpath_get_preceding` and `xpath_get_following`: every sibling, counted
on, and behind it its descendants, counted from one again.  Where nothing is
selected before them the list begins with the last of them, which is what
`xml_append_node` returns; the copies in front of it are lost. -/
def withDescendants (heap : Heap) (kind : Option Kind) :
    Bool → Nat → List NodeId → Option (List (NodeId × Nat))
  | _, _, [] => some []
  | selected, pos, node :: rest => do
      let descendants ← addAllChildren heap kind heap.size (heap.get node).children
      if xpathNodeKind (heap.get node) kind then
        some ((node, pos + 1) :: numbered descendants ++
          (← withDescendants heap kind true (pos + 1) rest))
      else
        let spliced :=
          if selected then numbered descendants else (numbered descendants).getLast?.toList
        some (spliced ++ (← withDescendants heap kind (selected || !descendants.isEmpty) pos rest))

/-- The node itself where it passes the test. -/
def getSelf (heap : Heap) (current : NodeId) (kind : Option Kind) : List NodeId :=
  if xpathNodeKind (heap.get current) kind then [current] else []

/-- `xpath_get_child`, `xpath_get_parent` and so on: what each selector
copies of the nodes on its axis, in order, with the positions. -/
def axisNodes (type : ExprType) (heap : Heap) (current : NodeId) (kind : Option Kind) :
    Option (List (NodeId × Nat)) :=
  let ofKind := List.filter fun node => xpathNodeKind (heap.get node) kind
  match type with
  | .self => some (numbered (getSelf heap current kind))
  | .parent =>
      match (heap.get current).parent with
      | none => some []
      | some parent =>
          if xmlsEquals (heap.get parent).name (some xslSRoot) then some []
          else some (numbered (getSelf heap parent kind))
  | .descendant => do
      some (numbered (← addAllChildren heap kind heap.size (heap.get current).children))
  | .descendantOrSelf => do
      let descendants ← addAllChildren heap kind heap.size (heap.get current).children
      some (numbered (getSelf heap current kind) ++ numbered descendants)
  | .ancestor => do some (numbered (ofKind (← properAncestors heap current)))
  | .ancestorOrSelf => do
      some (numbered (getSelf heap current kind) ++
        numbered (ofKind (← properAncestors heap current)))
  | .precedingSibling => do
      some (numbered (ofKind (← siblingsBeside heap XmlNode.prev current)))
  | .followingSibling => do
      some (numbered (ofKind (← siblingsBeside heap XmlNode.next current)))
  | .preceding => do withDescendants heap kind false 0 (← siblingsBeside heap XmlNode.prev current)
  | .following => do withDescendants heap kind false 0 (← siblingsBeside heap XmlNode.next current)
  | _ => do some (numbered (ofKind (← siblings heap (heap.get current).children)))

/-- `xpath_apply_selector`: the selections of the nodes of a set, one behind
the other.  The link between two of them is set forwards only. -/
def xpathApplySelector (select : Heap → NodeId → Option (List (NodeId × Nat))) :
    Heap → Ptr → List NodeId → Option (Heap × Ptr)
  | heap, _, [] => some (heap, none)
  | heap, tail, node :: rest => do
      let sources ← select heap node
      let (heap, copies) := addAllToSelection heap none sources
      match copies.head? with
      | none => xpathApplySelector select heap tail rest
      | some head => do
          let (heap, _) ←
            xpathApplySelector select (setNext heap tail (some head)) copies.getLast? rest
          some (heap, some head)

/-- `xpath_get_attrs` -/
def xpathGetAttrs (heap : Heap) (nodeset : List NodeId) : Option (Heap × Ptr) := do
  let attributes ← nodeset.mapM fun node => siblings heap (heap.get node).attributes
  some (newSelection heap (numbered attributes.flatten))

/-! ## The evaluator -/

/-- Evaluation with a current node; `none` when the C code follows a NULL
pointer or does not return. -/
abbrev Eval (Num : Type) := NodeId → Heap → Option (RValue Num × Heap)

/-- One of the children of a node: its fields, and its evaluation. -/
structure Operand (Num : Type) where
  head : ExprNode
  run : Eval Num

/-- The values that are no node-set. -/
inductive Scalar (Num : Type) where
  | null
  | bool (integer : Bool)
  | int (integer : Int)
  | number (number : Num)
  | string (string : Option Bytes)

def Scalar.value {Num : Type} : Scalar Num → RValue Num
  | .null => .null
  | .bool b => .bool b
  | .int n => .int n
  | .number x => .number x
  | .string s => .string s

/-- A function that evaluates its first `arity` arguments, looks at the nodes
and yields no node-set. -/
structure ScalarFunction (Num : Type) where
  arity : Nat
  apply : List (RValue Num) → Heap → NodeId → Option (Scalar Num)

/-- Nodes allocated from `first` on are linked to each other only. -/
def ClosedFrom (first : Nat) (heap : Heap) : Prop :=
  ∀ node, first ≤ node → node < heap.size → ∀ next, (heap.get node).next = some next →
    first ≤ next ∧ next < heap.size

/-- A loader of documents, `xml_parse_file` or `xml_parse_string`: what it
builds is new, and the nodes there were stay as they are. -/
structure Loader where
  load : Heap → Bytes → Option (Heap × Ptr)
  extends_ : ∀ {heap text after root}, load heap text = some (after, root) → heap.Extends after
  fresh : ∀ {heap text after root}, load heap text = some (after, some root) →
    heap.size ≤ root ∧ root < after.size
  closed : ∀ {heap text after root}, load heap text = some (after, root) →
    ClosedFrom heap.size after

/-- What evaluation takes from the transformation context and from the
variables in scope. -/
structure Env (Num : Type) where
  rootNode : NodeId
  stylesheet : NodeId
  /-- The node of the local variables; NULL while templates are matched. -/
  locals : Ptr
  localVariables : List (Option Bytes × RValue Num)
  globals : List (Bytes × RValue Num)
  /-- `xsl:key` declarations: a name, and the expression for a value. -/
  keys : List (Bytes × (Bytes → Bytes))
  /-- `xpath_find_expr` -/
  findExpr : Bytes → Option Expr
  /-- The functions that the host has registered. -/
  perlFunctions : Bytes → Option (List Bytes → Option Bytes)
  /-- The functions of `functions.c` that are not defined below. -/
  functions : Bytes → Option (ScalarFunction Num)
  documents : Loader
  strings : Loader

/-- A loader that finds nothing. -/
def Loader.missing : Loader where
  load := fun _ _ => none
  extends_ := by
    intro heap text after root loaded
    cases loaded
  fresh := by
    intro heap text after root loaded
    cases loaded
  closed := by
    intro heap text after root loaded
    cases loaded

/-- A context without variables, keys, further functions and documents. -/
def Env.bare (Num : Type) (rootNode : NodeId) : Env Num where
  rootNode := rootNode
  stylesheet := rootNode
  locals := none
  localVariables := []
  globals := []
  keys := []
  findExpr := xpathCompile
  perlFunctions := fun _ => none
  functions := fun _ => none
  documents := .missing
  strings := .missing

/-- The environment in which templates are matched. -/
def Env.withoutLocals {Num : Type} (env : Env Num) : Env Num :=
  { env with locals := none, localVariables := [] }

section Evaluator

variable {Num : Type} [Double Num] (env : Env Num)

def nullEval : Eval Num := fun _ heap => some (.null, heap)

/-- Evaluation of `etree->children`, which may be NULL. -/
def firstOperand : List (Operand Num) → Eval Num
  | [] => nullEval
  | operand :: _ => operand.run

/-- Evaluation of `etree->children->next`; the children must not be NULL. -/
def secondOperand : List (Operand Num) → Eval Num
  | [] => fun _ _ => none
  | _ :: rest => firstOperand rest

/-- The values of operands, from the left. -/
def evalOperands : List (Operand Num) → NodeId → Heap → Option (List (RValue Num) × Heap)
  | [], _, heap => some ([], heap)
  | operand :: rest, current, heap => do
      let (value, heap) ← operand.run current heap
      let (values, heap) ← evalOperands rest current heap
      some (value :: values, heap)

/-- The values of both operands of an operator. -/
def evalBoth (args : List (Operand Num)) (current : NodeId) (heap : Heap) :
    Option (RValue Num × RValue Num × Heap) := do
  let (left, heap) ← firstOperand args current heap
  let (right, heap) ← secondOperand args current heap
  some (left, right, heap)

/-! ### Variables -/

/-- `rval_copy` -/
def rvalCopy (heap : Heap) : RValue Num → Option (RValue Num × Heap)
  | .nodeset nodeset => do
      let (heap, copy) ← xpathNodesetCopy heap nodeset
      some (.nodeset copy, heap)
  | value => some (value, heap)

/-- `get_variable_rv` -/
def getVariableRv (name : Option Bytes) (heap : Heap) : Option (RValue Num × Heap) :=
  match env.localVariables.find? fun binding => decide (xmlsEquals name binding.1) with
  | some binding => rvalCopy heap binding.2
  | none =>
      match env.globals.find? fun binding => decide (name = some binding.1) with
      | some binding => rvalCopy heap binding.2
      | none => some (.null, heap)

/-! ### Functions -/

/-- The last node of the list that begins with the current one. -/
def lastPosition (heap : Heap) (current : NodeId) : Option Nat := do
  (← siblings heap (some current)).getLast?.map fun node => (heap.get node).position

/-- `xf_count`: an `EMPTY_NODE` counts for its children. -/
def xfCount (heap : Heap) : RValue Num → Option Nat
  | .nodeset nodeset => do
      let counts ← (← siblings heap nodeset).mapM fun node =>
        if (heap.get node).type = .empty then
          (siblings heap (heap.get node).children).map List.length
        else some 1
      some counts.sum
  | _ => some 0

/-- `xf_name` without or with an argument. -/
def xfName (heap : Heap) (current : NodeId) : List (RValue Num) → Bytes
  | [] => (heap.get current).name.getD []
  | .nodeset (some node) :: _ => (heap.get node).name.getD []
  | _ => []

/-- The functions of `functions.c` that look at the context or convert. -/
def scalarFunction (name : Bytes) : Option (ScalarFunction Num) :=
  if name = lit "position" then
    some ⟨0, fun _ heap current => some (.int (heap.get current).position)⟩
  else if name = lit "last" then
    some ⟨0, fun _ heap current => (lastPosition heap current).map fun last => .int last⟩
  else if name = lit "count" then
    some ⟨1, fun values heap _ => (xfCount heap (values.headD .null)).map fun n => .int n⟩
  else if name = lit "name" then
    some ⟨1, fun values heap current => some (.string (xfName heap current values))⟩
  else if name = lit "true" then some ⟨0, fun _ _ _ => some (.bool true)⟩
  else if name = lit "false" then some ⟨0, fun _ _ _ => some (.bool false)⟩
  else if name = lit "boolean" then
    some ⟨1, fun values _ _ => some (.bool (rval2bool (values.headD .null)))⟩
  else if name = lit "number" then
    some ⟨1, fun values heap _ => (rval2number heap (values.headD .null)).map .number⟩
  else if name = lit "string" then
    some ⟨1, fun values heap _ => (rval2string heap (values.headD .null)).map .string⟩
  else none

def callScalar (function : ScalarFunction Num) (args : List (Operand Num)) : Eval Num :=
  fun current heap => do
    let (values, heap) ← evalOperands (args.take function.arity) current heap
    some ((← function.apply values heap current).value, heap)

/-- `do_callback`: at most 29 arguments, NULL as the empty string. -/
def doCallback (callback : List Bytes → Option Bytes) (args : List (Operand Num)) : Eval Num :=
  fun current heap => do
    let (values, heap) ← evalOperands (args.take 29) current heap
    let strings ← values.mapM (rval2string heap)
    some (.string (callback (strings.map fun string => string.getD [])), heap)

/-- `xf_current` -/
def xfCurrent : Eval Num := fun _ heap => do
  match (heap.get (← env.locals)).parent with
  | none => some (.nodeset none, heap)
  | some parent =>
      let (heap, set) := newSelection heap [(parent, 1)]
      some (.nodeset set, heap)

/-- `xf_text` and `xf_node`: the children of the current node that pass. -/
def xfChildren (test : XmlNode → Bool) : Eval Num := fun current heap => do
  let children ← siblings heap (heap.get current).children
  let (heap, set) := newSelection heap (numbered (children.filter fun node => test (heap.get node)))
  some (.nodeset set, heap)

/-- `xf_document` -/
def xfDocument (args : List (Operand Num)) : Eval Num := fun current heap => do
  let (value, heap) ← firstOperand args current heap
  let docname ← (← rval2string heap value)
  let (heap, doc) ← if docname = [] then some (heap, some env.stylesheet)
    else env.documents.load heap docname
  match doc with
  | none => some (.null, heap)
  | some doc =>
      let (heap, set) := newSelection heap [(doc, 1)]
      some (.nodeset set, heap)

/-- `xf_exnodeset` -/
def xfExnodeset (args : List (Operand Num)) : Eval Num := fun current heap => do
  let (value, heap) ← firstOperand args current heap
  match value with
  | .nodeset nodeset => some (.nodeset nodeset, heap)
  | .string string => do
      let (heap, root) ← env.strings.load heap (← string)
      some (.nodeset root, heap)
  | _ => some (.nodeset none, heap)

/-- `xpath_eval_selection`, which leaves its current node in `locals`. -/
def xpathEvalSelection (run : Expr → Eval Num) (etree : Expr) (current : NodeId) (heap : Heap) :
    Option (Ptr × Heap) :=
  if etree = .null then some (none, heap)
  else do
    let locals ← env.locals
    let (value, heap) ← run etree current
      (heap.modify locals fun cell => { cell with parent := some current })
    match value with
    | .nodeset nodeset => some (nodeset, heap)
    | _ => some (none, heap)

/-- `xf_key`; the expression that a key stands for is evaluated by `run`. -/
def xfKey (run : Expr → Eval Num) (args : List (Operand Num)) : Eval Num := fun current heap => do
  let (name, heap) ← firstOperand args current heap
  match ← rval2string heap name with
  | none => some (.nodeset none, heap)
  | some keyName =>
      if args.length < 2 then some (.nodeset none, heap)
      else do
        let (value, heap) ← secondOperand args current heap
        match ← rval2string heap value with
        | none => some (.nodeset none, heap)
        | some keyValue =>
            match env.keys.find? fun key => key.1 = keyName with
            | none => some (.nodeset none, heap)
            | some key => do
                let expression ← env.findExpr (key.2 keyValue)
                let (nodeset, heap) ← xpathEvalSelection env run expression current heap
                some (.nodeset nodeset, heap)

/-- `xpath_call_dispatcher` -/
def xpathCallDispatcher (run : Expr → Eval Num) (name : Bytes) (args : List (Operand Num)) :
    Eval Num :=
  match env.perlFunctions name with
  | some callback => doCallback callback args
  | none =>
      if name = lit "current" then xfCurrent env
      else if name = lit "text" then xfChildren fun node => node.type = .text
      else if name = lit "node" then xfChildren fun _ => true
      else if name = lit "document" then xfDocument env args
      else if name = lit "exsl:node-set" then xfExnodeset env args
      else if name = lit "key" then xfKey env run args
      else
        match (scalarFunction name).or (env.functions name) with
        | some function => callScalar function args
        | none => nullEval

/-! ### Nodes of expressions -/

/-- `xpath_select_common` -/
def xpathSelectCommon (etree : ExprNode) (args : List (Operand Num)) : Eval Num :=
  fun current heap =>
    match args with
    | [] => do
        let (heap, set) := newSelection heap (← axisNodes etree.type heap current etree.kind)
        some (.nodeset set, heap)
    | operand :: _ => do
        let (value, heap) ← operand.run current heap
        match value with
        | .nodeset nodeset => do
            let (heap, set) ← xpathApplySelector
              (fun heap node => axisNodes etree.type heap node etree.kind) heap none
              (← siblings heap nodeset)
            some (.nodeset set, heap)
        | _ => some (.nodeset none, heap)

/-- One round of the loop of `xpath_filter`: is the node selected? -/
def filterTest (expr : Operand Num) (node : NodeId) (heap : Heap) : Option (Bool × Heap) :=
  if expr.head.type = .int then
    some (decide (((heap.get node).position : Int) = expr.head.integer), heap)
  else do
    let (value, heap) ← expr.run node heap
    match value with
    | .int n => some (decide (((heap.get node).position : Int) = n), heap)
    | value => some (rval2bool value, heap)

/-- The loop of `xpath_filter` behind the copy `tmp` at position `pos`. -/
def filterNodes (expr : Operand Num) : Heap → Ptr → Nat → List NodeId → Option (Heap × Ptr)
  | heap, _, _, [] => some (heap, none)
  | heap, tmp, pos, node :: rest => do
      let (selected, heap) ← filterTest expr node heap
      if selected then
        let (heap, dst) := addToSelection heap tmp node (pos + 1)
        let (heap, _) ← filterNodes expr heap (some dst) (pos + 1) rest
        some (heap, some dst)
      else filterNodes expr heap tmp pos rest

/-- `xpath_filter` -/
def xpathFilter (heap : Heap) (nodeset : Ptr) (expr : Option (Operand Num)) :
    Option (Heap × Ptr) :=
  match nodeset with
  | none => some (heap, none)
  | some head => do
      let nodes ← siblings heap
        (if (heap.get head).type = .empty then (heap.get head).children else some head)
      filterNodes (← expr) heap none 0 nodes

/-- The loop of `XPATH_NODE_UNION` behind the node `tmp` at position `pos`. -/
def unionOperands : List (Operand Num) → NodeId → Heap → Ptr → Ptr → Nat →
    Option (Ptr × Heap)
  | [], _, heap, _, selection, _ => some (selection, heap)
  | operand :: rest, current, heap, tmp, selection, pos => do
      let (value, heap) ← operand.run current heap
      let added ← match value with
        | .nodeset nodeset => some (some (heap, nodeset))
        | value => do
            match ← rval2string heap value with
            | none => some none
            | some name =>
                let (heap, expr) := xmlNewNode heap none .text
                some (some (heap.modify expr fun cell => { cell with content := some name },
                  some expr))
      match added with
      | none => unionOperands rest current heap tmp selection pos
      | some (heap, src) => do
          let (heap, last, pos) ← xmlAddSiblings heap tmp src pos
          unionOperands rest current heap last
            (if tmp = none ∧ src.isSome then src else selection) pos

/-- The loop of `XPATH_NODE_OR`, and with `stop` off of `XPATH_NODE_AND`:
the answer is `stop` once an operand is. -/
def anyOperand (stop : Bool) : List (Operand Num) → Eval Num
  | [], _, heap => some (.bool (!stop), heap)
  | operand :: rest, current, heap => do
      let (value, heap) ← operand.run current heap
      if rval2bool value = stop then some (.bool stop, heap)
      else anyOperand stop rest current heap

/-- A comparison of both operands. -/
def compare (test : Heap → RValue Num → RValue Num → Option Bool) (args : List (Operand Num)) :
    Eval Num := fun current heap => do
  let (left, right, heap) ← evalBoth args current heap
  some (.bool (← test heap left right), heap)

/-- An operation on the numbers of both operands. -/
def arithmetic (operation : Num → Num → Option Num) (args : List (Operand Num)) : Eval Num :=
  fun current heap => do
    let (left, right, heap) ← evalBoth args current heap
    some (.number (← operation (← rval2number heap left) (← rval2number heap right)), heap)

/-- A new attribute node with the value of an attribute. -/
def newAttribute (heap : Heap) (value : Bytes) : Heap × NodeId :=
  let (heap, attr) := xmlNewNode heap none .attribute
  (heap.modify attr fun cell => { cell with content := some value }, attr)

/-- The loop of `XPATH_NODE_ATTR` over a node-set: the copies of new
attribute nodes behind the copy `t` at position `pos`. -/
def attributesOf (name : Option Bytes) : Heap → Ptr → Nat → List NodeId → Option (Heap × Ptr)
  | heap, _, _, [] => some (heap, none)
  | heap, t, pos, node :: rest => do
      match ← xmlGetAttr heap name (heap.size + 1) node with
      | none => attributesOf name heap t pos rest
      | some value =>
          let (heap, expr) := newAttribute heap value
          let (heap, dst) := addToSelection heap t expr (pos + 1)
          let (heap, _) ← attributesOf name heap (some dst) (pos + 1) rest
          some (heap, some dst)

/-- `XPATH_NODE_ATTR` -/
def attributeStep (etree : ExprNode) (args : List (Operand Num)) : Eval Num :=
  fun current heap =>
    match args with
    | [] => do
        match ← xmlGetAttr heap etree.name (heap.size + 1) current with
        | none => some (.null, heap)
        | some value =>
            let (heap, attr) := newAttribute heap value
            some (.nodeset (some attr), heap)
    | operand :: _ => do
        let (value, heap) ← operand.run current heap
        match value with
        | .nodeset nodeset => do
            let (heap, set) ← attributesOf etree.name heap none 0 (← siblings heap nodeset)
            some (.nodeset set, heap)
        | _ => some (.null, heap)

/-- `XPATH_NODE_ATTR_ALL` -/
def allAttributesStep (args : List (Operand Num)) : Eval Num := fun current heap =>
  match args with
  | [] => do
      let (heap, self) := addToSelection heap none current 1
      let (heap, set) ← xpathGetAttrs heap [self]
      some (.nodeset set, heap)
  | operand :: _ => do
      let (value, heap) ← operand.run current heap
      match value with
      | .nodeset nodeset => do
          let (heap, set) ← xpathGetAttrs heap (← siblings heap nodeset)
          some (.nodeset set, heap)
      | _ => some (.nodeset none, heap)

/-- A selection of one node. -/
def single (node : NodeId) : Eval Num := fun _ heap =>
  let (heap, set) := newSelection heap [(node, 1)]
  some (.nodeset set, heap)

/-- The switch of `xpath_execute_scalar` on one node with its operands. -/
def executeNode (run : Expr → Eval Num) (etree : ExprNode) (args : List (Operand Num)) :
    Eval Num := fun current heap =>
  match etree.type with
  | .int => some (.int etree.integer, heap)
  | .union => do
      let (selection, heap) ← unionOperands args current heap none none 0
      some (.nodeset selection, heap)
  | .attrAll => allAttributesStep args current heap
  | .root => single env.rootNode current heap
  | .context => single current current heap
  | .filter => do
      let (value, heap) ← firstOperand args current heap
      match value with
      | .nodeset nodeset => do
          let (heap, set) ← xpathFilter heap nodeset args.tail.head?
          some (.nodeset set, heap)
      | _ => some (.nodeset none, heap)
  | .all | .select | .parent | .self | .descendant | .descendantOrSelf | .ancestor
  | .ancestorOrSelf | .precedingSibling | .preceding | .followingSibling | .following =>
      xpathSelectCommon etree args current heap
  | .or => anyOperand true args current heap
  | .and => anyOperand false args current heap
  | .eq => compare (fun heap left right => rvalEqual heap left right true) args current heap
  | .ne => compare (fun heap left right => rvalEqual heap left right false) args current heap
  | .lt => compare rvalLess args current heap
  | .le => compare rvalLessOrEqual args current heap
  | .gt => compare rvalGreater args current heap
  | .ge => compare rvalGreaterOrEqual args current heap
  | .add => arithmetic (fun l r => some (Double.add l r)) args current heap
  | .sub => arithmetic (fun l r => some (Double.sub l r)) args current heap
  | .mul => arithmetic (fun l r => some (Double.mul l r)) args current heap
  | .div => arithmetic (fun l r => some (Double.div l r)) args current heap
  | .mod => arithmetic Double.mod args current heap
  | .not => do
      let (value, heap) ← firstOperand args current heap
      some (.bool (!rval2bool value), heap)
  | .text => some (.string etree.content, heap)
  | .call => do xpathCallDispatcher env run (← etree.name) args current heap
  | .attr => attributeStep etree args current heap
  | .var => getVariableRv env etree.name heap

/-- The evaluators of an expression and of its siblings behind it. -/
def operands (run : Expr → Eval Num) : Expr → List (Operand Num)
  | .null => []
  | .node head children next =>
      ⟨head, executeNode env run head (operands run children)⟩ :: operands run next

/-- The evaluator of the expressions of keys, nested at most so deep. -/
def keyEval : Nat → Expr → Eval Num
  | 0, _ => fun _ _ => none
  | depth + 1, etree => firstOperand (operands env (keyEval depth) etree)

/-- The operands that the children of a node are, with keys nested at most
`depth` deep. -/
def operandsAt (depth : Nat) : Expr → List (Operand Num) := operands env (keyEval env depth)

/-- `xpath_execute_scalar` -/
def xpathExecuteScalar (depth : Nat) (etree : Expr) : Eval Num :=
  firstOperand (operandsAt env depth etree)

theorem xpathExecuteScalar_node (depth : Nat) (head : ExprNode) (children next : Expr) :
    xpathExecuteScalar env depth (.node head children next) =
      executeNode env (keyEval env depth) head (operandsAt env depth children) := rfl

end Evaluator

end TurboXSL
