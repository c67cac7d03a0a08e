import TurboXSL.Library.Programs
import TurboXSL.Results
import TurboXSL.Templates

namespace TurboXSL

open Library Output

/-!
# Instructions

`instructions.c`, the loop of `transform.c` that applies templates, and
`template_task_run`: a context says where a transformation is, and every
instruction makes new contexts for what is below it.  With a pool, some of
them are handed to it as tasks instead of being run on the spot.

Each function is a program over the memory that threads share.  An operation
on the memory is a step of its own, between which other threads may step.
-/

/-! ## Contexts and tasks -/

/-- `TEMPLATE_TASK_MODE` -/
inductive TemplateTaskMode where
  | default
  | deny
  | single
deriving DecidableEq

/-- What does not change during a call of `XSLTProcess`: `TRANSFORM_CONTEXT`,
and whether `gctx->pool` is there. -/
structure Transformation (Num : Type) where
  /-- Which context it is; variables are kept by this number. -/
  number : Nat
  /-- The environment of expressions, but for the variables. -/
  env : Env Num
  depth : Nat
  templates : Option Bytes → Option TemplateMapEntry
  namedTempl : Bytes → Ptr
  parallelInstructions : Bytes → Bool
  pool : Bool
  outmode : OutputMode

/-- `template_context` -/
structure TemplateContext (Num : Type) where
  context : Transformation Num
  instruction : Ptr := none
  result : NodeId
  documentNode : NodeId
  parameters : Ptr := none
  localVariables : NodeId
  mode : Option Bytes := none
  /-- The counter of the tasks; NULL where nobody waits for them. -/
  workers : Option Nat := none
  taskMode : TemplateTaskMode := .default

/-- The functions that run on a context. -/
inductive TaskFunction where
  | applyXsltTemplate
  | processOneNode
deriving DecidableEq

/-- `template_task` -/
structure TemplateTask (Num : Type) where
  context : TemplateContext Num
  function : TaskFunction
  workers : Option Nat

/-- What threads share: the nodes, the values of variables, and how deep the
serializer is in raw text. -/
structure Memory (Num : Type) where
  heap : Heap
  /-- `node->extra` -/
  extra : NodeId → RValue Num
  /-- `pctx->vars` -/
  vars : Nat → List (Bytes × RValue Num)
  /-- `pctx->rawout` -/
  rawout : Nat → Nat

/-- What a thread does at one time.  Where the change of the memory is `none`,
the thread follows a NULL pointer or does not return. -/
inductive Operation (Num : Type) : Type → Type 1 where
  | memory {Answer : Type} (change : Memory Num → Option (Answer × Memory Num)) :
      Operation Num Answer
  /-- A context is allocated and filled in. -/
  | context (made : TemplateContext Num) : Operation Num Unit
  /-- A task is created and handed to the pool. -/
  | start (task : TemplateTask Num) : Operation Num Unit

/-- A program of a thread. -/
abbrev Thread (Num : Type) := Program (Operation Num)

/-- How the functions on contexts are called. -/
abbrev Caller (Num : Type) := TaskFunction → TemplateContext Num → Thread Num Unit

section Memory

variable {Num : Type} {Value : Type}

def access (change : Memory Num → Option (Value × Memory Num)) : Thread Num Value :=
  .perform (.memory change) .done

/-- The thread does not go on. -/
def stuck : Thread Num Value := access fun _ => none

/-- Read the nodes. -/
def reading (read : Heap → Option Value) : Thread Num Value :=
  access fun memory => (read memory.heap).map fun value => (value, memory)

/-- Change the nodes. -/
def changing (change : Heap → Option (Value × Heap)) : Thread Num Value :=
  access fun memory => (change memory.heap).map fun (value, heap) =>
    (value, { memory with heap := heap })

/-- Change one node. -/
def changeNode (node : NodeId) (change : XmlNode → XmlNode) : Thread Num Unit :=
  changing fun heap => some ((), heap.modify node change)

def newNode (name : Option Bytes) (type : NodeType) : Thread Num NodeId :=
  changing fun heap => some ((xmlNewNode heap name type).2, (xmlNewNode heap name type).1)

def appendChild (node : NodeId) (type : NodeType) : Thread Num NodeId :=
  changing fun heap => (xmlAppendChild heap node type).map Prod.swap

def extraOf (node : NodeId) : Thread Num (RValue Num) :=
  access fun memory => some (memory.extra node, memory)

def Memory.setExtra (memory : Memory Num) (node : NodeId) (value : RValue Num) : Memory Num :=
  { memory with extra := fun other => if other = node then value else memory.extra other }

def setExtra (node : NodeId) (value : RValue Num) : Thread Num Unit :=
  access fun memory => some ((), memory.setExtra node value)

def nodeOf (node : NodeId) : Thread Num XmlNode := reading fun heap => some (heap.get node)

/-- `xml_get_attr` -/
def attributeOf (node : NodeId) (name : Bytes) : Thread Num (Option Bytes) :=
  reading fun heap => xmlGetAttr heap (some name) (heap.size + 1) node

/-- `memory_allocator_new` for a context, and its fields. -/
def newContext (context : TemplateContext Num) : Thread Num (TemplateContext Num) :=
  .perform (.context context) fun _ => .done context

/-- A loop over a list of nodes that is left with a result (`.error`) or goes on
with the next node. -/
def loopNodes {Acc : Type} (body : Acc → NodeId → Thread Num (Except Acc Acc)) :
    Nat → Ptr → Acc → Thread Num Acc
  | _, none, acc => pure acc
  | 0, some _, _ => stuck
  | fuel + 1, some node, acc => do
      match ← body acc node with
      | .error acc => pure acc
      | .ok acc => do
          let cell ← nodeOf node
          loopNodes body fuel cell.next acc

/-- A loop that is never left before the end of the list. -/
def eachNode (fuel : Nat) (nodes : Ptr) (body : NodeId → Thread Num Unit) : Thread Num Unit :=
  loopNodes (fun _ node => do
    body node
    pure (.ok ())) fuel nodes ()

/-- `copy_variables` -/
def copyVariables (fuel : Nat) (variables_ : NodeId) : Thread Num NodeId := do
  let result ← newNode none .empty
  let cell ← nodeOf variables_
  eachNode fuel cell.attributes fun variable_ => do
    let original ← nodeOf variable_
    let copy ← newNode original.name .attribute
    setExtra copy (← extraOf variable_)
    let made ← nodeOf result
    changeNode copy fun cell => { cell with next := made.attributes }
    changeNode result fun cell => { cell with attributes := some copy }
  pure result

end Memory

/-! ## Names -/

def xslApply : Bytes := lit "xsl:apply-templates"
def xslForeach : Bytes := lit "xsl:for-each"
def xslWithparam : Bytes := lit "xsl:with-param"
def xslSort : Bytes := lit "xsl:sort"
def xslWhen : Bytes := lit "xsl:when"
def xslOtherwise : Bytes := lit "xsl:otherwise"
def xslAName : Bytes := lit "name"
def xslASelect : Bytes := lit "select"
def xslATest : Bytes := lit "test"
def xslAMode : Bytes := lit "mode"
def xslAXmlns : Bytes := lit "xmlns"
def xslAFork : Bytes := lit "t:fork"
def xslSYes : Bytes := lit "yes"
def xslSNo : Bytes := lit "no"
def xslSDeny : Bytes := lit "deny"

/-! ## Expressions -/

section Expressions

variable {Num : Type} {Value : Type}

/-- The environment in which expressions are evaluated with these locals. -/
def Transformation.scope (pctx : Transformation Num) (locals : NodeId) (memory : Memory Num) :
    Option (Env Num) := do
  let attributes ← siblings memory.heap (memory.heap.get locals).attributes
  some { pctx.env with
    locals := some locals,
    localVariables := attributes.map fun attr =>
      ((memory.heap.get attr).name, memory.extra attr),
    globals := memory.vars pctx.number }

variable [Double Num] (pctx : Transformation Num)

/-- Evaluate with these locals. -/
def evaluating (locals : NodeId) (evaluate : Env Num → Heap → Option (Value × Heap)) :
    Thread Num Value :=
  access fun memory => do
    let env ← pctx.scope locals memory
    let (value, heap) ← evaluate env memory.heap
    some (value, { memory with heap := heap })

/-- `xpath_find_expr`, which is NULL for NULL. -/
def Transformation.findExpr (expr : Option Bytes) : Option Expr :=
  match expr with
  | none => some .null
  | some expr => pctx.env.findExpr expr

def findExpr (expr : Option Bytes) : Thread Num Expr := reading fun _ => pctx.findExpr expr

/-- `xpath_eval_boolean` -/
def evalBoolean (locals current : NodeId) (etree : Expr) : Thread Num Bool :=
  evaluating pctx locals fun env heap =>
    if etree = .null then some (false, heap)
    else do
      let (value, heap) ← xpathExecuteScalar env pctx.depth etree current
        (heap.modify locals fun cell => { cell with parent := some current })
      some (rval2bool value, heap)

def evalString (locals current : NodeId) (etree : Expr) : Thread Num (Option Bytes) :=
  evaluating pctx locals fun env heap => xpathEvalString env pctx.depth etree current heap

def evalSelection (locals current : NodeId) (etree : Expr) : Thread Num Ptr :=
  evaluating pctx locals fun env heap =>
    xpathEvalSelection env (xpathExecuteScalar env pctx.depth) etree current heap

/-- `xpath_eval_node` into `node->extra`, which is freed first. -/
def evalNode (locals current : NodeId) (expr : Option Bytes) (node : NodeId) : Thread Num Unit := do
  setExtra node .null
  let etree ← findExpr pctx expr
  if etree = .null then pure ()
  else do
    let value ← evaluating pctx locals fun env heap =>
      xpathExecuteScalar env pctx.depth etree current
        (heap.modify locals fun cell => { cell with parent := some current })
    setExtra node value

def processString (locals context : NodeId) (string : Option Bytes) : Thread Num (Option Bytes) :=
  evaluating pctx locals fun env heap => do
    let (res, _, heap) ← xmlProcessString env pctx.depth context string heap
    some (res, heap)

/-- `xpath_sort_selection` with a child that `process_global_flags` has compiled. -/
def sortedSelection (locals : NodeId) (selection : Ptr) (child : NodeId) : Thread Num Ptr := do
  let select ← attributeOf child xslASelect
  let compiled ← findExpr pctx select
  let cell ← nodeOf child
  evaluating pctx locals fun env heap =>
    (xpathSortSelection env pctx.depth heap selection ⟨compiled, cell.flags⟩).map Prod.swap

end Expressions

/-! ## Tasks -/

/-- `is_node_parallel` -/
def isNodeParallel (heap : Heap) (node : NodeId) : Option Bool :=
  if (heap.get node).type = .text then some false
  else (siblings heap (heap.get node).next).map fun behind =>
    behind.any fun t => (heap.get t).type = .element

/-- What `template_task_run` does with a context whose mode is DENY or DEFAULT:
the mode that it leaves there, and whether there is a new task. -/
def TemplateTaskMode.forking (taskMode : TemplateTaskMode) (fork : Option Bytes)
    (parallel : Bool) : TemplateTaskMode × Bool :=
  match taskMode with
  | .single => (.single, false)
  | .deny => if fork = some xslSYes then (.default, true) else (.deny, false)
  | .default =>
      match fork with
      | none => (.default, parallel)
      | some fork =>
          if fork = xslSNo then (.default, false)
          else if fork = xslSDeny then (.deny, false)
          else (.default, true)

section Instructions

variable {Num : Type} [Double Num] (call : Caller Num) (fuel : Nat)

/-- `template_task_run` -/
def templateTaskRun (instruction : NodeId) (context : TemplateContext Num)
    (function : TaskFunction) : Thread Num Unit :=
  if context.context.pool = false ∨ context.taskMode = .single then call function context
  else do
    let fork ← attributeOf instruction xslAFork
    let cell ← nodeOf instruction
    let decision := context.taskMode.forking fork
      (cell.name.elim false context.context.parallelInstructions)
    let context := { context with taskMode := decision.1 }
    if decision.2 then .perform (.start ⟨context, function, context.workers⟩) .done
    else call function context

/-! ## Content that is built on the spot -/

/-- `reject_text_node_escape` -/
def rejectTextNodeEscape : Nat → Ptr → Heap → Option Heap
  | _, none, heap => some heap
  | 0, some _, _ => none
  | fuel + 1, some n, heap => do
      let heap := if (heap.get n).type = .text
        then heap.modify n fun cell => { cell with flags := cell.flags ||| xmlFlagNoescape }
        else heap
      let heap ← rejectTextNodeEscape fuel (heap.get n).children heap
      rejectTextNodeEscape fuel (heap.get n).next heap

/-- `output_node_rec` into a new string. -/
def outputNodes (pctx : Transformation Num) (nodes : NodeId) : Thread Num Bytes :=
  access fun memory => do
    let heap ← rejectTextNodeEscape fuel (some nodes) memory.heap
    let (res, rawout) ← outputNodeRec pctx.outmode heap fuel (some nodes)
      (memory.rawout pctx.number)
    some (res, { memory with
      heap := heap, rawout := Function.update memory.rawout pctx.number rawout })

/-- `xml_eval_string` -/
def xmlEvalString (pctx : Transformation Num) (locals source : NodeId) (foreval : Ptr) :
    Thread Num Bytes := do
  let tmp ← newNode none .empty
  let newContext ← newContext {
    context := pctx
    instruction := foreval
    result := tmp
    documentNode := source
    localVariables := locals
    taskMode := .single }
  call .applyXsltTemplate newContext
  outputNodes fuel pctx tmp

/-- A node-set of one new `EMPTY_NODE` as the value of `node`, which
`content` is put into. -/
def treeValue (pctx : Transformation Num) (locals doc : NodeId) (content : Ptr) (node : NodeId) :
    Thread Num Unit := do
  let nodeset ← newNode none .empty
  setExtra node (.nodeset (some nodeset))
  let newContext ← newContext {
    context := pctx
    instruction := content
    result := nodeset
    documentNode := doc
    localVariables := locals
    taskMode := .single }
  call .applyXsltTemplate newContext

/-- The value of a parameter: of its `select`, or else of its content. -/
def parameterValue (context : TemplateContext Num) (child parameter : NodeId)
    (select : Option Bytes) : Thread Num Unit :=
  match select with
  | none => do
      let cell ← nodeOf child
      treeValue call context.context context.localVariables context.documentNode cell.children
        parameter
  | some select =>
      evalNode context.context context.localVariables context.documentNode (some select) parameter

/-- An `xsl:with-param` child: a new parameter in front of those there are. -/
def withParam (context : TemplateContext Num) (child : NodeId) (parameters : Ptr) :
    Thread Num Ptr := do
  let name ← attributeOf child xslAName
  let parameter ← newNode name .attribute
  changeNode parameter fun cell => { cell with next := parameters }
  let select ← attributeOf child xslASelect
  parameterValue call context child parameter select
  pure (some parameter)

/-! ## Variables -/

/-- The variable of this name among the locals, a new one where there is none. -/
def localVariable (vars : NodeId) (vname : Option Bytes) : Thread Num NodeId := do
  let found ← reading fun heap => do
    let attributes ← siblings heap (heap.get vars).attributes
    some (attributes.find? fun tmp => decide (xmlsEquals vname (heap.get tmp).name))
  match found with
  | some tmp => do
      changeNode tmp fun cell => { cell with content := none }
      pure tmp
  | none => do
      let tmp ← newNode vname .attribute
      let frame ← nodeOf vars
      changeNode tmp fun cell => { cell with next := frame.attributes }
      changeNode vars fun cell => { cell with attributes := some tmp }
      pure tmp

/-- `do_local_var` -/
def doLocalVar (pctx : Transformation Num) (vars doc var : NodeId) : Thread Num Unit := do
  let vname ← attributeOf var xslAName
  let vsel ← attributeOf var xslASelect
  let tmp ← localVariable vars vname
  match vsel with
  | none => do
      let cell ← nodeOf var
      treeValue call pctx vars doc cell.children tmp
  | some vsel => evalNode pctx vars doc (some vsel) tmp

/-- `xpath_in_selection` -/
def xpathInSelection (sel : Ptr) (name : Option Bytes) : Thread Num Ptr :=
  reading fun heap => do
    some ((← siblings heap sel).find? fun sel => decide (xmlsEquals (heap.get sel).name name))

/-- `rval_copy` of the value of a node. -/
def copyExtra (src dst : NodeId) : Thread Num Unit :=
  access fun memory => do
    let (value, heap) ← rvalCopy memory.heap (memory.extra src)
    some ((), { memory with heap := heap }.setExtra dst value)

/-- `add_local_var` -/
def addLocalVar (vars : NodeId) (name : Option Bytes) (params : Ptr) : Thread Num Unit := do
  let found ← xpathInSelection params name
  match found with
  | none => pure ()
  | some param => do
      let tmp ← newNode name .attribute
      let frame ← nodeOf vars
      changeNode tmp fun cell => { cell with next := frame.attributes }
      changeNode vars fun cell => { cell with attributes := some tmp }
      copyExtra param tmp

/-! ## The instructions -/

/-- `template_byname` -/
def templateByname (pctx : Transformation Num) (name : Option Bytes) : Thread Num Ptr :=
  match name.bind pctx.namedTempl with
  | none => pure none
  | some template => do
      let cell ← nodeOf template
      pure cell.children

/-- `instruction_call_template`; the message about an unknown template reads
its name. -/
def instructionCallTemplate (context : TemplateContext Num) (instruction : NodeId) :
    Thread Num Unit := do
  let templateName ← attributeOf instruction xslAName
  let template ← templateByname context.context templateName
  match template with
  | none => if templateName = none then stuck else pure ()
  | some template => do
      let cell ← nodeOf instruction
      let parameters ← loopNodes (fun parameters i => do
        let child ← nodeOf i
        if child.name ≠ some xslWithparam then pure (.ok parameters)
        else do
          let parameters ← withParam call context i parameters
          pure (.ok parameters)) fuel cell.children none
      let localVariables ← newNode none .empty
      let result ← appendChild context.result .empty
      let newContext ← newContext {
        context := context.context
        instruction := some template
        result := result
        documentNode := context.documentNode
        parameters := parameters
        localVariables := localVariables
        workers := context.workers
        taskMode := context.taskMode }
      templateTaskRun call instruction newContext .applyXsltTemplate

/-- The selection and the parameters behind the children of
`xsl:apply-templates`. -/
def sortsAndParameters (context : TemplateContext Num) (selection children : Ptr) :
    Thread Num (Ptr × Ptr) :=
  loopNodes (fun (selection, parameters) child => do
    let cell ← nodeOf child
    if cell.type = .empty then pure (.ok (selection, parameters))
    else if cell.name = some xslWithparam then do
      let parameters ← withParam call context child parameters
      pure (.ok (selection, parameters))
    else if cell.name ≠ some xslSort then pure (.error (selection, parameters))
    else do
      let selection ← sortedSelection context.context context.localVariables selection child
      pure (.ok (selection, parameters))) fuel children (selection, none)

/-- A node that `xsl:apply-templates` or `xsl:for-each` visits: in a task if
further elements follow. -/
def visitNode (instruction node : NodeId) (context : TemplateContext Num)
    (function : TaskFunction) : Thread Num Unit := do
  let parallel ← reading fun heap => isNodeParallel heap node
  if parallel then templateTaskRun call instruction context function
  else call function context

/-- The nodes to which `xsl:apply-templates` applies templates, before they are
sorted. -/
def appliedSelection (context : TemplateContext Num) (select : Option Bytes) : Thread Num Ptr :=
  match select with
  | some select => do
      let etree ← findExpr context.context (some select)
      evalSelection context.context context.localVariables context.documentNode etree
  | none => do
      let document ← nodeOf context.documentNode
      pure document.children

/-- One round of the loop of `instruction_apply_templates`. -/
def applyToNode (context : TemplateContext Num) (instruction : NodeId) (parameters : Ptr)
    (localVariables : NodeId) (mode : Option Bytes) (node : NodeId) : Thread Num Unit := do
  let result ← appendChild context.result .empty
  let newContext ← newContext {
    context := context.context
    result := result
    documentNode := node
    parameters := parameters.or context.parameters
    localVariables := localVariables
    mode := mode
    workers := context.workers
    taskMode := context.taskMode }
  visitNode call instruction node newContext .processOneNode

/-- `instruction_apply_templates` -/
def instructionApplyTemplates (context : TemplateContext Num) (instruction : NodeId) :
    Thread Num Unit := do
  let select ← attributeOf instruction xslASelect
  let selection ← appliedSelection context select
  let cell ← nodeOf instruction
  let (selection, parameters) ← sortsAndParameters call fuel context selection cell.children
  let localVariables ← newNode none .empty
  let mode ← attributeOf instruction xslAMode
  eachNode fuel selection (applyToNode call context instruction parameters localVariables mode)

/-- `instruction_attribute` -/
def instructionAttribute (context : TemplateContext Num) (instruction : NodeId) :
    Thread Num Unit := do
  let name ← attributeOf instruction xslAName
  let attributeName ← processString context.context context.localVariables context.documentNode name
  let cell ← nodeOf instruction
  let attributeValue ← xmlEvalString call fuel context.context context.localVariables
    context.documentNode cell.children
  changing fun heap => (setAttribute context.result attributeName attributeValue heap).map ((), ·)

/-- The namespace that `instruction_element` declares. -/
def elementNamespace (context : TemplateContext Num) (instruction element : NodeId) :
    Thread Num Unit := do
  let namespace_ ← attributeOf instruction xslAXmlns
  match namespace_ with
  | none => pure ()
  | some namespace_ => do
      let value ← processString context.context context.localVariables context.documentNode
        (some namespace_)
      let attribute_ ← newNode (some xslAXmlns) .attribute
      changeNode attribute_ fun cell => { cell with content := value }
      changeNode element fun cell => { cell with attributes := some attribute_ }

/-- `instruction_element` -/
def instructionElement (context : TemplateContext Num) (instruction : NodeId) :
    Thread Num Unit := do
  let name ← attributeOf instruction xslAName
  let elementName ← processString context.context context.localVariables context.documentNode name
  let element ← appendChild context.result .element
  changeNode element fun cell => { cell with name := elementName }
  elementNamespace context instruction element
  let localVariables ← copyVariables fuel context.localVariables
  let cell ← nodeOf instruction
  let newContext ← newContext {
    context := context.context
    instruction := cell.children
    result := element
    documentNode := context.documentNode
    parameters := context.parameters
    localVariables := localVariables
    workers := context.workers
    taskMode := context.taskMode }
  templateTaskRun call instruction newContext .applyXsltTemplate

/-- The children of `xsl:if`, `xsl:when` or `xsl:otherwise` in the place of the
instruction. -/
def contentInPlace (context : TemplateContext Num) (branch : NodeId) : Thread Num Unit := do
  let cell ← nodeOf branch
  let newContext ← newContext {
    context := context.context
    instruction := cell.children
    result := context.result
    documentNode := context.documentNode
    parameters := context.parameters
    localVariables := context.localVariables
    workers := context.workers
    taskMode := context.taskMode }
  call .applyXsltTemplate newContext

/-- The `test` of `xsl:if` or `xsl:when`. -/
def evalTest (context : TemplateContext Num) (branch : NodeId) : Thread Num Bool := do
  let test ← attributeOf branch xslATest
  let etree ← findExpr context.context test
  evalBoolean context.context context.localVariables context.documentNode etree

/-- `instruction_if` -/
def instructionIf (context : TemplateContext Num) (instruction : NodeId) : Thread Num Unit := do
  let holds ← evalTest context instruction
  if holds then contentInPlace call context instruction else pure ()

/-- `instruction_choose`: the loop finds the last `xsl:otherwise` before the
`xsl:when` that it is left with. -/
def instructionChoose (context : TemplateContext Num) (instruction : NodeId) :
    Thread Num Unit := do
  let cell ← nodeOf instruction
  let (otherwise, chosen) ← loopNodes (fun ((otherwise, _) : Ptr × Bool) i => do
    let child ← nodeOf i
    let otherwise := if child.name = some xslOtherwise then some i else otherwise
    if child.name = some xslWhen then do
      let holds ← evalTest context i
      if holds then do
        contentInPlace call context i
        pure (.error (otherwise, true))
      else pure (.ok (otherwise, false))
    else pure (.ok (otherwise, false))) fuel cell.children (none, false)
  match otherwise with
  | none => pure ()
  | some otherwise => if chosen then pure () else contentInPlace call context otherwise

/-- `instruction_param` -/
def instructionParam (context : TemplateContext Num) (instruction : NodeId) : Thread Num Unit := do
  let name ← attributeOf instruction xslAName
  let select ← attributeOf instruction xslASelect
  let given ← xpathInSelection context.parameters name
  let cell ← nodeOf instruction
  if given = none ∧ (select ≠ none ∨ cell.children ≠ none) then
    doLocalVar call context.context context.localVariables context.documentNode instruction
  else addLocalVar context.localVariables name context.parameters

/-- The sorts of `xsl:for-each`: the sorted selection, and the child behind them. -/
def sortsOfEach (context : TemplateContext Num) (selection children : Ptr) :
    Thread Num (Ptr × Ptr) :=
  loopNodes (fun (selection, _) child => do
    let cell ← nodeOf child
    if cell.type = .empty then pure (.ok (selection, none))
    else if cell.name ≠ some xslSort then pure (.error (selection, some child))
    else do
      let selection ← sortedSelection context.context context.localVariables selection child
      pure (.ok (selection, none))) fuel children (selection, none)

/-- `instruction_for_each` -/
def instructionForEach (context : TemplateContext Num) (instruction : NodeId) :
    Thread Num Unit := do
  let select ← attributeOf instruction xslASelect
  let etree ← findExpr context.context select
  let selection ←
    evalSelection context.context context.localVariables context.documentNode etree
  let cell ← nodeOf instruction
  let (selection, child) ← sortsOfEach fuel context selection cell.children
  eachNode fuel selection fun node => do
    let result ← appendChild context.result .empty
    let localVariables ← copyVariables fuel context.localVariables
    let newContext ← newContext {
      context := context.context
      instruction := child
      result := result
      documentNode := node
      parameters := context.parameters
      localVariables := localVariables
      workers := context.workers
      taskMode := context.taskMode }
    visitNode call instruction node newContext .applyXsltTemplate

/-- `instruction_copy_of` -/
def instructionCopyOf' (context : TemplateContext Num) (instruction : NodeId) :
    Thread Num Unit := do
  let select ← attributeOf instruction xslASelect
  match select with
  | none => pure ()
  | some select =>
      evaluating context.context context.localVariables fun env heap => do
        let (_, heap) ← instructionCopyOf env context.context.depth fuel select context.result
          context.documentNode heap
        some ((), heap)

/-- `instruction_variable` -/
def instructionVariable (context : TemplateContext Num) (instruction : NodeId) :
    Thread Num Unit :=
  doLocalVar call context.context context.localVariables context.documentNode instruction

/-- A new text node with the escaping that the instruction asks for. -/
def appendText (context : TemplateContext Num) (content : Bytes) (flags : Nat) :
    Thread Num Unit := do
  let node ← appendChild context.result .text
  changeNode node fun cell =>
    { cell with content := some (untilNul content), flags := cell.flags ||| flags }

/-- `instruction_value_of` -/
def instructionValueOf (context : TemplateContext Num) (instruction : NodeId) :
    Thread Num Unit := do
  let select ← attributeOf instruction xslASelect
  let etree ← findExpr context.context select
  let content ← evalString context.context context.localVariables context.documentNode etree
  match content with
  | none => pure ()
  | some content => do
      let cell ← nodeOf instruction
      appendText context content (cell.flags &&& xmlFlagNoescape)

/-- `instruction_text` -/
def instructionText (context : TemplateContext Num) (instruction : NodeId) : Thread Num Unit := do
  let cell ← nodeOf instruction
  eachNode fuel cell.children fun i => do
    let child ← nodeOf i
    if child.type = .text then
      match child.content with
      | none => stuck
      | some content => appendText context content (cell.flags &&& xmlFlagNoescape)
    else pure ()

/-- The node that `instruction_copy` makes of the current one. -/
def copiedNode (context : TemplateContext Num) (documentNode : XmlNode) : Thread Num NodeId :=
  match documentNode.type with
  | .attribute => do
      changing fun heap => some ((), copyAttributeNode context.result context.documentNode heap)
      pure context.result
  | .text => do
      let result ← appendChild context.result .text
      changeNode result fun cell => { cell with content := documentNode.content }
      pure result
  | .element => do
      let result ← appendChild context.result .element
      changeNode result fun cell => { cell with name := documentNode.name }
      pure result
  | _ => pure context.result

/-- `instruction_copy` -/
def instructionCopy (context : TemplateContext Num) (instruction : NodeId) : Thread Num Unit := do
  let documentNode ← nodeOf context.documentNode
  let result ← copiedNode context documentNode
  let cell ← nodeOf instruction
  if cell.children = none then pure ()
  else do
    let newContext ← newContext {
      context := context.context
      instruction := cell.children
      result := result
      documentNode := context.documentNode
      parameters := context.parameters
      localVariables := context.localVariables
      workers := context.workers
      taskMode := context.taskMode }
    call .applyXsltTemplate newContext

/-- The children of an instruction as a string. -/
def contentString (context : TemplateContext Num) (instruction : NodeId) : Thread Num Bytes := do
  let cell ← nodeOf instruction
  xmlEvalString call fuel context.context context.localVariables context.documentNode cell.children

/-- `instruction_message`, which only logs what it has made. -/
def instructionMessage (context : TemplateContext Num) (instruction : NodeId) :
    Thread Num Unit := do
  let _ ← contentString call fuel context instruction
  pure ()

/-- `instruction_number` -/
def instructionNumber (context : TemplateContext Num) (_instruction : NodeId) :
    Thread Num Unit := do
  let node ← appendChild context.result .text
  changeNode node fun cell => { cell with content := some (lit "1.") }

/-- `instruction_comment` -/
def instructionComment (context : TemplateContext Num) (instruction : NodeId) :
    Thread Num Unit := do
  let node ← appendChild context.result .comment
  let content ← contentString call fuel context instruction
  changeNode node fun cell => { cell with content := some content }

/-- `instruction_processing_instruction` -/
def instructionProcessingInstruction (context : TemplateContext Num) (instruction : NodeId) :
    Thread Num Unit := do
  let node ← appendChild context.result .pi
  let name ← attributeOf instruction xslAName
  changeNode node fun cell => { cell with name := name }
  let content ← contentString call fuel context instruction
  changeNode node fun cell => { cell with content := some content }

/-- `instructions_create` -/
def instructions : List (Bytes × (TemplateContext Num → NodeId → Thread Num Unit)) :=
  [(lit "xsl:call-template", instructionCallTemplate call fuel),
    (xslApply, instructionApplyTemplates call fuel),
    (lit "xsl:attribute", instructionAttribute call fuel),
    (lit "xsl:element", instructionElement call fuel),
    (lit "xsl:if", instructionIf call),
    (lit "xsl:choose", instructionChoose call fuel),
    (lit "xsl:param", instructionParam call),
    (xslForeach, instructionForEach call fuel),
    (lit "xsl:copy-of", instructionCopyOf' fuel),
    (lit "xsl:variable", instructionVariable call),
    (lit "xsl:value-of", instructionValueOf),
    (lit "xsl:text", instructionText fuel),
    (lit "xsl:copy", instructionCopy call),
    (lit "xsl:message", instructionMessage call fuel),
    (lit "xsl:number", instructionNumber),
    (lit "xsl:comment", instructionComment call fuel),
    (lit "xsl:processing-instruction", instructionProcessingInstruction call fuel)]

/-- `instructions_is_xsl` -/
def instructionsIsXsl (name : Option Bytes) : Bool :=
  match name with
  | none => false
  | some name => (lit "xsl:").isPrefixOf name

/-- `instructions_process`: what is unknown is only logged. -/
def instructionsProcess (context : TemplateContext Num) (instruction : NodeId)
    (name : Option Bytes) : Thread Num Unit :=
  match name.bind fun name => (instructions call fuel).lookup name with
  | none => pure ()
  | some function => function context instruction

/-! ## Templates -/

/-- An element of the stylesheet that is no instruction. -/
def literalNode (context : TemplateContext Num) (instr : NodeId) : Thread Num Unit := do
  let result ← evaluating context.context context.localVariables fun env heap => do
    let (result, _, heap) ← copyNodeToResult env context.context.depth context.documentNode
      context.result instr heap
    some (result, heap)
  let cell ← nodeOf instr
  if cell.children = none then pure ()
  else do
    let localVariables ← copyVariables fuel context.localVariables
    let newContext ← newContext {
      context := context.context
      instruction := cell.children
      result := result
      documentNode := context.documentNode
      parameters := context.parameters
      localVariables := localVariables
      workers := context.workers
      taskMode := context.taskMode }
    call .applyXsltTemplate newContext

/-- `apply_xslt_template` -/
def applyXsltTemplate (context : TemplateContext Num) : Thread Num Unit :=
  eachNode fuel context.instruction fun instr => do
    let cell ← nodeOf instr
    if cell.type = .empty then
      if cell.children = none then pure ()
      else call .applyXsltTemplate { context with instruction := cell.children }
    else if instructionsIsXsl cell.name then instructionsProcess call fuel context instr cell.name
    else literalNode call fuel context instr

/-- `find_template` -/
def findTemplate (pctx : Transformation Num) (node : NodeId) (mode : Option Bytes) :
    Thread Num Ptr :=
  access fun memory => do
    let env := { pctx.env.withoutLocals with globals := memory.vars pctx.number }
    let found ← match pctx.templates mode with
      | none => some none
      | some entry =>
          if node = pctx.env.rootNode ∧ entry.root.isSome then some (entry.root.map Template.content)
          else do
            match ← findSelectTemplate env pctx.depth memory.heap node entry with
            | some template => some (some template.content)
            | none =>
                if node = pctx.env.rootNode then some none
                else some (entry.always.map Template.content)
    some (found, memory)

/-- A text of the document in the result. -/
def appendDocumentText (context : TemplateContext Num) (content : Option Bytes) :
    Thread Num Unit :=
  match content with
  | none => stuck
  | some content => do
      let tmp ← appendChild context.result .text
      changeNode tmp fun cell => { cell with content := some (untilNul content) }

/-- `apply_default_process` -/
def applyDefaultProcess (context : TemplateContext Num) : Thread Num Unit := do
  let document ← nodeOf context.documentNode
  if document.type = .text then appendDocumentText context document.content
  else
    eachNode fuel document.children fun child => do
      let cell ← nodeOf child
      if cell.type = .text then appendDocumentText context cell.content
      else do
        let result ← appendChild context.result .empty
        let localVariables ← copyVariables fuel context.localVariables
        let newContext ← newContext {
          context := context.context
          result := result
          documentNode := child
          parameters := context.parameters
          localVariables := localVariables
          mode := context.mode
          workers := context.workers
          taskMode := context.taskMode }
        call .processOneNode newContext

/-- `process_one_node` -/
def processOneNode (context : TemplateContext Num) : Thread Num Unit := do
  let template ← findTemplate context.context context.documentNode context.mode
  match template with
  | some template => do
      let scope ← newNode none .empty
      let newContext ← newContext {
        context := context.context
        instruction := some template
        result := context.result
        documentNode := context.documentNode
        parameters := context.parameters
        localVariables := scope
        workers := context.workers
        taskMode := context.taskMode }
      call .applyXsltTemplate newContext
  | none => applyDefaultProcess call fuel context

end Instructions

/-- The functions on contexts, nested at most so deep and with lists of at most
so many nodes. -/
def perform {Num : Type} [Double Num] : Nat → Caller Num
  | 0, _, _ => stuck
  | fuel + 1, .applyXsltTemplate, context => applyXsltTemplate (perform fuel) fuel context
  | fuel + 1, .processOneNode, context => processOneNode (perform fuel) fuel context

end TurboXSL
