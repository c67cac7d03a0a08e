import TurboXSL.Output
import TurboXSL.Sorting

namespace TurboXSL

open Library Output

/-!
# Result trees

What `xsl:copy-of`, `xsl:copy` and `xsl:attribute` do to the tree of results:
nodes are appended behind the last child, attributes are put in front of the
others, and the attributes of what is copied go through `xml_process_string`,
which is meant for the literal elements of a stylesheet.
-/

/-! ## Children -/

/-- `xml_add_child` -/
def xmlAddChild (heap : Heap) (node child : NodeId) : Option Heap := do
  let children ← siblings heap (heap.get node).children
  let heap := match children.getLast? with
    | some prev => setNext (heap.modify child fun cell => { cell with prev := some prev })
        (some prev) (some child)
    | none => heap.modify node fun cell => { cell with children := some child }
  some (heap.modify child fun cell => { cell with parent := some node })

/-- `xml_append_child` -/
def xmlAppendChild (heap : Heap) (node : NodeId) (type : NodeType) : Option (Heap × NodeId) := do
  let (heap, ret) := xmlNewNode heap none type
  some (← xmlAddChild heap node ret, ret)

/-! ## Attribute value templates -/

/-- The loop of `xml_process_string` over a string that has braces, with the
texts that it evaluates beside the string that it makes. -/
def processLoop (evaluate : Bytes → Heap → Option (Bytes × Heap)) :
    Nat → Bytes → Heap → Option (Bytes × List Bytes × Heap)
  | _, [], heap => some ([], [], heap)
  | 0, _ :: _, _ => none
  | fuel + 1, c :: s, heap =>
      if c = '{'.toUInt8 then
        if byteAt s = '{'.toUInt8 then do
          let (res, evaluated, heap) ← processLoop evaluate fuel s.tail heap
          some (c :: res, evaluated, heap)
        else do
          let expr := s.takeWhile fun c => c ≠ '}'.toUInt8
          let (r, heap) ← evaluate expr heap
          match s.dropWhile fun c => c ≠ '}'.toUInt8 with
          | [] => some (r, [expr], heap)
          | _ :: s => do
              let (res, evaluated, heap) ← processLoop evaluate fuel s heap
              some (r ++ res, expr :: evaluated, heap)
      else do
        let s := if c = '}'.toUInt8 ∧ byteAt s = '}'.toUInt8 then s.tail else s
        let (res, evaluated, heap) ← processLoop evaluate fuel s heap
        some (c :: res, evaluated, heap)

section Results

variable {Num : Type} [Double Num] (env : Env Num) (depth : Nat)

/-- `xml_process_string`; the texts that are evaluated stand beside the result. -/
def xmlProcessString (context : NodeId) (string : Option Bytes) (heap : Heap) :
    Option (Option Bytes × List Bytes × Heap) :=
  match string with
  | none => some (none, [], heap)
  | some string => do
      let s := untilNul string
      if '{'.toUInt8 ∉ s ∧ '}'.toUInt8 ∉ s then some (some s, [], heap)
      else
        let (res, evaluated, heap) ← processLoop (fun expr heap => do
          let (r, heap) ← xpathEvalString env depth (← env.findExpr expr) context heap
          some (appended r, heap)) s.length s heap
        some (some res, evaluated, heap)

/-! ## Copies of nodes -/

/-- One round of the loop over attributes in `copy_node_to_result`. -/
def copyAttribute (context newnode a : NodeId) (heap : Heap) : Option (List Bytes × Heap) := do
  let (heap, t) := xmlNewNode heap none .attribute
  let heap := heap.modify t fun cell => { cell with name := (heap.get a).name }
  let (content, evaluated, heap) ←
    if (heap.get a).flags = xmlFlagNoescape then
      (heap.get a).content.map fun content => (some content, [], heap)
    else xmlProcessString env depth context (heap.get a).content heap
  let heap := heap.modify t fun cell =>
    { cell with content := content, next := (heap.get newnode).attributes }
  some (evaluated, heap.modify newnode fun cell => { cell with attributes := some t })

/-- The loop itself. -/
def copyAttributes (context newnode : NodeId) : List NodeId → Heap → Option (List Bytes × Heap)
  | [], heap => some ([], heap)
  | a :: rest, heap => do
      let (first, heap) ← copyAttribute env depth context newnode a heap
      let (later, heap) ← copyAttributes context newnode rest heap
      some (first ++ later, heap)

/-- `copy_node_to_result` -/
def copyNodeToResult (context parent src : NodeId) (heap : Heap) :
    Option (NodeId × List Bytes × Heap) := do
  let (heap, newnode) ← xmlAppendChild heap parent (heap.get src).type
  let heap := heap.modify newnode fun cell =>
    { cell with name := (heap.get src).name, flags := (heap.get src).flags }
  match (heap.get src).type with
  | .element => do
      let attributes ← siblings heap (heap.get src).attributes
      let (evaluated, heap) ← copyAttributes env depth context newnode attributes heap
      some (newnode, evaluated, heap)
  | .text => do
      let content ← (heap.get src).content
      some (newnode, [], heap.modify newnode fun cell => { cell with content := some (untilNul content) })
  | _ => some (newnode, [], heap)

/-- An attribute in `copy_node_to_result_rec`: its content is moved. -/
def moveAttribute (parent src : NodeId) (heap : Heap) : Heap :=
  let (heap, r) := xmlNewNode heap none .attribute
  let heap := heap.modify r fun cell =>
    { cell with name := (heap.get src).name, next := (heap.get parent).attributes,
                content := (heap.get src).content }
  let heap := heap.modify parent fun cell => { cell with attributes := some r }
  heap.modify src fun cell => { cell with content := none }

/-- `copy_node_to_result_rec` for the nodes from a pointer on, with the texts
that are evaluated. -/
def copyNodesToResult (context : NodeId) :
    Nat → NodeId → Ptr → Heap → Option (List Bytes × Heap)
  | _, _, none, heap => some ([], heap)
  | 0, _, some _, _ => none
  | fuel + 1, parent, some src, heap => do
      let (first, heap) ←
        if (heap.get src).type = .attribute then some ([], moveAttribute parent src heap)
        else do
          let (r, own, heap) ← copyNodeToResult env depth context parent src heap
          let (below, heap) ← copyNodesToResult context fuel r (heap.get src).children heap
          some (own ++ below, heap)
      let (later, heap) ← copyNodesToResult context fuel parent (heap.get src).next heap
      some (first ++ later, heap)

/-! ## Instructions -/

/-- `xpath_eval_expression` -/
def xpathEvalExpression (expr : Bytes) (current : NodeId) (heap : Heap) :
    Option (RValue Num × Heap) := do
  let etree ← env.findExpr expr
  if etree = .null then some (.null, heap)
  else do
    let locals ← env.locals
    xpathExecuteScalar env depth etree current
      (heap.modify locals fun cell => { cell with parent := some current })

/-- `instruction_copy_of` -/
def instructionCopyOf (fuel : Nat) (select : Bytes) (result documentNode : NodeId) (heap : Heap) :
    Option (List Bytes × Heap) := do
  let (value, heap) ← xpathEvalExpression env depth select documentNode heap
  match value with
  | .nodeset nodeset => copyNodesToResult env depth documentNode fuel result nodeset heap
  | value => do
      match ← rval2string heap value with
      | none => some ([], heap)
      | some text => do
          let (heap, node) ← xmlAppendChild heap result .text
          some ([], heap.modify node fun cell => { cell with content := some (untilNul text) })

end Results

/-- The owner of the attributes that `xsl:attribute` adds below `node`. -/
def attributeOwner (heap : Heap) : Nat → Ptr → Option Ptr
  | _, none => some none
  | 0, some _ => none
  | fuel + 1, some node =>
      if (heap.get node).type = .empty then attributeOwner heap fuel (heap.get node).parent
      else some (some node)

/-- `instruction_attribute` behind the evaluation of the name and of the value. -/
def setAttribute (result : NodeId) (name : Option Bytes) (value : Bytes) (heap : Heap) :
    Option Heap := do
  let p := untilNul (skipSpaces value)
  match ← attributeOwner heap heap.size (some result) with
  | none => some heap
  | some parent => do
      let attributes ← siblings heap (heap.get parent).attributes
      match attributes.find? fun attr => decide (xmlsEquals (heap.get attr).name name) with
      | some tmp => some (heap.modify tmp fun cell => { cell with content := some p })
      | none =>
          let (heap, tmp) := xmlNewNode heap none .attribute
          let heap := heap.modify tmp fun cell =>
            { cell with name := name, next := (heap.get parent).attributes,
                        flags := xmlFlagNoescape, content := some p }
          some (heap.modify parent fun cell => { cell with attributes := some tmp })

/-- `instruction_copy` where the current node is an attribute. -/
def copyAttributeNode (result documentNode : NodeId) (heap : Heap) : Heap :=
  let node := if (heap.get result).type = .empty then (heap.get result).parent else some result
  match node with
  | none => heap
  | some node =>
      if (heap.get node).type = .element then
        let (heap, attribute_) := xmlNewNode heap (heap.get documentNode).name .attribute
        let heap := heap.modify attribute_ fun cell =>
          { cell with content := (heap.get documentNode).content }
        match (heap.get node).attributes with
        | none => heap.modify node fun cell => { cell with attributes := some attribute_ }
        | some first => setNext heap (some first) (some attribute_)
      else heap

end TurboXSL
