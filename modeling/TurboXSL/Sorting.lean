import TurboXSL.Library.BubbleSort
import TurboXSL.XPathExec

namespace TurboXSL

open Library

/-!
# Sorted selections

`xpath_sort_selection`, and the first half of `xsl:for-each` and of
`xsl:apply-templates`: how they come to the list of nodes that they visit.
Every `xsl:sort` child sorts the list as the one before has left it, by
exchanges of neighbours, and links it anew in place.
-/

/-- An `xsl:sort` element behind `process_global_flags`. -/
structure SortChild where
  /-- The compiled `select`, NULL where there is none. -/
  compiled : Expr
  flags : Nat

/-- `sort->flags&XML_FLAG_SORTNUMBER` -/
def SortChild.numericSort (sort : SortChild) : Bool := sort.flags.testBit 2

/-- `sort->flags&XML_FLAG_DESCENDING`, as the sign of a comparison. -/
def SortChild.backwardSort (sort : SortChild) : Int := if sort.flags.testBit 3 then -1 else 1

/-! ## Keys -/

/-- `tolower` of the bytes below 128. -/
def tolower (byte : UInt8) : UInt8 :=
  if 'A'.toUInt8 ≤ byte ∧ byte ≤ 'Z'.toUInt8 then byte + 32 else byte

/-- `strcasecmp`, which reads up to a zero byte. -/
def strcasecmp : Bytes → Bytes → Int
  | [], [] => 0
  | [], r :: _ => -(tolower r).toNat
  | l :: _, [] => (tolower l).toNat
  | l :: ls, r :: rs =>
      if tolower l = tolower r then if tolower l = 0 then 0 else strcasecmp ls rs
      else (tolower l).toNat - (tolower r).toNat

/-- `xml_strcasecmp` -/
def xmlStrcasecmp : Option Bytes → Option Bytes → Int
  | none, none => 0
  | none, some _ => -1
  | some _, none => 1
  | some l, some r => strcasecmp l r

/-- `nsk[i]` of a key. -/
def numericKey (Num : Type) [Double Num] (key : Option Bytes) : Num :=
  match key with
  | some text => Double.strtod text
  | none => Double.ofInt (-9999999999)

/-- Neighbours with these keys are exchanged. -/
def SortChild.exchanges (Num : Type) [Double Num] (sort : SortChild)
    (left right : Option Bytes) : Bool :=
  if sort.numericSort then
    Double.less (Double.ofInt 0 : Num) (Double.mul (Double.ofInt sort.backwardSort)
      (Double.sub (numericKey Num left) (numericKey Num right)))
  else 0 < sort.backwardSort * xmlStrcasecmp left right

section Evaluation

variable {Num : Type} [Double Num] (env : Env Num) (depth : Nat)

/-- `xpath_eval_string` -/
def xpathEvalString (etree : Expr) (current : NodeId) (heap : Heap) :
    Option (Option Bytes × Heap) :=
  if etree = .null then some (none, heap)
  else do
    let locals ← env.locals
    let (value, heap) ← xpathExecuteScalar env depth etree current
      (heap.modify locals fun cell => { cell with parent := some current })
    some (← rval2string heap value, heap)

/-- `sort_keys[i]` for the node `sort_nodes[i]`. -/
def sortKey (sort : SortChild) (node : NodeId) (heap : Heap) : Option (Option Bytes × Heap) :=
  if sort.compiled = .null then (node2string heap node).map fun text => (some text, heap)
  else xpathEvalString env depth sort.compiled node heap

/-- `sort_nodes` and `sort_keys`. -/
def sortKeys (sort : SortChild) : List NodeId → Heap → Option (List (NodeId × Option Bytes) × Heap)
  | [], heap => some ([], heap)
  | node :: rest, heap => do
      let (key, heap) ← sortKey env depth sort node heap
      let (keys, heap) ← sortKeys sort rest heap
      some ((node, key) :: keys, heap)

/-- The links and positions that `xpath_sort_selection` sets, from the node
behind `prev` on. -/
def relink : Heap → Ptr → Nat → List NodeId → Heap
  | heap, _, _, [] => heap
  | heap, prev, pos, node :: rest =>
      relink (heap.modify node fun cell =>
        { cell with prev := prev, next := rest.head?, position := pos + 1 }) (some node) (pos + 1) rest

/-- `xpath_sort_selection` -/
def xpathSortSelection (heap : Heap) (selection : Ptr) (sort : SortChild) : Option (Heap × Ptr) :=
  match selection with
  | none => some (heap, none)
  | some head =>
      if (heap.get head).next = none then some (heap, selection)
      else do
        let nodes ← siblings heap selection
        let (keys, heap) ← sortKeys env depth sort nodes heap
        let sorted ← bubbleSort (fun left right => sort.exchanges Num left.2 right.2) keys
        let sortNodes := sorted.map Prod.fst
        some (relink heap none 0 sortNodes, sortNodes.head?)

/-- One sort for each of the children, in turn. -/
def sortSelection : List SortChild → Heap → Ptr → Option (Heap × Ptr)
  | [], heap, selection => some (heap, selection)
  | sort :: rest, heap, selection => do
      let (heap, selection) ← xpathSortSelection env depth heap selection sort
      sortSelection rest heap selection

/-! ## Instructions -/

/-- A child of an instruction, as the loops over the sorts tell them apart. -/
inductive InstructionChild where
  | empty
  | withParam
  | sort (sort : SortChild)
  | other

/-- An instruction that visits nodes: `xsl:for-each` with its `select`, or
`xsl:apply-templates`, which may have none. -/
inductive VisitingInstruction where
  | forEach (select : Expr)
  | applyTemplates (select : Option Expr)

/-- The sorts that are applied: an `EMPTY_NODE` is passed over, and in
`xsl:apply-templates` a parameter; anything else ends them. -/
def VisitingInstruction.sorts (instruction : VisitingInstruction) :
    List InstructionChild → List SortChild
  | [] => []
  | .empty :: rest => instruction.sorts rest
  | .sort sort :: rest => sort :: instruction.sorts rest
  | .withParam :: rest =>
      match instruction with
      | .applyTemplates _ => instruction.sorts rest
      | .forEach _ => []
  | .other :: _ => []

/-- The nodes to visit, before they are sorted. -/
def VisitingInstruction.selection (instruction : VisitingInstruction) (current : NodeId)
    (heap : Heap) : Option (Ptr × Heap) :=
  match instruction with
  | .forEach select | .applyTemplates (some select) =>
      xpathEvalSelection env (xpathExecuteScalar env depth) select current heap
  | .applyTemplates none => some ((heap.get current).children, heap)

/-- `instruction_for_each` and `instruction_apply_templates` up to the loop
over the nodes: the memory, and the nodes that the loop visits. -/
def VisitingInstruction.visited (instruction : VisitingInstruction)
    (children : List InstructionChild) (current : NodeId) (heap : Heap) :
    Option (Heap × List NodeId) := do
  let (selection, heap) ← instruction.selection env depth current heap
  let (heap, selection) ← sortSelection env depth (instruction.sorts children) heap selection
  some (heap, ← siblings heap selection)

end Evaluation

end TurboXSL
