import Mathlib.Data.List.DropRight
import TurboXSL.Library.Trie
import TurboXSL.Matching

namespace TurboXSL

open Library

/-!
# The table of templates

`templates.c`: the registration of templates and the search for the one to
apply.  Each mode has two collections.  A pattern whose outermost step is by
name goes into a trie of names, which is walked from the node upwards; every
other one goes into a list, which is tried pattern by pattern.
-/

/-- `struct template_`.  `expr` is set for templates in the list only. -/
structure Template where
  matchString : Bytes
  expr : Expr := .null
  expressionWeight : Nat := 0
  content : NodeId
deriving DecidableEq, Repr

abbrev TemplateTree := Trie Bytes Template

/-- `struct template_map_entry_` -/
structure TemplateMapEntry where
  head : List Template := []
  root : Option Template := none
  always : Option Template := none
  directMatch : Option TemplateTree := none

/-- What registration uses of `struct _context`. -/
structure TransformContext where
  heap : Heap
  templates : Option Bytes → Option TemplateMapEntry
  expressions : List (Bytes × Expr)

/-- `template_map_create`: an entry for templates without a mode. -/
def templateMapCreate : Option Bytes → Option TemplateMapEntry
  | none => some {}
  | some _ => none

/-- A context before any registration. -/
def TransformContext.create (heap : Heap) : TransformContext := ⟨heap, templateMapCreate, []⟩

/-! ## Compiled expressions by their text -/

/-- A key of a `concurrent_dictionary`: its length is cut to `uint16_t`. -/
def dictionaryKey (key : Bytes) : Bytes := key.take (key.length % 2 ^ 16)

/-- `xpath_find_expr` -/
def xpathFindExpr (expressions : List (Bytes × Expr)) (expr : Bytes) :
    Option (Expr × List (Bytes × Expr)) :=
  let found := expressions.lookup (dictionaryKey expr)
  if found.getD .null ≠ .null then some (found.getD .null, expressions)
  else do
    let compiled ← xpathCompile expr
    some (compiled, if found.isSome then expressions
      else (dictionaryKey expr, compiled) :: expressions)

/-! ## Registration -/

/-- The loops at the head of `add_templ_match`. -/
def trim (text : Bytes) : Bytes := (text.dropWhile xIsWs).rdropWhile xIsWs

/-- The content of the first template with this pattern is replaced. -/
def replaceContent (matchString : Bytes) (content : NodeId) :
    List Template → Option (List Template)
  | [] => none
  | t :: rest =>
      if t.matchString = matchString then some ({ t with content := content } :: rest)
      else (replaceContent matchString content rest).map (t :: ·)

/-- The nodes of a trie with their templates, in the order of creation. -/
def treeTemplates (tree : TemplateTree) : List (Nat × Template) :=
  (List.range tree.size).filterMap fun node => (tree.get node).value.map (node, ·)

/-- `template_map_find_template`, and the replacement of the content of the
template found. -/
def TemplateMapEntry.replace (entry : TemplateMapEntry) (matchString : Bytes) (content : NodeId) :
    Option TemplateMapEntry :=
  match replaceContent matchString content entry.head with
  | some head => some { entry with head := head }
  | none => do
      let tree ← entry.directMatch
      let (node, t) ← (treeTemplates tree).find? fun found => found.2.matchString = matchString
      some { entry with directMatch := some (tree.setValue node { t with content := content }) }

/-- The classification loop, which asks the outermost node every time. -/
def isDirectMatch (expression : Expr) : Bool :=
  expression.spine.all fun _ =>
    expression.type? = some .root ∨ expression.type? = some .select

/-- The names under which a pattern is put into the trie.  Nodes that are no
step by name are passed over. -/
def directKeys (expression : Expr) : List (Option Bytes) :=
  expression.spine.filterMap fun n =>
    if n.type = .select then some n.name
    else if n.type = .root then some (some xslSSlash)
    else none

/-- The new template in its collection. -/
def TemplateMapEntry.add (entry : TemplateMapEntry) (matchString : Bytes) (content : NodeId)
    (expression : Expr) : TemplateMapEntry :=
  let t : Template := {
    matchString := matchString
    expressionWeight := expression.spine.length
    content := content }
  if isDirectMatch expression then
    { entry with
      directMatch := some ((entry.directMatch.getD Trie.empty).insert (directKeys expression) t) }
  else { entry with head := { t with expr := expression } :: entry.head }

/-- A template without content stands for a new `EMPTY_NODE`. -/
def givenContent (heap : Heap) : Ptr → Heap × NodeId
  | none => xmlNewNode heap none .empty
  | some content => (heap, content)

/-- `add_templ_match` -/
def addTemplMatch (pctx : TransformContext) (content : Ptr) (templMatch : Bytes)
    (mode : Option Bytes) : Option TransformContext :=
  let matchString := trim templMatch
  let (heap, content) := givenContent pctx.heap content
  let entry := (pctx.templates mode).getD {}
  let store (entry : TemplateMapEntry) := Function.update pctx.templates mode (some entry)
  match entry.replace matchString content with
  | some entry => some { pctx with heap := heap, templates := store entry }
  | none =>
      if matchString = lit "/" then
        some { pctx with
          heap := heap
          templates := store { entry with
            root := some { matchString := matchString, content := content } } }
      else if matchString = lit "*" then
        some { pctx with
          heap := heap
          templates := store { entry with
            always := some { matchString := matchString, content := content } } }
      else do
        let (expression, expressions) ← xpathFindExpr pctx.expressions matchString
        some ⟨heap, store (entry.add matchString content expression), expressions⟩

/-- One call of `add_templ_match`. -/
structure Registration where
  content : Ptr
  templMatch : Bytes
  mode : Option Bytes := none

/-- The calls in order. -/
def registerAll (pctx : TransformContext) (registrations : List Registration) :
    Option TransformContext :=
  registrations.foldlM (fun pctx r => addTemplMatch pctx r.content r.templMatch r.mode) pctx

/-! ## Selection -/

/-- The name under which a node is looked up in the trie. -/
def directKey (heap : Heap) (node : NodeId) : Option Bytes :=
  if (heap.get node).type = .element then (heap.get node).name else some xslSSlash

section Selection

variable {Num : Type} [Double Num] (env : Env Num) (depth : Nat) (heap : Heap)

/-- The template of the trie node at which the walk upwards comes to rest. -/
def directTemplate (tree : TemplateTree) (node : NodeId) : Option (Option Template) := do
  let line ← follow (fun n => (heap.get n).parent) heap.size (some node)
  some (tree.get (tree.deepest 0 (line.map (directKey heap)))).value

/-- The loop of `find_select_template` over the list. -/
def listedTemplate (node : NodeId) : Option Template → Nat → List Template →
    Option (Option Template)
  | result, _, [] => some result
  | result, expressionWeight, t :: rest => do
      if (← selectMatch env depth heap t.expr (some node)) ∧ expressionWeight < t.expressionWeight
        then listedTemplate node (some t) t.expressionWeight rest
        else listedTemplate node result expressionWeight rest

/-- `find_select_template` -/
def findSelectTemplate (node : NodeId) (entry : TemplateMapEntry) : Option (Option Template) := do
  let direct ← match entry.directMatch with
    | none => some none
    | some tree => directTemplate heap tree node
  listedTemplate env depth heap node direct ((direct.map Template.expressionWeight).getD 0)
    entry.head

end Selection

end TurboXSL
