import TurboXSL.Instructions
import TurboXSL.Rereading
import TurboXSL.StylesheetLoading
import TurboXSL.XPathExec

namespace TurboXSL

open Library Output

/-!
# Preparing a stylesheet in memory

`xsl_preprocess` walks along siblings and below them.  It reads the settings of
`xsl:output`, puts included documents below `xsl:include`, and unlinks the
character data that is white space only, unless `xsl:text` holds it.  The walk
reads the next sibling before anything else, and the first node that stays is
what it returns for its list.
-/

namespace Stripping

/-! ## The code -/

def xslOutput : Bytes := lit "xsl:output"

def xslADtpublic : Bytes := lit "doctype-public"
def xslADtsystem : Bytes := lit "doctype-system"
def xslAEncoding : Bytes := lit "encoding"
def xslAMedia : Bytes := lit "media-type"
def xslAMethod : Bytes := lit "method"
def xslAOmitxml : Bytes := lit "omit-xml-declaration"
def xslAStandalone : Bytes := lit "standalone"

def xslSXml : Bytes := lit "xml"
def xslSHtml : Bytes := lit "html"
def xslSText : Bytes := lit "text"

/-- `TRANSFORM_CONTEXT`, what `xsl:output` sets in it; the flags are bits of one number. -/
structure TransformContext where
  flagOutput : Bool := false
  flagOmitDesc : Bool := false
  flagStandalone : Bool := false
  flagModeSet : Bool := false
  outmode : OutputMode := .xml
  doctypePublic : Option Bytes := none
  doctypeSystem : Option Bytes := none
  encoding : Option Bytes := none
  mediaType : Option Bytes := none
deriving DecidableEq

/-- The file of each node, and `xml_parse_file`: the root of the document, or NULL. -/
structure Files where
  file : NodeId → Bytes
  parseFile : Heap → Bytes → Heap × Ptr

/-- Which output `method` stands for, where it does. -/
def outputMethod (pp : Bytes) : Option OutputMode :=
  if pp = xslSXml then some .xml
  else if pp = xslSHtml then some .html
  else if pp = xslSText then some .text
  else none

/-- The branch of `xsl:output`. -/
def readOutput (heap : Heap) (node : NodeId) (pctx : TransformContext) : Option TransformContext := do
  let readAttr := fun name => xmlGetAttr heap (some name) (heap.size + 1) node
  let doctypePublic ← readAttr xslADtpublic
  let doctypeSystem ← readAttr xslADtsystem
  let encoding ← readAttr xslAEncoding
  let mediaType ← readAttr xslAMedia
  let method ← readAttr xslAMethod
  let omitxml ← readAttr xslAOmitxml
  let standalone ← readAttr xslAStandalone
  some {
    flagOutput := true
    flagOmitDesc := pctx.flagOmitDesc || decide (omitxml = some xslSYes)
    flagStandalone := pctx.flagStandalone || decide (standalone = some xslSYes)
    flagModeSet := pctx.flagModeSet || method.isSome
    outmode := (method.bind outputMethod).getD pctx.outmode
    doctypePublic := doctypePublic
    doctypeSystem := doctypeSystem
    encoding := encoding
    mediaType := mediaType }

/-- The branch of `xsl:include`. -/
def readInclude (files : Files) (heap : Heap) (node : NodeId) : Option Heap := do
  match ← xmlGetAttr heap (some xslAHref) (heap.size + 1) node with
  | none => some heap
  | some href =>
      match files.parseFile heap (getAbsolutePath (files.file node) href) with
      | (heap, none) => some heap
      | (heap, some included) =>
          let heap := heap.modify included fun cell => { cell with parent := some node }
          some (heap.modify node fun cell => { cell with type := .empty, children := some included })

/-- `xml_unlink_node` -/
def xmlUnlinkNode (heap : Heap) (node : NodeId) : Heap :=
  let cell := heap.get node
  let heap := match cell.prev, cell.parent with
    | some prev, _ => heap.modify prev fun before => { before with next := cell.next }
    | none, some parent => heap.modify parent fun owner => { owner with children := cell.next }
    | none, none => heap
  match cell.next with
  | some next => heap.modify next fun after => { after with prev := cell.prev }
  | none => heap

/-- Whether the branch for character data unlinks the node; `none` where a
NULL pointer is followed. -/
def isRemoved (heap : Heap) (node : NodeId) : Option Bool :=
  if (heap.get node).type = .text then do
    let parent ← (heap.get node).parent
    if (heap.get parent).name = some xslText then some false
    else do
      let content ← (heap.get node).content
      some ((untilNul content).all xIsWs)
  else some false

/-- What `xsl:output` and `xsl:include` do to the context and to the nodes. -/
def readDirective (files : Files) (pctx : TransformContext) (heap : Heap) (node : NodeId) :
    Option (TransformContext × Heap) :=
  if (heap.get node).name = some xslOutput ∧ pctx.flagOutput = false then
    (readOutput heap node pctx).map fun pctx => (pctx, heap)
  else if (heap.get node).name = some xslInclude then
    (readInclude files heap node).map fun heap => (pctx, heap)
  else some (pctx, heap)

/-- The children of a node, which the node then holds as they are returned. -/
def preprocessChildren (walk : TransformContext → Heap → Ptr → Option (TransformContext × Heap × Ptr))
    (pctx : TransformContext) (heap : Heap) (node : NodeId) : Option (TransformContext × Heap) :=
  match (heap.get node).children with
  | none => some (pctx, heap)
  | some child => do
      let (pctx, heap, first) ← walk pctx heap (some child)
      some (pctx, heap.modify node fun cell => { cell with children := first })

/-- The loop of `xsl_preprocess` from a sibling on. -/
def preprocessLoop (files : Files) :
    Nat → TransformContext → Heap → Ptr → Ptr → Option (TransformContext × Heap × Ptr)
  | _, pctx, heap, none, ret => some (pctx, heap, ret)
  | 0, _, _, some _, _ => none
  | fuel + 1, pctx, heap, some node, ret => do
      let nodeNext := (heap.get node).next
      let (pctx, heap) ← readDirective files pctx heap node
      if ← isRemoved heap node then
        let heap := heap.modify node fun cell => { cell with content := none }
        let heap := xmlUnlinkNode heap node
        preprocessLoop files fuel pctx heap nodeNext (if ret = some node then nodeNext else ret)
      else
        let (pctx, heap) ← preprocessChildren
          (fun pctx heap child => preprocessLoop files fuel pctx heap child child) pctx heap node
        preprocessLoop files fuel pctx heap nodeNext ret

/-- `xsl_preprocess` -/
def xslPreprocess (files : Files) (fuel : Nat) (pctx : TransformContext) (heap : Heap) (node : Ptr) :
    Option (TransformContext × Heap × Ptr) :=
  preprocessLoop files fuel pctx heap node node

/-! ## Trees -/

/-- Sibling trees with the numbers of their nodes. -/
inductive Branches where
  | nil
  | node (id : NodeId) (children next : Branches)
deriving DecidableEq

namespace Branches

def ids : Branches → List NodeId
  | .nil => []
  | .node id children next => id :: (children.ids ++ next.ids)

/-- Without the nodes for which `gone` holds. -/
def strip (gone : NodeId → Bool) : Branches → Branches
  | .nil => .nil
  | .node id children next =>
      if gone id then next.strip gone else .node id (children.strip gone) (next.strip gone)

theorem strip_subset (gone : NodeId → Bool) (forest : Branches) :
    (forest.strip gone).ids ⊆ forest.ids := by
  induction forest with
  | nil => exact List.Subset.refl _
  | node id children next innerHypothesis tailHypothesis =>
      rw [strip, ids]
      split
      next removed =>
        apply List.subset_cons_of_subset
        exact List.subset_append_of_subset_right _ tailHypothesis
      next kept =>
        apply List.cons_subset_cons
        intro j member
        rcases List.mem_append.mp member with inner | tail
        · exact List.mem_append_left _ (innerHypothesis inner)
        · exact List.mem_append_right _ (tailHypothesis tail)

end Branches

/-- The siblings from `p` on, below `parent` and behind `prev`: all links fit. -/
inductive Tied (heap : Heap) : NodeId → Ptr → Ptr → Branches → Prop where
  | nil (parent : NodeId) (prev : Ptr) : Tied heap parent prev none .nil
  | node (parent : NodeId) (prev : Ptr) (id : NodeId) (children next : Branches)
      (up : (heap.get id).parent = some parent) (back : (heap.get id).prev = prev)
      (inner : Tied heap id none (heap.get id).children children)
      (tail : Tied heap parent (some id) (heap.get id).next next) :
      Tied heap parent prev (some id) (.node id children next)

/-- Only the links of the nodes themselves are read. -/
theorem Tied.congr {heap other : Heap} {parent : NodeId} {prev p : Ptr} {forest : Branches}
    (tied : Tied heap parent prev p forest)
    (same : ∀ j ∈ forest.ids, (other.get j).parent = (heap.get j).parent ∧
      (other.get j).prev = (heap.get j).prev ∧ (other.get j).children = (heap.get j).children ∧
      (other.get j).next = (heap.get j).next) : Tied other parent prev p forest := by
  induction tied with
  | nil => exact .nil _ _
  | node parent prev id children next up back inner tail innerHypothesis tailHypothesis =>
      rcases same id List.mem_cons_self with ⟨sameUp, sameBack, sameChildren, sameNext⟩
      refine .node parent prev id children next (sameUp.trans up) (sameBack.trans back) ?_ ?_
      · rw [sameChildren]
        exact innerHypothesis fun j member =>
          same j (List.mem_cons_of_mem id (List.mem_append_left _ member))
      · rw [sameNext]
        exact tailHypothesis fun j member =>
          same j (List.mem_cons_of_mem id (List.mem_append_right _ member))

/-- The first node may come to stand behind another one. -/
theorem Tied.behind {heap other : Heap} {parent : NodeId} {prev before p : Ptr} {forest : Branches}
    (tied : Tied heap parent prev p forest) (distinct : forest.ids.Nodup)
    (first : ∀ j, p = some j → other.get j = { heap.get j with prev := before })
    (same : ∀ j ∈ forest.ids, p ≠ some j → other.get j = heap.get j) :
    Tied other parent before p forest := by
  cases tied with
  | nil => exact .nil _ _
  | node _ _ id children next up back inner tail =>
      have here := first id rfl
      have fresh := (List.nodup_cons.mp distinct).1
      have later : ∀ j ∈ children.ids ++ next.ids, other.get j = heap.get j := by
        intro j member
        refine same j (List.mem_cons_of_mem id member) fun front => ?_
        exact fresh (Option.some.inj front ▸ member)
      have inner_ : Tied other id none (heap.get id).children children := by
        refine inner.congr fun j member => ?_
        rw [later j (List.mem_append_left _ member)]
        exact ⟨rfl, rfl, rfl, rfl⟩
      have tail_ : Tied other parent (some id) (heap.get id).next next := by
        refine tail.congr fun j member => ?_
        rw [later j (List.mem_append_right _ member)]
        exact ⟨rfl, rfl, rfl, rfl⟩
      apply Tied.node
      · rw [here]
        exact up
      · rw [here]
      · rw [here]
        exact inner_
      · rw [here]
        exact tail_

/-- The cell that points to what stands behind `prev`, or first below `parent`. -/
def holder (parent : NodeId) (prev : Ptr) : NodeId := prev.getD parent

/-- The pointer in that cell. -/
def link (prev : Ptr) (cell : XmlNode) : Ptr :=
  match prev with
  | none => cell.children
  | some _ => cell.next

def setLink (prev q : Ptr) (cell : XmlNode) : XmlNode :=
  match prev with
  | none => { cell with children := q }
  | some _ => { cell with next := q }

@[simp] theorem link_setLink (prev q : Ptr) (cell : XmlNode) : link prev (setLink prev q cell) = q := by
  cases prev <;> rfl

@[simp] theorem setLink_link (prev : Ptr) (cell : XmlNode) : setLink prev (link prev cell) cell = cell := by
  cases prev <;> rfl

@[simp] theorem setLink_setLink (prev p q : Ptr) (cell : XmlNode) :
    setLink prev q (setLink prev p cell) = setLink prev q cell := by
  cases prev <;> rfl

def relink (heap : Heap) (parent : NodeId) (prev q : Ptr) : Heap :=
  heap.modify (holder parent prev) (setLink prev q)

theorem relink_of_ne (heap : Heap) {parent : NodeId} {prev : Ptr} (q : Ptr) {j : NodeId}
    (other : j ≠ holder parent prev) : (relink heap parent prev q).get j = heap.get j :=
  heap.modify_get_of_ne _ other

/-- The last setting of a link counts. -/
theorem relink_again {heap between : Heap} {parent : NodeId} {prev p : Ptr} (q : Ptr) {j : NodeId}
    (same : between.get j = (relink heap parent prev p).get j) :
    (relink between parent prev q).get j = (relink heap parent prev q).get j := by
  by_cases here : j = holder parent prev
  · subst here
    rw [relink, heap.modify_get_same] at same
    rw [relink, relink, between.modify_get_same, heap.modify_get_same, same, setLink_setLink]
  · rw [relink_of_ne _ q here, relink_of_ne _ q here, same, relink_of_ne _ p here]

/-- A link that is set to what it is. -/
theorem relink_self {heap : Heap} {parent : NodeId} {prev p : Ptr}
    (linked : link prev (heap.get (holder parent prev)) = p) (j : NodeId) :
    (relink heap parent prev p).get j = heap.get j := by
  by_cases here : j = holder parent prev
  · subst here
    rw [relink, heap.modify_get_same, ← linked, setLink_link]
  · exact relink_of_ne _ p here

/-! ## One node -/

/-- Character data of white space only that `xsl:text` does not hold. -/
def Blank (heap : Heap) (i : NodeId) : Prop :=
  (heap.get i).type = .text ∧
    ((heap.get i).parent.bind fun owner => (heap.get owner).name) ≠ some xslText ∧
    ((heap.get i).content.getD []).all xIsWs = true

instance (heap : Heap) : DecidablePred (Blank heap) := fun _ => inferInstanceAs (Decidable (_ ∧ _))

/-- A node below the root of a parsed document: an element or character data,
which has a text without NUL and no children, and its attributes. -/
structure Fit (heap : Heap) (i : NodeId) : Prop where
  typed : (heap.get i).type = .element ∨ (heap.get i).type = .text
  leaf : (heap.get i).type = .text → (heap.get i).children = none
  characters : (heap.get i).type = .text →
    Exists fun content => (heap.get i).content = some content ∧ 0 ∉ content
  attributes : Exists fun attrs => Siblings heap (heap.get i).attributes attrs ∧
    ∀ attr ∈ attrs, attr < heap.size ∧ (heap.get attr).type = .attribute

/-- What the walk leaves of a memory, whatever it unlinks. -/
structure Spared (before after : Heap) : Prop where
  size : after.size = before.size
  cell : ∀ j, after.get j = { before.get j with
    content := (after.get j).content
    children := (after.get j).children
    next := (after.get j).next
    prev := (after.get j).prev }
  attribute_ : ∀ j, (before.get j).type = .attribute → after.get j = before.get j

namespace Spared

theorem refl (heap : Heap) : Spared heap heap := ⟨rfl, fun _ => rfl, fun _ _ => rfl⟩

variable {before between after : Heap}

theorem type (spared : Spared before after) (j : NodeId) :
    (after.get j).type = (before.get j).type := by
  rw [spared.cell j]

theorem name (spared : Spared before after) (j : NodeId) :
    (after.get j).name = (before.get j).name := by
  rw [spared.cell j]

theorem parent (spared : Spared before after) (j : NodeId) :
    (after.get j).parent = (before.get j).parent := by
  rw [spared.cell j]

theorem attributes (spared : Spared before after) (j : NodeId) :
    (after.get j).attributes = (before.get j).attributes := by
  rw [spared.cell j]

theorem trans (left : Spared before between) (right : Spared between after) :
    Spared before after where
  size := right.size.trans left.size
  cell := by
    intro j
    have second := right.cell j
    rw [left.cell j] at second
    exact second
  attribute_ := by
    intro j type
    rw [right.attribute_ j ((left.type j).trans type), left.attribute_ j type]

/-- One cell is changed that is not an attribute. -/
theorem modify (heap : Heap) (i : NodeId) {change : XmlNode → XmlNode}
    (type : (heap.get i).type ≠ .attribute)
    (cell : change (heap.get i) = { heap.get i with
      content := (change (heap.get i)).content
      children := (change (heap.get i)).children
      next := (change (heap.get i)).next
      prev := (change (heap.get i)).prev }) : Spared heap (heap.modify i change) where
  size := rfl
  cell := by
    intro j
    by_cases same : j = i
    · rw [same, heap.modify_get_same]
      exact cell
    · rw [heap.modify_get_of_ne _ same]
  attribute_ := by
    intro j isAttribute
    have other : j ≠ i := by
      rintro rfl
      exact type isAttribute
    exact heap.modify_get_of_ne _ other

theorem blank (spared : Spared before after) {j : NodeId}
    (content : (after.get j).content = (before.get j).content) : Blank after j ↔ Blank before j := by
  have name : (fun owner => (after.get owner).name) = fun owner => (before.get owner).name :=
    funext spared.name
  rw [Blank, Blank, spared.type, spared.parent, name, content]

theorem fit (spared : Spared before after) {j : NodeId} (fit : Fit before j)
    (content : (after.get j).content = (before.get j).content)
    (children : (after.get j).children = (before.get j).children) : Fit after j where
  typed := by
    rw [spared.type]
    exact fit.typed
  leaf := by
    rw [spared.type, children]
    exact fit.leaf
  characters := by
    rw [spared.type, content]
    exact fit.characters
  attributes := by
    rcases fit.attributes with ⟨attrs, chain, members⟩
    refine ⟨attrs, ?_, fun attr member => ?_⟩
    · rw [spared.attributes]
      refine chain.congr fun attr member => ?_
      rw [spared.attribute_ attr (members attr member).2]
    · rw [spared.size, spared.type]
      exact members attr member

end Spared

theorem Fit.not_attribute {heap : Heap} {i : NodeId} (fit : Fit heap i) :
    (heap.get i).type ≠ .attribute := by
  rcases fit.typed with element | text
  · rw [element]
    exact nofun
  · rw [text]
    exact nofun

/-- The attributes of a node can be read. -/
theorem Fit.readable {heap : Heap} {i : NodeId} (fit : Fit heap i) (name : Option Bytes) :
    Exists fun value => xmlGetAttr heap name (heap.size + 1) i = some value := by
  rcases fit.attributes with ⟨attrs, chain, members⟩
  have type : (heap.get i).type ≠ .empty := by
    rcases fit.typed with element | text
    · rw [element]
      exact nofun
    · rw [text]
      exact nofun
  have distinct := chain.nodup
  have short : attrs.length ≤ heap.size := by
    have inside : attrs ⊆ List.range heap.size := fun attr member =>
      List.mem_range.mpr (members attr member).1
    have counted := (List.Nodup.subperm distinct inside).length_le
    rw [List.length_range] at counted
    exact counted
  have read : siblings heap (heap.get i).attributes = some attrs :=
    follow_eq_some_iff.mpr ⟨chain, short⟩
  rw [xmlGetAttr, if_neg type, read]
  exact ⟨_, rfl⟩

/-- Other elements than `xsl:include` leave the memory alone. -/
theorem readDirective_fit {files : Files} {heap : Heap} {node : NodeId} (fit : Fit heap node)
    (other : (heap.get node).name ≠ some xslInclude) (pctx : TransformContext) :
    Exists fun pctx' => readDirective files pctx heap node = some (pctx', heap) := by
  rw [readDirective, if_neg other]
  split
  next output =>
    rcases fit.readable (some xslADtpublic) with ⟨doctypePublic, readPublic⟩
    rcases fit.readable (some xslADtsystem) with ⟨doctypeSystem, readSystem⟩
    rcases fit.readable (some xslAEncoding) with ⟨encoding, readEncoding⟩
    rcases fit.readable (some xslAMedia) with ⟨mediaType, readMedia⟩
    rcases fit.readable (some xslAMethod) with ⟨method, readMethod⟩
    rcases fit.readable (some xslAOmitxml) with ⟨omitxml, readOmitxml⟩
    rcases fit.readable (some xslAStandalone) with ⟨standalone, readStandalone⟩
    simp only [readOutput, readPublic, readSystem, readEncoding, readMedia, readMethod, readOmitxml,
      readStandalone, Option.bind_eq_bind, Option.bind_some, Option.map_some]
    exact ⟨_, rfl⟩
  next plain => exact ⟨pctx, rfl⟩

/-- The branch for character data takes exactly the blank nodes. -/
theorem isRemoved_eq {heap : Heap} {node parent : NodeId} (fit : Fit heap node)
    (up : (heap.get node).parent = some parent) :
    isRemoved heap node = some (decide (Blank heap node)) := by
  by_cases text : (heap.get node).type = .text
  · rcases fit.characters text with ⟨content, held, noNul⟩
    rw [isRemoved, if_pos text, up]
    by_cases named : (heap.get parent).name = some xslText
    · simp [Blank, text, up, named]
    · have blank : Blank heap node ↔ content.all xIsWs = true := by
        rw [Blank, up, held]
        exact ⟨fun both => both.2.2, fun white => ⟨text, named, white⟩⟩
      simp only [Option.bind_eq_bind, Option.bind_some, if_neg named, held, untilNul_eq_self noNul,
        decide_eq_decide.mpr blank, Bool.decide_eq_true]
  · simp [isRemoved, Blank, text]

/-- The memory after a node was unlinked by the walk. -/
def unlinked (heap : Heap) (node : NodeId) : Heap :=
  xmlUnlinkNode (heap.modify node fun cell => { cell with content := none }) node

/-- The first node of `p` stands behind `prev`. -/
def standBehind (heap : Heap) (prev p : Ptr) : Heap :=
  match p with
  | some next => heap.modify next fun after => { after with prev := prev }
  | none => heap

theorem unlinked_eq {heap : Heap} {node parent : NodeId} {prev : Ptr}
    (up : (heap.get node).parent = some parent) (back : (heap.get node).prev = prev) :
    unlinked heap node = standBehind (relink (heap.modify node fun cell => { cell with content := none })
      parent prev (heap.get node).next) prev (heap.get node).next := by
  subst back
  rw [unlinked, xmlUnlinkNode, heap.modify_get_same]
  simp only [up]
  cases (heap.get node).prev <;> cases (heap.get node).next <;> rfl

/-- A node is unlinked: the link to it leads to the next node, and the next
node stands where it stood. -/
theorem unlinked_get {heap : Heap} {node parent : NodeId} {prev : Ptr}
    (up : (heap.get node).parent = some parent) (back : (heap.get node).prev = prev)
    (elsewhere : holder parent prev ≠ node)
    (apart : ∀ later, (heap.get node).next = some later → later ≠ node ∧ later ≠ holder parent prev) :
    (∀ later, (heap.get node).next = some later →
      (unlinked heap node).get later = { heap.get later with prev := prev }) ∧
    ∀ j, j ≠ node → (heap.get node).next ≠ some j →
      (unlinked heap node).get j = (relink heap parent prev (heap.get node).next).get j := by
  have emptied : ∀ j, j ≠ node →
      (relink (heap.modify node fun cell => { cell with content := none }) parent prev
        (heap.get node).next).get j = (relink heap parent prev (heap.get node).next).get j := by
    intro j other
    by_cases here : j = holder parent prev
    · rw [relink, relink, here, Arena.modify_get_same, Arena.modify_get_same,
        heap.modify_get_of_ne _ elsewhere]
    · rw [relink_of_ne _ _ here, relink_of_ne _ _ here, heap.modify_get_of_ne _ other]
  have run := unlinked_eq up back
  cases next : (heap.get node).next with
  | none =>
      rw [next] at run emptied
      refine ⟨nofun, fun j other _ => ?_⟩
      rw [run]
      exact emptied j other
  | some later =>
      rw [next] at run emptied
      rcases apart later next with ⟨other, free⟩
      constructor
      · rintro _ ⟨⟩
        rw [run, standBehind, Arena.modify_get_same, emptied later other, relink_of_ne _ _ free]
      · intro j here last
        rw [run, standBehind, Arena.modify_get_of_ne _ _ fun same => last (congrArg some same.symm),
          emptied j here]

theorem Spared.relink {heap : Heap} {parent : NodeId} {prev : Ptr} (q : Ptr)
    (type : (heap.get (holder parent prev)).type ≠ .attribute) :
    Spared heap (relink heap parent prev q) := by
  refine Spared.modify heap _ type ?_
  cases prev <;> rfl

theorem Spared.unlinked {heap : Heap} {node : NodeId} {parent : NodeId} {prev : Ptr}
    (up : (heap.get node).parent = some parent) (back : (heap.get node).prev = prev)
    (type : (heap.get node).type ≠ .attribute)
    (ownerType : (heap.get (holder parent prev)).type ≠ .attribute)
    (laterType : ∀ later, (heap.get node).next = some later → (heap.get later).type ≠ .attribute) :
    Spared heap (unlinked heap node) := by
  have emptied : Spared heap (heap.modify node fun cell => { cell with content := none }) :=
    Spared.modify heap node type rfl
  have relinked := emptied.trans (Spared.relink (heap.get node).next
    (fun isAttribute => ownerType ((emptied.type _).symm.trans isAttribute)))
  rw [unlinked_eq up back]
  refine relinked.trans ?_
  cases next : (heap.get node).next with
  | none => exact Spared.refl _
  | some later =>
      rw [next] at relinked
      rw [standBehind]
      refine Spared.modify _ later (fun isAttribute => ?_) rfl
      exact laterType later next ((relinked.type later).symm.trans isAttribute)

/-- What the walk along the siblings of a forest makes of the memory. -/
structure Stripped (gone : NodeId → Bool) (forest : Branches) (parent : NodeId) (prev q : Ptr)
    (heap after : Heap) : Prop where
  tied : Tied after parent prev q (forest.strip gone)
  outside : ∀ j, j ∉ forest.ids → after.get j = (relink heap parent prev q).get j
  spared : Spared heap after
  content : ∀ j ∈ (forest.strip gone).ids, (after.get j).content = (heap.get j).content

/-- Where the walk along the siblings of a forest can begin. -/
structure Ready (gone : NodeId → Bool) (forest : Branches) (parent : NodeId) (prev p : Ptr)
    (heap : Heap) : Prop where
  tied : Tied heap parent prev p forest
  distinct : forest.ids.Nodup
  linked : link prev (heap.get (holder parent prev)) = p
  outer : holder parent prev ∉ forest.ids
  owner : (heap.get (holder parent prev)).type ≠ .attribute
  fit : ∀ j ∈ forest.ids, Fit heap j
  other : ∀ j ∈ forest.ids, (heap.get j).name ≠ some xslInclude
  agrees : ∀ j ∈ forest.ids, gone j = decide (Blank heap j)

variable {files : Files} {gone : NodeId → Bool}

theorem Ready.inner {id parent : NodeId} {children next : Branches} {prev p : Ptr} {heap : Heap}
    (ready : Ready gone (.node id children next) parent prev p heap) :
    Ready gone children id none (heap.get id).children heap := by
  cases ready.tied with
  | node _ _ _ _ _ up back inner tail =>
      have inside : ∀ {j}, j ∈ children.ids → j ∈ (Branches.node id children next).ids :=
        fun member => List.mem_cons_of_mem id (List.mem_append_left _ member)
      have parts := List.nodup_cons.mp ready.distinct
      refine ⟨inner, (List.nodup_append.mp parts.2).1, rfl, ?_, ?_, ?_, ?_, ?_⟩
      · exact fun member => parts.1 (List.mem_append_left _ member)
      · exact (ready.fit id List.mem_cons_self).not_attribute
      · exact fun j member => ready.fit j (inside member)
      · exact fun j member => ready.other j (inside member)
      · exact fun j member => ready.agrees j (inside member)

/-- The siblings behind a node, once the memory was changed before them. -/
theorem Ready.tail {id parent : NodeId} {children next : Branches} {prev p before : Ptr}
    {heap after : Heap} (ready : Ready gone (.node id children next) parent prev p heap)
    (spared : Spared heap after)
    (tied : Tied after parent before (heap.get id).next next)
    (linked : link before (after.get (holder parent before)) = (heap.get id).next)
    (outer : holder parent before ∉ next.ids)
    (owner : (heap.get (holder parent before)).type ≠ .attribute)
    (same : ∀ j ∈ next.ids, (after.get j).content = (heap.get j).content ∧
      (after.get j).children = (heap.get j).children) :
    Ready gone next parent before (heap.get id).next after := by
  have inside : ∀ {j}, j ∈ next.ids → j ∈ (Branches.node id children next).ids :=
    fun member => List.mem_cons_of_mem id (List.mem_append_right _ member)
  have parts := List.nodup_cons.mp ready.distinct
  refine ⟨tied, (List.nodup_append.mp parts.2).2.1, linked, outer, ?_, ?_, ?_, ?_⟩
  · rw [spared.type]
    exact owner
  · exact fun j member => spared.fit (ready.fit j (inside member)) (same j member).1 (same j member).2
  · intro j member
    rw [spared.name]
    exact ready.other j (inside member)
  · intro j member
    rw [ready.agrees j (inside member)]
    exact decide_eq_decide.mpr (spared.blank (same j member).1).symm

/-- A node that is unlinked: the walk goes on where it stood. -/
theorem Ready.removed {id parent : NodeId} {children next : Branches} {prev p : Ptr} {heap : Heap}
    (ready : Ready gone (.node id children next) parent prev p heap) (blank : gone id = true) :
    Ready gone next parent prev (heap.get id).next (unlinked heap id) ∧
      (∀ {q : Ptr} {after : Heap}, Stripped gone next parent prev q (unlinked heap id) after →
        Stripped gone (.node id children next) parent prev q heap after) := by
  have isBlank : Blank heap id := by
    rw [ready.agrees id List.mem_cons_self] at blank
    exact of_decide_eq_true blank
  have leaf := (ready.fit id List.mem_cons_self).leaf isBlank.1
  cases ready.tied with
  | node _ _ _ _ _ up back inner tail =>
      rw [leaf] at inner
      cases inner
      have parts := List.nodup_cons.mp ready.distinct
      rw [Branches.ids, List.nil_append] at parts
      have outside : holder parent prev ≠ id ∧ holder parent prev ∉ next.ids := by
        have outer := ready.outer
        rw [Branches.ids, Branches.ids, List.nil_append, List.mem_cons, not_or] at outer
        exact outer
      have front : ∀ j, (heap.get id).next = some j → j ∈ next.ids := by
        intro j start
        rw [start] at tail
        cases tail
        exact List.mem_cons_self
      have known := unlinked_get up back outside.1 fun j start =>
        ⟨fun same => parts.1 (same ▸ front j start), fun same => outside.2 (same ▸ front j start)⟩
      have fitNext : ∀ j ∈ next.ids, Fit heap j := fun j member =>
        ready.fit j (List.mem_cons_of_mem id member)
      have spared : Spared heap (unlinked heap id) :=
        .unlinked up back (ready.fit id List.mem_cons_self).not_attribute ready.owner
          fun j start => (fitNext j (front j start)).not_attribute
      have cells : ∀ j ∈ next.ids, (heap.get id).next ≠ some j →
          (unlinked heap id).get j = heap.get j := by
        intro j member behind
        rw [known.2 j (fun same => parts.1 (same ▸ member)) behind]
        exact relink_of_ne _ _ fun same => outside.2 (same ▸ member)
      have same : ∀ j ∈ next.ids, ((unlinked heap id).get j).content = (heap.get j).content ∧
          ((unlinked heap id).get j).children = (heap.get j).children := by
        intro j member
        by_cases start : (heap.get id).next = some j
        · rw [known.1 j start]
          exact ⟨rfl, rfl⟩
        · rw [cells j member start]
          exact ⟨rfl, rfl⟩
      have held : (unlinked heap id).get (holder parent prev) =
          (relink heap parent prev (heap.get id).next).get (holder parent prev) :=
        known.2 _ outside.1 fun start => outside.2 (front _ start)
      refine ⟨ready.tail spared (tail.behind parts.2 known.1 cells) ?_ outside.2 ready.owner same, ?_⟩
      · rw [held, relink, heap.modify_get_same, link_setLink]
      · intro q after stripped
        have shorter : (Branches.node id .nil next).strip gone = next.strip gone := if_pos blank
        refine ⟨shorter.symm ▸ stripped.tied, ?_, spared.trans stripped.spared, ?_⟩
        · intro j outer
          rw [Branches.ids, Branches.ids, List.nil_append, List.mem_cons, not_or] at outer
          rw [stripped.outside j outer.2]
          apply relink_again
          exact known.2 j outer.1 fun start => outer.2 (front j start)
        · intro j member
          rw [shorter] at member
          rw [stripped.content j member, (same j (Branches.strip_subset gone next member)).1]

/-- A node that stays, once the walk below it is done. -/
theorem Ready.kept {id parent : NodeId} {children next : Branches} {prev p first : Ptr}
    {heap below : Heap} (ready : Ready gone (.node id children next) parent prev p heap)
    (visible : gone id = false) (inner : Stripped gone children id none first heap below) :
    Ready gone next parent (some id) (heap.get id).next below ∧
      (∀ {q : Ptr} {after : Heap}, Stripped gone next parent (some id) q below after →
        Stripped gone (.node id children next) parent prev (some id) heap after) := by
  cases ready.tied with
  | node _ _ _ _ _ up back _ tail =>
      have parts := List.nodup_cons.mp ready.distinct
      have disjoint := (List.nodup_append.mp parts.2).2.2
      have notInner : id ∉ children.ids := fun member => parts.1 (List.mem_append_left _ member)
      have notNext : id ∉ next.ids := fun member => parts.1 (List.mem_append_right _ member)
      have here : below.get id = { heap.get id with children := first } := by
        rw [inner.outside id notInner]
        exact heap.modify_get_same id _
      have untouched : ∀ j, j ≠ id → j ∉ children.ids → below.get j = heap.get j := by
        intro j other outer
        rw [inner.outside j outer]
        exact relink_of_ne heap first other
      have behind : ∀ j ∈ next.ids, below.get j = heap.get j := by
        intro j member
        apply untouched j
        · exact fun same => notNext (same ▸ member)
        · exact fun front => disjoint j front j member rfl
      refine ⟨ready.tail inner.spared ?_ ?_ notNext ?_ ?_, ?_⟩
      · refine tail.congr fun j member => ?_
        rw [behind j member]
        exact ⟨rfl, rfl, rfl, rfl⟩
      · rw [holder, Option.getD_some, here]
        rfl
      · exact (ready.fit id List.mem_cons_self).not_attribute
      · intro j member
        rw [behind j member]
        exact ⟨rfl, rfl⟩
      · intro q after stripped
        have longer : (Branches.node id children next).strip gone =
            .node id (children.strip gone) (next.strip gone) := if_neg (by rw [visible]; nofun)
        have cell : after.get id = { heap.get id with children := first, next := q } := by
          rw [stripped.outside id notNext]
          refine (below.modify_get_same id _).trans ?_
          rw [here]
          rfl
        have deep : ∀ j ∈ children.ids, after.get j = below.get j := by
          intro j member
          rw [stripped.outside j fun late => disjoint j member j late rfl]
          have other : j ≠ id := fun same => notInner (same ▸ member)
          exact relink_of_ne below q other
        refine ⟨?_, ?_, inner.spared.trans stripped.spared, ?_⟩
        · rw [longer]
          refine .node parent prev id _ _ ?_ ?_ ?_ ?_
          · rw [cell]
            exact up
          · rw [cell]
            exact back
          · rw [cell]
            refine inner.tied.congr fun j member => ?_
            rw [deep j (Branches.strip_subset gone children member)]
            exact ⟨rfl, rfl, rfl, rfl⟩
          · rw [cell]
            exact stripped.tied
        · intro j outer
          rw [Branches.ids, List.mem_cons, List.mem_append, not_or, not_or] at outer
          rw [relink_self ready.linked, stripped.outside j outer.2.2]
          exact (relink_of_ne below q outer.1).trans (untouched j outer.1 outer.2.1)
        · intro j member
          rw [longer, Branches.ids, List.mem_cons, List.mem_append] at member
          rcases member with rfl | member | member
          · rw [cell]
          · rw [deep j (Branches.strip_subset gone children member), inner.content j member]
          · rw [stripped.content j member, behind j (Branches.strip_subset gone next member)]

/-- Below a node the walk begins with its children, where it has some. -/
theorem preprocessChildren_stripped {children : Branches} {heap : Heap} {id : NodeId}
    {walk : TransformContext → Heap → Ptr → Option (TransformContext × Heap × Ptr)}
    (ready : Ready gone children id none (heap.get id).children heap)
    (walks : ∀ pctx, Exists fun pctx' => Exists fun after => Exists fun q =>
      walk pctx heap (heap.get id).children = some (pctx', after, q) ∧
        Stripped gone children id none q heap after) (pctx : TransformContext) :
    Exists fun pctx' => Exists fun after => Exists fun q =>
      preprocessChildren walk pctx heap id = some (pctx', after) ∧
        Stripped gone children id none q heap after := by
  cases child : (heap.get id).children with
  | none =>
      have tied := ready.tied
      rw [child] at tied
      cases tied
      refine ⟨pctx, heap, none, ?_, .nil _ _, fun j _ => ?_, .refl heap, nofun⟩
      · rw [preprocessChildren, child]
      · exact (relink_self (child ▸ ready.linked) j).symm
  | some child_ =>
      rcases walks pctx with ⟨pctx', after, q, run, stripped⟩
      have held : (after.get id).children = q := by
        rw [stripped.outside id ready.outer]
        exact congrArg XmlNode.children (heap.modify_get_same id _)
      have assigned : (after.modify id fun cell => { cell with children := q }) = after :=
        after.modify_self (by rw [← held])
      refine ⟨pctx', after, q, ?_, stripped⟩
      rw [child] at run
      simp only [preprocessChildren, child, run, Option.bind_eq_bind, Option.bind_some, assigned]

/-- The walk along the siblings of a forest and below them. -/
theorem preprocessLoop_stripped {forest : Branches} {fuel : Nat} (pctx : TransformContext)
    {heap : Heap} {parent : NodeId} {prev p ret : Ptr}
    (ready : Ready gone forest parent prev p heap) (first : prev = none → ret = p)
    (later : prev ≠ none → ∀ j ∈ forest.ids, ret ≠ some j) (enough : forest.ids.length ≤ fuel) :
    Exists fun pctx' => Exists fun after => Exists fun q =>
      preprocessLoop files fuel pctx heap p ret =
        some (pctx', after, if prev = none then q else ret) ∧
      Stripped gone forest parent prev q heap after := by
  induction forest generalizing fuel pctx heap parent prev p ret with
  | nil =>
      cases ready.tied
      refine ⟨pctx, heap, none, ?_, ?_⟩
      · have returned : (if prev = none then none else ret) = ret := by
          split
          next start => exact (first start).symm
          next behind => rfl
        rw [returned]
        cases fuel <;> rfl
      · refine ⟨.nil _ _, fun j _ => ?_, .refl heap, nofun⟩
        exact (relink_self ready.linked j).symm
  | node id children next innerHypothesis tailHypothesis =>
      rw [Branches.ids, List.length_cons, List.length_append] at enough
      have fit := ready.fit id List.mem_cons_self
      rcases @readDirective_fit files heap id fit (ready.other id List.mem_cons_self) pctx with
        ⟨pctx₁, directive⟩
      cases ready.tied with
      | node _ _ _ _ _ up back inner tail =>
      cases fuel with
      | zero => exact absurd enough (by omega)
      | succ fuel =>
          have outer : ∀ {j}, j ∈ next.ids → j ∈ (Branches.node id children next).ids :=
            fun member => List.mem_cons_of_mem id (List.mem_append_right _ member)
          have below : children.ids.length ≤ fuel := by omega
          have shorter : next.ids.length ≤ fuel := by omega
          rw [preprocessLoop, directive]
          simp only [Option.bind_eq_bind, Option.bind_some, isRemoved_eq fit up,
            ← ready.agrees id List.mem_cons_self]
          cases blank : gone id with
          | true =>
              rcases ready.removed blank with ⟨onward, whole⟩
              have start : prev = none → (if ret = some id then (heap.get id).next else ret) =
                  (heap.get id).next := fun front => if_pos (first front)
              have passed : prev ≠ none → (if ret = some id then (heap.get id).next else ret) = ret :=
                fun behind => if_neg (later behind id List.mem_cons_self)
              have distinct : prev ≠ none → ∀ j ∈ next.ids,
                  (if ret = some id then (heap.get id).next else ret) ≠ some j := by
                intro behind j member
                rw [passed behind]
                exact later behind j (outer member)
              rcases tailHypothesis pctx₁ onward start distinct shorter with
                ⟨pctx₂, after, q, run, stripped⟩
              refine ⟨pctx₂, after, q, run.trans ?_, whole stripped⟩
              by_cases front : prev = none
              · rw [if_pos front, if_pos front]
              · rw [if_neg front, if_neg front, passed front]
          | false =>
              have fresh : id ∉ next.ids := fun member =>
                (List.nodup_cons.mp ready.distinct).1 (List.mem_append_right _ member)
              have distinct : some id ≠ none → ∀ j ∈ next.ids, ret ≠ some j := by
                intro _ j member
                by_cases front : prev = none
                · rw [first front]
                  rintro ⟨⟩
                  exact fresh member
                · exact later front j (outer member)
              have walks : ∀ pctx, Exists fun pctx' => Exists fun after => Exists fun q =>
                  preprocessLoop files fuel pctx heap (heap.get id).children (heap.get id).children =
                    some (pctx', after, q) ∧ Stripped gone children id none q heap after := by
                intro pctx
                rcases innerHypothesis pctx ready.inner (fun _ => rfl)
                  (fun impossible => absurd rfl impossible) below with ⟨pctx', after, q, run, stripped⟩
                rw [if_pos rfl] at run
                exact ⟨pctx', after, q, run, stripped⟩
              rcases @preprocessChildren_stripped gone children heap id
                (fun pctx heap child => preprocessLoop files fuel pctx heap child child) ready.inner walks
                pctx₁ with ⟨pctx₂, middle, start, walked, stripped⟩
              rcases ready.kept blank stripped with ⟨onward, whole⟩
              rcases tailHypothesis pctx₂ onward (fun impossible => nomatch impossible) distinct shorter
                with ⟨pctx₃, after, q, run, tailStripped⟩
              rw [if_neg Bool.false_ne_true]
              refine ⟨pctx₃, after, some id, ?_, whole tailStripped⟩
              simp only [walked, Option.bind_some, run, if_neg (Option.some_ne_none id)]
              by_cases front : prev = none
              · rw [if_pos front, first front]
              · rw [if_neg front]

/-! ## Whole stylesheets -/

/-- The tree of a stylesheet without `xsl:include`, below the root that the
parser makes or, where elements are left open, below the innermost of them. -/
structure StylesheetTree (heap : Heap) (root : NodeId) (forest : Branches) : Prop where
  top : (heap.get root).type = .empty ∧ (heap.get root).name = some xslSRoot ∨
    (heap.get root).type = .element ∧ Fit heap root
  alone : (heap.get root).next = none
  tied : Tied heap root none (heap.get root).children forest
  distinct : (root :: forest.ids).Nodup
  fit : ∀ i ∈ forest.ids, Fit heap i
  other : ∀ i ∈ root :: forest.ids, (heap.get i).name ≠ some xslInclude

/-- Nothing but the links to other nodes differs. -/
def SameContents (before after : XmlNode) : Prop :=
  after = { before with children := after.children, next := after.next, prev := after.prev }

namespace Branches

/-- In a forest where the nodes that go have no children, exactly these go. -/
theorem ids_strip {heap : Heap} {gone : NodeId → Bool} {forest : Branches} {parent : NodeId}
    {prev p : Ptr} (tied : Tied heap parent prev p forest)
    (leaves : ∀ i ∈ forest.ids, gone i = true → (heap.get i).children = none) :
    (forest.strip gone).ids = forest.ids.filter fun i => !gone i := by
  induction tied with
  | nil => rfl
  | node parent prev id children next up back inner tail innerHypothesis tailHypothesis =>
      have below := innerHypothesis fun i member =>
        leaves i (List.mem_cons_of_mem id (List.mem_append_left _ member))
      have behind := tailHypothesis fun i member =>
        leaves i (List.mem_cons_of_mem id (List.mem_append_right _ member))
      rw [strip, ids, List.filter_cons]
      cases blank : gone id with
      | true =>
          have leaf := leaves id List.mem_cons_self blank
          rw [leaf] at inner
          cases inner
          rw [if_pos rfl, behind]
          rfl
      | false =>
          rw [if_neg Bool.false_ne_true, ids, below, behind, List.filter_append]
          rfl

end Branches

theorem StylesheetTree.ready {heap : Heap} {root : NodeId} {forest : Branches}
    (tree : StylesheetTree heap root forest) :
    Ready (fun i => decide (Blank heap i)) forest root none (heap.get root).children heap where
  tied := tree.tied
  distinct := (List.nodup_cons.mp tree.distinct).2
  linked := rfl
  outer := (List.nodup_cons.mp tree.distinct).1
  owner := by
    change (heap.get root).type ≠ .attribute
    rcases tree.top with ⟨type, -⟩ | ⟨type, -⟩ <;> rw [type] <;> exact nofun
  fit := tree.fit
  other := fun i member => tree.other i (List.mem_cons_of_mem root member)
  agrees := fun _ _ => rfl

/-- The blank character data goes, and everything else stays where it was. -/
theorem xsl_preprocess_strips (files : Files) {heap : Heap} {root : NodeId} {forest : Branches}
    (tree : StylesheetTree heap root forest) (pctx : TransformContext) {fuel : Nat}
    (enough : forest.ids.length < fuel) :
    Exists fun pctx' => Exists fun after =>
      xslPreprocess files fuel pctx heap (some root) = some (pctx', after, some root) ∧
      Tied after root none (after.get root).children (forest.strip fun i => decide (Blank heap i)) ∧
      (forest.strip fun i => decide (Blank heap i)).ids =
        forest.ids.filter (fun i => !decide (Blank heap i)) ∧
      (∀ i ∈ root :: (forest.strip fun i => decide (Blank heap i)).ids,
        SameContents (heap.get i) (after.get i)) ∧
      ∀ i, i ∉ root :: forest.ids → after.get i = heap.get i := by
  have ready := tree.ready
  cases fuel with
  | zero => exact absurd enough (Nat.not_lt_zero _)
  | succ fuel =>
      have notText : (heap.get root).type ≠ .text := by
        rcases tree.top with ⟨type, -⟩ | ⟨type, -⟩ <;> rw [type] <;> exact nofun
      have directive : Exists fun pctx₁ => readDirective files pctx heap root = some (pctx₁, heap) := by
        have other := tree.other root List.mem_cons_self
        rcases tree.top with ⟨-, named⟩ | ⟨-, fit⟩
        · have notOutput : (heap.get root).name ≠ some xslOutput := by
            rw [named]
            decide
          refine ⟨pctx, ?_⟩
          rw [readDirective, if_neg fun both => notOutput both.1, if_neg other]
        · exact readDirective_fit fit other pctx
      have walks : ∀ pctx, Exists fun pctx' => Exists fun after => Exists fun q =>
          preprocessLoop files fuel pctx heap (heap.get root).children (heap.get root).children =
            some (pctx', after, q) ∧
          Stripped (fun i => decide (Blank heap i)) forest root none q heap after := by
        intro pctx
        rcases @preprocessLoop_stripped files _ _ _ pctx _ _ _ _ _ ready (fun _ => rfl)
          (fun impossible => absurd rfl impossible) (Nat.le_of_lt_succ enough) with
          ⟨pctx', after, q, run, stripped⟩
        rw [if_pos rfl] at run
        exact ⟨pctx', after, q, run, stripped⟩
      rcases directive with ⟨pctx₁, directive⟩
      rcases @preprocessChildren_stripped _ forest heap root
        (fun pctx heap child => preprocessLoop files fuel pctx heap child child) ready walks pctx₁ with
        ⟨pctx₂, after, q, walked, stripped⟩
      have here : after.get root = { heap.get root with children := q } := by
        rw [stripped.outside root ready.outer]
        exact heap.modify_get_same root _
      refine ⟨pctx₂, after, ?_, ?_, ?_, ?_, ?_⟩
      · have kept : isRemoved heap root = some false := if_neg notText
        rw [xslPreprocess, preprocessLoop, directive]
        simp only [Option.bind_eq_bind, Option.bind_some, kept, if_neg Bool.false_ne_true, walked,
          tree.alone]
        cases fuel <;> rfl
      · rw [here]
        exact stripped.tied
      · refine Branches.ids_strip tree.tied fun i member blank => ?_
        exact (tree.fit i member).leaf (of_decide_eq_true blank).1
      · intro i member
        rcases List.mem_cons.mp member with rfl | member
        · rw [SameContents, here]
        · have cell := stripped.spared.cell i
          rw [stripped.content i member] at cell
          exact cell
      · intro i outer
        rw [List.mem_cons, not_or] at outer
        rw [stripped.outside i outer.2]
        exact relink_of_ne heap q outer.1

/-- White space before and behind an `xsl:text` that holds some. -/
def spacedSheet : Heap := .ofList [
  { type := .empty, name := some xslSRoot, children := some 1 },
  { type := .text, content := some (lit " "), parent := some 0, next := some 2 },
  { type := .element, name := some xslText, parent := some 0, prev := some 1, next := some 4,
    children := some 3 },
  { type := .text, content := some (lit " "), parent := some 2 },
  { type := .text, content := some (lit "\n"), parent := some 0, prev := some 2 }]

theorem spacedSheet_tree : StylesheetTree spacedSheet 0
    (.node 1 .nil (.node 2 (.node 3 .nil .nil) (.node 4 .nil .nil))) where
  top := .inl ⟨rfl, rfl⟩
  alone := rfl
  tied := .node 0 none 1 _ _ rfl rfl (.nil 1 none) <| .node 0 (some 1) 2 _ _ rfl rfl
    (.node 2 none 3 _ _ rfl rfl (.nil 3 none) (.nil 2 (some 3)))
    (.node 0 (some 2) 4 _ _ rfl rfl (.nil 4 none) (.nil 0 (some 4)))
  distinct := by decide
  fit := by
    intro i member
    have listed : i = 1 ∨ i = 2 ∨ i = 3 ∨ i = 4 := by simpa [Branches.ids] using member
    rcases listed with rfl | rfl | rfl | rfl
    · exact ⟨.inr rfl, fun _ => rfl, fun _ => ⟨_, rfl, by decide⟩, [], .nil, nofun⟩
    · have element : (spacedSheet.get 2).type ≠ .text := by decide
      exact ⟨.inl rfl, fun text => absurd text element, fun text => absurd text element, [], .nil,
        nofun⟩
    · exact ⟨.inr rfl, fun _ => rfl, fun _ => ⟨_, rfl, by decide⟩, [], .nil, nofun⟩
    · exact ⟨.inr rfl, fun _ => rfl, fun _ => ⟨_, rfl, by decide⟩, [], .nil, nofun⟩
  other := by decide

/-- What `xsl:text` holds stays. -/
theorem xsl_preprocess_strips_spaces :
    StylesheetTree spacedSheet 0
      (.node 1 .nil (.node 2 (.node 3 .nil .nil) (.node 4 .nil .nil))) ∧
    Exists fun pctx => Exists fun after =>
      xslPreprocess ⟨fun _ => [], fun heap _ => (heap, none)⟩ 5 {} spacedSheet (some 0) =
        some (pctx, after, some 0) ∧
      Tied after 0 none (after.get 0).children (.node 2 (.node 3 .nil .nil) .nil) := by
  refine ⟨spacedSheet_tree, ?_⟩
  have enough : (Branches.node 1 .nil (.node 2 (.node 3 .nil .nil) (.node 4 .nil .nil))).ids.length
      < 5 := by decide
  rcases xsl_preprocess_strips ⟨fun _ => [], fun heap _ => (heap, none)⟩ spacedSheet_tree {} enough
    with ⟨pctx, after, run, tied, -⟩
  exact ⟨pctx, after, run, tied⟩

/-! ## What the parser makes -/

/-- The nodes of a document that a walk meets are tied. -/
theorem Tied.of_linked {heap : Heap} {inside : NodeId → Prop} (linked : Linked heap inside)
    {owner : NodeId} {prev p : Ptr} {row nodes : List NodeId}
    (children : Row heap.links owner prev p row) (members : ∀ n ∈ row, inside n)
    (walked : Preorder heap.links p nodes) :
    Exists fun forest => Tied heap owner prev p forest ∧ forest.ids = nodes ∧
      ∀ n ∈ nodes, inside n ∧ (heap.get n).parent ≠ none := by
  induction walked generalizing owner prev row with
  | nil => exact ⟨.nil, .nil owner prev, rfl, nofun⟩
  | cons id below behind inner outer innerHypothesis tailHypothesis =>
      cases children with
      | cons _ _ rest up back younger tail =>
          have here := members id List.mem_cons_self
          rcases linked.row here with ⟨row, children, insideRow⟩
          rcases innerHypothesis children insideRow with ⟨first, tiedFirst, idsFirst, all⟩
          rcases tailHypothesis tail fun n member => members n (List.mem_cons_of_mem id member) with
            ⟨next, tiedNext, idsNext, later⟩
          refine ⟨.node id first next, .node owner prev id first next up back tiedFirst tiedNext, ?_, ?_⟩
          · rw [Branches.ids, idsFirst, idsNext]
          · intro n member
            rcases List.mem_cons.mp member with rfl | member
            · refine ⟨here, ?_⟩
              have parent : (heap.get n).parent = some owner := up
              rw [parent]
              exact Option.some_ne_none owner
            · rcases List.mem_append.mp member with front | back
              · exact all n front
              · exact later n back

open Parse in
/-- What the parser returns for a document without `xsl:include` is such a tree. -/
theorem StylesheetTree.of_parsed {heap after : Heap} {string : Bytes} {root : NodeId}
    (parsed : XmlParseString heap string root after)
    (top : (after.get root).type = .empty ∧ (after.get root).name = some xslSRoot ∧
      (after.get root).next = none)
    (other : ∀ n, Made heap.size after n → (after.get n).name ≠ some xslInclude)
    (noNul : ∀ n content, Made heap.size after n → (after.get n).content = some content →
      0 ∉ content) :
    Exists fun forest => StylesheetTree after root forest := by
  rcases parsed.placed with ⟨linked, made, -⟩
  rcases linked.row made with ⟨row, children, members⟩
  rcases linked.forest.preorder made with ⟨nodes, walked⟩
  rcases Tied.of_linked linked children members walked with ⟨forest, tied, ids, inner⟩
  rcases linked.forest.preorder_spec made walked with ⟨distinct, below⟩
  have fresh : root ∉ nodes := fun member => absurd ((below root).mp member).lt (Nat.lt_irrefl root)
  refine ⟨forest, .inl ⟨top.1, top.2.1⟩, top.2.2, tied, ?_, ?_, ?_⟩
  · rw [ids]
    exact List.nodup_cons.mpr ⟨fresh, distinct⟩
  · intro i member
    rw [ids] at member
    rcases inner i member with ⟨here, owned⟩
    have typed : (after.get i).type = .element ∨ (after.get i).type = .text :=
      (linked.typed here).resolve_left fun empty => owned (linked.outermost here empty)
    refine ⟨typed, linked.leaf here, fun text => ?_, linked.attributes here⟩
    rcases parsed with ⟨-, before, done, walk⟩
    have renumbered := renumberChildren_renumbered walk
    rcases renumbered.cell i with ⟨position, cell⟩
    have earlier : (before.get i).type = .text := (renumbered.type i).symm.trans text
    have legible := DoParse.legible done i here.1 (renumbered.size ▸ here.2.1)
    have held : (after.get i).content = (before.get i).content := by rw [cell]
    rcases Option.ne_none_iff_exists'.mp (legible.characters earlier).1 with ⟨content, characters⟩
    exact ⟨content, held.trans characters, noNul i content here (held.trans characters)⟩
  · intro i member
    rcases List.mem_cons.mp member with rfl | member
    · exact other i made
    · rw [ids] at member
      exact other i (inner i member).1

end Stripping

end TurboXSL
