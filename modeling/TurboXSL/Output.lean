import TurboXSL.Forest

namespace TurboXSL

open Library

/-!
# The serializer

`output_node_rec` writes the nodes from a pointer on, each with its
children, into a growing string.  The loop over siblings and the recursion
into children both use up fuel, and a result is only given when it lasts.
-/

namespace Output

/-- `OUTPUT_MODE` -/
inductive OutputMode where
  | none | xml | html | text
deriving DecidableEq

/-- A C string ends at its first NUL. -/
def untilNul (s : Bytes) : Bytes := s.takeWhile fun c => c ≠ 0

theorem untilNul_eq_self {s : Bytes} (whole : 0 ∉ s) : untilNul s = s := by
  unfold untilNul
  apply List.takeWhile_eq_self_iff.mpr
  intro c member
  exact decide_eq_true fun zero => whole (zero ▸ member)

/-- What `xmls_append` appends for an `XMLSTRING`; nothing for NULL. -/
def appended (s : Option Bytes) : Bytes := (s.map untilNul).getD []

/-- The common loop of the two functions below; `quotes` says whether a
quotation mark is replaced too. -/
def addQuoted (quotes : Bool) : Bytes → Bytes
  | [] => []
  | c :: s =>
      if c = 0 then []
      else if quotes ∧ c = '"'.toUInt8 then lit "&quot;" ++ addQuoted quotes s
      else if c = '<'.toUInt8 then lit "&lt;" ++ addQuoted quotes s
      else if c = '>'.toUInt8 then lit "&gt;" ++ addQuoted quotes s
      else if c = '&'.toUInt8 ∧ byteAt s ≠ '#'.toUInt8 then lit "&amp;" ++ addQuoted quotes s
      else c :: addQuoted quotes s

/-- `add_quoted_str` -/
def addQuotedStr : Bytes → Bytes := addQuoted false

/-- `add_quoted_attribute_value`, for a value that is not NULL. -/
def addQuotedAttributeValue : Bytes → Bytes := addQuoted true

def xslSScript : Bytes := lit "script"

/-- `is_html_empty_tag` -/
def isHtmlEmptyTag (name : Option Bytes) : Bool :=
  [lit "img", lit "meta", lit "hr", lit "br", lit "link", lit "input"].any fun tag =>
    name = some tag

/-- One attribute inside a start tag. -/
def outputAttribute (attr : XmlNode) : Bytes :=
  lit " " ++ appended attr.name ++ lit "=\"" ++
    (attr.content.map addQuotedAttributeValue).getD [] ++ lit "\""

/-- The loop over the attributes. -/
def outputAttributes (heap : Heap) (fuel : Nat) (p : Ptr) : Option Bytes :=
  (follow (fun i => (heap.get i).next) fuel p).map fun attributes =>
    attributes.flatMap fun i => outputAttribute (heap.get i)

/-- A text node. -/
def outputText (node : XmlNode) (rawout : Nat) : Bytes :=
  let marked := node.flags &&& xmlFlagCdata ≠ 0
  (if marked then lit "<![CDATA[" else []) ++
    (if node.flags &&& xmlFlagNoescape ≠ 0 ∨ rawout ≠ 0 then appended node.content
      else (node.content.map addQuotedStr).getD []) ++
    (if marked then lit "]]>" else [])

/-- `output_node_rec`: the bytes written, and the `unsigned` `ctx->rawout` afterwards. -/
def outputNodeRec (mode : OutputMode) (heap : Heap) :
    Nat → Ptr → Nat → Option (Bytes × Nat)
  | _, none, rawout => some ([], rawout)
  | 0, some _, _ => none
  | fuel + 1, some i, rawout => do
      let node := heap.get i
      let written ← match node.type with
        | .element => do
            let attributes ← outputAttributes heap fuel node.attributes
            let start := lit "<" ++ appended node.name ++ attributes
            if mode = .html ∧ isHtmlEmptyTag node.name then some (start ++ lit ">", rawout)
            else if node.children = none then
              if mode = .xml then some (start ++ lit "/>", rawout)
              else some (start ++ lit "></" ++ appended node.name ++ lit ">", rawout)
            else
              let raw := rawout ≠ 0 ∨ (mode = .html ∧ node.name = some xslSScript)
              let inner ← outputNodeRec mode heap fuel node.children
                (if raw then (rawout + 1) % 2 ^ 32 else rawout)
              some (start ++ lit ">" ++ inner.1 ++ lit "</" ++ appended node.name ++ lit ">",
                inner.2 - 1)
        | .comment => some (lit "<!--" ++ appended node.content ++ lit "-->", rawout)
        | .pi =>
            some (lit "<?" ++ appended node.name ++
              (if node.content = none then [] else lit " " ++ appended node.content) ++ lit ">",
              rawout)
        | .text => some (outputText node rawout, rawout)
        | _ => outputNodeRec mode heap fuel node.children rawout
      let later ← outputNodeRec mode heap fuel node.next written.2
      some (written.1 ++ later.1, later.2)

/-- From `p` on, with `rawout` as given, the serializer writes `text`. -/
def Outputs (mode : OutputMode) (heap : Heap) (p : Ptr) (rawout : Nat) (text : Bytes) : Prop :=
  Exists fun fuel => Exists fun rawoutAfter =>
    outputNodeRec mode heap fuel p rawout = some (text, rawoutAfter)

/-! ## The text of a forest -/

/-- The attributes of a start tag. -/
def attributesText (attributes : List (Bytes × Bytes)) : Bytes :=
  attributes.flatMap fun attr =>
    lit " " ++ untilNul attr.1 ++ lit "=\"" ++ addQuotedAttributeValue attr.2 ++ lit "\""

/-- What the serializer writes for a forest in XML mode. -/
def forestText : Forest → Bytes
  | .nil => []
  | .text content flags next =>
      outputText { type := .text, content := some content, flags := flags } 0 ++ forestText next
  | .element name attributes children next =>
      lit "<" ++ untilNul name ++ attributesText attributes ++
        (if children = .nil then lit "/>"
        else lit ">" ++ forestText children ++ lit "</" ++ untilNul name ++ lit ">") ++
        forestText next

open Forest in
theorem outputAttributes_holds {heap : Heap} {owner : NodeId} {p : Ptr}
    {attributes : List (Bytes × Bytes)} (holds : HoldsAttributes heap owner p attributes)
    {fuel : Nat} (enough : attributes.length ≤ fuel) :
    outputAttributes heap fuel p = some (attributesText attributes) := by
  induction holds generalizing fuel with
  | nil => cases fuel <;> rfl
  | cons i name value rest type named content parent tail inductionHypothesis =>
      cases fuel with
      | zero => cases enough
      | succ fuel =>
          have later := inductionHypothesis (Nat.le_of_succ_le_succ enough)
          simp only [outputAttributes, Option.map_eq_some_iff] at later ⊢
          rcases later with ⟨listed, followed, text⟩
          refine ⟨i :: listed, by simp only [follow, followed, Option.map_some], ?_⟩
          rw [List.flatMap_cons, text]
          simp only [outputAttribute, named, content, appended, Option.map_some, Option.getD_some,
            attributesText, List.flatMap_cons]

open Forest in
/-- On a represented forest the serializer writes its text, and `rawout` stays zero. -/
theorem outputNodeRec_holds {heap : Heap} {parent : NodeId} {prev p : Ptr} {forest : Forest}
    (holds : Holds heap parent prev p forest) {fuel : Nat} (enough : forest.size ≤ fuel) :
    outputNodeRec .xml heap fuel p 0 = some (forestText forest, 0) := by
  induction holds generalizing fuel with
  | nil => cases fuel <;> rfl
  | text parent prev i content flags next type unnamed characters flagged up back leaf tail
      inductionHypothesis =>
      cases fuel with
      | zero => simp [Forest.size] at enough
      | succ fuel =>
          simp only [Forest.size] at enough
          have later := inductionHypothesis (show next.size ≤ fuel by omega)
          simp only [outputNodeRec, type, Option.bind_eq_bind, Option.bind_some, later, forestText,
            outputText, characters, flagged]
  | element parent prev i name attributes children next type named up back tagged inner tail
      innerHypothesis tailHypothesis =>
      cases fuel with
      | zero => simp [Forest.size] at enough
      | succ fuel =>
          simp only [Forest.size] at enough
          have length : attributes.length ≤ fuel := by omega
          have later := tailHypothesis (show next.size ≤ fuel by omega)
          have inside := innerHypothesis (show children.size ≤ fuel by omega)
          have html : ¬ (OutputMode.xml = .html ∧ isHtmlEmptyTag (some name) = true) := by
            rintro ⟨⟨⟩, -⟩
          have script : ¬ (0 ≠ 0 ∨ (OutputMode.xml = .html ∧ some name = some xslSScript)) := by
            rintro (impossible | ⟨impossible, -⟩)
            · exact impossible rfl
            · cases impossible
          simp only [outputNodeRec, type, named, outputAttributes_holds tagged length,
            Option.bind_eq_bind, Option.bind_some, if_neg html, if_neg script, inside, forestText,
            appended, Option.map_some, Option.getD_some, inner.ptr_eq_none_iff]
          split <;> simp only [later, Option.bind_some, if_true, List.append_assoc]

end Output
end TurboXSL
