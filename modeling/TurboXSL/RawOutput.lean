import TurboXSL.Output

namespace TurboXSL
namespace Output

open Library

/-!
# Raw output

`output_node_rec` counts in `ctx->rawout` how many elements it is inside of
since raw output began: a script of HTML output starts the count, every
element inside adds one.  Here the texts are written by what encloses them
instead, and the counter is shown to keep pace with that as long as the
`unsigned` does not wrap round.
-/

/-- Sibling nodes, each with its attributes and what is below it. -/
inductive NodeForest where
  | nil
  | node (cell : XmlNode) (attributes : List XmlNode) (children next : NodeForest)
deriving DecidableEq

namespace NodeForest

def size : NodeForest → Nat
  | .nil => 0
  | .node _ attributes children next => 1 + attributes.length + children.size + next.size

end NodeForest

/-- The memory shows the forest from the pointer on. -/
inductive Shown (heap : Heap) : Ptr → NodeForest → Prop where
  | nil : Shown heap none .nil
  | node (i : NodeId) (attributes : List NodeId) (children next : NodeForest)
      (tagged : Chain (fun a => (heap.get a).next) (heap.get i).attributes attributes)
      (inner : Shown heap (heap.get i).children children)
      (tail : Shown heap (heap.get i).next next) :
      Shown heap (some i) (.node (heap.get i) (attributes.map heap.get) children next)

def IsScript (cell : XmlNode) : Prop := cell.type = .element ∧ cell.name = some xslSScript

instance : DecidablePred IsScript := fun _ => inferInstanceAs (Decidable (_ ∧ _))

/-- A text node is written unescaped: `rawout` was not zero from the start,
the node is flagged, or in HTML a script element encloses it. -/
def Unescaped (mode : OutputMode) (rawout : Nat) (enclosing : List XmlNode) (cell : XmlNode) :
    Prop :=
  0 < rawout ∨ cell.flags &&& xmlFlagNoescape ≠ 0 ∨
    mode = .html ∧ ∃ element ∈ enclosing, IsScript element

instance (mode : OutputMode) (rawout : Nat) (enclosing : List XmlNode) (cell : XmlNode) :
    Decidable (Unescaped mode rawout enclosing cell) :=
  inferInstanceAs (Decidable (_ ∨ _ ∨ _))

/-- A text node, escaped or not. -/
def textOutput (cell : XmlNode) (unescaped : Prop) [Decidable unescaped] : Bytes :=
  let marked := cell.flags &&& xmlFlagCdata ≠ 0
  (if marked then lit "<![CDATA[" else []) ++
    (if unescaped then appended cell.content else (cell.content.map addQuotedStr).getD []) ++
    (if marked then lit "]]>" else [])

/-- What is written for a forest inside of the elements `enclosing`, when the
output began with `rawout`. -/
def forestOutput (mode : OutputMode) (rawout : Nat) : List XmlNode → NodeForest → Bytes
  | _, .nil => []
  | enclosing, .node cell attributes children next =>
      (match cell.type with
        | .element =>
            lit "<" ++ appended cell.name ++ attributes.flatMap outputAttribute ++
              if mode = .html ∧ isHtmlEmptyTag cell.name then lit ">"
              else if children = .nil then
                if mode = .xml then lit "/>" else lit "></" ++ appended cell.name ++ lit ">"
              else lit ">" ++ forestOutput mode rawout (cell :: enclosing) children ++ lit "</" ++
                appended cell.name ++ lit ">"
        | .comment => lit "<!--" ++ appended cell.content ++ lit "-->"
        | .pi =>
            lit "<?" ++ appended cell.name ++
              (if cell.content = none then [] else lit " " ++ appended cell.content) ++ lit ">"
        | .text => textOutput cell (Unescaped mode rawout enclosing cell)
        | _ => forestOutput mode rawout (cell :: enclosing) children) ++
        forestOutput mode rawout enclosing next

/-- How many elements are counted one inside of the other, at most; `raw`
tells whether the count has begun. -/
def counted (mode : OutputMode) : Bool → NodeForest → Nat
  | _, .nil => 0
  | raw, .node cell _ children next =>
      max (counted mode raw next) <|
        match cell.type with
        | .element =>
            if mode = .html ∧ isHtmlEmptyTag cell.name ∨ children = .nil then 0
            else if raw ∨ mode = .html ∧ IsScript cell then 1 + counted mode true children
            else counted mode false children
        | .comment | .pi | .text => 0
        | _ => counted mode raw children

theorem Shown.ptr_eq_none_iff {heap : Heap} {p : Ptr} {forest : NodeForest}
    (shown : Shown heap p forest) : p = none ↔ forest = .nil := by
  cases shown with
  | nil => exact ⟨fun _ => rfl, fun _ => rfl⟩
  | node => exact ⟨nofun, nofun⟩

theorem outputAttributes_chain {heap : Heap} {p : Ptr} {attributes : List NodeId}
    (tagged : Chain (fun a => (heap.get a).next) p attributes) {fuel : Nat}
    (enough : attributes.length ≤ fuel) :
    outputAttributes heap fuel p = some ((attributes.map heap.get).flatMap outputAttribute) := by
  rw [outputAttributes, follow_eq_some_iff.mpr ⟨tagged, enough⟩, Option.map_some, List.flatMap_map]

/-- The counter is not zero exactly where texts are written unescaped. -/
def Keeps (mode : OutputMode) (rawout : Nat) (enclosing : List XmlNode) (count : Nat) : Prop :=
  count ≠ 0 ↔ 0 < rawout ∨ mode = .html ∧ ∃ element ∈ enclosing, IsScript element

section Keeping

variable {mode : OutputMode} {rawout : Nat} {enclosing : List XmlNode} {count : Nat}
  {cell : XmlNode}

theorem Keeps.inside_script (keeps : Keeps mode rawout enclosing count)
    (raw : count ≠ 0 ∨ mode = .html ∧ IsScript cell) :
    Keeps mode rawout (cell :: enclosing) (count + 1) := by
  refine ⟨fun _ => ?_, fun _ => Nat.succ_ne_zero count⟩
  rcases raw with counting | ⟨html, script⟩
  · rcases keeps.mp counting with start | ⟨html, element, member, script⟩
    · exact .inl start
    · exact .inr ⟨html, element, List.mem_cons_of_mem cell member, script⟩
  · exact .inr ⟨html, cell, List.mem_cons_self, script⟩

theorem Keeps.inside_other (keeps : Keeps mode rawout enclosing count)
    (other : ¬ (mode = .html ∧ IsScript cell)) :
    Keeps mode rawout (cell :: enclosing) count := by
  refine Iff.trans keeps ?_
  constructor
  · rintro (start | ⟨html, element, member, script⟩)
    · exact .inl start
    · exact .inr ⟨html, element, List.mem_cons_of_mem cell member, script⟩
  · rintro (start | ⟨html, element, member, script⟩)
    · exact .inl start
    · rcases List.mem_cons.mp member with rfl | member
      · exact (other ⟨html, script⟩).elim
      · exact .inr ⟨html, element, member, script⟩

theorem outputText_eq (keeps : Keeps mode rawout enclosing count) :
    outputText cell count = textOutput cell (Unescaped mode rawout enclosing cell) := by
  have same : (cell.flags &&& xmlFlagNoescape ≠ 0 ∨ count ≠ 0) ↔
      Unescaped mode rawout enclosing cell := by
    rw [Keeps] at keeps
    rw [keeps, Unescaped]
    constructor
    · rintro (flagged | start | script)
      · exact .inr (.inl flagged)
      · exact .inl start
      · exact .inr (.inr script)
    · rintro (start | flagged | script)
      · exact .inr (.inl start)
      · exact .inl flagged
      · exact .inr (.inr script)
  simp only [outputText, textOutput, same]

end Keeping

/-- Each text is written as what encloses it says, and the counter is left as it was. -/
theorem outputNodeRec_shown {mode : OutputMode} {heap : Heap} {p : Ptr} {forest : NodeForest}
    (shown : Shown heap p forest) {rawout : Nat} {enclosing : List XmlNode} {count fuel : Nat}
    (keeps : Keeps mode rawout enclosing count)
    (room : count + counted mode (count ≠ 0) forest < 2 ^ 32) (enough : forest.size ≤ fuel) :
    outputNodeRec mode heap fuel p count =
      some (forestOutput mode rawout enclosing forest, count) := by
  induction shown generalizing enclosing count fuel with
  | nil => cases fuel <;> rfl
  | node i attributes children next tagged inner tail innerHypothesis tailHypothesis =>
      cases fuel with
      | zero =>
          rw [NodeForest.size] at enough
          omega
      | succ fuel =>
          rw [NodeForest.size, List.length_map] at enough
          rw [counted] at room
          have later := tailHypothesis keeps (by omega) (show next.size ≤ fuel by omega)
          -- what is below a node that is not an element of its own
          have below : ¬ IsScript (heap.get i) →
              count + counted mode (count ≠ 0) children < 2 ^ 32 →
              outputNodeRec mode heap fuel (heap.get i).children count =
                some (forestOutput mode rawout (heap.get i :: enclosing) children, count) :=
            fun other room => innerHypothesis (keeps.inside_other fun both => other both.2) room
              (by omega)
          cases type : (heap.get i).type with
          | text =>
              simp only [outputNodeRec, forestOutput, type, outputText_eq keeps, later,
                Option.bind_eq_bind, Option.bind_some]
          | comment =>
              simp only [outputNodeRec, forestOutput, type, later, Option.bind_eq_bind,
                Option.bind_some]
          | pi =>
              simp only [outputNodeRec, forestOutput, type, later, Option.bind_eq_bind,
                Option.bind_some]
          | element =>
              simp only [type] at room
              have listed := outputAttributes_chain tagged (show attributes.length ≤ fuel by omega)
              by_cases empty : mode = .html ∧ isHtmlEmptyTag (heap.get i).name = true
              · simp only [outputNodeRec, forestOutput, type, listed, if_pos empty, later,
                  Option.bind_eq_bind, Option.bind_some]
              · by_cases leaf : children = .nil
                · have childless := inner.ptr_eq_none_iff.mpr leaf
                  simp only [outputNodeRec, forestOutput, type, listed, if_neg empty,
                    if_pos childless, if_pos leaf, Option.bind_eq_bind, Option.bind_some]
                  split <;> simp only [later, Option.bind_some, List.append_assoc]
                · have parent := mt inner.ptr_eq_none_iff.mp leaf
                  rw [if_neg (not_or.mpr ⟨empty, leaf⟩)] at room
                  by_cases raw : count ≠ 0 ∨ mode = .html ∧ (heap.get i).name = some xslSScript
                  · -- the counter goes up, and down again behind the children
                    have script : count ≠ 0 ∨ mode = .html ∧ IsScript (heap.get i) :=
                      raw.imp_right fun both => ⟨both.1, type, both.2⟩
                    have counting : decide (count ≠ 0) = true ∨ mode = .html ∧ IsScript (heap.get i) :=
                      script.imp_left decide_eq_true
                    rw [if_pos counting] at room
                    have up : (count + 1) % 2 ^ 32 = count + 1 := Nat.mod_eq_of_lt (by omega)
                    have inside := innerHypothesis (keeps.inside_script script)
                      (by simp only [Nat.succ_ne_zero, ne_eq, not_false_eq_true, decide_true]; omega)
                      (show children.size ≤ fuel by omega)
                    simp only [outputNodeRec, forestOutput, type, listed, if_neg empty,
                      if_neg parent, if_neg leaf, if_pos raw, up, inside, Nat.add_sub_cancel, later,
                      Option.bind_eq_bind, Option.bind_some, List.append_assoc]
                  · have still : ¬ (decide (count ≠ 0) = true ∨ mode = .html ∧ IsScript (heap.get i)) :=
                      fun counting => raw (counting.imp of_decide_eq_true fun both => ⟨both.1, both.2.2⟩)
                    have zero : count = 0 := not_not.mp fun nonzero => raw (.inl nonzero)
                    rw [if_neg still] at room
                    subst zero
                    have inside := innerHypothesis
                      (keeps.inside_other fun both => raw (.inr ⟨both.1, both.2.2⟩))
                      (by simp only [ne_eq, not_true_eq_false, decide_false]; omega)
                      (show children.size ≤ fuel by omega)
                    simp only [outputNodeRec, forestOutput, type, listed, if_neg empty,
                      if_neg parent, if_neg leaf, if_neg raw, inside, later,
                      Option.bind_eq_bind, Option.bind_some, List.append_assoc,
                      Nat.zero_sub]
          | _ =>
              simp only [type] at room
              have other : ¬ IsScript (heap.get i) := fun script =>
                absurd (type.symm.trans script.1) (by decide)
              simp only [outputNodeRec, forestOutput, type, later, below other (by omega),
                Option.bind_eq_bind, Option.bind_some]

/-- Raw output is scoped: `rawout` is the same afterwards, and a text is
written unescaped iff it was not zero, the node is flagged, or a script
encloses it in HTML, while the counter has room for the elements that are
counted one inside of the other. -/
theorem raw_output_scoped (mode : OutputMode) {heap : Heap} {p : Ptr} {forest : NodeForest}
    (shown : Shown heap p forest) {rawout : Nat}
    (room : rawout + counted mode (rawout ≠ 0) forest < 2 ^ 32) {fuel : Nat}
    (enough : forest.size ≤ fuel) :
    outputNodeRec mode heap fuel p rawout = some (forestOutput mode rawout [] forest, rawout) := by
  refine outputNodeRec_shown shown ?_ room enough
  refine ⟨fun start => .inl (Nat.pos_of_ne_zero start), ?_⟩
  rintro (start | ⟨-, element, member, -⟩)
  · exact Nat.ne_of_gt start
  · cases member

/-- A memory with one element `a` and the text `<` inside. -/
def elementWithText : Heap :=
  Heap.ofList [{ type := .element, name := some (lit "a"), children := some 1 },
    { type := .text, content := some (lit "<"), parent := some 0 }]

def elementWithTextForest : NodeForest :=
  .node (elementWithText.get 0) [] (.node (elementWithText.get 1) [] .nil .nil) .nil

theorem elementWithText_shown : Shown elementWithText (some 0) elementWithTextForest :=
  .node 0 [] _ _ .nil (.node 1 [] _ _ .nil .nil .nil) .nil

/-- Inside of raw output the text is written as it is. -/
theorem raw_output_scoped_text :
    outputNodeRec .xml elementWithText 3 (some 0) 1 =
      some (forestOutput .xml 1 [] elementWithTextForest, 1) :=
  raw_output_scoped .xml elementWithText_shown (by decide) (by decide)

/-- From the largest `unsigned` on the counter wraps round to zero: the text
is escaped, and zero is left. -/
theorem largest_rawout_wraps_round :
    ¬ ∀ (mode : OutputMode) (heap : Heap) (p : Ptr) (forest : NodeForest), Shown heap p forest →
      ∀ rawout < 2 ^ 32, ∀ fuel, forest.size ≤ fuel →
        outputNodeRec mode heap fuel p rawout =
          some (forestOutput mode rawout [] forest, rawout) := by
  intro always
  have claimed := always .xml elementWithText (some 0) _ elementWithText_shown (2 ^ 32 - 1)
    (by decide) 3 (by decide)
  have left : (outputNodeRec .xml elementWithText 3 (some 0) (2 ^ 32 - 1)).map (·.2) = some 0 := by
    decide
  rw [claimed] at left
  exact absurd (Option.some.inj left) (by decide)

end Output
end TurboXSL
