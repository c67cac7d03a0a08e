import TurboXSL.Node
import TurboXSL.Library.LinkedForest

namespace TurboXSL

open Library

/-!
# Documents in memory

`Linked` is what the walks over a document rely on: the nodes of the document
are a linked forest in the sense of the library, character data has no
children, and every list of attributes ends.  It only reads the nodes of the
document, so it survives whatever is allocated behind them.
-/

/-- The links of a memory of nodes. -/
def Heap.links (heap : Heap) : Links where
  children := fun n => (heap.get n).children
  next := fun n => (heap.get n).next
  prev := fun n => (heap.get n).prev
  parent := fun n => (heap.get n).parent

/-- The nodes for which `inside` holds are documents: their roots, elements
and character data. -/
structure Linked (heap : Heap) (inside : NodeId → Prop) : Prop where
  forest : LinkedForest heap.links heap.size inside
  typed : ∀ {n}, inside n →
    (heap.get n).type = .empty ∨ (heap.get n).type = .element ∨ (heap.get n).type = .text
  outermost : ∀ {n}, inside n → (heap.get n).type = .empty → (heap.get n).parent = none
  leaf : ∀ {n}, inside n → (heap.get n).type = .text → (heap.get n).children = none
  plain : ∀ {n}, inside n → (heap.get n).original = none
  holder : ∀ {n owner}, inside n → (heap.get n).parent = some owner →
    (heap.get owner).type ≠ .text
  attributes : ∀ {n}, inside n →
    Exists fun attrs => Siblings heap (heap.get n).attributes attrs ∧
      ∀ attr ∈ attrs, attr < heap.size ∧ (heap.get attr).type = .attribute

namespace Linked

variable {heap : Heap} {inside : NodeId → Prop} (linked : Linked heap inside)

include linked

/-- The links of the document's own nodes are all that matters. -/
theorem congr {other : Heap} (grows : heap.size ≤ other.size)
    (type : ∀ {n}, inside n → (other.get n).type = (heap.get n).type)
    (children : ∀ {n}, inside n → (other.get n).children = (heap.get n).children)
    (next : ∀ {n}, inside n → (other.get n).next = (heap.get n).next)
    (prev : ∀ {n}, inside n → (other.get n).prev = (heap.get n).prev)
    (parent : ∀ {n}, inside n → (other.get n).parent = (heap.get n).parent)
    (original : ∀ {n}, inside n → (other.get n).original = (heap.get n).original)
    (attributes : ∀ {n}, inside n → Exists fun attrs => Siblings other (other.get n).attributes attrs ∧
      ∀ attr ∈ attrs, attr < other.size ∧ (other.get attr).type = .attribute) :
    Linked other inside where
  forest := linked.forest.congr grows children next prev parent
  typed := by
    intro n member
    rw [type member]
    exact linked.typed member
  outermost := by
    intro n member empty
    rw [type member] at empty
    rw [parent member]
    exact linked.outermost member empty
  leaf := by
    intro n member text
    rw [type member] at text
    rw [children member]
    exact linked.leaf member text
  plain := by
    intro n member
    rw [original member]
    exact linked.plain member
  holder := by
    intro n owner member above
    rw [parent member] at above
    rw [type (linked.forest.up member above).1]
    exact linked.holder member above
  attributes := attributes

/-- What is allocated later does not concern the document. -/
theorem extend {after : Heap} (extended : heap.Extends after) : Linked after inside := by
  have same : ∀ {n}, inside n → after.get n = heap.get n := fun member =>
    extended.same _ (linked.forest.bound member)
  refine linked.congr extended.grows ?_ ?_ ?_ ?_ ?_ ?_ ?_
  · exact fun member => congrArg XmlNode.type (same member)
  · exact fun member => congrArg XmlNode.children (same member)
  · exact fun member => congrArg XmlNode.next (same member)
  · exact fun member => congrArg XmlNode.prev (same member)
  · exact fun member => congrArg XmlNode.parent (same member)
  · exact fun member => congrArg XmlNode.original (same member)
  · intro n member
    rcases linked.attributes member with ⟨attrs, chain, members⟩
    refine ⟨attrs, ?_, ?_⟩
    · rw [same member]
      refine chain.congr fun attr at_ => ?_
      rw [extended.same attr (members attr at_).1]
    · intro attr at_
      rw [extended.same attr (members attr at_).1]
      exact ⟨Nat.lt_of_lt_of_le (members attr at_).1 extended.grows, (members attr at_).2⟩

/-- Only roots and elements have children. -/
theorem owner_type {owner n : NodeId} (member : inside owner) (child : Child heap.links owner n) :
    (heap.get owner).type = .empty ∨ (heap.get owner).type = .element := by
  rcases linked.typed member with empty | element | text
  · exact .inl empty
  · exact .inr element
  · have inner := linked.forest.inside_child member child
    exact absurd text (linked.holder inner child.parent)

/-- Children are elements and character data. -/
theorem child_type {owner n : NodeId} (member : inside owner) (child : Child heap.links owner n) :
    (heap.get n).type = .element ∨ (heap.get n).type = .text := by
  have inner := linked.forest.inside_child member child
  rcases linked.typed inner with empty | rest
  · have parent : (heap.get n).parent = some owner := child.parent
    rw [linked.outermost inner empty] at parent
    cases parent
  · exact rest

/-- The row of children, from the pointer to the first. -/
theorem row {owner : NodeId} (member : inside owner) : Exists fun row =>
    Row heap.links owner none (heap.get owner).children row ∧ ∀ n ∈ row, inside n :=
  linked.forest.row member

/-- The children of a node as the evaluator walks them. -/
theorem siblings_children {owner : NodeId} (member : inside owner) :
    Exists fun row => Children heap.links owner row ∧
      siblings heap (heap.get owner).children = some row := by
  rcases linked.forest.row member with ⟨row, children, members⟩
  refine ⟨row, children, follow_eq_some_iff.mpr ⟨children.chain, ?_⟩⟩
  exact linked.forest.length_le children.chain.nodup members

end Linked

end TurboXSL
