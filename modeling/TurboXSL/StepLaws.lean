import TurboXSL.DocumentRegions
import TurboXSL.PathRuns

namespace TurboXSL

open Library Parse

/-!
# Composing steps

What a path of several steps yields, in terms of its steps.  A step that is
compiled to a node with its own walk is taken from each member of the path
before it.  `text()` and `node()` are compiled to calls, which find the current
node instead.
-/

section Texts

variable {Num : Type} [Double Num] (env : Env Num) (depth : Nat)

/-- What the text of an expression yields. -/
def yields (text : Bytes) (current : NodeId) (heap : Heap) : Option (List Item) := do
  itemsOf env depth (← xpathCompile text) current heap

/-- The members of the node-set that the text of an expression yields, in the
memory behind it. -/
def memberNodes (text : Bytes) (current : NodeId) (heap : Heap) : Option (List NodeId × Heap) := do
  let (value, after) ← xpathExecuteScalar env depth (← xpathCompile text) current heap
  some (← members value after, after)

/-- A step behind a path yields, one behind the other, what it yields alone
from each member of the path. -/
def Composes (text : Bytes) (step : Step) (current : NodeId) (heap : Heap) : Prop :=
  yields env depth (text ++ slash ++ step.spelling) current heap =
    (memberNodes env depth text current heap).bind fun found =>
      (found.1.mapM fun m => yields env depth step.spelling m found.2).map List.flatten

/-- The same, with the nodes of the document that the members stand for. -/
def ComposesInDocument (text : Bytes) (step : Step) (current : NodeId) (heap : Heap) : Prop :=
  yields env depth (text ++ slash ++ step.spelling) current heap =
    (memberNodes env depth text current heap).bind fun found =>
      (found.1.mapM fun m => yields env depth step.spelling (origin found.2 m) found.2).map
        List.flatten

end Texts

/-- Behind every path, in every document and from every node of it. -/
def AlwaysComposes (step : Step) : Prop :=
  ∀ (Num : Type) [Double Num] (env : Env Num) (depth : Nat) (text : Bytes) (tree : Expr)
    (heap : Heap) (inside region : NodeId → Prop) (current : NodeId),
    Path text tree → Setting env heap inside region → region current →
    Composes env depth text step current heap

def AlwaysComposesInDocument (step : Step) : Prop :=
  ∀ (Num : Type) [Double Num] (env : Env Num) (depth : Nat) (text : Bytes) (tree : Expr)
    (heap : Heap) (inside region : NodeId → Prop) (current : NodeId),
    Path text tree → Setting env heap inside region → region current →
    ComposesInDocument env depth text step current heap

section Evaluation

variable {Num : Type} [Double Num] {env : Env Num} {depth : Nat} {heap : Heap}
  {inside region : NodeId → Prop}

/-- The items of an evaluation that meets them. -/
theorem Meets.itemsOf {tree : Expr} {current : NodeId} {items : Option (List Item)}
    (meets : Meets env inside region (xpathExecuteScalar env depth tree current heap) items) :
    itemsOf env depth tree current heap = items := by
  unfold TurboXSL.itemsOf
  cases items with
  | none =>
      rw [show xpathExecuteScalar env depth tree current heap = none from meets]
      rfl
  | some items =>
      rcases meets with ⟨value, after, grown, nodes, done, found, listed⟩
      rw [done]
      simp only [Option.bind_eq_bind, Option.bind_some]
      rw [found.listed]
      exact congrArg some listed

theorem yields_eq {text : Bytes} {tree : Expr} (path : Path text tree) (current : NodeId) :
    yields env depth text current heap = itemsOf env depth tree current heap := by
  unfold yields
  rw [path.compile]
  rfl

theorem mapM_congr {First Second : Type} {f g : First → Option Second} {list : List First}
    (same : ∀ a ∈ list, f a = g a) : list.mapM f = list.mapM g := by
  induction list with
  | nil => rfl
  | cons head rest inductionHypothesis =>
      rw [List.mapM_cons, List.mapM_cons, same head List.mem_cons_self,
        inductionHypothesis fun a at_ => same a (List.mem_cons_of_mem _ at_)]

/-- The members of a path, in a region. -/
theorem memberNodes_found {text : Bytes} {tree : Expr} (path : Path text tree)
    (setting : Setting env heap inside region) {current : NodeId} (member : region current)
    {nodes : List NodeId} {middle : Heap}
    (found : memberNodes env depth text current heap = some (nodes, middle)) :
    Exists fun value => Exists fun grown =>
      xpathExecuteScalar env depth tree current heap = some (value, middle) ∧
      Found env middle inside region grown value nodes := by
  unfold memberNodes at found
  rw [path.compile, Option.bind_eq_bind, Option.bind_some] at found
  rcases Option.bind_eq_some_iff.mp found with ⟨⟨value, after⟩, begun, found⟩
  rcases Option.bind_eq_some_iff.mp found with ⟨nodes', listed, done⟩
  cases done
  rcases (path.stays env depth).found setting member begun with ⟨grown, nodes'', found⟩
  rw [found.listed] at listed
  cases listed
  exact ⟨value, grown, begun, found⟩

/-- What a step alone yields. -/
theorem yields_step {step : Step} (valid : step.Valid) (placed : step ≠ .text ∧ step ≠ .node)
    (setting : Setting env heap inside region) {current : NodeId} (member : region current) :
    yields env depth step.spelling current heap = stepItems step.head heap current := by
  have alone : Path step.spelling (step.first false) := .first step valid false
  have first := @Setting.firstStep Num _ env depth heap inside region setting current step valid placed
    false member
  rw [yields_eq alone, first.itemsOf]
  unfold Step.startsAt
  rw [Bool.and_false]
  rfl

/-- What a step behind a path yields. -/
theorem yields_over {text : Bytes} {tree : Expr} (path : Path text tree) {step : Step}
    (valid : step.Valid) (placed : step ≠ .text ∧ step ≠ .node)
    (setting : Setting env heap inside region) {current : NodeId} (member : region current) :
    yields env depth (text ++ slash ++ step.spelling) current heap =
      (memberNodes env depth text current heap).bind fun found =>
        (found.1.mapM fun m => stepItems step.head found.2 m).map List.flatten := by
  have follows := step.follows valid placed
  rcases path.alone with ⟨head, children, rfl⟩
  have some_ : Expr.node head children .null ≠ .null := nofun
  rw [yields_eq (path.step step valid)]
  cases begun : xpathExecuteScalar env depth (.node head children .null) current heap with
  | none =>
      have stuck := stepOver_none follows some_ begun
      unfold itemsOf Step.attach memberNodes
      rw [stuck, path.compile]
      simp only [Option.bind_eq_bind, Option.bind_some]
      rw [begun]
      rfl
  | some result =>
      rcases result with ⟨value, middle⟩
      rcases (path.stays env depth).found setting member begun with ⟨grown, nodes, found⟩
      have further := (found.stepOver follows begun some_).itemsOf
      have members : memberNodes env depth text current heap = some (nodes, middle) := by
        unfold memberNodes
        rw [path.compile, Option.bind_eq_bind, Option.bind_some, begun]
        simp only [Option.bind_eq_bind, Option.bind_some]
        rw [found.listed]
        rfl
      unfold Step.attach
      rw [further, members]
      rfl

/-- A step that follows the node-set before it composes. -/
theorem composes_of_follows {text : Bytes} {tree : Expr} (path : Path text tree) {step : Step}
    (valid : step.Valid) (placed : step ≠ .text ∧ step ≠ .node)
    (setting : Setting env heap inside region) {current : NodeId} (member : region current) :
    Composes env depth text step current heap := by
  unfold Composes
  rw [yields_over path valid placed setting member]
  cases members : memberNodes env depth text current heap with
  | none => rfl
  | some found =>
      rcases memberNodes_found path setting member members with ⟨value, grown, _, inGrown⟩
      apply congrArg (Option.map List.flatten)
      apply mapM_congr
      intro m at_
      exact (yields_step valid placed inGrown.setting (inGrown.inRegion m at_)).symm

end Evaluation

/-- Steps that follow no sibling links give a copy what they give the node of
the document. -/
theorem Region.stepItems_origin {heap : Heap} {inside region : NodeId → Prop}
    (closed : Region heap inside region) {head : ExprNode} (plain : ¬ BesideAxis head.type)
    {n : NodeId} (member : region n) :
    stepItems head heap n = stepItems head heap (origin heap n) := by
  rcases closed.image member with ⟨image, known, _⟩
  have same : item heap n = item heap (origin heap n) := by
    have last : origin heap (origin heap n) = origin heap n :=
      CopyChain.document.origin_eq (closed.origin_plain member)
    unfold item
    rw [image.type, image.name, image.content, last]
  have self : ∀ kind, (numbered (getSelf heap n kind)).map (fun s => item heap s.1) =
      (numbered (getSelf heap (origin heap n) kind)).map fun s => item heap s.1 := by
    intro kind
    unfold getSelf
    rw [image.passes kind]
    split
    · exact congrArg (fun item => [item]) same
    · rfl
  have value : ∀ fuel, xmlGetAttr heap head.name (fuel + 1) n =
      xmlGetAttr heap head.name (fuel + 1) (origin heap n) := by
    intro fuel
    unfold xmlGetAttr
    rw [image.type, image.children, image.attributes]
  unfold stepItems
  split
  · rw [value]
  · rw [image.attributes]
  · unfold axisNodes properAncestors
    cases axis : head.type
    case precedingSibling => exact absurd (.inl axis) plain
    case preceding => exact absurd (.inr (.inl axis)) plain
    case followingSibling => exact absurd (.inr (.inr (.inl axis))) plain
    case following => exact absurd (.inr (.inr (.inr axis))) plain
    case self =>
        simp only [Option.map_some]
        rw [self]
    case descendantOrSelf =>
        simp only [image.children]
        cases addAllChildren heap head.kind heap.size (heap.get (origin heap n)).children with
        | none => rfl
        | some below =>
            simp only [Option.bind_eq_bind, Option.bind_some, Option.map_some]
            rw [List.map_append, List.map_append, self]
    case ancestorOrSelf =>
        simp only [image.parent]
        cases follow (fun node => (heap.get node).parent) heap.size
            (heap.get (origin heap n)).parent with
        | none => rfl
        | some above =>
            simp only [Option.bind_eq_bind, Option.bind_some, Option.map_some]
            rw [List.map_append, List.map_append, self]
    all_goals simp only [image.children, image.parent]

/-- A step that follows neither sibling links nor is a call composes in the
document as well. -/
theorem composesInDocument_of_follows {Num : Type} [Double Num] {env : Env Num} {depth : Nat}
    {heap : Heap} {inside region : NodeId → Prop} {text : Bytes} {tree : Expr}
    (path : Path text tree) {step : Step} (valid : step.Valid)
    (placed : step ≠ .text ∧ step ≠ .node) (plain : ¬ BesideAxis step.head.type)
    (setting : Setting env heap inside region) {current : NodeId} (member : region current) :
    ComposesInDocument env depth text step current heap := by
  unfold ComposesInDocument
  rw [yields_over path valid placed setting member]
  cases members : memberNodes env depth text current heap with
  | none => rfl
  | some found =>
      rcases memberNodes_found path setting member members with ⟨value, grown, _, inGrown⟩
      apply congrArg (Option.map List.flatten)
      apply mapM_congr
      intro m at_
      have closed := inGrown.setting.closed
      have known := inGrown.inRegion m at_
      rw [yields_step valid placed inGrown.setting (closed.image known).2.1]
      exact closed.stepItems_origin plain known

/-- An element with character data below the document element, which has some
itself. -/
def nestedText : Bytes := lit "<r>y<a>x</a></r>"

theorem nestedText_setting :
    Setting (Env.bare Int 0) (memoryAfter 60 nestedText) (Made 0 (memoryAfter 60 nestedText))
      (From 0 (memoryAfter 60 nestedText)) := by
  have parsed : DoParse .empty nestedText (some 0) (memoryAfter 60 nestedText) := ⟨60, rfl⟩
  have root : Made 0 (memoryAfter 60 nestedText) 0 := by
    refine ⟨Nat.le_refl 0, ?_, ?_⟩ <;> decide
  exact (DoParse.region parsed).setting (.refl _) root nofun

theorem path_a : Path (lit "a") (Step.first (.named (lit "a")) false) :=
  .first (.named (lit "a")) ⟨by decide, forall_bytes (by decide), by decide⟩ false

/-- What a step yields behind `a`, and what it should yield there. -/
def behindA (step : Step) : Option (List Item) × Option (List Item) :=
  (yields (Env.bare Int 0) 0 (lit "a" ++ slash ++ step.spelling) 1 (memoryAfter 60 nestedText),
    (memberNodes (Env.bare Int 0) 0 (lit "a") 1 (memoryAfter 60 nestedText)).bind fun found =>
      (found.1.mapM fun m => yields (Env.bare Int 0) 0 step.spelling m found.2).map List.flatten)

theorem not_always_composes {step : Step} (different : (behindA step).1 ≠ (behindA step).2) :
    ¬ AlwaysComposes step := by
  intro always
  apply different
  exact always Int (Env.bare Int 0) 0 _ _ _ _ _ 1 path_a nestedText_setting ⟨Nat.zero_le 1, by decide⟩

/-- The steps that compose are all but `text()` and `node()`; with the nodes of
the document in place of the members, this is shown of those that follow no
sibling links. -/
theorem always_composes_iff (step : Step) (valid : step.Valid) :
    (AlwaysComposes step ↔ step ≠ .text ∧ step ≠ .node) ∧
      (step ≠ .text ∧ step ≠ .node → ¬ BesideAxis step.head.type →
        AlwaysComposesInDocument step) := by
  refine ⟨⟨?_, ?_⟩, ?_⟩
  · intro always
    constructor
    · rintro rfl
      exact not_always_composes (by decide) always
    · rintro rfl
      exact not_always_composes (by decide) always
  · intro placed Num _ env depth text tree heap inside region current path setting member
    exact composes_of_follows path valid placed setting member
  · intro placed plain Num _ env depth text tree heap inside region current path setting member
    exact composesInDocument_of_follows path valid placed plain setting member

theorem always_composes_iff_parent : AlwaysComposes .parent ∧ AlwaysComposesInDocument .parent := by
  have placed : Step.parent ≠ .text ∧ Step.parent ≠ .node := ⟨nofun, nofun⟩
  have plain : ¬ BesideAxis Step.parent.head.type := by
    unfold BesideAxis
    decide
  have both := always_composes_iff .parent trivial
  exact ⟨both.1.mpr placed, both.2 placed plain⟩

/-- `a/text()` yields the character data beside `a`, not that in it. -/
theorem text_ignores_its_path : Exists fun heap =>
    DoParse .empty nestedText (some 0) heap ∧
      yields (Env.bare Int 0) 0 (lit "a/text()") 1 heap = some [.node 2] ∧
      (memberNodes (Env.bare Int 0) 0 (lit "a") 1 heap).bind (fun found =>
        (found.1.mapM fun m => yields (Env.bare Int 0) 0 (lit "text()") m found.2).map List.flatten) =
          some [.node 4] ∧
      ¬ AlwaysComposes .text :=
  ⟨memoryAfter 60 nestedText, ⟨60, rfl⟩, by decide, by decide, not_always_composes (by decide)⟩

end TurboXSL
