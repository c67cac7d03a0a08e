import TurboXSL.StepLaws

namespace TurboXSL

open Library Parse

/-!
# Leading slashes

The slash in front of a path is kept by the tree only where the first step
gets a node for the place it starts at, that is where it leads to children or
descendants.  A path whose tree ends in the root does not look at the current
node.  In front of any other first step the slash is read and forgotten.
-/

namespace Expr

/-- A path of which no step is compiled to a call. -/
def callFree (tree : Expr) : Bool := tree.spine.all fun head => head.type ≠ .call

/-- A path that starts at the root. -/
def rooted (tree : Expr) : Bool := tree.spine.any fun head => head.type = .root

end Expr

/-- The text of an expression yields the same from every two nodes of a
document. -/
def IgnoresContext (text : Bytes) : Prop :=
  ∀ (Num : Type) [Double Num] (env : Env Num) (depth : Nat) (heap : Heap)
    (inside region : NodeId → Prop) (current other : NodeId), Setting env heap inside region →
    region current → region other → yields env depth text current heap = yields env depth text other heap

/-! ## Paths from the root -/

section Runs

variable {Num : Type} [Double Num] {env : Env Num} {depth : Nat}

/-- The current node makes no difference to an expression. -/
def Indifferent (env : Env Num) (depth : Nat) (tree : Expr) : Prop :=
  ∀ current other heap, xpathExecuteScalar env depth tree current heap =
    xpathExecuteScalar env depth tree other heap

/-- A step behind a path hands the current node on to the path only. -/
theorem Indifferent.follows {head : ExprNode} (follows : Follows head) {before : Expr}
    (some_ : before ≠ .null) (same : Indifferent env depth before) :
    Indifferent env depth (.node head before .null) := by
  intro current other heap
  cases before with
  | null => exact absurd rfl some_
  | node head' children next =>
      change executeNode env (keyEval env depth) head
          (⟨head', xpathExecuteScalar env depth (.node head' children next)⟩ ::
            operandsAt env depth next) current heap =
        executeNode env (keyEval env depth) head
          (⟨head', xpathExecuteScalar env depth (.node head' children next)⟩ ::
            operandsAt env depth next) other heap
      rcases follows with axis | attr | attrAll
      · rw [executeNode_axis env _ axis]
        unfold xpathSelectCommon
        simp only
        rw [same current other heap]
      · unfold executeNode attributeStep
        rw [attr]
        simp only
        rw [same current other heap]
      · unfold executeNode allAttributesStep
        rw [attrAll]
        simp only
        rw [same current other heap]

/-- A predicate sees the nodes that it is asked about only. -/
theorem Indifferent.filter {before predicate filtered : Expr}
    (built : filterStep before predicate = some filtered)
    (alone : Exists fun head => Exists fun children => before = .node head children .null)
    (same : Indifferent env depth before) : Indifferent env depth filtered := by
  intro current other heap
  rcases alone with ⟨head, children, rfl⟩
  cases built
  rw [xpathExecuteScalar_filter, xpathExecuteScalar_filter, same current other heap]

theorem Indifferent.root : Indifferent env depth (.leaf { type := .root }) := fun _ _ _ => rfl

end Runs

/-- The steps that are calls. -/
theorem Step.head_call {step : Step} (valid : step.Valid) :
    step.head.type ≠ .root ∧ (step.head.type ≠ .call → step ≠ .text ∧ step ≠ .node) := by
  have ofAxis : ∀ {axis : Bytes × ExprType}, axis ∈ axes → axis.2 ≠ .root := by decide
  constructor
  · cases step with
    | axis a n => exact ofAxis valid.1
    | axisAll a => exact ofAxis valid
    | named | all | self | parent | attribute_ | attributeAll | text | node => exact nofun
  · intro plain
    constructor
    · rintro rfl
      exact plain rfl
    · rintro rfl
      exact plain rfl

theorem Expr.callFree_node {head : ExprNode} {children next : Expr} :
    (Expr.node head children next).callFree = true ↔ head.type ≠ .call ∧ children.callFree = true := by
  change (decide (head.type ≠ .call) && children.callFree) = true ↔ _
  rw [Bool.and_eq_true, decide_eq_true_eq]

theorem Expr.rooted_node {head : ExprNode} {children next : Expr} (other : head.type ≠ .root) :
    (Expr.node head children next).rooted = children.rooted := by
  change (decide (head.type = .root) || children.rooted) = _
  rw [decide_eq_false other, Bool.false_or]

/-- A filter has the spine of what it filters below it. -/
theorem filterStep_spine {before predicate filtered : Expr}
    (built : filterStep before predicate = some filtered) :
    filtered.callFree = before.callFree ∧ filtered.rooted = before.rooted := by
  cases before with
  | null => cases built
  | node head children next =>
      cases built
      exact ⟨rfl, rfl⟩

/-- A path whose tree ends in the root does not look at the current node. -/
theorem Path.indifferent {Num : Type} [Double Num] (env : Env Num) (depth : Nat) {text : Bytes}
    {tree : Expr} (path : Path text tree) (plain : tree.callFree = true) (rooted : tree.rooted = true) :
    Indifferent env depth tree := by
  have attach : ∀ {step : Step} {before : Expr}, step.Valid → before ≠ .null →
      (step.attach before).callFree = true → Indifferent env depth before →
      Indifferent env depth (step.attach before) := by
    intro step before valid some_ plain same
    have placed := (Step.head_call valid).2 (Expr.callFree_node.mp plain).1
    exact same.follows (step.follows valid placed) some_
  have deeper : ∀ {before : Expr}, before ≠ .null → Indifferent env depth before →
      Indifferent env depth (descendantStep before) := fun some_ same =>
    same.follows (.inl rfl) some_
  induction path with
  | first step valid slashed =>
      have other := (Step.head_call valid).1
      unfold Step.first at plain rooted ⊢
      cases anchors : step.anchors with
      | false =>
          rw [anchors] at rooted
          have impossible := (Expr.rooted_node other).symm.trans rooted
          cases impossible
      | true =>
          rw [anchors] at plain rooted
          rw [if_pos rfl] at plain rooted ⊢
          cases slashed with
          | false => cases (Expr.rooted_node other).symm.trans rooted
          | true => exact attach valid nofun plain .root
  | firstDeep step valid _ => exact attach valid nofun plain (deeper nofun .root)
  | firstDeepAll => exact deeper nofun .root
  | step path step valid inductionHypothesis =>
      have below := inductionHypothesis (Expr.callFree_node.mp plain).2
        ((Expr.rooted_node (Step.head_call valid).1).symm.trans rooted)
      rcases path.alone with ⟨_, _, rfl⟩
      exact attach valid nofun plain below
  | deep path step valid _ inductionHypothesis =>
      have deepPlain := (Expr.callFree_node.mp plain).2
      have deepRooted := (Expr.rooted_node (Step.head_call valid).1).symm.trans rooted
      have below := inductionHypothesis (Expr.callFree_node.mp deepPlain).2
        ((Expr.rooted_node (by decide)).symm.trans deepRooted)
      rcases path.alone with ⟨_, _, rfl⟩
      exact attach valid nofun plain (deeper nofun below)
  | deepAll path inductionHypothesis =>
      have below := inductionHypothesis (Expr.callFree_node.mp plain).2
        ((Expr.rooted_node (by decide)).symm.trans rooted)
      rcases path.alone with ⟨_, _, rfl⟩
      exact deeper nofun below
  | filter path _ built inductionHypothesis =>
      have spine := filterStep_spine built
      have below := inductionHypothesis (spine.1 ▸ plain) (spine.2 ▸ rooted)
      exact below.filter built path.alone

/-! ## Forgotten slashes -/

/-- A path that begins with a slash and does not start at the root is the path
without the slash. -/
theorem Path.forgets_slash {text : Bytes} {tree : Expr} (path : Path text tree)
    (plain : tree.callFree = true) (absolute : byteAt text = '/'.toUInt8)
    (relative : tree.rooted = false) : Exists fun rest => text = slash ++ rest ∧ Path rest tree := by
  induction path with
  | first step valid slashed =>
      cases slashed with
      | false =>
          have begins := (Step.begins valid []).2.2.2.2.1
          rw [List.append_nil] at begins
          exact absurd absolute begins
      | true =>
          refine ⟨step.spelling, rfl, ?_⟩
          have other := (Step.head_call valid).1
          have still : step.first true = step.first false := by
            unfold Step.first at relative ⊢
            cases anchors : step.anchors with
            | false => rfl
            | true =>
                rw [anchors, if_pos rfl] at relative
                cases (Expr.rooted_node other).symm.trans relative
          rw [still]
          exact .first step valid false
  | firstDeep step valid _ =>
      have below := (Expr.rooted_node (Step.head_call valid).1).symm.trans relative
      cases below
  | firstDeepAll => cases relative
  | step path step valid inductionHypothesis =>
      rw [List.append_assoc, byteAt_append path.ne_nil] at absolute
      rcases inductionHypothesis (Expr.callFree_node.mp plain).2 absolute
        ((Expr.rooted_node (Step.head_call valid).1).symm.trans relative) with ⟨rest, rfl, without⟩
      exact ⟨rest ++ slash ++ step.spelling, by simp only [List.append_assoc], .step without step valid⟩
  | deep path step valid notAll inductionHypothesis =>
      rw [List.append_assoc, List.append_assoc, byteAt_append path.ne_nil] at absolute
      have deepRelative := (Expr.rooted_node (Step.head_call valid).1).symm.trans relative
      have deepPlain := (Expr.callFree_node.mp plain).2
      rcases inductionHypothesis (Expr.callFree_node.mp deepPlain).2 absolute
        ((Expr.rooted_node (by decide)).symm.trans deepRelative) with ⟨rest, rfl, without⟩
      exact ⟨rest ++ slash ++ slash ++ step.spelling, by simp only [List.append_assoc],
        .deep without step valid notAll⟩
  | deepAll path inductionHypothesis =>
      rw [byteAt_append path.ne_nil] at absolute
      rcases inductionHypothesis (Expr.callFree_node.mp plain).2 absolute
        ((Expr.rooted_node (by decide)).symm.trans relative) with ⟨rest, rfl, without⟩
      exact ⟨rest ++ lit "//*", by simp only [List.append_assoc], .deepAll without⟩
  | filter path reads built inductionHypothesis =>
      rw [List.append_assoc, byteAt_append path.ne_nil] at absolute
      have spine := filterStep_spine built
      rcases inductionHypothesis (spine.1 ▸ plain) absolute (spine.2 ▸ relative) with
        ⟨rest, rfl, without⟩
      exact ⟨_, List.append_assoc _ _ _ |>.symm ▸ rfl, .filter without reads built⟩

/-! ## Which slashes count -/

/-- The steps without a name, but for `attribute::*`, which finds nothing. -/
def Step.Nameless : Step → Prop
  | .all | .self | .parent | .attributeAll => True
  | .axisAll a => a ∈ axes ∧ a.2 ≠ .attr
  | _ => False

/-- Two elements in a row, below an element with an attribute. -/
def twoInRow : Bytes := lit "<r i=\"\"><a/><b/></r>"

theorem twoInRow_setting :
    Setting (Env.bare Int 0) (memoryAfter 60 twoInRow) (Made 0 (memoryAfter 60 twoInRow))
      (From 0 (memoryAfter 60 twoInRow)) := by
  have parsed : DoParse .empty twoInRow (some 0) (memoryAfter 60 twoInRow) := ⟨60, rfl⟩
  have root : Made 0 (memoryAfter 60 twoInRow) 0 := by
    refine ⟨Nat.le_refl 0, ?_, ?_⟩ <;> decide
  exact (DoParse.region parsed).setting (.refl _) root nofun

/-- What a text yields in this document. -/
def inRow (text : Bytes) (current : NodeId) : Option (List Item) :=
  yields (Env.bare Int 0) 0 text current (memoryAfter 60 twoInRow)

theorem not_ignoresContext {text : Bytes} {current other : NodeId}
    (small : current < 5 ∧ other < 5) (different : inRow text current ≠ inRow text other) :
    ¬ IgnoresContext text := by
  intro same
  have size : (memoryAfter 60 twoInRow).size = 5 := by decide
  apply different
  exact same Int (Env.bare Int 0) 0 _ _ _ current other twoInRow_setting
    ⟨Nat.zero_le _, size ▸ small.1⟩ ⟨Nat.zero_le _, size ▸ small.2⟩

/-- The other steps see the current node through a slash. -/
theorem Step.sees_context {step : Step} (nameless : step.Nameless) (loose : step.anchors = false) :
    ¬ IgnoresContext (slash ++ step.spelling) := by
  cases step with
  | all | self | parent | attributeAll =>
      exact @not_ignoresContext _ 1 3 (by decide) (by decide)
  | axisAll a =>
      have known := nameless.1
      simp only [axes, List.mem_cons, List.not_mem_nil, or_false] at known
      rcases known with rfl | rfl | rfl | rfl | rfl | rfl | rfl | rfl | rfl | rfl | rfl | rfl
      · cases loose
      · cases loose
      · exact absurd rfl nameless.2
      · exact @not_ignoresContext _ 1 3 (by decide) (by decide)
      · exact @not_ignoresContext _ 1 3 (by decide) (by decide)
      · exact @not_ignoresContext _ 1 3 (by decide) (by decide)
      · exact @not_ignoresContext _ 1 3 (by decide) (by decide)
      · exact @not_ignoresContext _ 1 3 (by decide) (by decide)
      · exact @not_ignoresContext _ 1 3 (by decide) (by decide)
      · exact @not_ignoresContext _ 3 4 (by decide) (by decide)
      · exact @not_ignoresContext _ 3 4 (by decide) (by decide)
      · exact @not_ignoresContext _ 1 3 (by decide) (by decide)
  | named | axis | attribute_ | text | node => exact nameless.elim

theorem Step.rooted_first {step : Step} (valid : step.Valid) :
    (step.first true).rooted = step.anchors := by
  have other := (Step.head_call valid).1
  unfold Step.first
  cases step.anchors with
  | false => exact Expr.rooted_node other
  | true => exact Expr.rooted_node other

/-- A path that begins with a slash yields the same from every node of a
document where its tree ends in the root; elsewhere the slash does not count.
Of the steps without a name, a slash in front of them counts for those only
that lead to children or descendants. -/
theorem absolute_ignoresContext {text : Bytes} {tree : Expr} (path : Path text tree)
    (plain : tree.callFree = true) (absolute : byteAt text = '/'.toUInt8) :
    (tree.rooted = true → IgnoresContext text) ∧
      (tree.rooted = false → Exists fun rest => text = slash ++ rest ∧ Path rest tree) ∧
      ∀ step : Step, step.Nameless → text = slash ++ step.spelling →
        (IgnoresContext text ↔ tree.rooted = true) := by
  have holds : tree.rooted = true → IgnoresContext text := by
    intro rooted Num _ env depth heap inside region current other _ _ _
    rw [yields_eq path, yields_eq path]
    unfold itemsOf
    rw [path.indifferent env depth plain rooted current other heap]
  refine ⟨holds, path.forgets_slash plain absolute, ?_⟩
  intro step nameless spelled
  refine ⟨?_, holds⟩
  intro ignores
  have valid : step.Valid := by
    cases step with
    | axisAll a => exact nameless.1
    | all | self | parent | attributeAll => trivial
    | named | axis | attribute_ | text | node => exact nameless.elim
  have alone : Path (slash ++ step.spelling) (step.first true) := .first step valid true
  have same : tree = step.first true := by
    have compiled := path.compile
    rw [spelled, alone.compile] at compiled
    exact (Option.some.inj compiled).symm
  rw [same, Step.rooted_first valid]
  cases loose : step.anchors with
  | true => rfl
  | false => exact absurd (spelled ▸ ignores) (Step.sees_context nameless loose)

/-- `//*` is the same everywhere. -/
theorem absolute_ignoresContext_deepAll : IgnoresContext (lit "//*") :=
  (absolute_ignoresContext .firstDeepAll (by decide) (by decide)).1 (by decide)

/-- `/*` yields the children of the current node, whichever it is. -/
theorem star_sees_context : Exists fun heap =>
    DoParse .empty twoInRow (some 0) heap ∧ Path (lit "/*") (Step.all.first true) ∧
      yields (Env.bare Int 0) 0 (lit "/*") 0 heap = some [.node 1] ∧
      yields (Env.bare Int 0) 0 (lit "/*") 1 heap = some [.node 3, .node 4] ∧
      ¬ IgnoresContext (lit "/*") :=
  ⟨memoryAfter 60 twoInRow, ⟨60, rfl⟩, .first .all trivial true, by decide, by decide,
    @not_ignoresContext _ 1 3 (by decide) (by decide)⟩

end TurboXSL
