import Mathlib.Data.List.Perm.Subperm
import TurboXSL.TemplateRegistry

namespace TurboXSL

open Library

/-!
# The template selected matches

The search asks `select_match` for the templates of the list only.  A
template from the trie is taken because names along its path agree with the
names from the node upwards, and this says that the node satisfies the
pattern when the path holds all of the pattern: steps by name, and at most
the root above them.  The classification at registration looks at the
outermost step alone, so other patterns reach the trie too.
-/

/-- The nodes from a node of a document upwards, below the root.  What stands
above another node is an element; elements have names, and `/` is none. -/
structure Lineage (heap : Heap) (root node : NodeId) (line : List NodeId) : Prop where
  chain : Chain (fun n => (heap.get n).parent) (some node) (line ++ [root])
  inside : ∀ n ∈ line ++ [root], n < heap.size
  rootType : (heap.get root).type ≠ .element
  elements : ∀ n ∈ line.tail, (heap.get n).type = .element
  named : ∀ n ∈ line, (heap.get n).type = .element →
    Exists fun name => (heap.get n).name = some name ∧ name ≠ xslSSlash

/-- Inner steps that the trie holds completely.  They may end in NULL where
the pattern is malformed, if `torn` allows it. -/
def plainSteps (torn : Bool) : Expr → Bool
  | .null => torn
  | .node head children _ =>
      match head.type with
      | .select => head.name ≠ some xslSSlash && plainSteps torn children
      | .context | .root => children = .null
      | _ => false

/-- The trie holds all of the pattern: steps by name up to the context or the
root, none of them with the name `/` under which the trie keeps the root. -/
def plainPath (torn : Bool) : Expr → Bool
  | .null => true
  | .node head children next =>
      head.type = .select && plainSteps torn (.node head children next)

/-- A pattern that registration can keep as it is: if it goes into the trie,
the trie holds all of it, and the dictionary of expressions keeps it apart. -/
def Represented (pattern : Bytes) : Prop :=
  Short pattern ∧ (Direct pattern → plainPath true (patternExpr pattern))

/-! ## The walk upwards -/

namespace Lineage

variable {heap : Heap} {root node : NodeId} {line : List NodeId}
  (lineage : Lineage heap root node line)

include lineage

theorem follow : Library.follow (fun n => (heap.get n).parent) heap.size (some node) =
    some (line ++ [root]) := by
  have within : line ++ [root] ⊆ List.range heap.size := by
    intro n member
    exact List.mem_range.mpr (lineage.inside n member)
  have short := (List.Nodup.subperm lineage.chain.nodup within).length_le
  rw [List.length_range] at short
  exact follow_eq_some_iff.mpr ⟨lineage.chain, short⟩

/-- A node below the root is the first of its line. -/
theorem eq_cons (below : node ≠ root) : Exists fun rest => line = node :: rest := by
  have chain := lineage.chain
  cases line with
  | nil =>
      cases chain
      exact absurd rfl below
  | cons first rest =>
      cases chain
      exact ⟨rest, rfl⟩

theorem parent {rest : List NodeId} (same : line = node :: rest) :
    Exists fun above => (heap.get node).parent = some above ∧ Lineage heap root above rest ∧
      (above = root ∨ (heap.get above).type = .element) := by
  subst same
  have chain := lineage.chain
  rw [List.cons_append] at chain
  cases chain with
  | cons _ _ tail =>
      cases rest with
      | nil =>
          refine ⟨root, ?_, ⟨?_, ?_, lineage.rootType, ?_, ?_⟩, .inl rfl⟩
          · cases found : (heap.get node).parent with
            | none =>
                rw [found] at tail
                cases tail
            | some above =>
                rw [found] at tail
                cases tail
                rfl
          · cases found : (heap.get node).parent with
            | none =>
                rw [found] at tail
                cases tail
            | some above =>
                rw [found] at tail
                cases tail with
                | cons _ _ last => exact .cons root [] last
          · intro n member
            exact lineage.inside n (List.mem_cons_of_mem _ member)
          · intro n member
            cases member
          · intro n member
            cases member
      | cons above others =>
          cases found : (heap.get node).parent with
          | none =>
              rw [found] at tail
              cases tail
          | some first =>
              rw [found, List.cons_append] at tail
              have same : first = above := by
                cases tail
                rfl
              subst same
              refine ⟨first, rfl, ⟨tail, ?_, lineage.rootType, ?_, ?_⟩, .inr ?_⟩
              · intro n member
                exact lineage.inside n (List.mem_cons_of_mem _ member)
              · intro n member
                exact lineage.elements n (List.mem_cons_of_mem _ member)
              · intro n member
                exact lineage.named n (List.mem_cons_of_mem _ member)
              · exact lineage.elements first List.mem_cons_self

end Lineage

/-- The names from a node upwards, as the trie is asked for them. -/
def lineKeys (heap : Heap) (root : NodeId) (line : List NodeId) : List (Option Bytes) :=
  (line ++ [root]).map (directKey heap)

section Selection

variable {Num : Type} [Double Num] {env : Env Num} {depth : Nat} {heap : Heap} {node : NodeId}
  {line : List NodeId}

theorem directKeys_select {head : ExprNode} (type : head.type = .select)
    (children next : Expr) :
    directKeys (.node head children next) = head.name :: directKeys children := by
  simp [directKeys, Expr.spine, type]

/-- Names that agree step by step satisfy a plain pattern. -/
theorem selectMatch_of_steps (lineage : Lineage heap env.rootNode node line)
    (place : node = env.rootNode ∨ (heap.get node).type = .element) {expression : Expr}
    (plain : plainSteps true expression)
    (agree : directKeys expression <+: lineKeys heap env.rootNode line) :
    selectMatch env depth heap expression (some node) = some true := by
  induction expression generalizing node line with
  | null => rfl
  | node head children next inner _ =>
      cases type : head.type <;> simp only [plainSteps, type, Bool.false_eq_true] at plain
      case root =>
        rw [selectMatch_root type]
        by_cases below : node = env.rootNode
        · rw [decide_eq_true below.symm]
        · rcases lineage.eq_cons below with ⟨rest, rfl⟩
          have element := place.resolve_left below
          have first : some xslSSlash = directKey heap node := by
            have null : children = .null := by simpa using plain
            simp only [directKeys, Expr.spine, null, List.filterMap_cons, type, reduceCtorEq,
              if_false, if_true, List.filterMap_nil, lineKeys, List.cons_append, List.map_cons,
              List.cons_prefix_cons] at agree
            exact agree.1
          rw [directKey, if_pos element] at first
          rcases lineage.named node List.mem_cons_self element with ⟨name, isName, notSlash⟩
          rw [isName] at first
          exact absurd (Option.some.inj first).symm notSlash
      case select =>
        simp only [Bool.and_eq_true, decide_eq_true_eq] at plain
        rw [directKeys_select type] at agree
        by_cases below : node = env.rootNode
        · subst below
          have chain := lineage.chain
          cases line with
          | nil =>
              simp only [lineKeys, List.nil_append, List.map_cons, List.map_nil,
                List.cons_prefix_cons, directKey, if_neg lineage.rootType] at agree
              exact absurd agree.1 plain.1
          | cons first rest =>
              cases chain
              have twice := lineage.chain.nodup
              simp at twice
        · rcases lineage.eq_cons below with ⟨rest, rfl⟩
          simp only [lineKeys, List.cons_append, List.map_cons, List.cons_prefix_cons, directKey,
            if_pos (place.resolve_left below)] at agree
          rcases lineage.parent rfl with ⟨above, isParent, upper, placed⟩
          rw [selectMatch_select type, if_pos agree.1.symm, isParent]
          exact inner upper placed plain.2 agree.2
      case context =>
        exact selectMatch_context type children next node

theorem selectMatch_of_path (lineage : Lineage heap env.rootNode node line) {expression : Expr}
    (plain : plainPath true expression)
    (agree : directKeys expression <+: lineKeys heap env.rootNode line) :
    selectMatch env depth heap expression (some node) = some true := by
  cases expression with
  | null => rfl
  | node head children next =>
      simp only [plainPath, Bool.and_eq_true, decide_eq_true_eq] at plain
      refine selectMatch_of_steps lineage ?_ plain.2 agree
      by_cases below : node = env.rootNode
      · exact .inl below
      · rcases lineage.eq_cons below with ⟨rest, rfl⟩
        refine .inr (Classical.not_not.mp fun other => ?_)
        -- A node that is no element is looked up as `/`, which no plain step is called.
        have notSlash : head.name ≠ some xslSSlash := by
          have steps := plain.2
          simp only [plainSteps, plain.1, Bool.and_eq_true, decide_eq_true_eq] at steps
          exact steps.1
        rw [directKeys_select plain.1] at agree
        simp only [lineKeys, List.cons_append, List.map_cons, List.cons_prefix_cons, directKey,
          if_neg other] at agree
        exact notSlash agree.1

/-! ## The two collections -/

omit [Double Num] in
/-- Where the walk through the trie rests. -/
theorem directTemplate_eq {root : NodeId} (lineage : Lineage heap root node line)
    (tree : TemplateTree) :
    Exists fun path => directTemplate heap tree node = some (tree.valueAt path) ∧
      path.map some <+: lineKeys heap root line ∧ tree.HasPath path ∧
      ∀ other, other.map some <+: lineKeys heap root line → tree.HasPath other →
        other.length ≤ path.length := by
  rcases tree.deepest_spec 0 (lineKeys heap root line) with
    ⟨path, agree, reached, longest⟩
  refine ⟨path, ?_, agree, Option.isSome_of_eq_some reached, longest⟩
  unfold directTemplate Trie.valueAt
  rw [lineage.follow, reached]
  rfl

/-- The list answers with what the trie found or with a template that matches. -/
theorem listedTemplate_cases {result : Option Template} {expressionWeight : Nat}
    {templates : List Template} {t : Template}
    (selected : listedTemplate env depth heap node result expressionWeight templates =
      some (some t)) :
    result = some t ∨
      (t ∈ templates ∧ selectMatch env depth heap t.expr (some node) = some true) := by
  induction templates generalizing result expressionWeight with
  | nil => exact .inl (Option.some.inj selected)
  | cons first rest inductionHypothesis =>
      simp only [listedTemplate, bind, Option.bind_eq_some_iff] at selected
      rcases selected with ⟨answer, asked, selected⟩
      by_cases better : answer = true ∧ expressionWeight < first.expressionWeight
      · rw [if_pos better] at selected
        rcases inductionHypothesis selected with same | ⟨member, holds⟩
        · cases same
          exact .inr ⟨List.mem_cons_self, better.1 ▸ asked⟩
        · exact .inr ⟨List.mem_cons_of_mem _ member, holds⟩
      · rw [if_neg better] at selected
        rcases inductionHypothesis selected with same | ⟨member, holds⟩
        · exact .inl same
        · exact .inr ⟨List.mem_cons_of_mem _ member, holds⟩

/-- The template that the trie yields, by its registration. -/
theorem Describes.direct_template {past : Past} {entry : TemplateMapEntry}
    (holds : Describes past entry) {path : List Bytes} {t : Template}
    (found : entry.tree.valueAt path = some t) :
    Exists fun r => r ∈ past ∧ HasKeys path r ∧ t = directEntry r := by
  rw [holds.latest, Option.map_eq_some_iff] at found
  rcases found with ⟨r, first, rfl⟩
  have keys : HasKeys path r := by simpa using List.find?_some first
  exact ⟨r, List.mem_of_find?_eq_some first, keys, rfl⟩

/-- `find_select_template` asks the trie and then the list. -/
theorem findSelectTemplate_eq (lineage : Lineage heap env.rootNode node line)
    (entry : TemplateMapEntry) :
    Exists fun path =>
      findSelectTemplate env depth heap node entry =
        listedTemplate env depth heap node (entry.tree.valueAt path)
          (((entry.tree.valueAt path).map Template.expressionWeight).getD 0) entry.head ∧
      path.map some <+: lineKeys heap env.rootNode line ∧ entry.tree.HasPath path ∧
      ∀ other, other.map some <+: lineKeys heap env.rootNode line → entry.tree.HasPath other →
        other.length ≤ path.length := by
  rcases directTemplate_eq lineage entry.tree with ⟨path, direct, agree, there, longest⟩
  refine ⟨path, ?_, agree, there, longest⟩
  unfold findSelectTemplate
  cases made : entry.directMatch with
  | none =>
      have empty : entry.tree.valueAt path = none := by
        unfold TemplateMapEntry.tree
        rw [made, Option.getD_none]
        exact Describes.empty.latest path
      rw [empty]
      rfl
  | some tree =>
      have same : entry.tree = tree := by
        unfold TemplateMapEntry.tree
        rw [made, Option.getD_some]
      rw [same] at direct ⊢
      simp only [direct]
      rfl

theorem Describes.sound {past : Past} {entry : TemplateMapEntry} (holds : Describes past entry)
    (plain : ∀ r ∈ past, Direct r.1 → plainPath true (patternExpr r.1))
    (lineage : Lineage heap env.rootNode node line) {t : Template}
    (selected : findSelectTemplate env depth heap node entry = some (some t)) :
    xpathCompile t.matchString = some (patternExpr t.matchString) ∧
      selectMatch env depth heap (patternExpr t.matchString) (some node) = some true := by
  rcases findSelectTemplate_eq lineage entry with ⟨path, whole, agree, _⟩
  rw [whole] at selected
  rcases listedTemplate_cases selected with direct | ⟨member, matching⟩
  · rcases holds.direct_template direct with ⟨r, known, keys, rfl⟩
    refine ⟨holds.compiled r.1 (List.mem_map_of_mem known) keys.1.1, ?_⟩
    refine selectMatch_of_path lineage (plain r known keys.1) ?_
    rw [show directKeys (patternExpr (directEntry r).matchString) = _ from keys.2]
    exact agree
  · rw [holds.listed] at member
    rcases List.mem_map.mp member with ⟨pattern, inList, rfl⟩
    have listed := mem_listedPatterns.mp inList
    exact ⟨holds.compiled pattern listed.2 listed.1.1, matching⟩

end Selection

/-- The document `<a><b/></a>`: its root, `a` and `b`. -/
def nestedDocument : Heap := .ofList [
  { type := .empty, name := some xslSRoot, children := some 1 },
  { type := .element, name := some (lit "a"), parent := some 0, children := some 2, position := 1 },
  { type := .element, name := some (lit "b"), parent := some 1, position := 1 }]

theorem nestedDocument_lineage : Lineage nestedDocument 0 2 [2, 1] where
  chain := .cons 2 [1, 0] (.cons 1 [0] (.cons 0 [] .nil))
  inside := by decide
  rootType := by decide
  elements := by decide
  named := by
    intro n member _
    simp only [List.mem_cons, List.not_mem_nil, or_false] at member
    rcases member with same | same
    · subst same
      exact ⟨lit "b", rfl, by decide⟩
    · subst same
      exact ⟨lit "a", rfl, by decide⟩

/-- The tables of a run, looked at in the mode without a name. -/
def selectAfter (registrations : List Registration) (document : Heap) (node : NodeId) :
    Option (Option Template) := do
  let pctx ← registerAll (.create .empty) registrations
  findSelectTemplate (Env.bare Int 0) 0 document node (← pctx.templates none)

end TurboXSL
