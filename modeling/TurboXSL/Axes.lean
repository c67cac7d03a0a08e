import TurboXSL.XPathExec
import TurboXSL.Linked

namespace TurboXSL

open Library

/-!
# What the axes of a document contain

On a well linked document every axis function returns, and the nodes that it
copies are given by the order of the document: children, proper
descendants, owners up to the first one named `root`, and the siblings on
either side.
-/

/-- The node test `node()`. -/
def anyNode : Option Kind := some (.call (lit "node"))

@[simp] theorem xpathNodeKind_anyNode (node : XmlNode) : xpathNodeKind node anyNode = true := by
  unfold xpathNodeKind anyNode
  simp only [show lit "node" ≠ lit "text" by decide, if_false, decide_true]

/-- The nodes that pass a node test. -/
abbrev ofKind (heap : Heap) (kind : Option Kind) (nodes : List NodeId) : List NodeId :=
  nodes.filter fun node => xpathNodeKind (heap.get node) kind

theorem ofKind_append (heap : Heap) (kind : Option Kind) (front behind : List NodeId) :
    ofKind heap kind (front ++ behind) = ofKind heap kind front ++ ofKind heap kind behind :=
  List.filter_append front behind

theorem ofKind_cons (heap : Heap) (kind : Option Kind) (node : NodeId) (rest : List NodeId) :
    ofKind heap kind (node :: rest) =
      if xpathNodeKind (heap.get node) kind then node :: ofKind heap kind rest
      else ofKind heap kind rest :=
  List.filter_cons

@[simp] theorem ofKind_anyNode (heap : Heap) (nodes : List NodeId) :
    ofKind heap anyNode nodes = nodes :=
  List.filter_eq_self.mpr fun _ _ => xpathNodeKind_anyNode _

@[simp] theorem numbered_fst (nodes : List NodeId) : (numbered nodes).map Prod.fst = nodes :=
  List.zipIdx_map_fst 1 nodes

theorem takeWhile_congr {keep other : NodeId → Bool} {nodes : List NodeId}
    (same : ∀ n ∈ nodes, keep n = other n) : nodes.takeWhile keep = nodes.takeWhile other := by
  induction nodes with
  | nil => rfl
  | cons node rest inductionHypothesis =>
      rw [List.takeWhile_cons, List.takeWhile_cons, same node List.mem_cons_self,
        inductionHypothesis fun n member => same n (List.mem_cons_of_mem _ member)]

theorem getLast?_sublist {Member : Type} (members : List Member) :
    members.getLast?.toList.Sublist members := by
  cases last : members.getLast? with
  | none => exact List.nil_sublist members
  | some member => exact (List.singleton_suffix_iff_getLast?_eq_some.mpr last).sublist

/-- `y` is among the nodes that an axis function copies for `x`. -/
def Selects (type : ExprType) (heap : Heap) (kind : Option Kind) (x y : NodeId) : Prop :=
  Exists fun sources => axisNodes type heap x kind = some sources ∧ y ∈ sources.map Prod.fst

theorem selects_iff {type : ExprType} {heap : Heap} {kind : Option Kind} {x y : NodeId}
    {sources : List (NodeId × Nat)} (found : axisNodes type heap x kind = some sources) :
    Selects type heap kind x y ↔ y ∈ sources.map Prod.fst := by
  unfold Selects
  rw [found]
  constructor
  · rintro ⟨_, ⟨⟩, member⟩
    exact member
  · exact fun member => ⟨sources, rfl, member⟩

/-! ## Walks -/

theorem addAllChildren_eq {heap : Heap} {start : Ptr} {nodes : List NodeId}
    (walked : Preorder heap.links start nodes) (kind : Option Kind)
    (content : ∀ n ∈ nodes, (heap.get n).type ≠ .empty) {fuel : Nat}
    (enough : nodes.length ≤ fuel) :
    addAllChildren heap kind fuel start = some (ofKind heap kind nodes) := by
  induction walked generalizing fuel with
  | nil =>
      unfold addAllChildren
      rfl
  | cons node below behind inner outer innerHypothesis outerHypothesis =>
      cases fuel with
      | zero => cases enough
      | succ fuel =>
          rw [List.length_cons, List.length_append] at enough
          have shortInner : below.length ≤ fuel := by omega
          have shortOuter : behind.length ≤ fuel := by omega
          have first := innerHypothesis
            (fun n member => content n (List.mem_cons_of_mem _ (List.mem_append_left _ member)))
            shortInner
          have second := outerHypothesis
            (fun n member => content n (List.mem_cons_of_mem _ (List.mem_append_right _ member)))
            shortOuter
          have notEmpty := content node List.mem_cons_self
          unfold addAllChildren
          rw [show addAllChildren heap kind fuel (heap.get node).children = _ from first,
            show addAllChildren heap kind fuel (heap.get node).next = _ from second]
          simp only [Option.bind_eq_bind, Option.bind_some, ofKind, List.filter_cons,
            List.filter_append, notEmpty, ne_eq, not_false_eq_true, true_and]
          split <;> rfl

namespace Linked

variable {heap : Heap} {inside : NodeId → Prop} (linked : Linked heap inside)

include linked

/-- What stands below a node is no root. -/
theorem below_type {top n : NodeId} (member : inside top) (below : Below heap.links top n) :
    (heap.get n).type = .element ∨ (heap.get n).type = .text := by
  rcases Relation.TransGen.tail'_iff.mp below with ⟨owner, within, child⟩
  exact linked.child_type (linked.forest.inside_within member within) child

/-- The descendants of a node, in document order. -/
theorem descendants {x : NodeId} (member : inside x) :
    Exists fun nodes => Preorder heap.links (heap.get x).children nodes ∧ nodes.Nodup ∧
      (∀ n, n ∈ nodes ↔ Below heap.links x n) ∧
      ∀ kind, addAllChildren heap kind heap.size (heap.get x).children =
        some (ofKind heap kind nodes) := by
  rcases linked.forest.preorder member with ⟨nodes, walked⟩
  have spec := linked.forest.preorder_spec member walked
  refine ⟨nodes, walked, spec.1, spec.2, fun kind => addAllChildren_eq walked kind ?_ ?_⟩
  · intro n at_
    rcases linked.below_type member ((spec.2 n).mp at_) with type | type <;> rw [type] <;> decide
  · refine linked.forest.length_le spec.1 fun n at_ => ?_
    exact linked.forest.inside_within member ((spec.2 n).mp at_).to_reflTransGen

/-! ## One axis after the other -/

theorem axisNodes_child {x : NodeId} (member : inside x) (kind : Option Kind) :
    Exists fun row => Children heap.links x row ∧
      axisNodes .select heap x kind = some (numbered (ofKind heap kind row)) := by
  rcases linked.siblings_children member with ⟨row, children, found⟩
  refine ⟨row, children, ?_⟩
  unfold axisNodes
  simp only [found]
  rfl

theorem axisNodes_descendant {x : NodeId} (member : inside x) (kind : Option Kind) :
    Exists fun nodes => nodes.Nodup ∧ (∀ n, n ∈ nodes ↔ Below heap.links x n) ∧
      axisNodes .descendant heap x kind = some (numbered (ofKind heap kind nodes)) := by
  rcases linked.descendants member with ⟨nodes, -, distinct, members, found⟩
  refine ⟨nodes, distinct, members, ?_⟩
  unfold axisNodes
  simp only [found kind]
  rfl

theorem axisNodes_ancestor {x : NodeId} (member : inside x) (kind : Option Kind) :
    Exists fun line => Chain heap.links.parent (heap.links.parent x) line ∧
      axisNodes .ancestor heap x kind = some (numbered (ofKind heap kind
        (line.takeWhile fun node => ¬ xmlsEquals (heap.get node).name (some xslSRoot)))) := by
  rcases linked.forest.owners member with ⟨line, chained, members⟩
  refine ⟨line, chained, ?_⟩
  have short := linked.forest.length_le chained.nodup fun n at_ => (members n at_).1
  have found := follow_eq_some_iff.mpr ⟨chained, short⟩
  unfold axisNodes properAncestors
  simp only [show follow (fun node => (heap.get node).parent) heap.size (heap.get x).parent =
    some line from found]
  rfl

theorem siblingsBeside_prev {x : NodeId} (member : inside x) :
    Exists fun front => Chain heap.links.prev (heap.links.prev x) front ∧
      (∀ n ∈ front, inside n) ∧ siblingsBeside heap XmlNode.prev x = some front := by
  rcases linked.forest.earlier member with ⟨front, chained, members⟩
  refine ⟨front, chained, fun n at_ => (members n at_).1, ?_⟩
  have short := linked.forest.length_le chained.nodup fun n at_ => (members n at_).1
  unfold siblingsBeside
  rw [linked.plain member]
  exact follow_eq_some_iff.mpr ⟨chained, short⟩

theorem siblingsBeside_next {x : NodeId} (member : inside x) :
    Exists fun rest => Chain heap.links.next (heap.links.next x) rest ∧
      (∀ n ∈ rest, inside n) ∧ siblingsBeside heap XmlNode.next x = some rest := by
  rcases linked.forest.later member with ⟨rest, chained, members⟩
  refine ⟨rest, chained, fun n at_ => (members n at_).1, ?_⟩
  have short := linked.forest.length_le chained.nodup fun n at_ => (members n at_).1
  unfold siblingsBeside
  rw [linked.plain member]
  exact follow_eq_some_iff.mpr ⟨chained, short⟩

/-- The descendants of every node at once. -/
theorem descendants_function : Exists fun below : NodeId → List NodeId =>
    ∀ n, inside n → (below n).Nodup ∧ (∀ m, m ∈ below n ↔ Below heap.links n m) ∧
      ∀ kind, addAllChildren heap kind heap.size (heap.get n).children =
        some (ofKind heap kind (below n)) := by
  have all : ∀ n, Exists fun found : List NodeId => inside n → found.Nodup ∧
      (∀ m, m ∈ found ↔ Below heap.links n m) ∧
      ∀ kind, addAllChildren heap kind heap.size (heap.get n).children =
        some (ofKind heap kind found) := by
    intro n
    by_cases member : inside n
    · rcases linked.descendants member with ⟨found, -, spec⟩
      exact ⟨found, fun _ => spec⟩
    · exact ⟨[], fun impossible => (member impossible).elim⟩
  choose below spec using all
  exact ⟨below, spec⟩

omit linked in
/-- Nodes of the list and what is below them, in order. -/
theorem withDescendants_sublist {nodes : List NodeId} {below : NodeId → List NodeId}
    (kind : Option Kind)
    (walked : ∀ n ∈ nodes, addAllChildren heap kind heap.size (heap.get n).children =
      some (ofKind heap kind (below n))) (selected : Bool) (pos : Nat) :
    Exists fun sources => withDescendants heap kind selected pos nodes = some sources ∧
      (sources.map Prod.fst).Sublist (ofKind heap kind (nodes.flatMap fun n => n :: below n)) := by
  induction nodes generalizing selected pos with
  | nil => exact ⟨[], rfl, .slnil⟩
  | cons node rest inductionHypothesis =>
      have later := inductionHypothesis fun n at_ => walked n (List.mem_cons_of_mem _ at_)
      rw [List.flatMap_cons, ofKind_append, ofKind_cons]
      unfold withDescendants
      rw [walked node List.mem_cons_self]
      by_cases passes : xpathNodeKind (heap.get node) kind = true
      · rcases later true (pos + 1) with ⟨sources, found, listed⟩
        refine ⟨(node, pos + 1) :: numbered (ofKind heap kind (below node)) ++ sources, ?_, ?_⟩
        · simp only [Option.bind_eq_bind, Option.bind_some, passes, if_true, found]
        · rw [if_pos passes, List.map_append, List.map_cons, numbered_fst]
          exact (List.Sublist.refl _).append listed
      · rcases later (selected || !(ofKind heap kind (below node)).isEmpty) pos with
          ⟨sources, found, listed⟩
        refine ⟨(if selected then numbered (ofKind heap kind (below node))
          else (numbered (ofKind heap kind (below node))).getLast?.toList) ++ sources, ?_, ?_⟩
        · simp only [Option.bind_eq_bind, Option.bind_some, passes, found]
          rfl
        · rw [if_neg passes, List.map_append]
          refine List.Sublist.append ?_ listed
          split
          · rw [numbered_fst]
          · have kept := (getLast?_sublist (numbered (ofKind heap kind (below node)))).map Prod.fst
            rw [numbered_fst] at kept
            exact kept

omit linked in
/-- All of them, behind what is selected already. -/
theorem withDescendants_eq {nodes : List NodeId} {below : NodeId → List NodeId}
    (kind : Option Kind)
    (walked : ∀ n ∈ nodes, addAllChildren heap kind heap.size (heap.get n).children =
      some (ofKind heap kind (below n))) {selected : Bool}
    (first : selected = true ∨ ∀ n ∈ nodes, xpathNodeKind (heap.get n) kind = true) (pos : Nat) :
    Exists fun sources => withDescendants heap kind selected pos nodes = some sources ∧
      sources.map Prod.fst = ofKind heap kind (nodes.flatMap fun n => n :: below n) := by
  induction nodes generalizing selected pos with
  | nil => exact ⟨[], rfl, rfl⟩
  | cons node rest inductionHypothesis =>
      have later := @inductionHypothesis (fun n at_ => walked n (List.mem_cons_of_mem _ at_)) true
        (.inl rfl)
      rw [List.flatMap_cons, ofKind_append, ofKind_cons]
      unfold withDescendants
      rw [walked node List.mem_cons_self]
      by_cases passes : xpathNodeKind (heap.get node) kind = true
      · rcases later (pos + 1) with ⟨sources, found, listed⟩
        refine ⟨(node, pos + 1) :: numbered (ofKind heap kind (below node)) ++ sources, ?_, ?_⟩
        · simp only [Option.bind_eq_bind, Option.bind_some, passes, if_true, found]
        · rw [if_pos passes, ← listed, List.map_append, List.map_cons, numbered_fst]
      · have before : selected = true := first.resolve_right fun all =>
          passes (all node List.mem_cons_self)
        rcases later pos with ⟨sources, found, listed⟩
        refine ⟨numbered (ofKind heap kind (below node)) ++ sources, ?_, ?_⟩
        · simp only [Option.bind_eq_bind, Option.bind_some, passes, before, Bool.true_or, found]
          rfl
        · rw [if_neg passes, ← listed, List.map_append, numbered_fst]

/-- Every axis of a node of the document returns nodes of the document. -/
theorem axisNodes_total {x : NodeId} (member : inside x) (type : ExprType) (kind : Option Kind) :
    Exists fun sources => axisNodes type heap x kind = some sources ∧
      ∀ n ∈ sources.map Prod.fst, inside n := by
  have self : ∀ n ∈ getSelf heap x kind, inside n := by
    intro n at_
    unfold getSelf at at_
    split at at_
    · exact List.mem_singleton.mp at_ ▸ member
    · cases at_
  rcases linked.axisNodes_descendant member kind with ⟨nodes, -, lower, found⟩
  have descendants : ∀ n ∈ ofKind heap kind nodes, inside n := fun n at_ =>
    linked.forest.inside_within member ((lower n).mp (List.mem_filter.mp at_).1).to_reflTransGen
  rcases linked.descendants member with ⟨nodes', -, -, lower', walked⟩
  rcases linked.forest.owners member with ⟨line, chained, upper⟩
  have up := follow_eq_some_iff.mpr
    ⟨chained, linked.forest.length_le chained.nodup fun n at_ => (upper n at_).1⟩
  have ancestors : ∀ n ∈ ofKind heap kind (line.takeWhile fun node =>
      ¬ xmlsEquals (heap.get node).name (some xslSRoot)), inside n := fun n at_ =>
    (upper n ((List.takeWhile_prefix _).subset (List.mem_filter.mp at_).1)).1
  have above : properAncestors heap x = some (line.takeWhile fun node =>
      ¬ xmlsEquals (heap.get node).name (some xslSRoot)) := by
    unfold properAncestors
    simp only [show follow (fun node => (heap.get node).parent) heap.size (heap.get x).parent =
      some line from up]
    rfl
  have child : Exists fun sources => axisNodes .select heap x kind = some sources ∧
      ∀ n ∈ sources.map Prod.fst, inside n := by
    rcases linked.forest.row member with ⟨row, children, members⟩
    rcases linked.axisNodes_child member kind with ⟨row', children', listed⟩
    refine ⟨_, listed, ?_⟩
    rw [numbered_fst, children'.unique children]
    exact fun n at_ => members n (List.mem_filter.mp at_).1
  rcases linked.siblingsBeside_prev member with ⟨front, -, frontInside, before⟩
  rcases linked.siblingsBeside_next member with ⟨rest, -, restInside, behind⟩
  rcases linked.descendants_function with ⟨below, spec⟩
  have withBelow : ∀ siblings : List NodeId, (∀ n ∈ siblings, inside n) →
      Exists fun sources => withDescendants heap kind false 0 siblings = some sources ∧
        ∀ n ∈ sources.map Prod.fst, inside n := by
    intro siblings members
    rcases withDescendants_sublist kind (fun n at_ => (spec n (members n at_)).2.2 kind) false 0 with
      ⟨sources, walked, listed⟩
    refine ⟨sources, walked, ?_⟩
    intro n at_
    rcases List.mem_flatMap.mp (List.mem_filter.mp (listed.subset at_)).1 with ⟨s, inList, here⟩
    rcases List.mem_cons.mp here with same | lower
    · exact same ▸ members s inList
    · exact linked.forest.inside_within (members s inList)
        (((spec s (members s inList)).2.1 n).mp lower).to_reflTransGen
  have both : ∀ {first second : List NodeId}, (∀ n ∈ first, inside n) → (∀ n ∈ second, inside n) →
      ∀ n ∈ (numbered first ++ numbered second).map Prod.fst, inside n := by
    intro first second left right n at_
    rw [List.map_append, numbered_fst, numbered_fst] at at_
    exact (List.mem_append.mp at_).elim (left n) (right n)
  cases type
  case self => exact ⟨_, rfl, by rw [numbered_fst]; exact self⟩
  case parent =>
      unfold axisNodes
      cases owner : (heap.get x).parent with
      | none => exact ⟨[], rfl, nofun⟩
      | some parent =>
          simp only
          split
          · exact ⟨[], rfl, nofun⟩
          · refine ⟨_, rfl, ?_⟩
            rw [numbered_fst]
            intro n at_
            unfold getSelf at at_
            split at at_
            · exact List.mem_singleton.mp at_ ▸ (linked.forest.up member owner).1
            · cases at_
  case descendant => exact ⟨_, found, by rw [numbered_fst]; exact descendants⟩
  case descendantOrSelf =>
      unfold axisNodes
      simp only [walked kind]
      refine ⟨_, rfl, both self fun n at_ => ?_⟩
      exact linked.forest.inside_within member
        ((lower' n).mp (List.mem_filter.mp at_).1).to_reflTransGen
  case ancestor =>
      unfold axisNodes
      simp only [above]
      exact ⟨_, rfl, by rw [numbered_fst]; exact ancestors⟩
  case ancestorOrSelf =>
      unfold axisNodes
      simp only [above]
      exact ⟨_, rfl, both self ancestors⟩
  case precedingSibling =>
      unfold axisNodes
      simp only [before]
      refine ⟨_, rfl, ?_⟩
      rw [numbered_fst]
      exact fun n at_ => frontInside n (List.mem_filter.mp at_).1
  case followingSibling =>
      unfold axisNodes
      simp only [behind]
      refine ⟨_, rfl, ?_⟩
      rw [numbered_fst]
      exact fun n at_ => restInside n (List.mem_filter.mp at_).1
  case preceding =>
      unfold axisNodes
      simp only [before]
      exact withBelow front frontInside
  case following =>
      unfold axisNodes
      simp only [behind]
      exact withBelow rest restInside
  all_goals exact child

/-! ## Growing memories -/

/-- The axes read the nodes of the document only. -/
theorem axisNodes_keep {after : Heap} (grows : heap.size ≤ after.size)
    (same : ∀ {n}, inside n → after.get n = heap.get n) {x : NodeId}
    (member : inside x) (type : ExprType) (kind : Option Kind) :
    axisNodes type after x kind = axisNodes type heap x kind := by
  have passes : ∀ {nodes : List NodeId}, (∀ n ∈ nodes, inside n) →
      ofKind after kind nodes = ofKind heap kind nodes := by
    intro nodes members
    refine List.filter_congr fun n at_ => ?_
    rw [same (members n at_)]
  have self : getSelf after x kind = getSelf heap x kind := by
    unfold getSelf
    rw [same member]
  have walk : ∀ {link : XmlNode → Ptr} {start : Ptr} {nodes : List NodeId},
      Chain (fun n => link (heap.get n)) start nodes → (∀ n ∈ nodes, inside n) →
      follow (fun n => link (after.get n)) after.size start = some nodes ∧
        follow (fun n => link (heap.get n)) heap.size start = some nodes := by
    intro link start nodes chained members
    have short := linked.forest.length_le chained.nodup members
    refine ⟨follow_eq_some_iff.mpr ⟨?_, Nat.le_trans short grows⟩,
      follow_eq_some_iff.mpr ⟨chained, short⟩⟩
    refine chained.congr fun n at_ => ?_
    rw [same (members n at_)]
  have below : ∀ {n : NodeId}, inside n →
      addAllChildren after kind after.size (after.get n).children =
        addAllChildren heap kind heap.size (heap.get n).children := by
    intro n at_
    rcases linked.descendants at_ with ⟨nodes, walked, distinct, lower, found⟩
    have members : ∀ m ∈ nodes, inside m := fun m inNodes =>
      linked.forest.inside_within at_ ((lower m).mp inNodes).to_reflTransGen
    have walked' : Preorder after.links (after.get n).children nodes := by
      rw [same at_]
      exact walked.congr (fun m inNodes => congrArg XmlNode.children (same (members m inNodes)))
        fun m inNodes => congrArg XmlNode.next (same (members m inNodes))
    rw [found kind, addAllChildren_eq walked' kind, passes members]
    · intro m inNodes
      rw [same (members m inNodes)]
      rcases linked.below_type at_ ((lower m).mp inNodes) with type | type <;> rw [type] <;> decide
    · exact Nat.le_trans (linked.forest.length_le distinct members) grows
  rcases linked.forest.row member with ⟨row, children, rowInside⟩
  rcases linked.forest.owners member with ⟨line, upward, above⟩
  rcases linked.forest.earlier member with ⟨front, back, frontInside⟩
  rcases linked.forest.later member with ⟨rest, onward, restInside⟩
  have child : siblings after (heap.get x).children = some row ∧
      siblings heap (heap.get x).children = some row := walk children.chain rowInside
  have ancestors : properAncestors after x = properAncestors heap x := by
    unfold properAncestors
    have found := @walk XmlNode.parent _ _ upward fun n at_ => (above n at_).1
    rw [same member, show (heap.get x).parent = heap.links.parent x from rfl, found.1, found.2]
    simp only [Option.bind_eq_bind, Option.bind_some, Option.some.injEq]
    refine takeWhile_congr fun n at_ => ?_
    rw [same (above n at_).1]
  have aboveInside : ∀ {nodes}, properAncestors heap x = some nodes → ∀ n ∈ nodes, inside n := by
    intro nodes found n at_
    unfold properAncestors at found
    rw [show (heap.get x).parent = heap.links.parent x from rfl,
      (@walk XmlNode.parent _ _ upward fun n at_ => (above n at_).1).2] at found
    cases found
    exact (above n ((List.takeWhile_prefix _).subset at_)).1
  have beside : ∀ {side : XmlNode → Ptr} {nodes : List NodeId},
      Chain (fun n => side (heap.get n)) (side (heap.get x)) nodes → (∀ n ∈ nodes, inside n) →
      siblingsBeside after side x = some nodes ∧ siblingsBeside heap side x = some nodes := by
    intro side nodes chained members
    unfold siblingsBeside
    rw [same member, linked.plain member, Option.getD_none]
    change follow (fun n => side (after.get n)) after.size (side (after.get x)) = _ ∧
      follow (fun n => side (heap.get n)) heap.size (side (heap.get x)) = _
    rw [same member]
    exact walk chained members
  have before := @beside XmlNode.prev _ back fun n at_ => (frontInside n at_).1
  have behind := @beside XmlNode.next _ onward fun n at_ => (restInside n at_).1
  have with_ : ∀ {nodes : List NodeId} (selected : Bool) (pos : Nat), (∀ n ∈ nodes, inside n) →
      withDescendants after kind selected pos nodes =
        withDescendants heap kind selected pos nodes := by
    intro nodes
    induction nodes with
    | nil =>
        intro selected pos _
        rfl
    | cons node rest inductionHypothesis =>
        intro selected pos members
        have first := members node List.mem_cons_self
        have others := fun n at_ => members n (List.mem_cons_of_mem node at_)
        unfold withDescendants
        have later := fun selected pos => inductionHypothesis selected pos others
        rw [below first, same first]
        simp only [later]
  have children_ : siblings after (after.get x).children = some row := by
    rw [same member]
    exact child.1
  have here := below member
  rw [same member] at here
  unfold axisNodes
  cases type
  case self => simp only [self]
  case parent =>
      simp only [same member]
      cases owner : (heap.get x).parent with
      | none => rfl
      | some parent =>
          have inner := (linked.forest.up member owner).1
          simp only [getSelf, same inner]
  case descendant | descendantOrSelf => simp only [self, same member, here]
  case ancestor | ancestorOrSelf =>
      simp only [self, ancestors]
      cases found : properAncestors heap x with
      | none => rfl
      | some nodes => simp only [Option.bind_eq_bind, Option.bind_some, passes (aboveInside found)]
  case precedingSibling =>
      simp only [before.1, before.2, Option.bind_eq_bind, Option.bind_some,
        passes fun n at_ => (frontInside n at_).1]
  case followingSibling =>
      simp only [behind.1, behind.2, Option.bind_eq_bind, Option.bind_some,
        passes fun n at_ => (restInside n at_).1]
  case preceding =>
      simp only [before.1, before.2, Option.bind_eq_bind, Option.bind_some,
        with_ false 0 fun n at_ => (frontInside n at_).1]
  case following =>
      simp only [behind.1, behind.2, Option.bind_eq_bind, Option.bind_some,
        with_ false 0 fun n at_ => (restInside n at_).1]
  all_goals simp only [children_, child.2, Option.bind_eq_bind, Option.bind_some, passes rowInside]

/-- What is allocated later does not change what the axes contain. -/
theorem axisNodes_extend {after : Heap} (extended : heap.Extends after) {x : NodeId}
    (member : inside x) (type : ExprType) (kind : Option Kind) :
    axisNodes type after x kind = axisNodes type heap x kind :=
  linked.axisNodes_keep extended.grows (fun at_ => extended.same _ (linked.forest.bound at_))
    member type kind

/-! ## Membership -/

/-- A node passes a node test. -/
abbrev Passes (heap : Heap) (kind : Option Kind) (n : NodeId) : Prop :=
  xpathNodeKind (heap.get n) kind = true

theorem selects_child {x y : NodeId} (member : inside x) (kind : Option Kind) :
    Selects .select heap kind x y ↔ Child heap.links x y ∧ Passes heap kind y := by
  rcases linked.axisNodes_child member kind with ⟨row, children, found⟩
  rw [selects_iff found, numbered_fst, List.mem_filter, child_iff children]

theorem selects_descendant {x y : NodeId} (member : inside x) (kind : Option Kind) :
    Selects .descendant heap kind x y ↔ Below heap.links x y ∧ Passes heap kind y := by
  rcases linked.axisNodes_descendant member kind with ⟨nodes, -, members, found⟩
  rw [selects_iff found, numbered_fst, List.mem_filter, members]

/-- Ancestors up to a node of the same document: none on the way may be
named `root`. -/
theorem selects_ancestor {top x y : NodeId} (member : inside top)
    (withinX : Within heap.links top x) (withinY : Within heap.links top y) (kind : Option Kind) :
    Selects .ancestor heap kind y x ↔ Below heap.links x y ∧
      (∀ other, Within heap.links x other → Below heap.links other y →
        (heap.get other).name ≠ some xslSRoot) ∧ Passes heap kind x := by
  have memberY := linked.forest.inside_within member withinY
  rcases linked.axisNodes_ancestor memberY kind with ⟨line, chained, found⟩
  rw [selects_iff found, numbered_fst, List.mem_filter,
    linked.forest.mem_owners_takeWhile member withinY _ chained withinX, and_assoc]
  simp only [decide_eq_true_eq]

omit linked in
theorem selects_parent {x y : NodeId} (kind : Option Kind) :
    Selects .parent heap kind y x ↔ (heap.get y).parent = some x ∧
      (heap.get x).name ≠ some xslSRoot ∧ Passes heap kind x := by
  unfold Selects axisNodes
  cases above : (heap.get y).parent with
  | none => simp
  | some owner =>
      by_cases named : (heap.get owner).name = some xslSRoot
      · simp only [named, if_true, Option.some.injEq]
        constructor
        · rintro ⟨sources, rfl, impossible⟩
          cases impossible
        · rintro ⟨rfl, different, -⟩
          exact (different named).elim
      · simp only [named, if_false, Option.some.injEq, exists_eq_left', numbered_fst, getSelf]
        constructor
        · intro at_
          split at at_
          · rename_i passes
            rw [List.mem_singleton] at at_
            subst at_
            exact ⟨rfl, named, passes⟩
          · cases at_
        · rintro ⟨rfl, -, passes⟩
          rw [if_pos passes]
          exact List.mem_singleton_self _

theorem selects_preceding_sibling {x y : NodeId} (member : inside y) (kind : Option Kind)
    {front : List NodeId} (chained : Chain heap.links.prev (heap.links.prev y) front) :
    Selects .precedingSibling heap kind y x ↔ x ∈ front ∧ Passes heap kind x := by
  rcases linked.siblingsBeside_prev member with ⟨found, chained', -, walked⟩
  have listed : axisNodes .precedingSibling heap y kind =
      some (numbered (ofKind heap kind found)) := by
    unfold axisNodes
    simp only [walked]
    rfl
  rw [selects_iff listed, numbered_fst, List.mem_filter, chained.unique chained']

theorem selects_following_sibling {x y : NodeId} (member : inside x) (kind : Option Kind)
    {rest : List NodeId} (chained : Chain heap.links.next (heap.links.next x) rest) :
    Selects .followingSibling heap kind x y ↔ y ∈ rest ∧ Passes heap kind y := by
  rcases linked.siblingsBeside_next member with ⟨found, chained', -, walked⟩
  have listed : axisNodes .followingSibling heap x kind =
      some (numbered (ofKind heap kind found)) := by
    unfold axisNodes
    simp only [walked]
    rfl
  rw [selects_iff listed, numbered_fst, List.mem_filter, chained.unique chained']

end Linked

end TurboXSL
