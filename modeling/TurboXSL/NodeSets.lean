import TurboXSL.Anchoring
import TurboXSL.DeepSteps
import TurboXSL.AxisLaws
import TurboXSL.Unions

namespace TurboXSL

open Library Parse

/-!
# Node-sets as lists

The evaluator never looks whether a node is in a selection already.  One axis
lists no node twice, so what repeats a node is always that two members of a
node-set lead to it, or two operands of a union.
-/

/-! ## One axis lists no node twice -/

section Axes

variable {heap : Heap} {inside : NodeId → Prop} (linked : Linked heap inside)

include linked

theorem Linked.beside_pairwise {nodes : List NodeId} {start : Ptr}
    (members : ∀ n ∈ nodes, inside n)
    (chained : Chain heap.links.prev start nodes ∨ Chain heap.links.next start nodes) :
    nodes.Pairwise fun a b => ¬ Within heap.links a b ∧ ¬ Within heap.links b a := by
  induction nodes generalizing start with
  | nil => exact .nil
  | cons node rest inductionHypothesis =>
      have here := members node List.mem_cons_self
      have others := fun n at_ => members n (List.mem_cons_of_mem node at_)
      rcases linked.forest.earlier here with ⟨front, back, _⟩
      rcases linked.forest.later here with ⟨behind, onward, _⟩
      rcases chained with chained | chained
      · cases chained with
        | cons _ _ tail =>
            refine .cons (fun sibling at_ => ?_) (inductionHypothesis others (.inl tail))
            exact linked.forest.beside_apart here tail onward (.inl at_)
      · cases chained with
        | cons _ _ tail =>
            refine .cons (fun sibling at_ => ?_) (inductionHypothesis others (.inr tail))
            exact linked.forest.beside_apart here back tail (.inr at_)

/-- An axis from a node of the document lists no node twice. -/
theorem Linked.axisNodes_nodup {x : NodeId} (member : inside x) {type : ExprType}
    {kind : Option Kind} {sources : List (NodeId × Nat)}
    (found : axisNodes type heap x kind = some sources) : (sources.map Prod.fst).Nodup := by
  have filtered : ∀ {nodes : List NodeId}, nodes.Nodup →
      ((numbered (ofKind heap kind nodes)).map Prod.fst).Nodup := by
    intro nodes distinct
    rw [numbered_fst]
    exact distinct.sublist List.filter_sublist
  have self : ∀ n, (getSelf heap n kind).Nodup ∧ ∀ m ∈ getSelf heap n kind, m = n := by
    intro n
    unfold getSelf
    split
    · exact ⟨List.nodup_singleton n, fun m at_ => List.mem_singleton.mp at_⟩
    · exact ⟨List.nodup_nil, nofun⟩
  have withSelf : ∀ {nodes : List NodeId}, nodes.Nodup → x ∉ nodes →
      ((numbered (getSelf heap x kind) ++ numbered (ofKind heap kind nodes)).map Prod.fst).Nodup := by
    intro nodes distinct other
    rw [List.map_append, numbered_fst, numbered_fst]
    apply (self x).1.append (distinct.sublist List.filter_sublist)
    intro m left right
    exact other ((self x).2 m left ▸ (List.mem_filter.mp right).1)
  have beside : ∀ {nodes : List NodeId}, (∀ n ∈ nodes, inside n) →
      (nodes.Pairwise fun a b => ¬ Within heap.links a b ∧ ¬ Within heap.links b a) →
      withDescendants heap kind false 0 nodes = some sources → (sources.map Prod.fst).Nodup := by
    intro nodes members apart done
    rcases linked.descendants_function with ⟨below, spec⟩
    rcases Linked.withDescendants_sublist kind (fun n at_ => (spec n (members n at_)).2.2 kind) false
      0 with ⟨sources', walked, listed⟩
    rw [walked] at done
    cases done
    apply List.Nodup.sublist listed
    have distinct := nodup_apart apart fun n at_ =>
      ⟨(spec n (members n at_)).1, (spec n (members n at_)).2.1⟩
    exact distinct.sublist List.filter_sublist
  rcases linked.siblings_children member with ⟨row, children, listed⟩
  rcases linked.descendants member with ⟨lower, _, lowerDistinct, lowerBelow, walked⟩
  rcases linked.forest.owners member with ⟨line, chained, upper⟩
  have lineFound := follow_eq_some_iff.mpr
    ⟨chained, linked.forest.length_le chained.nodup fun n at_ => (upper n at_).1⟩
  have above : properAncestors heap x = some (line.takeWhile fun node =>
      ¬ xmlsEquals (heap.get node).name (some xslSRoot)) := by
    unfold properAncestors
    rw [show follow (fun node => (heap.get node).parent) heap.size (heap.get x).parent =
      some line from lineFound]
    rfl
  have lineDistinct := chained.nodup.sublist (List.takeWhile_sublist fun node =>
    ¬ xmlsEquals (heap.get node).name (some xslSRoot))
  have notAbove : x ∉ line.takeWhile fun node =>
      ¬ xmlsEquals (heap.get node).name (some xslSRoot) := fun at_ =>
    Nat.lt_irrefl x (upper x ((List.takeWhile_sublist _).subset at_)).2
  have notBelow : x ∉ lower := fun at_ => Nat.lt_irrefl x ((lowerBelow x).mp at_).lt
  rcases linked.siblingsBeside_prev member with ⟨front, back, frontInside, before⟩
  rcases linked.siblingsBeside_next member with ⟨rest, onward, restInside, behind⟩
  unfold axisNodes at found
  simp only [listed, walked, above, before, behind, Option.bind_eq_bind, Option.bind_some] at found
  cases type
  case self =>
      cases found
      rw [numbered_fst]
      exact (self x).1
  case parent =>
      cases up : (heap.get x).parent with
      | none =>
          rw [up] at found
          cases found
          exact List.nodup_nil
      | some p =>
          rw [up] at found
          simp only at found
          split at found
          · cases found
            exact List.nodup_nil
          · cases found
            rw [numbered_fst]
            exact (self p).1
  case descendant =>
      cases found
      exact filtered lowerDistinct
  case descendantOrSelf =>
      cases found
      exact withSelf lowerDistinct notBelow
  case ancestor =>
      cases found
      exact filtered lineDistinct
  case ancestorOrSelf =>
      cases found
      exact withSelf lineDistinct notAbove
  case precedingSibling =>
      cases found
      exact filtered back.nodup
  case followingSibling =>
      cases found
      exact filtered onward.nodup
  case preceding => exact beside frontInside (linked.beside_pairwise frontInside (.inl back)) found
  case following => exact beside restInside (linked.beside_pairwise restInside (.inr onward)) found
  all_goals
    cases found
    exact filtered children.chain.nodup

end Axes

/-! ## Items -/

/-- The node of a document that an item is. -/
def Item.node? : Item → Option NodeId
  | .node n => some n
  | .attribute _ _ => none

/-- No node of the document is there twice. -/
def NoTwice (items : List Item) : Prop := (items.filterMap Item.node?).Nodup

theorem Item.node?_eq_some {i : Item} {n : NodeId} : i.node? = some n ↔ i = .node n := by
  rcases i with m | ⟨name, content⟩
  · constructor
    · rintro ⟨⟩
      rfl
    · rintro ⟨⟩
      rfl
  · exact ⟨nofun, nofun⟩

/-- Lists without repetitions, no two of which have a node in common. -/
theorem noTwice_flatten {lists : List (List Item)} : NoTwice lists.flatten ↔
    (∀ items ∈ lists, NoTwice items) ∧
      lists.Pairwise fun first second => ∀ n, .node n ∈ first → .node n ∉ second := by
  have inner : ∀ (n : NodeId) (items : List Item), n ∈ items.filterMap Item.node? ↔ .node n ∈ items := by
    intro n items
    rw [List.mem_filterMap]
    constructor
    · rintro ⟨i, at_, same⟩
      exact Item.node?_eq_some.mp same ▸ at_
    · exact fun at_ => ⟨_, at_, rfl⟩
  unfold NoTwice
  rw [List.filterMap_flatten, List.nodup_flatten, List.pairwise_map, List.forall_mem_map]
  apply and_congr_right'
  apply List.Pairwise.iff
  intro first second
  constructor
  · intro apart n left right
    exact apart ((inner n first).mpr left) ((inner n second).mpr right)
  · intro apart n left right
    exact apart n ((inner n first).mp left) ((inner n second).mp right)

section Steps

variable {heap : Heap} {inside region : NodeId → Prop} (closed : Region heap inside region)

include closed

theorem Region.noTwice_sources {sources : List (NodeId × Nat)}
    (distinct : (sources.map Prod.fst).Nodup)
    (each : ∀ s ∈ sources, inside s.1 ∨ (heap.get s.1).type = .attribute) :
    NoTwice (sources.map fun s => item heap s.1) := by
  have within : List.Sublist ((sources.map fun s => item heap s.1).filterMap Item.node?)
      (sources.map Prod.fst) := by
    clear distinct
    induction sources with
    | nil => exact .slnil
    | cons s rest inductionHypothesis =>
        have later := inductionHypothesis fun s at_ => each s (List.mem_cons_of_mem _ at_)
        rw [List.map_cons, List.map_cons]
        rcases each s List.mem_cons_self with document | attribute_
        · rw [closed.item_inside document]
          exact later.cons_cons s.1
        · unfold item
          rw [if_pos attribute_]
          exact later.cons s.1
  exact distinct.sublist within

/-- An axis from an attribute, which has no children. -/
theorem Region.attribute_sources {d : NodeId} (member : region d)
    (attribute_ : AttributeNode heap inside d) {type : ExprType} (plain : ¬ BesideAxis type) {kind : Option Kind}
    {sources : List (NodeId × Nat)} (found : axisNodes type heap d kind = some sources) :
    (sources.map Prod.fst).Nodup ∧
      ∀ s ∈ sources, inside s.1 ∨ (heap.get s.1).type = .attribute := by
  have none_ : siblings heap none = some [] := siblings_of_chain .nil (List.forall_mem_nil _)
  have childless : addAllChildren heap kind heap.size none = some [] := by
    unfold addAllChildren
    rfl
  have counted : ∀ {nodes : List NodeId}, nodes.Nodup →
      (∀ n ∈ nodes, inside n ∨ (heap.get n).type = .attribute) →
      ((numbered nodes).map Prod.fst).Nodup ∧
        ∀ s ∈ numbered nodes, inside s.1 ∨ (heap.get s.1).type = .attribute := by
    intro nodes distinct each
    refine ⟨by rwa [numbered_fst], fun s at_ => each s.1 ?_⟩
    have listed := List.mem_map_of_mem (f := Prod.fst) at_
    rwa [numbered_fst] at listed
  have one : ∀ {n}, (inside n ∨ (heap.get n).type = .attribute) → (getSelf heap n kind).Nodup ∧
      ∀ m ∈ getSelf heap n kind, inside m ∨ (heap.get m).type = .attribute := by
    intro n known
    unfold getSelf
    split
    · exact ⟨List.nodup_singleton n, fun m at_ => List.mem_singleton.mp at_ ▸ known⟩
    · exact ⟨List.nodup_nil, List.forall_mem_nil _⟩
  have self := one (.inr attribute_.type)
  rcases closed.properAncestors_eq member with ⟨line, chained, lineInside, above⟩
  have lineDistinct : (ofKind heap kind (line.takeWhile fun node =>
      ¬ xmlsEquals (heap.get node).name (some xslSRoot))).Nodup :=
    (chained.nodup.sublist (List.takeWhile_sublist _)).sublist List.filter_sublist
  have lineKnown : ∀ n ∈ ofKind heap kind (line.takeWhile fun node =>
      ¬ xmlsEquals (heap.get node).name (some xslSRoot)), inside n := fun n at_ =>
    lineInside n ((List.takeWhile_sublist _).subset (List.mem_filter.mp at_).1)
  unfold axisNodes at found
  rw [attribute_.children] at found
  simp only [none_, childless, above, Option.bind_eq_bind, Option.bind_some] at found
  cases type
  case precedingSibling => exact absurd (.inl rfl) plain
  case preceding => exact absurd (.inr (.inl rfl)) plain
  case followingSibling => exact absurd (.inr (.inr (.inl rfl))) plain
  case following => exact absurd (.inr (.inr (.inr rfl))) plain
  case self =>
      cases found
      exact counted self.1 self.2
  case parent =>
      cases up : (heap.get d).parent with
      | none =>
          rw [up] at found
          cases found
          exact ⟨List.nodup_nil, List.forall_mem_nil _⟩
      | some p =>
          rw [up] at found
          simp only at found
          have above := one (n := p) (.inl (attribute_.parent p up))
          split at found
          · cases found
            exact ⟨List.nodup_nil, List.forall_mem_nil _⟩
          · cases found
            exact counted above.1 above.2
  case ancestor =>
      cases found
      exact counted lineDistinct fun n at_ => .inl (lineKnown n at_)
  case ancestorOrSelf =>
      cases found
      have front := counted self.1 self.2
      have behind := counted lineDistinct fun n at_ => .inl (lineKnown n at_)
      constructor
      · rw [List.map_append]
        apply front.1.append behind.1
        rw [numbered_fst, numbered_fst]
        intro n left right
        have same : n = d := by
          unfold getSelf at left
          split at left
          · exact List.mem_singleton.mp left
          · cases left
        have type := attribute_.type
        rw [← same] at type
        rcases closed.linked.typed (lineKnown n right) with other | other | other <;>
        · rw [type] at other
          cases other
      · intro s at_
        exact (List.mem_append.mp at_).elim (front.2 s) (behind.2 s)
  case descendantOrSelf =>
      cases found
      rw [show numbered [] = [] from rfl, List.append_nil]
      exact counted self.1 self.2
  all_goals
    cases found
    exact ⟨List.nodup_nil, List.forall_mem_nil _⟩

/-- A step from a node of the document yields no node twice. -/
theorem Region.stepItems_noTwice_inside {head : ExprNode} (follows : Follows head) {m : NodeId}
    (member : inside m) {items : List Item} (found : stepItems head heap m = some items) :
    NoTwice items := by
  rcases follows with axis | attr | attrAll
  · rw [stepItems_axis axis] at found
    rcases Option.map_eq_some_iff.mp found with ⟨sources, listed, rfl⟩
    rcases closed.linked.axisNodes_total member head.type head.kind with ⟨sources', listed', known⟩
    rw [listed] at listed'
    cases listed'
    apply closed.noTwice_sources (closed.linked.axisNodes_nodup member listed)
    exact fun s at_ => .inl (known s.1 (List.mem_map_of_mem at_))
  · unfold stepItems at found
    rw [attr] at found
    rcases Option.map_eq_some_iff.mp found with ⟨value, _, rfl⟩
    cases value <;> exact List.nodup_nil
  · unfold stepItems at found
    rw [attrAll] at found
    rcases Option.map_eq_some_iff.mp found with ⟨attrs, listed, rfl⟩
    rcases closed.linked.attributes member with ⟨attrs', chained, known⟩
    have same := (follow_eq_some_iff.mp listed).1.unique chained
    subst same
    unfold NoTwice
    rw [List.filterMap_map, List.filterMap_eq_nil_iff.mpr]
    · exact List.nodup_nil
    · intro a at_
      change (item heap a).node? = none
      unfold item
      rw [if_pos (known a at_).2]
      rfl

/-- So does a step from any member, if it follows no sibling links. -/
theorem Region.stepItems_noTwice {head : ExprNode} (follows : Follows head)
    (plain : ¬ BesideAxis head.type) {m : NodeId} (member : region m) {items : List Item}
    (found : stepItems head heap m = some items) : NoTwice items := by
  rw [closed.stepItems_origin plain member] at found
  rcases closed.image member with ⟨_, known, document | attribute_⟩
  · exact closed.stepItems_noTwice_inside follows document found
  · rcases follows with axis | attr | attrAll
    · rw [stepItems_axis axis] at found
      rcases Option.map_eq_some_iff.mp found with ⟨sources, listed, rfl⟩
      have both := closed.attribute_sources known attribute_ plain listed
      exact closed.noTwice_sources both.1 both.2
    · unfold stepItems at found
      rw [attr] at found
      rcases Option.map_eq_some_iff.mp found with ⟨value, _, rfl⟩
      cases value <;> exact List.nodup_nil
    · have none_ : siblings heap none = some [] := siblings_of_chain .nil nofun
      unfold stepItems at found
      rw [attrAll, attribute_.attributes] at found
      simp only [none_] at found
      cases found
      exact List.nodup_nil

end Steps

/-! ## Steps over node-sets -/

/-- A step leads from a member to a node of the document. -/
def Leads (head : ExprNode) (heap : Heap) (m e : NodeId) : Prop :=
  Exists fun items => stepItems head heap m = some items ∧ .node e ∈ items

/-- No two members lead to one node. -/
def LeadsApart (head : ExprNode) (heap : Heap) (nodes : List NodeId) : Prop :=
  nodes.Pairwise fun a b => ∀ e, Leads head heap a e → ¬ Leads head heap b e

theorem noTwice_iff_pairwise {items : List Item} :
    NoTwice items ↔ items.Pairwise fun i j => ∀ n, i = .node n → j ≠ .node n := by
  have singles : (items.map fun i => [i]).flatten = items := by
    induction items with
    | nil => rfl
    | cons i rest inductionHypothesis =>
        rw [List.map_cons, List.flatten_cons, inductionHypothesis]
        rfl
  have alone : ∀ list ∈ items.map fun i => [i], NoTwice list := by
    intro list at_
    rcases List.mem_map.mp at_ with ⟨i, _, rfl⟩
    unfold NoTwice
    rcases i with n | ⟨name, content⟩
    · exact List.nodup_singleton n
    · exact List.nodup_nil
  have split := @noTwice_flatten (items.map fun i => [i])
  rw [singles, and_iff_right alone, List.pairwise_map] at split
  refine split.trans (List.Pairwise.iff fun i j => forall_congr' fun n => ?_)
  rw [List.mem_singleton, List.mem_singleton]
  constructor
  · rintro apart rfl rfl
    exact apart rfl rfl
  · rintro apart rfl same
    exact apart rfl same.symm

theorem leadsApart_iff {head : ExprNode} {heap : Heap} {nodes : List NodeId}
    {lists : List (List Item)} (listed : nodes.mapM (stepItems head heap) = some lists) :
    LeadsApart head heap nodes ↔
      lists.Pairwise fun first second => ∀ n, .node n ∈ first → .node n ∉ second := by
  have related := mapM_eq_some_iff.mp listed
  clear listed
  unfold LeadsApart
  induction related with
  | nil => exact ⟨fun _ => .nil, fun _ => .nil⟩
  | @cons a first rest lists here others inductionHypothesis =>
      rw [List.pairwise_cons, List.pairwise_cons]
      apply and_congr _ inductionHypothesis
      rcases List.forall₂_iff_get.mp others with ⟨length, all⟩
      constructor
      · intro apart second at_ n left right
        rcases List.getElem_of_mem at_ with ⟨i, small, rfl⟩
        have there := all i (length ▸ small) small
        exact apart _ (List.get_mem rest ⟨i, length ▸ small⟩) n ⟨first, here, left⟩ ⟨_, there, right⟩
      · rintro apart b at_ n ⟨items, found, left⟩ ⟨items', found', right⟩
        rw [here] at found
        cases found
        rcases List.getElem_of_mem at_ with ⟨i, small, rfl⟩
        have there := all i small (length ▸ small)
        have same := there.symm.trans found'
        cases same
        exact apart _ (List.get_mem lists ⟨i, length ▸ small⟩) n left right

section Sets

variable {heap : Heap} {inside region : NodeId → Prop} (closed : Region heap inside region)

include closed

theorem Region.attributes_type {n : NodeId} (member : region n) {attrs : List NodeId}
    (listed : siblings heap (heap.get n).attributes = some attrs) :
    ∀ a ∈ attrs, (heap.get a).type = .attribute := by
  rcases closed.image member with ⟨image, _, document | attribute_⟩
  · rcases closed.linked.attributes document with ⟨attrs', chained, known⟩
    rw [image.attributes] at listed
    have same := (follow_eq_some_iff.mp listed).1.unique chained
    subst same
    exact fun a at_ => (known a at_).2
  · rw [image.attributes, attribute_.attributes] at listed
    have none_ : siblings heap none = some [] := siblings_of_chain .nil nofun
    rw [none_] at listed
    cases listed
    exact nofun

/-- Steps to children, to the node itself and to attributes lead from
different nodes to different nodes. -/
theorem Region.leadsApart_near {head : ExprNode}
    (near : (head.type = .select ∨ head.type = .all) ∨ head.type = .self ∨ head.type = .attr ∨
      head.type = .attrAll) {nodes : List NodeId} (members : ∀ n ∈ nodes, region n)
    (distinct : NoTwice (nodes.map (item heap))) : LeadsApart head heap nodes := by
  rw [noTwice_iff_pairwise, List.pairwise_map] at distinct
  apply List.Pairwise.imp_of_mem _ distinct
  rintro a b atA atB different e ⟨first, found, left⟩ ⟨second, found', right⟩
  rcases near with down | self | attr | attrAll
  · rcases closed.yields_child down a (members a atA) with ⟨first', foundA, spec⟩
    rcases closed.yields_child down b (members b atB) with ⟨second', foundB, spec'⟩
    rw [foundA] at found
    rw [foundB] at found'
    cases found
    cases found'
    have below := ((spec e).mp left).1
    have below' := ((spec' e).mp right).1
    have same := below.2.owner_unique below'.2
    have itemB := closed.item_node (members b atB) below'.1
    rw [← same] at itemB
    exact different _ (closed.item_node (members a atA) below.1) itemB
  · have selfOf : ∀ n items, stepItems head heap n = some items → .node e ∈ items →
        item heap n = .node e := by
      intro n items found at_
      rw [stepItems_axis (by rw [self]; rfl), self] at found
      cases found
      unfold getSelf at at_
      split at at_
      · exact (List.mem_singleton.mp at_).symm
      · cases at_
    exact different e (selfOf a first found left) (selfOf b second found' right)
  · unfold stepItems at found
    rw [attr] at found
    rcases Option.map_eq_some_iff.mp found with ⟨value, _, rfl⟩
    cases value with
    | none => cases left
    | some value => cases List.mem_singleton.mp left
  · unfold stepItems at found
    rw [attrAll] at found
    rcases Option.map_eq_some_iff.mp found with ⟨attrs, listed, rfl⟩
    have types : ∀ a ∈ attrs, (heap.get a).type = .attribute := closed.attributes_type (members a atA) listed
    rcases List.mem_map.mp left with ⟨attr, at_, same⟩
    unfold item at same
    rw [if_pos (types attr at_)] at same
    cases same

/-- Steps to descendants do so where no node is below another. -/
theorem Region.leadsApart_below {head : ExprNode} (descendant : head.type = .descendant)
    {nodes : List NodeId} (members : ∀ n ∈ nodes, region n)
    (distinct : NoTwice (nodes.map (item heap)))
    (apart : ∀ a ∈ nodes, ∀ b ∈ nodes, inside (origin heap a) → inside (origin heap b) →
      ¬ Below heap.links (origin heap a) (origin heap b)) : LeadsApart head heap nodes := by
  rw [noTwice_iff_pairwise, List.pairwise_map] at distinct
  apply List.Pairwise.imp_of_mem _ distinct
  rintro a b atA atB different e ⟨first, found, left⟩ ⟨second, found', right⟩
  rcases closed.yields_descendant descendant a (members a atA) with ⟨first', foundA, spec⟩
  rcases closed.yields_descendant descendant b (members b atB) with ⟨second', foundB, spec'⟩
  rw [foundA] at found
  rw [foundB] at found'
  cases found
  cases found'
  have below := ((spec e).mp left).1
  have below' := ((spec' e).mp right).1
  rcases Within.total below.2.to_reflTransGen below'.2.to_reflTransGen with within | within
  · rcases within_iff_eq_or_below.mp within with same | inner
    · have itemB := closed.item_node (members b atB) below'.1
      rw [same] at itemB
      exact different _ (closed.item_node (members a atA) below.1) itemB
    · exact apart a atA b atB below.1 below'.1 inner
  · rcases within_iff_eq_or_below.mp within with same | inner
    · have itemB := closed.item_node (members b atB) below'.1
      rw [← same] at itemB
      exact different _ (closed.item_node (members a atA) below.1) itemB
    · exact apart b atB a atA below'.1 below.1 inner

end Sets

/-! ## Paths -/

theorem pick_sublist (nodes : List NodeId) (flags : List Bool) : (pick nodes flags).Sublist nodes := by
  induction nodes generalizing flags with
  | nil => exact .slnil
  | cons node rest inductionHypothesis =>
      cases flags with
      | nil => exact List.nil_sublist _
      | cons flag flags =>
          cases flag with
          | false => exact (inductionHypothesis flags).cons node
          | true => exact (inductionHypothesis flags).cons_cons node

section Paths

variable {Num : Type} [Double Num] {env : Env Num} {depth : Nat} {heap : Heap}
  {inside region : NodeId → Prop} (setting : Setting env heap inside region) {current : NodeId}
  (member : region current)

include setting member

/-- A predicate repeats nothing. -/
theorem Path.filter_noTwice {text : Bytes} {tree predicate filtered : Expr} (path : Path text tree)
    (built : filterStep tree predicate = some filtered)
    {items : List Item} (listed : itemsOf env depth tree current heap = some items)
    (distinct : NoTwice items) {result : List Item}
    (yielded : itemsOf env depth filtered current heap = some result) : NoTwice result := by
  rcases path.alone with ⟨head, children, rfl⟩
  cases built
  unfold itemsOf at listed yielded
  rcases Option.bind_eq_some_iff.mp listed with ⟨⟨value, middle⟩, begun, listed⟩
  rcases Option.bind_eq_some_iff.mp listed with ⟨nodes, known, same⟩
  cases same
  rcases Option.bind_eq_some_iff.mp yielded with ⟨⟨last, after⟩, done, yielded⟩
  rcases Option.bind_eq_some_iff.mp yielded with ⟨nodes', known', same⟩
  cases same
  rcases (path.stays env depth).found setting member begun with ⟨grown, nodes'', found⟩
  rw [found.listed] at known
  cases known
  cases value with
  | nodeset set =>
      rcases filter_spec rfl begun found done with
        ⟨sources, inGrown, which, copies, flags, rfl, made, _⟩
      have sourced : ∀ s ∈ numbered (pick sources flags), grown s.1 := by
        intro s at_
        have picked := List.mem_map_of_mem (f := Prod.fst) at_
        rw [numbered_fst] at picked
        exact inGrown s.1 (pick_subset sources flags picked)
      have kept := found.setting.items made sourced
      have listed' : members (.nodeset copies.head? : RValue Num) after = some copies := made.listed
      rw [listed'] at known'
      cases known'
      rw [kept, items_numbered]
      have whole : NoTwice (sources.map (item middle)) := by
        rcases which with rfl | ⟨first, rfl, _, below⟩
        · exact distinct
        · -- the children of a root
          have isFirst : first ∈ nodes := by
            have start := (follow_eq_some_iff.mp (show siblings middle (some first) = some nodes from
              found.listed)).1.start_eq
            exact List.mem_of_mem_head? start.symm
          have child : ¬ BesideAxis .select := by
            unfold BesideAxis
            decide
          apply @Region.stepItems_noTwice middle inside grown found.setting.closed
            { type := .select, kind := anyNode } (.inl rfl) child first (found.inRegion first isFirst)
          unfold stepItems axisNodes
          simp only [below, Option.bind_eq_bind, Option.bind_some, Option.map_some, xpathNodeKind_anyNode,
            List.filter_true]
          rw [items_numbered]
      exact List.Nodup.sublist (((pick_sublist sources flags).map _).filterMap _) whole
  | null | bool | int | number | string =>
      rw [xpathExecuteScalar_filter, begun] at done
      cases done
      have none_ : siblings middle none = some [] := siblings_of_chain .nil nofun
      rw [show members (.nodeset none : RValue Num) middle = some [] from none_] at known'
      cases known'
      exact List.nodup_nil

/-- A step behind a path repeats no node exactly where no two members of the
path lead to one. -/
theorem Path.step_noTwice_iff {text : Bytes} {tree : Expr} (path : Path text tree) {head : ExprNode}
    (follows : Follows head) (plain : ¬ BesideAxis head.type) {nodes : List NodeId} {middle : Heap}
    (found : memberNodes env depth text current heap = some (nodes, middle)) {items : List Item}
    (yielded : itemsOf env depth (.node head tree .null) current heap = some items) :
    NoTwice items ↔ LeadsApart head middle nodes := by
  rcases memberNodes_found path setting member found with ⟨value, grown, begun, inGrown⟩
  have some_ : tree ≠ .null := by
    rcases path.alone with ⟨_, _, rfl⟩
    exact nofun
  have further := (inGrown.stepOver follows begun some_).itemsOf
  rw [further] at yielded
  rcases Option.map_eq_some_iff.mp yielded with ⟨lists, listed, rfl⟩
  rw [noTwice_flatten, leadsApart_iff listed]
  apply and_iff_right
  intro list at_
  rcases List.forall₂_iff_get.mp (mapM_eq_some_iff.mp listed) with ⟨length, all⟩
  rcases List.getElem_of_mem at_ with ⟨i, small, rfl⟩
  have here := all i (length ▸ small) small
  exact inGrown.setting.closed.stepItems_noTwice follows plain
    (inGrown.inRegion _ (List.get_mem nodes ⟨i, length ▸ small⟩)) here

/-- A path repeats no node where its members are all different and its step is
one to children, to the node itself or to attributes, or one to descendants
and no node of the path is below another. -/
theorem Path.step_noTwice {text : Bytes} {tree : Expr} (path : Path text tree) {head : ExprNode}
    (near : ((head.type = .select ∨ head.type = .all) ∨ head.type = .self ∨ head.type = .attr ∨
      head.type = .attrAll) ∨ (head.type = .descendant ∧ ∀ a b,
        Selected env depth text current heap a → Selected env depth text current heap b →
        ¬ Below heap.links a b))
    {items : List Item} (listed : yields env depth text current heap = some items)
    (distinct : NoTwice items) {result : List Item}
    (yielded : itemsOf env depth (.node head tree .null) current heap = some result) :
    NoTwice result := by
  have follows : Follows head := by
    rcases near with ((type | type) | type | type | type) | ⟨type, _⟩
    · exact .inl (by rw [type]; rfl)
    · exact .inl (by rw [type]; rfl)
    · exact .inl (by rw [type]; rfl)
    · exact .inr (.inl type)
    · exact .inr (.inr type)
    · exact .inl (by rw [type]; rfl)
  have plain : ¬ BesideAxis head.type := by
    unfold BesideAxis
    rcases near with ((type | type) | type | type | type) | ⟨type, _⟩ <;> rw [type] <;> decide
  rw [yields_eq path] at listed
  have known := listed
  unfold itemsOf at known
  rcases Option.bind_eq_some_iff.mp known with ⟨⟨value, middle⟩, begun, known⟩
  rcases Option.bind_eq_some_iff.mp known with ⟨nodes, members_, same⟩
  cases same
  have found : memberNodes env depth text current heap = some (nodes, middle) := by
    unfold memberNodes
    rw [path.compile]
    simp only [Option.bind_eq_bind, Option.bind_some]
    rw [begun]
    simp only [Option.bind_some]
    rw [members_]
    rfl
  rw [path.step_noTwice_iff setting member follows plain found yielded]
  rcases memberNodes_found path setting member found with ⟨value', grown, begun', inGrown⟩
  have closed := inGrown.setting.closed
  rcases near with near | ⟨type, apart⟩
  · exact closed.leadsApart_near near inGrown.inRegion distinct
  · apply closed.leadsApart_below type inGrown.inRegion distinct
    intro a atA b atB insideA insideB below
    have same := setting.evaluated begun
    have shows_ : ∀ n ∈ nodes, inside (origin middle n) →
        Selected env depth text current heap (origin middle n) := by
      intro n at_ document
      refine ⟨_, ?_, inGrown.shows.mpr ⟨n, at_, document, rfl⟩⟩
      rw [yields_eq path, listed]
    apply apart _ _ (shows_ a atA insideA) (shows_ b atB insideB)
    exact (setting.closed.below_keep same insideA).mp below

end Paths

theorem twoInRow_made : Made 0 (memoryAfter 60 twoInRow) 1 := by
  refine ⟨Nat.zero_le 1, ?_, ?_⟩ <;> decide

end TurboXSL
