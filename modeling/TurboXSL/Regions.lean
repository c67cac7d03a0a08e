import Mathlib.Data.List.Find
import TurboXSL.Selections

namespace TurboXSL

open Library

/-!
# What location paths come to

A region is a set of nodes that holds the documents, their attributes and
copies of such nodes, and that no link leaves.  The axes stay inside of it and
read nothing else, so they give the same in every later memory that keeps
it.  The sibling links of a copy are those of a selection, which is why
selections belong to the region with all their members.
-/

/-- An attribute of an element, or one that a step has made. -/
structure AttributeNode (heap : Heap) (inside : NodeId → Prop) (n : NodeId) : Prop where
  type : (heap.get n).type = .attribute
  children : (heap.get n).children = none
  attributes : (heap.get n).attributes = none
  parent : ∀ p, (heap.get n).parent = some p → inside p

/-- The documents `inside`, and what paths can come to from them. -/
structure Region (heap : Heap) (inside region : NodeId → Prop) : Prop where
  linked : Linked heap inside
  bound : ∀ {n}, region n → n < heap.size
  document : ∀ {n}, inside n → region n
  next : ∀ {n m}, region n → (heap.get n).next = some m → region m
  prev : ∀ {n m}, region n → (heap.get n).prev = some m → region m
  copy : ∀ {n src}, region n → (heap.get n).original = some src →
    region src ∧ CopyOf heap src n
  source : ∀ {n}, region n → (heap.get n).original = none →
    inside n ∨ AttributeNode heap inside n
  attributes : ∀ {n attrs}, inside n → Siblings heap (heap.get n).attributes attrs →
    ∀ a ∈ attrs, region a

/-- Behind a member of a chain stands a member. -/
theorem chain_next {next : NodeId → Ptr} {start : Ptr} {nodes : List NodeId}
    (chained : Chain next start nodes) {n m : NodeId} (member : n ∈ nodes)
    (link : next n = some m) : m ∈ nodes := by
  rcases chained.suffix_of_mem member with ⟨rest, part, suffix⟩
  cases part with
  | cons _ _ tail =>
      rw [link] at tail
      cases tail with
      | cons _ others _ =>
          exact suffix.subset (List.mem_cons_of_mem n List.mem_cons_self)

/-! ## What a copy stands for -/

/-- The end of the `original` links, at most `fuel` of them. -/
def originAfter : Nat → Heap → NodeId → NodeId
  | 0, _, n => n
  | fuel + 1, heap, n =>
      match (heap.get n).original with
      | none => n
      | some src => originAfter fuel heap src

/-- The node that a copy of copies was made of; copies are younger than their
sources. -/
def origin (heap : Heap) (n : NodeId) : NodeId := originAfter n heap n

theorem CopyChain.le {heap : Heap} {d c : NodeId} {depth : Nat} (chain : CopyChain heap d depth c) :
    d ≤ c := by
  induction chain with
  | document => exact Nat.le_refl d
  | copy _ copy inductionHypothesis =>
      exact Nat.le_trans inductionHypothesis (Nat.le_of_lt copy.older)

theorem CopyChain.originAfter_eq {heap : Heap} {d c : NodeId} {depth : Nat}
    (chain : CopyChain heap d depth c) (plain : (heap.get d).original = none) {fuel : Nat}
    (enough : c ≤ fuel + d) : originAfter fuel heap c = d := by
  induction chain generalizing fuel with
  | document =>
      cases fuel with
      | zero => rfl
      | succ fuel =>
          unfold originAfter
          rw [plain]
  | copy chain copy inductionHypothesis =>
      have above := Nat.lt_of_le_of_lt chain.le copy.older
      cases fuel with
      | zero => exact absurd (Nat.zero_add d ▸ enough) (Nat.not_le.mpr above)
      | succ fuel =>
          unfold originAfter
          rw [copy.original]
          apply inductionHypothesis
          rw [Nat.succ_add] at enough
          exact Nat.le_of_lt_succ (Nat.lt_of_lt_of_le copy.older enough)

theorem CopyChain.origin_eq {heap : Heap} {d c : NodeId} {depth : Nat}
    (chain : CopyChain heap d depth c) (plain : (heap.get d).original = none) :
    origin heap c = d := chain.originAfter_eq plain (Nat.le_add_right c d)

/-- What a member of a node-set is: a node of a document, or an attribute, of
which only the name and the value count. -/
inductive Item where
  | node (n : NodeId)
  | attribute (name content : Option Bytes)
deriving DecidableEq, Repr

def item (heap : Heap) (n : NodeId) : Item :=
  if (heap.get n).type = .attribute then .attribute (heap.get n).name (heap.get n).content
  else .node (origin heap n)

namespace Region

variable {heap : Heap} {inside region : NodeId → Prop} (closed : Region heap inside region)

include closed

/-- Every node of a region is a node of a document or an attribute, or a copy
of one. -/
theorem chain {n : NodeId} (member : region n) : Exists fun d => Exists fun depth =>
    CopyChain heap d depth n ∧ region d ∧ (heap.get d).original = none := by
  induction n using Nat.strongRecOn with
  | ind n inductionHypothesis =>
      cases here : (heap.get n).original with
      | none => exact ⟨n, 0, .document, member, here⟩
      | some src =>
          rcases closed.copy member here with ⟨earlier, copy⟩
          rcases inductionHypothesis src copy.older earlier with ⟨d, depth, chain, known, plain⟩
          exact ⟨d, depth + 1, .copy chain copy, known, plain⟩

/-- The node that a member stands for, and what it shares with it. -/
theorem image {n : NodeId} (member : region n) :
    Image heap (origin heap n) n ∧ region (origin heap n) ∧
      (inside (origin heap n) ∨ AttributeNode heap inside (origin heap n)) := by
  rcases closed.chain member with ⟨d, depth, chain, known, plain⟩
  rw [chain.origin_eq plain]
  exact ⟨chain.image plain, known, closed.source known plain⟩

theorem origin_plain {n : NodeId} (member : region n) :
    (heap.get (origin heap n)).original = none := by
  rcases closed.chain member with ⟨d, depth, chain, known, plain⟩
  rwa [chain.origin_eq plain]

/-- A node of a document stands for itself. -/
theorem origin_inside {n : NodeId} (member : inside n) : origin heap n = n :=
  CopyChain.document.origin_eq (closed.linked.plain member)

/-- A copy is the same item as its source. -/
theorem item_copy {src n : NodeId} (member : region n) (copy : CopyOf heap src n) :
    item heap n = item heap src := by
  have earlier := (closed.copy member copy.original).1
  rcases closed.chain earlier with ⟨d, depth, chain, known, plain⟩
  unfold item
  rw [copy.type, copy.name, copy.content, (CopyChain.copy chain copy).origin_eq plain,
    chain.origin_eq plain]

theorem parent {n p : NodeId} (member : region n) (up : (heap.get n).parent = some p) :
    inside p := by
  rcases closed.image member with ⟨image, _, document | attribute_⟩
  · rw [image.parent] at up
    exact (closed.linked.forest.up document up).1
  · rw [image.parent] at up
    exact attribute_.parent p up

/-- The children of a member, which are those of a node of a document. -/
theorem row {n : NodeId} (member : region n) : Exists fun row =>
    Siblings heap (heap.get n).children row ∧ ∀ m ∈ row, inside m := by
  rcases closed.image member with ⟨image, _, document | attribute_⟩
  · rcases closed.linked.row document with ⟨row, rowOf, members⟩
    rw [image.children]
    exact ⟨row, rowOf.chain, members⟩
  · rw [image.children, attribute_.children]
    exact ⟨[], .nil, nofun⟩

theorem siblings_children {n : NodeId} (member : region n) : Exists fun row =>
    siblings heap (heap.get n).children = some row ∧ ∀ m ∈ row, inside m := by
  rcases closed.row member with ⟨row, chain, members⟩
  refine ⟨row, follow_eq_some_iff.mpr ⟨chain, ?_⟩, members⟩
  exact closed.linked.forest.length_le chain.nodup members

/-- The nodes below a member. -/
theorem below {n : NodeId} (member : region n) : Exists fun nodes =>
    Preorder heap.links (heap.get n).children nodes ∧ nodes.Nodup ∧
      (∀ m ∈ nodes, inside m ∧ (heap.get m).type ≠ .empty) := by
  rcases closed.image member with ⟨image, _, document | attribute_⟩
  · rcases closed.linked.descendants document with ⟨nodes, walked, distinct, lower, _⟩
    rw [image.children]
    refine ⟨nodes, walked, distinct, ?_⟩
    intro m at_
    have down := (lower m).mp at_
    refine ⟨closed.linked.forest.inside_within document down.to_reflTransGen, ?_⟩
    rcases closed.linked.below_type document down with type | type <;>
    · rw [type]
      decide
  · rw [image.children, attribute_.children]
    exact ⟨[], .nil, List.nodup_nil, nofun⟩

theorem addAllChildren_below {n : NodeId} (member : region n) : Exists fun nodes =>
    (∀ m ∈ nodes, inside m) ∧ ∀ kind, addAllChildren heap kind heap.size (heap.get n).children =
      some (ofKind heap kind nodes) := by
  rcases closed.below member with ⟨nodes, walked, distinct, members⟩
  refine ⟨nodes, fun m at_ => (members m at_).1, fun kind => ?_⟩
  apply addAllChildren_eq walked kind fun m at_ => (members m at_).2
  exact closed.linked.forest.length_le distinct fun m at_ => (members m at_).1

/-- The nodes above a member. -/
theorem owners {n : NodeId} (member : region n) : Exists fun line =>
    Chain heap.links.parent (heap.links.parent n) line ∧ ∀ m ∈ line, inside m := by
  cases up : heap.links.parent n with
  | none => exact ⟨[], .nil, nofun⟩
  | some p =>
      have above := closed.parent member up
      rcases closed.linked.forest.owners above with ⟨line, chained, members⟩
      refine ⟨p :: line, .cons p line chained, ?_⟩
      intro m at_
      rcases List.mem_cons.mp at_ with rfl | later
      · exact above
      · exact (members m later).1

theorem properAncestors_eq {n : NodeId} (member : region n) : Exists fun line =>
    Chain heap.links.parent (heap.links.parent n) line ∧ (∀ m ∈ line, inside m) ∧
      properAncestors heap n =
        some (line.takeWhile fun node => ¬ xmlsEquals (heap.get node).name (some xslSRoot)) := by
  rcases closed.owners member with ⟨line, chained, members⟩
  refine ⟨line, chained, members, ?_⟩
  have short := closed.linked.forest.length_le chained.nodup members
  have found := follow_eq_some_iff.mpr ⟨chained, short⟩
  unfold properAncestors
  rw [show follow (fun node => (heap.get node).parent) heap.size (heap.get n).parent =
    some line from found]
  rfl

/-- A member whose sibling links are followed. -/
theorem beside {n : NodeId} (member : region n) : region ((heap.get n).original.getD n) := by
  cases here : (heap.get n).original with
  | none => exact member
  | some src => exact (closed.copy member here).1

omit closed in
/-- Sibling links lead from members to members. -/
theorem chain_region {link : XmlNode → Ptr}
    (closedLink : ∀ {n m}, region n → link (heap.get n) = some m → region m) {start : Ptr}
    {nodes : List NodeId} (chained : Chain (fun n => link (heap.get n)) start nodes)
    (begins : ∀ n, start = some n → region n) : ∀ n ∈ nodes, region n := by
  induction chained with
  | nil => exact nofun
  | cons first rest _ inductionHypothesis =>
      have here := begins first rfl
      intro n at_
      rcases List.mem_cons.mp at_ with rfl | later
      · exact here
      · exact inductionHypothesis (fun m onward => closedLink here onward) n later

theorem siblingsBeside_region {side : XmlNode → Ptr} (follows : side = XmlNode.prev ∨ side = XmlNode.next)
    {n : NodeId} (member : region n) {nodes : List NodeId}
    (found : siblingsBeside heap side n = some nodes) : ∀ m ∈ nodes, region m := by
  have chained := (follow_eq_some_iff.mp found).1
  have start := closed.beside member
  rcases follows with rfl | rfl
  · exact chain_region closed.prev chained fun m here => closed.prev start here
  · exact chain_region closed.next chained fun m here => closed.next start here

theorem withDescendants_region {nodes : List NodeId} (members : ∀ n ∈ nodes, region n)
    (kind : Option Kind) (selected : Bool) (pos : Nat) {sources : List (NodeId × Nat)}
    (found : withDescendants heap kind selected pos nodes = some sources) :
    ∀ s ∈ sources, region s.1 := by
  induction nodes generalizing selected pos sources with
  | nil =>
      cases found
      exact nofun
  | cons node rest inductionHypothesis =>
      have others := fun n at_ => members n (List.mem_cons_of_mem node at_)
      rcases closed.addAllChildren_below (members node List.mem_cons_self) with
        ⟨nodes, inDocument, walked⟩
      have descendants : ∀ s ∈ numbered (ofKind heap kind nodes), region s.1 := by
        intro s at_
        have listed := List.mem_map_of_mem (f := Prod.fst) at_
        rw [numbered_fst] at listed
        exact closed.document (inDocument s.1 (List.mem_filter.mp listed).1)
      unfold withDescendants at found
      rw [walked kind, Option.bind_eq_bind, Option.bind_some] at found
      split at found
      · rcases Option.bind_eq_some_iff.mp found with ⟨later, walk, done⟩
        cases done
        intro s at_
        rcases List.mem_append.mp at_ with front | behind
        · rcases List.mem_cons.mp front with rfl | lower
          · exact members node List.mem_cons_self
          · exact descendants s lower
        · exact inductionHypothesis others _ _ walk s behind
      · rcases Option.bind_eq_some_iff.mp found with ⟨later, walk, done⟩
        cases done
        intro s at_
        rcases List.mem_append.mp at_ with lower | behind
        · split at lower
          · exact descendants s lower
          · exact descendants s ((getLast?_sublist _).subset lower)
        · exact inductionHypothesis others _ _ walk s behind

/-- The axes lead from members to members. -/
theorem axisNodes_region {type : ExprType} {kind : Option Kind} {n : NodeId} (member : region n)
    {sources : List (NodeId × Nat)} (found : axisNodes type heap n kind = some sources) :
    ∀ s ∈ sources, region s.1 := by
  have counted : ∀ {nodes : List NodeId}, (∀ m ∈ nodes, region m) →
      ∀ s ∈ numbered nodes, region s.1 := by
    intro nodes members s at_
    have listed := List.mem_map_of_mem (f := Prod.fst) at_
    rw [numbered_fst] at listed
    exact members s.1 listed
  have filtered : ∀ {nodes : List NodeId}, (∀ m ∈ nodes, region m) →
      ∀ s ∈ numbered (ofKind heap kind nodes), region s.1 := fun members =>
    counted fun m at_ => members m (List.mem_filter.mp at_).1
  have self : ∀ {m}, region m → ∀ k ∈ getSelf heap m kind, region k := by
    intro m here k at_
    unfold getSelf at at_
    split at at_
    · exact List.mem_singleton.mp at_ ▸ here
    · cases at_
  have both : ∀ {first second : List NodeId}, (∀ m ∈ first, region m) → (∀ m ∈ second, region m) →
      ∀ s ∈ numbered first ++ numbered second, region s.1 := by
    intro first second left right s at_
    rcases List.mem_append.mp at_ with front | behind
    · exact counted left s front
    · exact counted right s behind
  rcases closed.siblings_children member with ⟨row, listed, rowInside⟩
  rcases closed.addAllChildren_below member with ⟨lower, lowerInside, walked⟩
  rcases closed.properAncestors_eq member with ⟨line, _, lineInside, above⟩
  have inRow : ∀ m ∈ row, region m := fun m at_ => closed.document (rowInside m at_)
  have inLower : ∀ m ∈ ofKind heap kind lower, region m := fun m at_ =>
    closed.document (lowerInside m (List.mem_filter.mp at_).1)
  have inLine : ∀ m ∈ line.takeWhile (fun node =>
      ¬ xmlsEquals (heap.get node).name (some xslSRoot)), region m := fun m at_ =>
    closed.document (lineInside m ((List.takeWhile_prefix _).subset at_))
  have inLineOfKind : ∀ m ∈ ofKind heap kind (line.takeWhile fun node =>
      ¬ xmlsEquals (heap.get node).name (some xslSRoot)), region m := fun m at_ =>
    inLine m (List.mem_filter.mp at_).1
  unfold axisNodes at found
  simp only [listed, walked, above, Option.bind_eq_bind, Option.bind_some] at found
  cases type
  case self =>
      cases found
      exact counted (self member)
  case parent =>
      cases up : (heap.get n).parent with
      | none =>
          rw [up] at found
          cases found
          exact nofun
      | some p =>
          rw [up] at found
          simp only at found
          split at found
          · cases found
            exact nofun
          · cases found
            exact counted (self (closed.document (closed.parent member up)))
  case descendant =>
      cases found
      exact counted inLower
  case descendantOrSelf =>
      cases found
      exact both (self member) inLower
  case ancestor =>
      cases found
      exact counted inLineOfKind
  case ancestorOrSelf =>
      cases found
      exact both (self member) inLineOfKind
  case precedingSibling | followingSibling =>
      rcases Option.bind_eq_some_iff.mp found with ⟨nodes, beside, done⟩
      cases done
      apply filtered
      exact closed.siblingsBeside_region (by simp) member beside
  case preceding | following =>
      rcases Option.bind_eq_some_iff.mp found with ⟨nodes, beside, done⟩
      apply closed.withDescendants_region ?_ kind false 0 done
      exact closed.siblingsBeside_region (by simp) member beside
  all_goals
    cases found
    exact filtered inRow

/-! ## Later memories -/

variable {after : Heap} (grows : heap.size ≤ after.size)
  (same : ∀ n, region n → after.get n = heap.get n)

include grows same

/-- A region stays one as long as its nodes do not change. -/
theorem keep : Region after inside region where
  linked := by
    have kept : ∀ {n}, inside n → after.get n = heap.get n := fun member =>
      same _ (closed.document member)
    apply closed.linked.congr grows
    · exact fun member => congrArg XmlNode.type (kept member)
    · exact fun member => congrArg XmlNode.children (kept member)
    · exact fun member => congrArg XmlNode.next (kept member)
    · exact fun member => congrArg XmlNode.prev (kept member)
    · exact fun member => congrArg XmlNode.parent (kept member)
    · exact fun member => congrArg XmlNode.original (kept member)
    · intro n member
      rcases closed.linked.attributes member with ⟨attrs, chained, members⟩
      have known := closed.attributes member chained
      refine ⟨attrs, ?_, ?_⟩
      · rw [kept member]
        apply chained.congr
        intro a at_
        rw [same a (known a at_)]
      · intro a at_
        rw [same a (known a at_)]
        exact ⟨Nat.lt_of_lt_of_le (members a at_).1 grows, (members a at_).2⟩
  bound := fun member => Nat.lt_of_lt_of_le (closed.bound member) grows
  document := closed.document
  next := by
    intro n m member link
    rw [same n member] at link
    exact closed.next member link
  prev := by
    intro n m member link
    rw [same n member] at link
    exact closed.prev member link
  copy := by
    intro n src member original
    rw [same n member] at original
    rcases closed.copy member original with ⟨earlier, copy⟩
    exact ⟨earlier, copy.keep grows ⟨_, same n member⟩ (same src earlier)⟩
  source := by
    intro n member plain
    rw [same n member] at plain
    apply (closed.source member plain).imp_right
    intro attribute_
    constructor <;> rw [same n member]
    · exact attribute_.type
    · exact attribute_.children
    · exact attribute_.attributes
    · exact attribute_.parent
  attributes := by
    intro n attrs member chained
    rcases closed.linked.attributes member with ⟨attrs', chained', _⟩
    have known := closed.attributes member chained'
    have moved : Siblings after (after.get n).attributes attrs' := by
      rw [same n (closed.document member)]
      apply chained'.congr
      intro a at_
      rw [same a (known a at_)]
    rw [chained.unique moved]
    exact known

theorem origin_keep {n : NodeId} (member : region n) : origin after n = origin heap n := by
  rcases closed.chain member with ⟨d, depth, chain, known, plain⟩
  have later : Exists fun depth => CopyChain after d depth n := by
    have kept := closed.keep grows same
    rcases kept.chain member with ⟨d', depth', chain', known', plain'⟩
    have meets : ∀ {c e : NodeId} {k : Nat}, CopyChain heap e k c → region c →
        CopyChain after e k c := by
      intro c e k chain
      induction chain with
      | document => exact fun _ => .document
      | copy _ copy inductionHypothesis =>
          intro inRegion
          have here := closed.copy inRegion copy.original
          have there : (after.get _).original = some _ :=
            (congrArg XmlNode.original (same _ inRegion)).trans copy.original
          exact .copy (inductionHypothesis here.1) (kept.copy inRegion there).2
    exact ⟨depth, meets chain member⟩
  rcases later with ⟨depth', chain'⟩
  rw [chain.origin_eq plain]
  apply chain'.origin_eq
  rw [same d known]
  exact plain

theorem item_keep {n : NodeId} (member : region n) : item after n = item heap n := by
  unfold item
  rw [same n member, closed.origin_keep grows same member]

/-- A walk along links of a region ends in the later memory exactly where it
ended before. -/
theorem follow_keep {link : XmlNode → Ptr}
    (closedLink : ∀ {n m}, region n → link (heap.get n) = some m → region m) {start : Ptr}
    (begins : ∀ n, start = some n → region n) :
    follow (fun n => link (after.get n)) after.size start =
      follow (fun n => link (heap.get n)) heap.size start := by
  have linkSame : ∀ n, region n → link (after.get n) = link (heap.get n) := fun n member =>
    congrArg link (same n member)
  apply Option.ext
  intro nodes
  rw [follow_eq_some_iff, follow_eq_some_iff]
  constructor
  · rintro ⟨chained, _⟩
    have members := @chain_region after region link
      (fun member onward => closedLink member ((linkSame _ member) ▸ onward)) start nodes chained
      begins
    have earlier := @Chain.congr _ (fun n => link (heap.get n)) _ _ chained fun n at_ =>
      (linkSame n (members n at_)).symm
    refine ⟨earlier, ?_⟩
    have subset : nodes ⊆ List.range heap.size := fun n at_ =>
      List.mem_range.mpr (closed.bound (members n at_))
    have short := (chained.nodup.subperm subset).length_le
    rwa [List.length_range] at short
  · rintro ⟨chained, short⟩
    have members := chain_region closedLink chained begins
    refine ⟨?_, Nat.le_trans short grows⟩
    exact chained.congr fun n at_ => linkSame n (members n at_)

/-- The attributes of a member. -/
theorem attributes_keep {n : NodeId} (member : region n) :
    (Exists fun attrs => siblings heap (heap.get n).attributes = some attrs ∧
      ∀ a ∈ attrs, region a) ∧
      siblings after (after.get n).attributes = siblings heap (heap.get n).attributes := by
  have chained : Exists fun attrs => Siblings heap (heap.get n).attributes attrs ∧
      ∀ a ∈ attrs, region a := by
    rcases closed.image member with ⟨image, _, document | attribute_⟩
    · rcases closed.linked.attributes document with ⟨attrs, chained, _⟩
      rw [image.attributes]
      exact ⟨attrs, chained, closed.attributes document chained⟩
    · rw [image.attributes, attribute_.attributes]
      exact ⟨[], .nil, nofun⟩
  rcases chained with ⟨attrs, chained, members⟩
  constructor
  · refine ⟨attrs, siblings_of_chain chained fun a at_ => closed.bound (members a at_), members⟩
  · rw [same n member]
    apply closed.follow_keep grows same closed.next
    intro a start
    rw [start] at chained
    cases chained with
    | cons _ rest _ => exact members a List.mem_cons_self

/-- The value of an attribute of a member. -/
theorem xmlGetAttr_keep {n : NodeId} (member : region n) (name : Option Bytes) :
    xmlGetAttr after name (after.size + 1) n = xmlGetAttr heap name (heap.size + 1) n := by
  have solid : ∀ {m : NodeId} (fuel fuel' : Nat), region m → (heap.get m).type ≠ .empty →
      xmlGetAttr after name (fuel + 1) m = xmlGetAttr heap name (fuel' + 1) m := by
    intro m fuel fuel' here type
    rcases closed.attributes_keep grows same here with ⟨⟨attrs, listed, members⟩, kept⟩
    unfold xmlGetAttr
    rw [kept, listed, same m here, if_neg type, if_neg type]
    apply congrArg some
    have find : attrs.find? (fun attr => decide ((after.get attr).name = name)) =
        attrs.find? (fun attr => decide ((heap.get attr).name = name)) := by
      apply List.find?_congr
      intro a at_
      rw [same a (members a at_)]
    rw [find]
    cases first : attrs.find? fun attr => decide ((heap.get attr).name = name) with
    | none => rfl
    | some a =>
        exact congrArg XmlNode.content (same a (members a (List.mem_of_find?_eq_some first)))
  by_cases type : (heap.get n).type = .empty
  · have pos := Nat.zero_lt_of_lt (closed.bound member)
    rcases Nat.exists_eq_succ_of_ne_zero (Nat.ne_of_gt pos) with ⟨k, size⟩
    rcases Nat.exists_eq_succ_of_ne_zero (Nat.ne_of_gt (Nat.lt_of_lt_of_le pos grows)) with
      ⟨k', size'⟩
    rcases closed.image member with ⟨image, _, document | attribute_⟩
    · rcases closed.linked.row document with ⟨row, rowOf, members⟩
      rw [size, size']
      unfold xmlGetAttr
      rw [same n member, if_pos type, if_pos type, image.children]
      cases first : (heap.get (origin heap n)).children with
      | none => rfl
      | some child =>
          have chained := rowOf.chain
          have start := chained.start_eq
          rw [first] at start
          have inRow : child ∈ row := List.mem_of_mem_head? start.symm
          apply solid k' k (closed.document (members child inRow))
          have below : Child heap.links (origin heap n) child := ⟨row, rowOf, inRow⟩
          rcases closed.linked.child_type document below with type | type <;>
          · rw [type]
            decide
    · rw [image.type, attribute_.type] at type
      cases type
  · exact solid _ _ member type

theorem addAllChildren_keep {n : NodeId} (member : region n) (kind : Option Kind) :
    addAllChildren after kind after.size (after.get n).children =
      addAllChildren heap kind heap.size (heap.get n).children := by
  rcases closed.below member with ⟨nodes, walked, distinct, members⟩
  have kept : ∀ m ∈ nodes, after.get m = heap.get m := fun m at_ =>
    same m (closed.document (members m at_).1)
  have later : Preorder after.links (after.get n).children nodes := by
    rw [same n member]
    exact walked.congr (fun m at_ => congrArg XmlNode.children (kept m at_))
      fun m at_ => congrArg XmlNode.next (kept m at_)
  have short := closed.linked.forest.length_le distinct fun m at_ => (members m at_).1
  rw [addAllChildren_eq walked kind (fun m at_ => (members m at_).2) short,
    addAllChildren_eq later kind]
  · apply congrArg some
    apply List.filter_congr
    intro m at_
    rw [kept m at_]
  · intro m at_
    rw [kept m at_]
    exact (members m at_).2
  · exact Nat.le_trans short grows

theorem withDescendants_keep {nodes : List NodeId} (members : ∀ n ∈ nodes, region n)
    (kind : Option Kind) (selected : Bool) (pos : Nat) :
    withDescendants after kind selected pos nodes =
      withDescendants heap kind selected pos nodes := by
  induction nodes generalizing selected pos with
  | nil => rfl
  | cons node rest inductionHypothesis =>
      have first := members node List.mem_cons_self
      have others := fun n at_ => members n (List.mem_cons_of_mem node at_)
      unfold withDescendants
      rw [closed.addAllChildren_keep grows same first kind, same node first]
      simp only [inductionHypothesis others]

theorem siblingsBeside_keep {side : XmlNode → Ptr} (follows : side = XmlNode.prev ∨ side = XmlNode.next)
    {n : NodeId} (member : region n) :
    siblingsBeside after side n = siblingsBeside heap side n := by
  have start := closed.beside member
  unfold siblingsBeside
  simp only
  rw [same n member, same _ start]
  rcases follows with rfl | rfl
  · exact closed.follow_keep grows same closed.prev fun m here => closed.prev start here
  · exact closed.follow_keep grows same closed.next fun m here => closed.next start here

theorem properAncestors_keep {n : NodeId} (member : region n) :
    properAncestors after n = properAncestors heap n := by
  have kept := closed.keep grows same
  rcases closed.properAncestors_eq member with ⟨line, chained, members, found⟩
  rcases kept.properAncestors_eq member with ⟨line', chained', members', found'⟩
  have whole : line' = line := by
    apply chained'.unique
    have start : after.links.parent n = heap.links.parent n := congrArg XmlNode.parent (same n member)
    rw [start]
    apply chained.congr
    intro m at_
    exact congrArg XmlNode.parent (same m (closed.document (members m at_)))
  rw [found, found', whole]
  apply congrArg some
  apply takeWhile_congr
  intro m at_
  rw [same m (closed.document (members m at_))]

/-- An axis yields the same in every later memory that keeps the region. -/
theorem axisNodes_keep {n : NodeId} (member : region n) (type : ExprType) (kind : Option Kind) :
    axisNodes type after n kind = axisNodes type heap n kind := by
  have passes : ∀ {nodes : List NodeId}, (∀ m ∈ nodes, region m) →
      ofKind after kind nodes = ofKind heap kind nodes := by
    intro nodes members
    apply List.filter_congr
    intro m at_
    rw [same m (members m at_)]
  have self : ∀ {m}, region m → getSelf after m kind = getSelf heap m kind := by
    intro m here
    unfold getSelf
    rw [same m here]
  have row : siblings after (after.get n).children = siblings heap (heap.get n).children := by
    rw [same n member]
    rcases closed.siblings_children member with ⟨row, _, members⟩
    apply closed.follow_keep grows same closed.next
    intro m here
    rcases closed.row member with ⟨row, chained, inDocument⟩
    rw [here] at chained
    cases chained with
    | cons _ rest _ => exact closed.document (inDocument m List.mem_cons_self)
  have lower := closed.addAllChildren_keep grows same member kind
  have above := closed.properAncestors_keep grows same member
  rcases closed.siblings_children member with ⟨children, listed, rowInside⟩
  rcases closed.properAncestors_eq member with ⟨line, _, lineInside, line_⟩
  have rowSame := passes fun m at_ => closed.document (rowInside m at_)
  have lineSame := @passes (line.takeWhile fun node =>
    ¬ xmlsEquals (heap.get node).name (some xslSRoot)) fun m at_ =>
      closed.document (lineInside m ((List.takeWhile_prefix _).subset at_))
  have onSide : ∀ {side : XmlNode → Ptr}, side = XmlNode.prev ∨ side = XmlNode.next →
      ∀ nodes, siblingsBeside heap side n = some nodes →
        ofKind after kind nodes = ofKind heap kind nodes ∧
        withDescendants after kind false 0 nodes = withDescendants heap kind false 0 nodes := by
    intro side follows nodes found
    have members := closed.siblingsBeside_region follows member found
    exact ⟨passes members, closed.withDescendants_keep grows same members kind false 0⟩
  unfold axisNodes
  cases type
  case self => rw [self member]
  case parent =>
      rw [same n member]
      cases up : (heap.get n).parent with
      | none => rfl
      | some p =>
          have here := closed.document (closed.parent member up)
          simp only
          rw [same p here, self here]
  case descendant => rw [lower]
  case descendantOrSelf => rw [lower, self member]
  case ancestor =>
      simp only
      rw [above, line_]
      simp only [Option.bind_eq_bind, Option.bind_some]
      exact congrArg (fun nodes => some (numbered nodes)) lineSame
  case ancestorOrSelf =>
      simp only
      rw [above, line_, self member]
      simp only [Option.bind_eq_bind, Option.bind_some]
      exact congrArg (fun nodes => some (numbered _ ++ numbered nodes)) lineSame
  case precedingSibling =>
      simp only
      rw [closed.siblingsBeside_keep grows same (.inl rfl) member]
      cases found : siblingsBeside heap XmlNode.prev n with
      | none => rfl
      | some nodes => exact congrArg (fun nodes => some (numbered nodes)) (onSide (.inl rfl) nodes found).1
  case followingSibling =>
      simp only
      rw [closed.siblingsBeside_keep grows same (.inr rfl) member]
      cases found : siblingsBeside heap XmlNode.next n with
      | none => rfl
      | some nodes => exact congrArg (fun nodes => some (numbered nodes)) (onSide (.inr rfl) nodes found).1
  case preceding =>
      simp only
      rw [closed.siblingsBeside_keep grows same (.inl rfl) member]
      cases found : siblingsBeside heap XmlNode.prev n with
      | none => rfl
      | some nodes => exact (onSide (.inl rfl) nodes found).2
  case following =>
      simp only
      rw [closed.siblingsBeside_keep grows same (.inr rfl) member]
      cases found : siblingsBeside heap XmlNode.next n with
      | none => rfl
      | some nodes => exact (onSide (.inr rfl) nodes found).2
  all_goals
    simp only
    rw [row, listed]
    exact congrArg (fun nodes => some (numbered nodes)) rowSame

omit grows same

/-- A region with more nodes, whose links lead to it or to each other. -/
theorem add {new : NodeId → Prop} (bound : ∀ {n}, new n → n < heap.size)
    (next : ∀ {n m}, new n → (heap.get n).next = some m → region m ∨ new m)
    (prev : ∀ {n m}, new n → (heap.get n).prev = some m → region m ∨ new m)
    (copy : ∀ {n src}, new n → (heap.get n).original = some src →
      (region src ∨ new src) ∧ CopyOf heap src n)
    (source : ∀ {n}, new n → (heap.get n).original = none → AttributeNode heap inside n) :
    Region heap inside fun n => region n ∨ new n where
  linked := closed.linked
  bound := fun member => member.elim closed.bound bound
  document := fun member => .inl (closed.document member)
  next := by
    rintro n m (old | fresh) link
    · exact .inl (closed.next old link)
    · exact next fresh link
  prev := by
    rintro n m (old | fresh) link
    · exact .inl (closed.prev old link)
    · exact prev fresh link
  copy := by
    rintro n src (old | fresh) original
    · exact (closed.copy old original).imp_left .inl
    · exact copy fresh original
  source := by
    rintro n (old | fresh) plain
    · exact closed.source old plain
    · exact .inr (source fresh plain)
  attributes := fun member chained a at_ => .inl (closed.attributes member chained a at_)

/-- Evaluation keeps a region that does not hold the node of the local
variables. -/
theorem allocates {locals : Ptr} (apart : ∀ l, locals = some l → ¬ region l)
    (allocates : Allocates locals heap after) : Region after inside region := by
  apply closed.keep allocates.grows
  intro n member
  exact allocates.same n (closed.bound member) fun here => apart n here member

/-- The copies of members belong to the region. -/
theorem appended {locals : Ptr} (apart : ∀ l, locals = some l → ¬ region l) {copies : List NodeId}
    {sources : List (NodeId × Nat)} (made : Appended locals heap after none copies sources)
    (members : ∀ s ∈ sources, region s.1) :
    Region after inside fun n => region n ∨ n ∈ copies := by
  have kept : Region after inside region := by
    apply closed.keep made.grows
    intro n member
    exact made.same n (closed.bound member) nofun fun here => apart n here member
  have original : ∀ c ∈ copies, Exists fun s => s ∈ sources ∧ CopyOf after s.1 c := by
    intro c at_
    rcases List.forall₂_iff_get.mp made.copied with ⟨length, all⟩
    rcases List.getElem_of_mem at_ with ⟨i, small, rfl⟩
    exact ⟨_, List.get_mem _ ⟨i, length ▸ small⟩, (all i small (length ▸ small)).1⟩
  apply kept.add
  · exact fun at_ => (made.fresh _ at_).2
  · intro n m at_ link
    exact .inr (chain_next made.chain at_ link)
  · intro n m at_ link
    exact (made.back n at_ m link).elim .inr nofun
  · intro n src at_ link
    rcases original n at_ with ⟨s, source, copy⟩
    rw [copy.original] at link
    cases link
    exact ⟨.inl (members s source), copy⟩
  · intro n at_ link
    rcases original n at_ with ⟨s, _, copy⟩
    rw [copy.original] at link
    cases link

end Region

end TurboXSL
