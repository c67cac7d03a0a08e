import TurboXSL.Library.Arena
import Mathlib.Logic.Relation
import Mathlib.Data.List.Perm.Subperm

namespace Library

/-!
# Forests held together by four links

Every node knows its first child, the next and the previous sibling and its
owner.  A `Row` is the list of children of one owner, with all links in
place; `LinkedForest` says that every node of a set has such a row, that owners and
earlier siblings are older than the nodes behind them, and that the links
between siblings fit together.  It is enough to order the nodes: `Within` is
a tree order, `Preorder` lists the nodes below, the chains of `parent`,
`prev` and `next` end.
-/

structure Links where
  children : Nat → Option Nat
  next : Nat → Option Nat
  prev : Nat → Option Nat
  parent : Nat → Option Nat

/-- The siblings from a pointer on, below `owner` and behind `prev`. -/
inductive Row (links : Links) (owner : Nat) : Option Nat → Option Nat → List Nat → Prop where
  | nil (prev : Option Nat) : Row links owner prev none []
  | cons (prev : Option Nat) (node : Nat) (rest : List Nat)
      (up : links.parent node = some owner) (back : links.prev node = prev)
      (younger : owner < node) (tail : Row links owner (some node) (links.next node) rest) :
      Row links owner prev (some node) (node :: rest)

/-- All children of a node. -/
abbrev Children (links : Links) (owner : Nat) (row : List Nat) : Prop :=
  Row links owner none (links.children owner) row

def Child (links : Links) (owner node : Nat) : Prop :=
  Exists fun row => Children links owner row ∧ node ∈ row

/-- Descendant or self. -/
abbrev Within (links : Links) : Nat → Nat → Prop := Relation.ReflTransGen (Child links)

/-- Proper descendant. -/
abbrev Below (links : Links) : Nat → Nat → Prop := Relation.TransGen (Child links)

namespace Row

variable {links : Links} {owner : Nat} {prev start : Option Nat} {row : List Nat}

theorem chain (children : Row links owner prev start row) : Chain links.next start row := by
  induction children with
  | nil => exact .nil
  | cons prev node rest up back younger tail inductionHypothesis =>
      exact .cons node rest inductionHypothesis

theorem owned (children : Row links owner prev start row) {node : Nat} (member : node ∈ row) :
    links.parent node = some owner ∧ owner < node := by
  induction children with
  | nil => cases member
  | cons prev first rest up back younger tail inductionHypothesis =>
      rcases List.mem_cons.mp member with same | later
      · exact same ▸ ⟨up, younger⟩
      · exact inductionHypothesis later

/-- The siblings behind a member. -/
theorem after (children : Row links owner prev start row) {front behind : List Nat} {node : Nat}
    (split : row = front ++ node :: behind) : Chain links.next (links.next node) behind := by
  induction children generalizing front with
  | nil => exact absurd split.symm (List.append_ne_nil_of_right_ne_nil _ (List.cons_ne_nil _ _))
  | cons prev first rest up back younger tail inductionHypothesis =>
      cases front with
      | nil =>
          cases split
          exact tail.chain
      | cons head front =>
          exact inductionHypothesis (List.cons.inj split).2

/-- The siblings before a member, the nearest first. -/
theorem before (children : Row links owner prev start row) {front behind : List Nat} {node : Nat}
    (split : row = front ++ node :: behind) {earlier : List Nat}
    (chained : Chain links.prev prev earlier) :
    Chain links.prev (links.prev node) (front.reverse ++ earlier) := by
  induction children generalizing front earlier with
  | nil => exact absurd split.symm (List.append_ne_nil_of_right_ne_nil _ (List.cons_ne_nil _ _))
  | cons prev first rest up back younger tail inductionHypothesis =>
      cases front with
      | nil =>
          cases split
          rw [back]
          exact chained
      | cons head front =>
          have parts := List.cons.inj split
          have grown : Chain links.prev (some first) (first :: earlier) := by
            apply Chain.cons
            rw [back]
            exact chained
          have found := inductionHypothesis parts.2 grown
          rw [parts.1] at found
          rw [List.reverse_cons, List.append_assoc]
          exact found

/-- A row only reads the links of its own members. -/
theorem congr {other : Links} (children : Row links owner prev start row)
    (parent : ∀ node ∈ row, other.parent node = links.parent node)
    (next : ∀ node ∈ row, other.next node = links.next node)
    (back : ∀ node ∈ row, other.prev node = links.prev node) :
    Row other owner prev start row := by
  induction children with
  | nil => exact .nil _
  | cons prev first rest up backLink younger tail inductionHypothesis =>
      refine .cons prev first rest ?_ ?_ younger ?_
      · rw [parent first List.mem_cons_self]
        exact up
      · rw [back first List.mem_cons_self]
        exact backLink
      · rw [next first List.mem_cons_self]
        exact inductionHypothesis (fun node member => parent node (List.mem_cons_of_mem _ member))
          (fun node member => next node (List.mem_cons_of_mem _ member))
          (fun node member => back node (List.mem_cons_of_mem _ member))

/-- A row grows at its end. -/
theorem snoc {other : Links} {last new : Nat}
    (children : Row links owner prev start (row ++ [last]))
    (parent : ∀ node ∈ row ++ [last], other.parent node = links.parent node)
    (next : ∀ node ∈ row ++ [last], node ≠ last → other.next node = links.next node)
    (back : ∀ node ∈ row ++ [last], other.prev node = links.prev node)
    (link : other.next last = some new) (up : other.parent new = some owner)
    (backLink : other.prev new = some last) (younger : owner < new)
    (bare : other.next new = none) :
    Row other owner prev start (row ++ [last] ++ [new]) := by
  induction row generalizing prev start with
  | nil =>
      cases children with
      | cons _ _ _ lastUp lastBack lastYounger tail =>
          refine .cons prev last [new] ?_ ?_ lastYounger ?_
          · rw [parent last (List.mem_singleton_self last)]
            exact lastUp
          · rw [back last (List.mem_singleton_self last)]
            exact lastBack
          · rw [link]
            refine .cons (some last) new [] up backLink younger ?_
            rw [bare]
            exact .nil _
  | cons first row inductionHypothesis =>
      have distinct := children.chain.nodup
      cases children with
      | cons _ _ _ firstUp firstBack firstYounger tail =>
          have different : first ≠ last := by
            intro same
            subst same
            have absent := (List.nodup_cons.mp distinct).1
            exact absent (List.mem_append_right row (List.mem_singleton_self first))
          refine .cons prev first (row ++ [last] ++ [new]) ?_ ?_ firstYounger ?_
          · rw [parent first List.mem_cons_self]
            exact firstUp
          · rw [back first List.mem_cons_self]
            exact firstBack
          · rw [next first List.mem_cons_self different]
            exact inductionHypothesis tail
              (fun node member => parent node (List.mem_cons_of_mem _ member))
              (fun node member => next node (List.mem_cons_of_mem _ member))
              (fun node member => back node (List.mem_cons_of_mem _ member))

end Row

section Order

variable {links : Links}

theorem Children.unique {owner : Nat} {first second : List Nat} (left : Children links owner first)
    (right : Children links owner second) : first = second :=
  left.chain.unique right.chain

theorem Child.parent {owner node : Nat} (child : Child links owner node) :
    links.parent node = some owner := by
  rcases child with ⟨row, children, member⟩
  exact (children.owned member).1

theorem Child.lt {owner node : Nat} (child : Child links owner node) : owner < node := by
  rcases child with ⟨row, children, member⟩
  exact (children.owned member).2

theorem Child.owner_unique {first second node : Nat} (left : Child links first node)
    (right : Child links second node) : first = second :=
  Option.some.inj (left.parent.symm.trans right.parent)

theorem child_iff {owner node : Nat} {row : List Nat} (children : Children links owner row) :
    Child links owner node ↔ node ∈ row := by
  constructor
  · rintro ⟨other, found, member⟩
    exact children.unique found ▸ member
  · intro member
    exact ⟨row, children, member⟩

theorem Within.le {top node : Nat} (inside : Within links top node) : top ≤ node := by
  induction inside with
  | refl => exact Nat.le_refl top
  | tail _ child inductionHypothesis => exact Nat.le_trans inductionHypothesis (Nat.le_of_lt child.lt)

theorem Below.lt {top node : Nat} (below : Below links top node) : top < node := by
  induction below with
  | single child => exact child.lt
  | tail _ child inductionHypothesis => exact Nat.lt_trans inductionHypothesis child.lt

/-- The nodes above a node lie on one line. -/
theorem Within.total {first second node : Nat} (left : Within links first node)
    (right : Within links second node) : Within links first second ∨ Within links second first := by
  have functional : Relator.RightUnique (Function.swap (Child links)) := by
    intro node first second left right
    exact left.owner_unique right
  rcases Relation.ReflTransGen.total_of_right_unique functional left.swap right.swap with up | up
  · exact .inr up.swap
  · exact .inl up.swap

theorem below_iff {top node : Nat} : Below links top node ↔ Within links top node ∧ node ≠ top := by
  constructor
  · intro below
    exact ⟨below.to_reflTransGen, (Nat.ne_of_lt below.lt).symm⟩
  · rintro ⟨inside, different⟩
    exact (Relation.reflTransGen_iff_eq_or_transGen.mp inside).resolve_left different

theorem within_iff_eq_or_below {top node : Nat} :
    Within links top node ↔ node = top ∨ Below links top node :=
  Relation.reflTransGen_iff_eq_or_transGen

/-- The last step down to a node comes from its owner. -/
theorem below_iff_owner {top owner node : Nat} (child : Child links owner node) :
    Below links top node ↔ Within links top owner := by
  constructor
  · intro below
    rcases Relation.TransGen.tail'_iff.mp below with ⟨last, inside, step⟩
    exact step.owner_unique child ▸ inside
  · intro inside
    exact Relation.TransGen.tail' inside child

/-- The first step down leads to one of the children. -/
theorem below_iff_child {top node : Nat} {row : List Nat} (children : Children links top row) :
    Below links top node ↔ Exists fun child => child ∈ row ∧ Within links child node := by
  refine Relation.TransGen.head'_iff.trans ?_
  simp only [child_iff children]

/-- Different children of one owner have nothing below them in common. -/
theorem eq_of_within_siblings {owner first second node : Nat} (left : Child links owner first)
    (right : Child links owner second) (inFirst : Within links first node)
    (inSecond : Within links second node) : first = second := by
  have apart : ∀ {a b : Nat}, Child links owner a → Child links owner b →
      Within links a b → a = b := by
    intro a b childA childB inside
    by_contra different
    have below := below_iff.mpr ⟨inside, Ne.symm different⟩
    have high := ((below_iff_owner childB).mp below).le
    exact absurd childA.lt (Nat.not_lt.mpr high)
  rcases inFirst.total inSecond with inside | inside
  · exact apart left right inside
  · exact (apart right left inside).symm

/-- Two nodes of one tree lie on one line, or below different children of a
third one. -/
theorem comparable_or_apart {top first second : Nat} (left : Within links top first)
    (right : Within links top second) :
    Within links first second ∨ Within links second first ∨
      Exists fun owner => Exists fun a => Exists fun b => Within links top owner ∧
        Child links owner a ∧ Child links owner b ∧ a ≠ b ∧
        Within links a first ∧ Within links b second := by
  induction left with
  | refl => exact .inl right
  | tail within child inductionHypothesis =>
      rename_i owner node
      rcases inductionHypothesis with down | up | ⟨other, a, b, high, childA, childB, apart, inA, inB⟩
      · rcases within_iff_eq_or_below.mp down with same | below
        · exact .inr (.inl (same ▸ Relation.ReflTransGen.single child))
        · rcases Relation.TransGen.head'_iff.mp below with ⟨step, childStep, rest⟩
          by_cases same : step = node
          · exact .inl (same ▸ rest)
          · exact .inr (.inr ⟨owner, node, step, within, child, childStep, fun eq => same eq.symm,
              .refl, rest⟩)
      · exact .inr (.inl (up.tail child))
      · exact .inr (.inr ⟨other, a, b, high, childA, childB, apart, inA.tail child, inB⟩)

end Order

/-! ## Preorder -/

/-- The nodes met by going down before going on. -/
inductive Preorder (links : Links) : Option Nat → List Nat → Prop where
  | nil : Preorder links none []
  | cons (node : Nat) (below behind : List Nat) (inner : Preorder links (links.children node) below)
      (outer : Preorder links (links.next node) behind) :
      Preorder links (some node) (node :: (below ++ behind))

theorem Preorder.unique {links : Links} {start : Option Nat} {first second : List Nat}
    (left : Preorder links start first) (right : Preorder links start second) :
    first = second := by
  induction left generalizing second with
  | nil =>
      cases right
      rfl
  | cons node below behind inner outer innerHypothesis outerHypothesis =>
      cases right with
      | cons _ below' behind' inner' outer' =>
          rw [innerHypothesis inner', outerHypothesis outer']

/-- A chain can be walked where the nodes below its members can. -/
theorem Preorder.of_chain {links : Links} {start : Option Nat} {row : List Nat}
    (chain : Chain links.next start row)
    (below : ∀ node ∈ row, Exists fun nodes => Preorder links (links.children node) nodes) :
    Exists fun nodes => Preorder links start nodes := by
  induction chain with
  | nil => exact ⟨[], .nil⟩
  | cons node rest _ inductionHypothesis =>
      rcases below node List.mem_cons_self with ⟨inner, walked⟩
      rcases inductionHypothesis fun other member => below other (List.mem_cons_of_mem _ member)
        with ⟨outer, passed⟩
      exact ⟨_, .cons node inner outer walked passed⟩

/-- What holds of the members of a chain and of all below them holds along the
walk. -/
theorem Preorder.forall_of_chain {links : Links} {start : Option Nat} {row nodes : List Nat}
    (walked : Preorder links start nodes) (chain : Chain links.next start row) {P : Nat → Prop}
    (member : ∀ node ∈ row, P node)
    (below : ∀ node ∈ row, ∀ inner, Preorder links (links.children node) inner → ∀ m ∈ inner, P m) :
    ∀ m ∈ nodes, P m := by
  induction chain generalizing nodes with
  | nil =>
      cases walked
      exact nofun
  | cons node rest _ inductionHypothesis =>
      cases walked with
      | cons _ inner outer walked passed =>
          intro m at_
          rcases List.mem_cons.mp at_ with rfl | later
          · exact member m List.mem_cons_self
          · rcases List.mem_append.mp later with front | behind
            · exact below node List.mem_cons_self inner walked m front
            · apply inductionHypothesis passed _ _ m behind
              · exact fun other at_ => member other (List.mem_cons_of_mem _ at_)
              · exact fun other at_ => below other (List.mem_cons_of_mem _ at_)

/-- What a walk meets below and behind a member of the chain it begins with. -/
theorem Preorder.part {links : Links} {start : Option Nat} {row nodes : List Nat}
    (walked : Preorder links start nodes) (chain : Chain links.next start row) {node : Nat}
    (member : node ∈ row) : Exists fun inner => Exists fun outer =>
      Preorder links (links.children node) inner ∧ Preorder links (links.next node) outer ∧
        inner ++ outer ⊆ nodes := by
  induction chain generalizing nodes with
  | nil => cases member
  | cons first rest _ inductionHypothesis =>
      cases walked with
      | cons _ inner outer walked passed =>
          rcases List.mem_cons.mp member with rfl | later
          · exact ⟨inner, outer, walked, passed, List.subset_cons_self _ _⟩
          · rcases inductionHypothesis passed later with ⟨inner', outer', down, onward, subset⟩
            refine ⟨inner', outer', down, onward, ?_⟩
            apply List.subset_cons_of_subset
            exact List.subset_append_of_subset_right inner subset

/-- A walk meets the siblings that it begins with. -/
theorem Preorder.siblings_subset {links : Links} {start : Option Nat} {nodes row : List Nat}
    (walked : Preorder links start nodes) (chain : Chain links.next start row) : row ⊆ nodes := by
  induction walked generalizing row with
  | nil =>
      cases chain
      exact List.Subset.refl _
  | cons node below behind inner outer innerHypothesis outerHypothesis =>
      cases chain with
      | cons _ rest tail =>
          refine List.cons_subset_cons node fun other member => ?_
          exact List.mem_append_right _ (outerHypothesis tail member)

/-- With a node, a walk meets its children. -/
theorem Preorder.children_subset {links : Links} {start : Option Nat} {nodes row : List Nat}
    (walked : Preorder links start nodes) {node : Nat} (member : node ∈ nodes)
    (chain : Chain links.next (links.children node) row) : row ⊆ nodes := by
  induction walked with
  | nil => cases member
  | cons first below behind inner outer innerHypothesis outerHypothesis =>
      refine List.subset_cons_of_subset first ?_
      rcases List.mem_cons.mp member with rfl | later
      · exact List.subset_append_of_subset_left _ (inner.siblings_subset chain)
      · rcases List.mem_append.mp later with inBelow | inBehind
        · exact List.subset_append_of_subset_left _ (innerHypothesis inBelow)
        · exact List.subset_append_of_subset_right _ (outerHypothesis inBehind)

/-- A walk only reads the links of the nodes it meets. -/
theorem Preorder.congr {links other : Links} {start : Option Nat} {nodes : List Nat}
    (walked : Preorder links start nodes)
    (children : ∀ node ∈ nodes, other.children node = links.children node)
    (next : ∀ node ∈ nodes, other.next node = links.next node) : Preorder other start nodes := by
  induction walked with
  | nil => exact .nil
  | cons node below behind inner outer innerHypothesis outerHypothesis =>
      have inBelow : ∀ {n}, n ∈ below → n ∈ node :: (below ++ behind) := fun member =>
        List.mem_cons_of_mem _ (List.mem_append_left _ member)
      have inBehind : ∀ {n}, n ∈ behind → n ∈ node :: (below ++ behind) := fun member =>
        List.mem_cons_of_mem _ (List.mem_append_right _ member)
      refine .cons node below behind ?_ ?_
      · rw [children node List.mem_cons_self]
        exact innerHypothesis (fun n member => children n (inBelow member))
          fun n member => next n (inBelow member)
      · rw [next node List.mem_cons_self]
        exact outerHypothesis (fun n member => children n (inBehind member))
          fun n member => next n (inBehind member)

/-! ## Whole forests -/

/-- A set of nodes whose links fit together. -/
structure LinkedForest (links : Links) (size : Nat) (inside : Nat → Prop) : Prop where
  bound : ∀ {node}, inside node → node < size
  row : ∀ {node}, inside node →
    Exists fun row => Children links node row ∧ ∀ child ∈ row, inside child
  up : ∀ {node owner}, inside node → links.parent node = some owner → inside owner ∧ owner < node
  behind : ∀ {node later}, inside node → links.next node = some later →
    inside later ∧ node < later ∧ links.prev later = some node
  before : ∀ {node earlier}, inside node → links.prev node = some earlier →
    inside earlier ∧ earlier < node

namespace LinkedForest

variable {links : Links} {size : Nat} {inside : Nat → Prop} (forest : LinkedForest links size inside)

include forest

theorem inside_child {owner node : Nat} (member : inside owner) (child : Child links owner node) :
    inside node := by
  rcases forest.row member with ⟨row, children, members⟩
  exact members node ((child_iff children).mp child)

theorem inside_within {top node : Nat} (member : inside top) (within : Within links top node) :
    inside node := by
  induction within with
  | refl => exact member
  | tail _ child inductionHypothesis => exact forest.inside_child inductionHypothesis child

/-- A forest only reads the links of its own nodes. -/
theorem congr {other : Links} {larger : Nat} (grows : size ≤ larger)
    (children : ∀ {node}, inside node → other.children node = links.children node)
    (next : ∀ {node}, inside node → other.next node = links.next node)
    (prev : ∀ {node}, inside node → other.prev node = links.prev node)
    (parent : ∀ {node}, inside node → other.parent node = links.parent node) :
    LinkedForest other larger inside where
  bound := fun member => Nat.lt_of_lt_of_le (forest.bound member) grows
  row := by
    intro node member
    rcases forest.row member with ⟨row, found, members⟩
    refine ⟨row, ?_, members⟩
    unfold Children
    rw [children member]
    exact found.congr (fun n at_ => parent (members n at_)) (fun n at_ => next (members n at_))
      (fun n at_ => prev (members n at_))
  up := by
    intro node owner member link
    rw [parent member] at link
    exact forest.up member link
  behind := by
    intro node later member link
    rw [next member] at link
    have found := forest.behind member link
    rw [prev found.1]
    exact found
  before := by
    intro node earlier member link
    rw [prev member] at link
    exact forest.before member link

omit forest in
/-- Chains of links to older nodes end. -/
theorem chain_down {link : Nat → Option Nat}
    (older : ∀ {node earlier}, inside node → link node = some earlier →
      inside earlier ∧ earlier < node) {node : Nat} (member : inside node) :
    Exists fun chained => Chain link (link node) chained ∧
      ∀ earlier ∈ chained, inside earlier ∧ earlier < node := by
  induction node using Nat.strongRecOn with
  | ind node inductionHypothesis =>
      cases found : link node with
      | none =>
          refine ⟨[], .nil, ?_⟩
          intro earlier impossible
          cases impossible
      | some earlier =>
          have step := older member found
          rcases inductionHypothesis earlier step.2 step.1 with ⟨rest, chained, members⟩
          refine ⟨earlier :: rest, .cons earlier rest chained, ?_⟩
          intro other at_
          rcases List.mem_cons.mp at_ with same | later
          · exact same ▸ step
          · exact ⟨(members other later).1, Nat.lt_trans (members other later).2 step.2⟩

/-- The owners of a node. -/
theorem owners {node : Nat} (member : inside node) :
    Exists fun line => Chain links.parent (links.parent node) line ∧
      ∀ owner ∈ line, inside owner ∧ owner < node :=
  chain_down forest.up member

theorem earlier {node : Nat} (member : inside node) :
    Exists fun front => Chain links.prev (links.prev node) front ∧
      ∀ other ∈ front, inside other ∧ other < node :=
  chain_down forest.before member

theorem later {node : Nat} (member : inside node) :
    Exists fun rest => Chain links.next (links.next node) rest ∧
      ∀ other ∈ rest, inside other ∧ node < other := by
  induction measured : size - node using Nat.strongRecOn generalizing node with
  | ind distance inductionHypothesis =>
      cases found : links.next node with
      | none =>
          refine ⟨[], .nil, ?_⟩
          intro other impossible
          cases impossible
      | some following =>
          have step := forest.behind member found
          have bound := forest.bound step.1
          have nearer : size - following < distance := by omega
          rcases inductionHypothesis _ nearer step.1 rfl with ⟨rest, chained, members⟩
          refine ⟨following :: rest, .cons following rest chained, ?_⟩
          intro other at_
          rcases List.mem_cons.mp at_ with same | later
          · exact same ▸ ⟨step.1, step.2.1⟩
          · exact ⟨(members other later).1, Nat.lt_trans step.2.1 (members other later).2⟩

/-- A chain inside the forest is no longer than the memory. -/
theorem length_le {nodes : List Nat} (distinct : nodes.Nodup)
    (members : ∀ node ∈ nodes, inside node) : nodes.length ≤ size := by
  have subset : nodes ⊆ List.range size := by
    intro node member
    exact List.mem_range.mpr (forest.bound (members node member))
  have short := (List.Nodup.subperm distinct subset).length_le
  rw [List.length_range] at short
  exact short

/-! ### The nodes below -/

theorem preorder {node : Nat} (member : inside node) :
    Exists fun nodes => Preorder links (links.children node) nodes := by
  induction measured : size - node using Nat.strongRecOn generalizing node with
  | ind distance inductionHypothesis =>
      rcases forest.row member with ⟨row, children, members⟩
      apply Preorder.of_chain children.chain
      intro child at_
      have younger := (children.owned at_).2
      have bound := forest.bound (members child at_)
      exact inductionHypothesis (size - child) (by omega) (members child at_) rfl

theorem mem_preorder_row {owner : Nat} {prev start : Option Nat} {row nodes : List Nat}
    (children : Row links owner prev start row) (members : ∀ node ∈ row, inside node)
    (walked : Preorder links start nodes) {node : Nat} :
    node ∈ nodes ↔ Exists fun child => child ∈ row ∧ Within links child node := by
  induction walked generalizing owner prev row with
  | nil =>
      cases children
      simp
  | cons first below behind inner outer innerHypothesis outerHypothesis =>
      cases children with
      | cons _ _ rest up back younger tail =>
          rcases forest.row (members first List.mem_cons_self) with ⟨row, inRow, inMembers⟩
          have inside_ := innerHypothesis inRow inMembers
          have outside := outerHypothesis tail fun other member =>
            members other (List.mem_cons_of_mem _ member)
          rw [← below_iff_child inRow] at inside_
          simp only [List.mem_cons, List.mem_append, inside_, outside, exists_eq_or_imp,
            within_iff_eq_or_below, or_assoc]

theorem nodup_preorder_row {owner : Nat} {prev start : Option Nat} {row nodes : List Nat}
    (children : Row links owner prev start row) (members : ∀ node ∈ row, inside node)
    (owned : ∀ node ∈ row, Child links owner node)
    (walked : Preorder links start nodes) : nodes.Nodup := by
  induction walked generalizing owner prev row with
  | nil => exact List.nodup_nil
  | cons first below behind inner outer innerHypothesis outerHypothesis =>
      have distinct := children.chain.nodup
      cases children with
      | cons _ _ rest up back younger tail =>
          have restMembers : ∀ other ∈ rest, inside other := fun other member =>
            members other (List.mem_cons_of_mem _ member)
          have restOwned : ∀ other ∈ rest, Child links owner other := fun other member =>
            owned other (List.mem_cons_of_mem _ member)
          rcases forest.row (members first List.mem_cons_self) with ⟨row, inRow, inMembers⟩
          have inside_ : ∀ node, node ∈ below ↔ Below links first node := by
            intro node
            rw [forest.mem_preorder_row inRow inMembers inner, below_iff_child inRow]
          have apart : ∀ node, Within links first node → node ∉ behind := by
            intro node within member
            rcases (forest.mem_preorder_row tail restMembers outer).mp member with
              ⟨other, later, inOther⟩
            have same := eq_of_within_siblings (owned first List.mem_cons_self)
              (restOwned other later) within inOther
            exact (List.nodup_cons.mp distinct).1 (same ▸ later)
          rw [List.nodup_cons, List.mem_append, List.nodup_append]
          refine ⟨?_, ?_, ?_, ?_⟩
          · rintro (member | member)
            · exact absurd ((inside_ first).mp member).lt (Nat.lt_irrefl first)
            · exact apart first .refl member
          · exact innerHypothesis inRow inMembers fun node member => ⟨row, inRow, member⟩
          · exact outerHypothesis tail restMembers restOwned
          · rintro node member other later rfl
            exact apart node ((inside_ node).mp member).to_reflTransGen later

/-- The nodes listed below a node are its proper descendants, each once. -/
theorem preorder_spec {node : Nat} (member : inside node) {nodes : List Nat}
    (walked : Preorder links (links.children node) nodes) :
    nodes.Nodup ∧ ∀ other, other ∈ nodes ↔ Below links node other := by
  rcases forest.row member with ⟨row, children, members⟩
  refine ⟨forest.nodup_preorder_row children members (fun _ at_ => ⟨row, children, at_⟩) walked, ?_⟩
  intro other
  rw [forest.mem_preorder_row children members walked, below_iff_child children]

/-! ### The nodes above and beside -/

/-- The owners of a node up to `top` are the nodes above it.  A walk that
stops at the first owner without the property meets those from which on all
have it. -/
theorem mem_owners_takeWhile {top node : Nat} (member : inside top)
    (within : Within links top node) (keep : Nat → Bool) {line : List Nat}
    (chained : Chain links.parent (links.parent node) line) {above : Nat}
    (aboveWithin : Within links top above) :
    above ∈ line.takeWhile keep ↔ Below links above node ∧
      ∀ other, Within links above other → Below links other node → keep other = true := by
  induction within generalizing line with
  | refl =>
      rcases forest.owners member with ⟨found, sameChain, members⟩
      have same := chained.unique sameChain
      subst same
      constructor
      · intro at_
        have old := (members above ((List.takeWhile_prefix keep).subset at_)).2
        exact absurd old (Nat.not_lt.mpr aboveWithin.le)
      · rintro ⟨below, -⟩
        exact absurd below.lt (Nat.not_lt.mpr aboveWithin.le)
  | tail within child inductionHypothesis =>
      rename_i owner node
      rw [child.parent] at chained
      cases chained with
      | cons _ rest tail =>
          have further := inductionHypothesis tail
          rw [List.takeWhile_cons, below_iff_owner child]
          constructor
          · intro at_
            by_cases kept : keep owner = true
            · rw [if_pos kept, List.mem_cons, further] at at_
              rcases at_ with same | ⟨below, all⟩
              · subst same
                refine ⟨.refl, ?_⟩
                intro other up down
                have down' := (below_iff_owner child).mp down
                rw [Nat.le_antisymm down'.le up.le]
                exact kept
              · refine ⟨below.to_reflTransGen, ?_⟩
                intro other up down
                rcases within_iff_eq_or_below.mp ((below_iff_owner child).mp down) with same | down'
                · exact same ▸ kept
                · exact all other up down'
            · rw [if_neg kept] at at_
              cases at_
          · rintro ⟨inside_, all⟩
            have kept := all owner inside_ ((below_iff_owner child).mpr .refl)
            rw [if_pos kept, List.mem_cons, further]
            rcases within_iff_eq_or_below.mp inside_ with same | below
            · exact .inl same.symm
            · refine .inr ⟨below, ?_⟩
              intro other up down
              exact all other up ((below_iff_owner child).mpr down.to_reflTransGen)

omit forest in
/-- The siblings of a child on both sides. -/
theorem siblings_split {owner node : Nat} (child : Child links owner node) :
    Exists fun front => Exists fun behind => Children links owner (front ++ node :: behind) ∧
      Chain links.prev (links.prev node) front.reverse ∧
      Chain links.next (links.next node) behind := by
  rcases child with ⟨row, children, member⟩
  rcases List.append_of_mem member with ⟨front, behind, rfl⟩
  refine ⟨front, behind, children, ?_, children.after rfl⟩
  have found := children.before rfl .nil
  rw [List.append_nil] at found
  exact found

/-- Going back from a later sibling leads to the node again. -/
theorem mem_earlier {node : Nat} (member : inside node) {rest : List Nat}
    (chained : Chain links.next (links.next node) rest) {sibling : Nat} (at_ : sibling ∈ rest)
    {front : List Nat} (back : Chain links.prev (links.prev sibling) front) : node ∈ front := by
  generalize start : links.next node = pointer at chained
  induction chained generalizing node with
  | nil => cases at_
  | cons following rest tail inductionHypothesis =>
      have step := forest.behind member start
      rcases List.mem_cons.mp at_ with same | later
      · subst same
        rw [step.2.2] at back
        cases back
        exact List.mem_cons_self
      · have met := inductionHypothesis step.1 later rfl
        rcases back.suffix_of_mem met with ⟨found, part, suffix⟩
        cases part with
        | cons _ _ onward =>
            rw [step.2.2] at onward
            cases onward
            exact suffix.subset (List.mem_cons_of_mem _ List.mem_cons_self)

/-- A node and a sibling of it, also where they stand in no row, have nothing
to do with each other. -/
theorem beside_apart {node : Nat} (member : inside node) {front rest : List Nat}
    (back : Chain links.prev (links.prev node) front)
    (onward : Chain links.next (links.next node) rest) {sibling : Nat}
    (at_ : sibling ∈ front ∨ sibling ∈ rest) :
    ¬ Within links node sibling ∧ ¬ Within links sibling node := by
  by_cases owned : Exists fun owner => Child links owner node
  · rcases owned with ⟨owner, child⟩
    rcases siblings_split child with ⟨before, behind, children, back', onward'⟩
    rw [back.unique back', onward.unique onward'] at at_
    have distinct := List.nodup_middle.mp children.chain.nodup
    have different : sibling ≠ node := by
      intro same
      subst same
      refine (List.nodup_cons.mp distinct).1 (List.mem_append.mpr ?_)
      exact at_.imp_left List.mem_reverse.mp
    have siblingChild : Child links owner sibling := by
      refine (child_iff children).mpr (List.mem_append.mpr ?_)
      exact at_.imp List.mem_reverse.mp (List.mem_cons_of_mem node)
    constructor
    · intro within
      exact different (eq_of_within_siblings siblingChild child .refl within)
    · intro within
      exact different (eq_of_within_siblings siblingChild child within .refl)
  · rcases at_ with earlier | later
    · rcases forest.earlier member with ⟨found, same, members⟩
      have old := (members sibling (back.unique same ▸ earlier)).2
      refine ⟨fun within => absurd old (Nat.not_lt.mpr within.le), ?_⟩
      intro within
      rcases within_iff_eq_or_below.mp within with same | below
      · exact absurd old (same ▸ Nat.lt_irrefl _)
      · rcases Relation.TransGen.tail'_iff.mp below with ⟨owner, -, child⟩
        exact owned ⟨owner, child⟩
    · rcases forest.later member with ⟨found, same, members⟩
      have young := members sibling (onward.unique same ▸ later)
      refine ⟨?_, fun within => absurd young.2 (Nat.not_lt.mpr within.le)⟩
      intro within
      rcases within_iff_eq_or_below.mp within with same | below
      · exact absurd young.2 (same ▸ Nat.lt_irrefl _)
      · rcases Relation.TransGen.tail'_iff.mp below with ⟨owner, -, child⟩
        rcases siblings_split child with ⟨before, behind, children, back', -⟩
        have met := forest.mem_earlier member onward later back'
        refine owned ⟨owner, (child_iff children).mpr (List.mem_append_left _ ?_)⟩
        exact List.mem_reverse.mp met

/-- The walk from a node over its later siblings. -/
theorem preorder_siblings {node : Nat} (member : inside node) : Exists fun nodes =>
    Exists fun rest => Preorder links (some node) nodes ∧
      Chain links.next (links.next node) rest ∧ nodes.Nodup ∧
      (∀ other ∈ nodes, inside other) ∧
      ∀ other, other ∈ nodes ↔ Exists fun sibling => sibling ∈ node :: rest ∧
        Within links sibling other := by
  induction measured : size - node using Nat.strongRecOn generalizing node with
  | ind distance inductionHypothesis =>
      rcases forest.preorder member with ⟨below, walked⟩
      have spec := forest.preorder_spec member walked
      have insideBelow : ∀ other ∈ below, inside other := fun other at_ =>
        forest.inside_within member ((spec.2 other).mp at_).to_reflTransGen
      have fresh : node ∉ below := fun at_ => absurd ((spec.2 node).mp at_).lt (Nat.lt_irrefl node)
      cases found : links.next node with
      | none =>
          have none_ : Preorder links (links.next node) [] := found ▸ .nil
          refine ⟨_, [], .cons node below [] walked none_, .nil, ?_, ?_, ?_⟩
          · rw [List.append_nil]
            exact List.nodup_cons.mpr ⟨fresh, spec.1⟩
          · rw [List.append_nil]
            exact List.forall_mem_cons.mpr ⟨member, insideBelow⟩
          · intro other
            rw [List.append_nil, List.mem_cons, spec.2 other, ← within_iff_eq_or_below]
            simp
      | some following =>
          have step := forest.behind member found
          have bound := forest.bound step.1
          rcases inductionHypothesis (size - following) (by omega) step.1 rfl with
            ⟨behind, rest, onward, chain, distinct, insideBehind, members⟩
          have onward' : Preorder links (links.next node) behind := found ▸ onward
          have chain' : Chain links.next (links.next node) (following :: rest) :=
            found ▸ .cons following rest chain
          rcases forest.earlier member with ⟨front, back, _⟩
          have apart : ∀ other, Within links node other → other ∉ behind := by
            intro other within at_
            rcases (members other).mp at_ with ⟨sibling, later, inSibling⟩
            have beside := forest.beside_apart member back chain' (.inr later)
            rcases Within.total within inSibling with down | up
            · exact beside.1 down
            · exact beside.2 up
          refine ⟨_, following :: rest, .cons node below behind walked onward',
            .cons following rest chain, ?_, ?_, ?_⟩
          · rw [List.nodup_cons, List.mem_append, List.nodup_append]
            refine ⟨?_, spec.1, distinct, ?_⟩
            · rintro (at_ | at_)
              · exact fresh at_
              · exact apart node .refl at_
            · rintro other inBelow _ inBehind rfl
              exact apart other ((spec.2 other).mp inBelow).to_reflTransGen inBehind
          · intro other at_
            rcases List.mem_cons.mp at_ with rfl | later
            · exact member
            · rcases List.mem_append.mp later with inBelow | inBehind
              · exact insideBelow other inBelow
              · exact insideBehind other inBehind
          · intro other
            rw [List.mem_cons, List.mem_append, spec.2 other, members other]
            simp only [List.mem_cons (b := node), exists_eq_or_imp, within_iff_eq_or_below, or_assoc]

end LinkedForest

end Library
